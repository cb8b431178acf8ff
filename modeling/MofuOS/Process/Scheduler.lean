import MofuOS.Process.RunQueueSpec
import MofuOS.Lib.Steps

/-! The scheduler of all cores, with each of its operations as one step. -/
namespace MofuOS.Process
open Lib

inductive WaitQueue where
  | input
  | futex
  deriving DecidableEq, Repr

/-- The atomic counters wrap around at 32 bits. -/
def fetchAdd (n : Nat) : Nat := (n + 1) % 2^32
def fetchSub (n : Nat) : Nat := (n + (2^32 - 1)) % 2^32

structure Kernel where
  tasks : Tasks := .new
  next : Links := fun _ => none
  runQueues : Core → CoreRunQueue := fun _ => {}
  runnableTasksCount : Core → Nat := fun _ => 0
  /-- CURRENT_SLOT_ON_CORE and CURRENT_PROCESS_ON_CORE. -/
  current : Core → Option TaskRef := fun _ => none
  sliceRemainingTicks : Core → Nat := fun _ => 0
  shouldBeRescheduled : Core → Bool := fun _ => false
  waiters : WaitQueue → List TaskRef := fun _ => []
  newPid : Nat := 1
  /-- The wait queue a task has joined in block_current_task_until_event and not yet switched out from. -/
  joined : Slot → Option WaitQueue := fun _ => none
  /-- The task has run with its kill flag set: every way from there leads past a look at it. -/
  sawKill : Slot → Bool := fun _ => false

namespace Kernel

def setTask (k : Kernel) (slot : Slot) (task : TaskSlot) : Kernel := { k with tasks := Function.update k.tasks slot task }

def setCount (k : Kernel) (core : Core) (count : Nat) : Kernel :=
  { k with runnableTasksCount := Function.update k.runnableTasksCount core count }

def setRunQueue (k : Kernel) (core : Core) (queue : CoreRunQueue) : Kernel :=
  { k with runQueues := Function.update k.runQueues core queue }

def markCoreForReschedule (k : Kernel) (core : Core) : Kernel :=
  { k with shouldBeRescheduled := Function.update k.shouldBeRescheduled core true }

def pushTask (k : Kernel) (core : Core) (bank : RequeueType) (slot : Slot) (priority : Nat) : Outcome Kernel := do
  let (next,queue) ← (k.runQueues core).push k.next bank slot priority
  .ok (setRunQueue { k with next := next } core queue)

/-- An idle core, and one that runs a task of lower priority, is asked to reschedule. -/
def preempts (k : Kernel) (core : Core) (priority : Nat) : Bool :=
  match k.current core with
  | none => true
  | some running => (k.tasks running.slot).priority < priority

def coreEnqueueReadyTask (k : Kernel) (core : Core) (slot : Slot) (priority : Nat) : Outcome Kernel := do
  let k ← (k.setCount core (fetchAdd (k.runnableTasksCount core))).pushTask core .executingTasks slot priority
  .ok (if k.preempts core priority then k.markCoreForReschedule core else k)

def coreTaskLeaveRunQueue (k : Kernel) (core : Core) : Kernel := k.setCount core (fetchSub (k.runnableTasksCount core))

def wakeTask (k : Kernel) (taskRef : TaskRef) : Outcome Kernel :=
  if (k.tasks taskRef.slot).pid ≠ taskRef.pid then .ok k
  else match (k.tasks taskRef.slot).transition .blocked .ready with
    | none => .ok k
    | some task => (k.setTask taskRef.slot task).coreEnqueueReadyTask task.homeCore taskRef.slot task.priority

/-- The rest of run_task, once the task has switched back to the scheduler loop of the core. -/
def leaveCpu (k : Kernel) (core : Core) (slot : Slot) : Kernel :=
  let tasks := Function.update k.tasks slot { k.tasks slot with onCpu := false }
  { k with tasks := if (tasks slot).state = .dead then releaseTaskSlot tasks slot else tasks,
           current := Function.update k.current core none, joined := Function.update k.joined slot none }

/-- Blocked and dead tasks are not queued again. -/
def requeue (k : Kernel) (core : Core) (slot : Slot) (bank : RequeueType) : Outcome Kernel :=
  match (k.tasks slot).transition .running .ready with
  | some task => (k.setTask slot task).pushTask core bank slot task.priority
  | none => .ok k

def coreSwitchExecutingYielding (k : Kernel) (core : Core) (bank : RequeueType) : Outcome Kernel :=
  match k.current core with
  | none => .error .panic
  | some running => do
    let k ← k.requeue core running.slot bank
    .ok (k.leaveCpu core running.slot)

def coreRunScheduling (k : Kernel) (core : Core) : Outcome Kernel :=
  k.coreSwitchExecutingYielding core (if k.sliceRemainingTicks core = 0 then .yieldingTasks else .executingTasks)

def coreYieldExecutingTasks (k : Kernel) (core : Core) : Outcome Kernel :=
  if k.runnableTasksCount core ≤ 1 then .ok k else k.coreSwitchExecutingYielding core .yieldingTasks

/-- run_task up to the switch to the task. -/
def runTask (k : Kernel) (core : Core) (slot : Slot) : Kernel :=
  let task := k.tasks slot
  { k with tasks := Function.update k.tasks slot { task with state := .running, onCpu := true },
           current := Function.update k.current core (some ⟨slot,task.pid⟩),
           shouldBeRescheduled := Function.update k.shouldBeRescheduled core false,
           sliceRemainingTicks := Function.update k.sliceRemainingTicks core (task.priority + 1),
           sawKill := Function.update k.sawKill slot task.killPending }

/-- A round of the scheduler loop: pick_next_task and run_task. -/
def pickAndRun (k : Kernel) (core : Core) : Outcome Kernel := do
  let (slot,queue) ← (k.runQueues core).pickNextTask k.next
  let k := k.setRunQueue core queue
  match slot with
  | none => .ok k
  | some slot => .ok (k.runTask core slot)

def addCurrentTaskAndMarkBlocked (k : Kernel) (core : Core) (waitQueue : WaitQueue) : Outcome Kernel :=
  match k.current core with
  | none => .error .panic
  | some running => match WaiterList.push (·.isStale k.tasks) (k.waiters waitQueue) running with
    | none => .error .panic
    | some waiters =>
      let task := ((k.tasks running.slot).transition .running .blocked).getD (k.tasks running.slot)
      .ok ({ k.setTask running.slot task with
        waiters := Function.update k.waiters waitQueue waiters,
        joined := Function.update k.joined running.slot (some waitQueue) }.coreTaskLeaveRunQueue task.homeCore)

/-- The end of a round of block_current_task_until_event that found its condition true. -/
def removeAndWake (k : Kernel) (core : Core) (waitQueue : WaitQueue) : Outcome Kernel :=
  match k.current core with
  | none => .error .panic
  | some running =>
    { k with waiters := Function.update k.waiters waitQueue (WaiterList.remove (k.waiters waitQueue) running) }.wakeTask running

def coreBlockCurrentTaskUntilWakeTime (k : Kernel) (core : Core) (wakeTimeUs : Nat) : Outcome Kernel :=
  match k.current core with
  | none => .error .panic
  | some running => do
    let homeCore := (k.tasks running.slot).homeCore
    let queue ← (k.runQueues homeCore).addSleepingTask k.tasks running wakeTimeUs
    let task := ((k.tasks running.slot).transition .running .blocked).getD (k.tasks running.slot)
    (((k.setRunQueue homeCore queue).setTask running.slot task).coreTaskLeaveRunQueue homeCore).coreRunScheduling homeCore

def wakeList (k : Kernel) : List TaskRef → Outcome Kernel
  | [] => .ok k
  | taskRef :: rest => do
    let k ← k.wakeTask taskRef
    k.wakeList rest

def wakeAll (k : Kernel) (waitQueue : WaitQueue) : Outcome Kernel :=
  { k with waiters := Function.update k.waiters waitQueue [] }.wakeList (k.waiters waitQueue)

/-- The entry of the sleeping tasks of a core at index gives way to the last one. -/
def dropSleeper (k : Kernel) (core : Core) (index : Nat) : Kernel :=
  k.setRunQueue core { k.runQueues core with sleepingTasks := swapRemove (k.runQueues core).sleepingTasks index }

/-- The loop of wake_due_sleeping_tasks. -/
def wakeDueFrom (core : Core) (nowUs : Nat) : Nat → Nat → Option Nat → Kernel → Outcome (Option Nat × Kernel)
  | 0,_,highest,k => .ok (highest,k)
  | fuel + 1,index,highest,k => match (k.runQueues core).sleepingTasks[index]? with
    | none => .ok (highest,k)
    | some sleeper =>
      if sleeper.isStale k.tasks then wakeDueFrom core nowUs fuel index highest (k.dropSleeper core index)
      else if nowUs < sleeper.wakeTimeUs then wakeDueFrom core nowUs fuel (index + 1) highest k
      else match (k.tasks sleeper.taskRef.slot).transition .blocked .ready with
        | none => wakeDueFrom core nowUs fuel index highest (k.dropSleeper core index)
        | some task => do
          let k' ← ((k.setTask sleeper.taskRef.slot task).setCount core (fetchAdd (k.runnableTasksCount core))).pushTask core
            .executingTasks sleeper.taskRef.slot task.priority
          wakeDueFrom core nowUs fuel index (some (max task.priority (highest.getD 0))) (k'.dropSleeper core index)

def wakeDueSleepingTasks (k : Kernel) (core : Core) (nowUs : Nat) : Outcome Kernel := do
  let (highest,k) ← wakeDueFrom core nowUs (k.runQueues core).sleepingTasks.length 0 none k
  match highest,k.current core with
  | some priority,some running =>
    .ok (if (k.tasks running.slot).priority < priority then k.markCoreForReschedule core else k)
  | _,_ => .ok k

/-- The tick of a core: its sleepers that are due, and the slice of its running task. -/
def onTimerTick (k : Kernel) (core : Core) (nowUs : Nat) : Outcome Kernel := do
  let k ← k.wakeDueSleepingTasks core nowUs
  match k.current core with
  | none => .ok k
  | some running =>
    let setSlice (ticks : Nat) : Kernel := { k with sliceRemainingTicks := Function.update k.sliceRemainingTicks core ticks }
    if 1 < k.sliceRemainingTicks core then .ok (setSlice (k.sliceRemainingTicks core - 1))
    else if 1 < k.runnableTasksCount core then .ok ((setSlice 0).markCoreForReschedule core)
    else .ok (setSlice ((k.tasks running.slot).priority + 1))

/-- The task taken from a queue of coreFrom is queued on the core. -/
def migrate (k : Kernel) (core coreFrom : Core) (slot : Slot) : Outcome Kernel :=
  let task := { k.tasks slot with homeCore := core }
  let k := (k.setTask slot task).setCount coreFrom (fetchSub (k.runnableTasksCount coreFrom))
  (k.setCount core (fetchAdd (k.runnableTasksCount core))).pushTask core .executingTasks slot task.priority

/-- The cores in locked are the ones whose run queue try_lock finds taken. -/
def stealFrom (k : Kernel) (core : Core) (locked : Core → Bool) : List Core → Outcome Kernel
  | [] => .ok k
  | coreFrom :: rest =>
    if coreFrom = core ∨ k.runnableTasksCount coreFrom ≤ 1 ∨ locked coreFrom then k.stealFrom core locked rest
    else do
      let (slot,next,queue) ← (k.runQueues coreFrom).takeStealableTask k.next fun slot => (k.tasks slot).onCpu
      match slot with
      | none => k.stealFrom core locked rest
      | some slot => (setRunQueue { k with next := next } coreFrom queue).migrate core coreFrom slot

/-- No task is taken from core 0. -/
def tryStealTask (k : Kernel) (core : Core) (locked : Core → Bool) : Outcome Kernel :=
  k.stealFrom core locked ((List.finRange maxCores).drop 1)

def requestKill (k : Kernel) (pid : Nat) (exitCode : Int) : Outcome Kernel :=
  match findSlotByPid k.tasks pid with
  | none => .ok k
  | some slot => do
    let k ← (k.setTask slot { k.tasks slot with exitCodeRequest := exitCode, killPending := true }).wakeTask ⟨slot,pid⟩
    .ok (if (k.tasks slot).state = .running then k.markCoreForReschedule (k.tasks slot).homeCore else k)

/-- exit_current and the release of the slot behind the switch. -/
def exitCurrent (k : Kernel) (core : Core) : Outcome Kernel :=
  match k.current core with
  | none => .error .panic
  | some running =>
    let task := (k.tasks running.slot).setState .dead
    ((k.setTask running.slot task).coreTaskLeaveRunQueue task.homeCore).coreRunScheduling core

/-- The end of create_process_from_elf: a task slot, made ready and queued on the core it is given. -/
def create (k : Kernel) (core : Core) (priority : Nat) : Outcome Kernel :=
  let named : Kernel := { k with newPid := k.newPid + 1 }
  match allocateTaskSlot k.tasks k.newPid priority core with
  | none => .ok named
  | some (slot,tasks) =>
    { named with
      tasks := Function.update tasks slot ((tasks slot).setState .ready),
      next := Function.update k.next slot none,
      joined := Function.update k.joined slot none,
      sawKill := Function.update k.sawKill slot false }.coreEnqueueReadyTask core slot priority

end Kernel

inductive KernelAct where
  | create (core : Core) (priority : Nat)
  | pick (core : Core)
  | runScheduling (core : Core)
  | yield (core : Core)
  | markBlocked (core : Core) (waitQueue : WaitQueue)
  | removeAndWake (core : Core)
  | sleep (core : Core) (wakeTimeUs : Nat)
  | wakeAll (waitQueue : WaitQueue)
  | timer (core : Core) (nowUs : Nat)
  | steal (core : Core) (locked : Core → Bool)
  | requestKill (pid : Nat) (exitCode : Int)
  | exit (core : Core)

namespace Kernel

/-- The task on the core is in the kernel and has joined no wait queue. -/
def busy (k : Kernel) (core : Core) : Bool :=
  match k.current core with
  | none => false
  | some running => k.joined running.slot = none

/-- A task that has seen its kill flag does not block again. -/
def mayBlock (k : Kernel) (core : Core) : Bool :=
  match k.current core with
  | none => false
  | some running => k.joined running.slot = none && !k.sawKill running.slot

/-- Operations of a core are made by the task that runs on it, or by its scheduler loop when none does. -/
def step : KernelAct → Kernel → Option Kernel
  | .create core priority,k => if k.newPid < invalidPid then (k.create core priority).toOption else none
  | .pick core,k => if k.current core = none then (k.pickAndRun core).toOption else none
  | .runScheduling core,k => (k.coreRunScheduling core).toOption
  | .yield core,k => if k.busy core then (k.coreYieldExecutingTasks core).toOption else none
  | .markBlocked core waitQueue,k =>
    if k.mayBlock core then (k.addCurrentTaskAndMarkBlocked core waitQueue).toOption else none
  | .removeAndWake core,k => match k.current core with
    | none => none
    | some running => (k.joined running.slot).bind fun waitQueue => (k.removeAndWake core waitQueue).toOption
  | .sleep core wakeTimeUs,k =>
    if k.mayBlock core then (k.coreBlockCurrentTaskUntilWakeTime core wakeTimeUs).toOption else none
  | .wakeAll waitQueue,k => (k.wakeAll waitQueue).toOption
  | .timer core nowUs,k => (k.onTimerTick core nowUs).toOption
  | .steal core locked,k => if k.current core = none then (k.tryStealTask core locked).toOption else none
  | .requestKill pid exitCode,k => (k.requestKill pid exitCode).toOption
  | .exit core,k => if k.busy core then (k.exitCurrent core).toOption else none

end Kernel
end MofuOS.Process
