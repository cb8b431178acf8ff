import MofuOS.Process.Scheduler
import MofuOS.Lib.RelyGuarantee

/-! The cores, their timers and the callers of wake_all, request_kill and create_process, side by side. One
step is one atomic access, one section under a lock or one evaluation of a condition. Nothing here
depends on slices and reschedule flags, so a task may give up its core at any time outside the kernel,
and a priority, which never changes, is loaded with the access behind it. No task exits, so a pid
found in a slot stays there. -/
namespace MofuOS.Process.Cores
open Lib

inductive Agent where
  | waker (i : Nat)
  | timer (core : Core)
  | core (core : Core)
  deriving DecidableEq, Repr

/-- How far a task is on its way between cores. It is recorded for the proofs and no step looks at it. -/
inductive Phase where
  | off
  | woken (agent : Agent)
  | counted (agent : Agent) (core : Core)
  | queued (core : Core)
  | held (core : Core)
  | taken (core coreFrom : Core)
  deriving DecidableEq, Repr

/-- What a task that has switched out goes on with, and the core id it has read. -/
inductive Routine where
  | user
  | event (coreId : Core) (waitQueue : WaitQueue)
  | sleep (coreId : Core) (wakeTimeUs : Nat)
  deriving DecidableEq, Repr

structure Shared where
  tasks : Tasks := .new
  next : Links := fun _ => none
  runQueues : Core → CoreRunQueue := fun _ => {}
  runnableTasksCount : Core → Nat := fun _ => 0
  /-- CURRENT_SLOT_ON_CORE and CURRENT_PROCESS_ON_CORE. -/
  current : Core → Option TaskRef := fun _ => none
  /-- The timer of the core holds the lock of its run queue. -/
  locked : Core → Bool := fun _ => false
  waiters : WaitQueue → List TaskRef := fun _ => []
  resume : Slot → Routine := fun _ => .user
  phase : Slot → Phase := fun _ => .off

namespace Shared

def setTask (s : Shared) (slot : Slot) (task : TaskSlot) : Shared := { s with tasks := Function.update s.tasks slot task }

def setPhase (s : Shared) (slot : Slot) (phase : Phase) : Shared := { s with phase := Function.update s.phase slot phase }

def setCount (s : Shared) (core : Core) (count : Nat) : Shared :=
  { s with runnableTasksCount := Function.update s.runnableTasksCount core count }

def setQueue (s : Shared) (core : Core) (next : Links) (queue : CoreRunQueue) : Shared :=
  { s with next := next, runQueues := Function.update s.runQueues core queue }

/-- fetch_add on the counter of a core, for a task. -/
def count (s : Shared) (agent : Agent) (core : Core) (slot : Slot) : Shared :=
  (s.setCount core (fetchAdd (s.runnableTasksCount core))).setPhase slot (.counted agent core)

/-- The push on a run queue, under its lock. -/
def push (s : Shared) (core : Core) (bank : RequeueType) (slot : Slot) : Option Shared :=
  ((s.runQueues core).push s.next bank slot (s.tasks slot).priority).toOption.map fun next =>
    (s.setQueue core next.1 next.2).setPhase slot (.queued core)

/-- The running task blocks: the compare-and-swap of its state and core_task_leave_run_queue. -/
def block (s : Shared) (slot : Slot) (homeCore : Core) : Shared :=
  ((s.setTask slot (((s.tasks slot).transition .running .blocked).getD (s.tasks slot))).setCount homeCore
    (fetchSub (s.runnableTasksCount homeCore))).setPhase slot .off

end Shared

/-- The access a call of wake_task makes next. -/
inductive WakeCall where
  | pid
  | state
  | homeCore
  | count (homeCore : Core)
  | push (homeCore : Core)
  deriving DecidableEq, Repr

/-- One access of wake_task: the one behind it, none when the call returns. -/
def stepWake (agent : Agent) (taskRef : TaskRef) (s : Shared) : WakeCall → Option (Option WakeCall × Shared)
  | .pid => some (if (s.tasks taskRef.slot).pid = taskRef.pid then some .state else none,s)
  | .state => match (s.tasks taskRef.slot).transition .blocked .ready with
    | some task => some (some .homeCore,(s.setTask taskRef.slot task).setPhase taskRef.slot (.woken agent))
    | none => some (none,s)
  | .homeCore => some (some (.count (s.tasks taskRef.slot).homeCore),s)
  | .count homeCore => some (some (.push homeCore),s.count agent homeCore taskRef.slot)
  | .push homeCore => if s.locked homeCore then none else (s.push homeCore .executingTasks taskRef.slot).map fun s => (none,s)

/-- A caller of wake_all, of request_kill or of create_process. -/
inductive Waker where
  | idle
  | drain (waitQueue : WaitQueue)
  | killPending (taskRef : TaskRef)
  | creating (taskRef : TaskRef)
  | waking (taskRef : TaskRef) (call : WakeCall) (rest : List TaskRef)
  deriving DecidableEq, Repr

inductive Input where
  | wakeAll (waitQueue : WaitQueue)
  | requestKill (pid : Nat)
  | create (pid priority : Nat) (homeCore : Core)
  | tick (nowUs : Nat)
  | event (waitQueue : WaitQueue)
  | sleep (wakeTimeUs : Nat)
  | giveUp
  | go (value : Bool)
  deriving DecidableEq, Repr

def wakeNext : List TaskRef → Waker
  | [] => .idle
  | taskRef :: rest => .waking taskRef .pid rest

def stepWaker (i : Nat) : Input → Waker → Shared → Option (Waker × Shared)
  | .wakeAll waitQueue,.idle,s => some (.drain waitQueue,s)
  | .requestKill pid,.idle,s => (findSlotByPid s.tasks pid).map fun slot => (.killPending ⟨slot,pid⟩,s)
  | .create pid priority homeCore,.idle,s => (allocateTaskSlot s.tasks pid priority homeCore).map fun (slot,tasks) =>
    (.creating ⟨slot,pid⟩,{ s with tasks := tasks }.setPhase slot (.woken (.waker i)))
  | .go _,.drain waitQueue,s => some (wakeNext (s.waiters waitQueue),
    { s with waiters := Function.update s.waiters waitQueue [] })
  | .go _,.killPending taskRef,s => some (.waking taskRef .pid [],
    s.setTask taskRef.slot { s.tasks taskRef.slot with killPending := true })
  | .go _,.creating taskRef,s => some (.waking taskRef .homeCore [],
    s.setTask taskRef.slot ((s.tasks taskRef.slot).setState .ready))
  | .go _,.waking taskRef call rest,s => (stepWake (.waker i) taskRef s call).map fun
    | (some call,s) => (.waking taskRef call rest,s)
    | (none,s) => (wakeNext rest,s)
  | _,_,_ => none

/-- The place of wake_due_sleeping_tasks in the list of its core. -/
inductive Timer where
  | idle
  | entry (nowUs index : Nat)
  | state (nowUs index : Nat) (sleeper : SleepingTask)
  | count (nowUs index : Nat) (sleeper : SleepingTask)
  | push (nowUs index : Nat) (sleeper : SleepingTask)
  deriving DecidableEq, Repr

/-- The entry at index gives way to the last one. -/
def Shared.dropSleeper (s : Shared) (core : Core) (index : Nat) : Shared :=
  s.setQueue core s.next { s.runQueues core with sleepingTasks := swapRemove (s.runQueues core).sleepingTasks index }

def stepTimer (core : Core) : Input → Timer → Shared → Option (Timer × Shared)
  | .tick nowUs,.idle,s => some (.entry nowUs 0,{ s with locked := Function.update s.locked core true })
  | .go _,.entry nowUs index,s => match (s.runQueues core).sleepingTasks[index]? with
    | none => some (.idle,{ s with locked := Function.update s.locked core false })
    | some sleeper =>
      if sleeper.isStale s.tasks then some (.entry nowUs index,s.dropSleeper core index)
      else if nowUs < sleeper.wakeTimeUs then some (.entry nowUs (index + 1),s)
      else some (.state nowUs index sleeper,s)
  | .go _,.state nowUs index sleeper,s => match (s.tasks sleeper.taskRef.slot).transition .blocked .ready with
    | some task => some (.count nowUs index sleeper,
      (s.setTask sleeper.taskRef.slot task).setPhase sleeper.taskRef.slot (.woken (.timer core)))
    | none => some (.entry nowUs index,s.dropSleeper core index)
  | .go _,.count nowUs index sleeper,s => some (.push nowUs index sleeper,s.count (.timer core) core sleeper.taskRef.slot)
  | .go _,.push nowUs index sleeper,s => (s.push core .executingTasks sleeper.taskRef.slot).map fun s =>
    (.entry nowUs index,s.dropSleeper core index)
  | _,_,_ => none

/-- What the task on a core does next. The core id is the one its routine has read. -/
inductive TaskPc where
  | user
  -- block_current_task_until_event
  | condition (coreId : Core) (waitQueue : WaitQueue)
  | killPending (coreId : Core) (waitQueue : WaitQueue)
  | join (coreId : Core) (waitQueue : WaitQueue)
  | recheck (coreId : Core) (waitQueue : WaitQueue)
  | recheckKill (coreId : Core) (waitQueue : WaitQueue)
  | remove (coreId : Core) (waitQueue : WaitQueue)
  | wake (coreId : Core) (waitQueue : WaitQueue) (call : WakeCall)
  -- sleep_current_task_ms and core_block_current_task_until_wake_time
  | time (coreId : Core) (wakeTimeUs : Nat)
  | sleepKill (coreId : Core) (wakeTimeUs : Nat)
  | sleepHome (coreId : Core) (wakeTimeUs : Nat)
  | sleepJoin (coreId : Core) (wakeTimeUs : Nat) (homeCore : Core)
  -- core_run_scheduling
  | requeue (coreId : Core) (routine : Routine)
  | requeuePush (coreId : Core) (routine : Routine)
  | switch (coreId : Core) (routine : Routine)
  deriving DecidableEq, Repr

def Routine.again : Routine → TaskPc
  | .user => .user
  | .event coreId waitQueue => .condition coreId waitQueue
  | .sleep coreId wakeTimeUs => .time coreId wakeTimeUs

/-- The scheduler loop of a core, try_steal_task and run_task. -/
inductive CorePc where
  | loop
  | looking (coreFrom : Nat)
  | taking (coreFrom : Core)
  | storeHome (slot : Slot) (coreFrom : Core)
  | leaveFrom (slot : Slot) (coreFrom : Core)
  | count (slot : Slot)
  | push (slot : Slot)
  | picked (slot : Slot)
  | started (slot : Slot)
  | entering (slot : Slot)
  | task (taskRef : TaskRef) (pc : TaskPc)
  | left (slot : Slot)
  | clearing (slot : Slot)
  deriving DecidableEq, Repr

/-- A look at the running task of a core, by a task. Where that is another task, or none, this model ends:
the call would act on the other task with the registers of this one. -/
def Shared.own (s : Shared) (coreId : Core) (taskRef : TaskRef) : Option TaskRef :=
  if s.current coreId = some taskRef then some taskRef else none

def stepTask (core : Core) (value : Bool) (s : Shared) (taskRef : TaskRef) : TaskPc → Option (CorePc × Shared)
  | .user => none
  | .condition coreId waitQueue => some (.task taskRef (if value then .user else .killPending coreId waitQueue),s)
  | .killPending coreId waitQueue => (s.own coreId taskRef).map fun taskRef =>
    (.task taskRef (if (s.tasks taskRef.slot).killPending then .user else .join coreId waitQueue),s)
  | .join coreId waitQueue => (s.current core).bind fun running =>
    (WaiterList.push (·.isStale s.tasks) (s.waiters waitQueue) running).map fun waiters =>
      (.task taskRef (.recheck coreId waitQueue),
        { s with waiters := Function.update s.waiters waitQueue waiters }.block running.slot (s.tasks running.slot).homeCore)
  | .recheck coreId waitQueue => some (.task taskRef (if value then .remove coreId waitQueue else .recheckKill coreId waitQueue),s)
  | .recheckKill coreId waitQueue => (s.own coreId taskRef).map fun taskRef =>
    (.task taskRef (if (s.tasks taskRef.slot).killPending then .remove coreId waitQueue else .requeue coreId (.event coreId waitQueue)),s)
  | .remove coreId waitQueue => (s.own coreId taskRef).map fun taskRef => (.task taskRef (.wake coreId waitQueue .pid),
    { s with waiters := Function.update s.waiters waitQueue (WaiterList.remove (s.waiters waitQueue) taskRef) })
  | .wake coreId waitQueue call => (stepWake (.core core) taskRef s call).map fun
    | (some call,s) => (.task taskRef (.wake coreId waitQueue call),s)
    | (none,s) => (.task taskRef (.requeue coreId (.event coreId waitQueue)),s)
  | .time coreId wakeTimeUs => some (.task taskRef (if value then .user else .sleepKill coreId wakeTimeUs),s)
  | .sleepKill coreId wakeTimeUs => (s.own coreId taskRef).map fun taskRef =>
    (.task taskRef (if (s.tasks taskRef.slot).killPending then .user else .sleepHome coreId wakeTimeUs),s)
  | .sleepHome coreId wakeTimeUs => (s.own coreId taskRef).map fun taskRef =>
    (.task taskRef (.sleepJoin coreId wakeTimeUs (s.tasks taskRef.slot).homeCore),s)
  | .sleepJoin coreId wakeTimeUs homeCore => if s.locked homeCore then none else
    ((s.runQueues homeCore).addSleepingTask s.tasks taskRef wakeTimeUs).toOption.map fun queue =>
      (.task taskRef (.requeue homeCore (.sleep coreId wakeTimeUs)),(s.setQueue homeCore s.next queue).block taskRef.slot homeCore)
  | .requeue coreId routine => (s.own coreId taskRef).map fun taskRef =>
    match (s.tasks taskRef.slot).transition .running .ready with
    | some task => (.task taskRef (.requeuePush coreId routine),s.setTask taskRef.slot task)
    | none => (.task taskRef (.switch coreId routine),s)
  | .requeuePush coreId routine => if s.locked coreId then none else
    (s.push coreId (if value then .yieldingTasks else .executingTasks) taskRef.slot).map fun s => (.task taskRef (.switch coreId routine),s)
  | .switch coreId routine => (s.own coreId taskRef).map fun taskRef =>
    (.left taskRef.slot,{ s with resume := Function.update s.resume taskRef.slot routine })

/-- The next core try_steal_task looks at, or the end of the round. -/
def lookNext (coreFrom : Nat) : CorePc := if coreFrom < maxCores then .looking coreFrom else .loop

def stepCore (core : Core) : Input → CorePc → Shared → Option (CorePc × Shared)
  | .event waitQueue,.task taskRef .user,s => some (.task taskRef (.condition core waitQueue),s)
  | .sleep wakeTimeUs,.task taskRef .user,s => some (.task taskRef (.time core wakeTimeUs),s)
  | .giveUp,.task taskRef .user,s => some (.task taskRef (.requeue core .user),s)
  | .go value,.task taskRef pc,s => stepTask core value s taskRef pc
  | .go _,.loop,s => if s.locked core then none else
    ((s.runQueues core).pickNextTask s.next).toOption.map fun
    | (none,queue) => (lookNext 1,s.setQueue core s.next queue)
    | (some slot,queue) => (.picked slot,(s.setQueue core s.next queue).setPhase slot (.held core))
  | .go _,.looking coreFrom,s => if h : coreFrom < maxCores then
      if ⟨coreFrom,h⟩ = core ∨ s.runnableTasksCount ⟨coreFrom,h⟩ ≤ 1 then some (lookNext (coreFrom + 1),s)
      else some (.taking ⟨coreFrom,h⟩,s)
    else none
  | .go _,.taking coreFrom,s => if s.locked coreFrom then some (lookNext (coreFrom + 1),s) else
    ((s.runQueues coreFrom).takeStealableTask s.next fun slot => (s.tasks slot).onCpu).toOption.map fun
    | (none,_) => (lookNext (coreFrom + 1),s)
    | (some slot,next,queue) => (.storeHome slot coreFrom,(s.setQueue coreFrom next queue).setPhase slot (.taken core coreFrom))
  | .go _,.storeHome slot coreFrom,s => some (.leaveFrom slot coreFrom,s.setTask slot { s.tasks slot with homeCore := core })
  | .go _,.leaveFrom slot coreFrom,s => some (.count slot,
    (s.setCount coreFrom (fetchSub (s.runnableTasksCount coreFrom))).setPhase slot (.woken (.core core)))
  | .go _,.count slot,s => some (.push slot,s.count (.core core) core slot)
  | .go _,.push slot,s => if s.locked core then none else (s.push core .executingTasks slot).map fun s => (.loop,s)
  | .go _,.picked slot,s => some (.started slot,s.setTask slot ((s.tasks slot).setState .running))
  | .go _,.started slot,s => some (.entering slot,s.setTask slot { s.tasks slot with onCpu := true })
  | .go _,.entering slot,s => some (.task ⟨slot,(s.tasks slot).pid⟩ (s.resume slot).again,
    { s with current := Function.update s.current core (some ⟨slot,(s.tasks slot).pid⟩) })
  | .go _,.left slot,s => some (.clearing slot,s.setTask slot { s.tasks slot with onCpu := false })
  | .go _,.clearing _,s => some (.loop,{ s with current := Function.update s.current core none })
  | _,_,_ => none

def Pc : Agent → Type
  | .waker _ => Waker
  | .timer _ => Timer
  | .core _ => CorePc

def move : (agent : Agent) → Input → Pc agent → Shared → Option (Pc agent × Shared)
  | .waker i,input,pc,s => stepWaker i input pc s
  | .timer core,input,pc,s => stepTimer core input pc s
  | .core core,input,pc,s => stepCore core input pc s

abbrev System := Team Pc Shared

def start : System := ⟨fun
  | .waker _ => Waker.idle
  | .timer _ => Timer.idle
  | .core _ => CorePc.loop,{}⟩

/-- The core id a task is about to use in a call. -/
def TaskPc.coreId : TaskPc → Option Core
  | .user => none
  | .condition coreId _ | .killPending coreId _ | .join coreId _ | .recheck coreId _ | .recheckKill coreId _
  | .remove coreId _ | .wake coreId _ _ | .time coreId _ | .sleepKill coreId _ | .sleepHome coreId _
  | .sleepJoin coreId _ _ | .requeue coreId _ | .requeuePush coreId _ | .switch coreId _ => some coreId

end MofuOS.Process.Cores
