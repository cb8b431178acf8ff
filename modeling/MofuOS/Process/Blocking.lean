import MofuOS.Process.Wait
import MofuOS.Lib.Steps
import Mathlib.Logic.Function.Basic

/-! One task in the blocking routines against wakers, a killer and the timer of its core. One step is
one atomic access, one section under a lock or one evaluation of the condition. The run queue is kept
as whether the task is in it, and a lookup of the running task of a core is part of the access behind it. -/
namespace MofuOS.Process
open Lib

/-- The access a call of wake_task makes next. -/
inductive WakeStage where
  | pid
  | state
  | homeCore
  | priority
  | count
  | push
  | running
  deriving DecidableEq, Repr

/-- The routine a task was in when it gave up its core. -/
inductive Routine where
  | event
  | sleep (wakeTime : Nat)
  | exitToUser
  deriving DecidableEq, Repr

/-- What the task does next. -/
inductive Pc where
  | outside
  -- block_current_task_until_event
  | condition
  | killPending
  | join
  | recheck
  | recheckKill
  | remove
  | wake (stage : WakeStage)
  -- sleep_current_task_ms and core_block_current_task_until_wake_time
  | time (wakeTime : Nat)
  | sleepKill (wakeTime : Nat)
  | sleepHome (wakeTime : Nat)
  | sleepJoin (wakeTime : Nat)
  -- exit_to_user
  | exitKill
  | swapReschedule
  | exitCurrent
  | gone
  -- core_run_scheduling, and the scheduler loop behind it
  | slice (routine : Routine)
  | requeue (routine : Routine)
  | requeuePriority (routine : Routine)
  | requeuePush (routine : Routine)
  | switchedOut (routine : Routine)
  | picked (routine : Routine)
  deriving DecidableEq, Repr

/-- A call of wake_all: the references it drained are woken one by one, without the lock. -/
inductive Waker where
  | idle
  | drain
  | waking (taskRef : TaskRef) (stage : WakeStage) (rest : List TaskRef)
  | finished
  deriving DecidableEq, Repr

inductive Killer where
  | idle
  | findSlot
  | storeExitCode
  | storeKillPending
  | waking (stage : WakeStage)
  | loadState
  | returned
  deriving DecidableEq, Repr

structure BlockSystem where
  slot : Slot
  pid : Nat
  task : TaskSlot
  queued : Bool := false
  now : Nat := 0
  reschedule : Bool := false
  pc : Pc := .outside
  waiters : List TaskRef := []
  /-- The wake times of the task in the sleeping tasks of its core. -/
  sleeping : List Nat := []
  condition : Bool := false
  wakers : Nat → Waker := fun _ => .idle
  killer : Killer := .idle
  exitCode : Int := 0
  /-- The condition has held without interruption since before this wake_all began. -/
  since : Nat → Bool := fun _ => false
  /-- One such wake_all has finished. -/
  served : Bool := false

inductive BlockAct where
  | call (routine : Routine)
  | target
  | pick
  | run
  | advance (duration : Nat)
  | timer
  | markReschedule
  | setCondition (value : Bool)
  | wakeAll (w : Nat)
  | waker (w : Nat)
  | requestKill (exitCode : Int)
  | kill
  deriving DecidableEq, Repr

namespace BlockSystem

def start (slot : Slot) (pid : Nat) : BlockSystem := ⟨slot,pid,{ pid := pid, state := .running },false,0,false,.outside,[],[],false,
  fun _ => .idle,.idle,0,fun _ => false,false⟩

def taskRef (s : BlockSystem) : TaskRef := ⟨s.slot,s.pid⟩

def isStale (s : BlockSystem) (taskRef : TaskRef) : Bool := s.task.pid ≠ taskRef.pid || s.task.state ≠ .blocked

/-- One access of wake_task(pid): the stage behind it, none when the call returns. -/
def stepWake (pid : Nat) (s : BlockSystem) : WakeStage → Option WakeStage × BlockSystem
  | .pid => if s.task.pid = pid then (some .state,s) else (none,s)
  | .state => match s.task.transition .blocked .ready with
    | some task => (some .homeCore,{ s with task := task })
    | none => (none,s)
  | .homeCore => (some .priority,s)
  | .priority => (some .count,s)
  | .count => (some .push,s)
  | .push => (some .running,{ s with queued := true })
  | .running => (none,s)

/-- The section of core_block_current_task_until_wake_time under the lock of the run queue. -/
def sleepJoin (wakeTime : Nat) (s : BlockSystem) : Option BlockSystem :=
  let room := if s.sleeping.length = maxTasks then purge (fun _ => s.isStale s.taskRef) s.sleeping else s.sleeping
  if room.length < maxTasks then
    some { s with sleeping := room ++ [wakeTime], task := (s.task.transition .running .blocked).getD s.task,
                  pc := .slice (.sleep wakeTime) }
  else none

/-- The routine a task goes on with once it runs again. -/
def Routine.again : Routine → Pc
  | .event => .condition
  | .sleep wakeTime => .time wakeTime
  | .exitToUser => .exitKill

def stepTarget (s : BlockSystem) : Option BlockSystem :=
  match s.pc with
  | .outside | .gone | .switchedOut _ | .picked _ => none
  | .condition => some { s with pc := if s.condition then .outside else .killPending }
  | .killPending => some { s with pc := if s.task.killPending then .outside else .join }
  | .join =>
    (WaiterList.push s.isStale s.waiters s.taskRef).map fun waiters =>
      { s with waiters := waiters, task := (s.task.transition .running .blocked).getD s.task, pc := .recheck }
  | .recheck => some { s with pc := if s.condition then .remove else .recheckKill }
  | .recheckKill => some { s with pc := if s.task.killPending then .remove else .slice .event }
  | .remove => some { s with waiters := WaiterList.remove s.waiters s.taskRef, pc := .wake .pid }
  | .wake stage => match stepWake s.pid s stage with
    | (some stage',t) => some { t with pc := .wake stage' }
    | (none,t) => some { t with pc := .slice .event }
  | .time wakeTime => some { s with pc := if s.now < wakeTime then .sleepKill wakeTime else .outside }
  | .sleepKill wakeTime => some { s with pc := if s.task.killPending then .outside else .sleepHome wakeTime }
  | .sleepHome wakeTime => some { s with pc := .sleepJoin wakeTime }
  | .sleepJoin wakeTime => sleepJoin wakeTime s
  | .exitKill => some { s with pc := if s.task.killPending then .exitCurrent else .swapReschedule }
  | .swapReschedule => some { s with reschedule := false, pc := if s.reschedule then .slice .exitToUser else .outside }
  | .exitCurrent => some { s with task := s.task.setState .dead, pc := .gone }
  | .slice routine => some { s with pc := .requeue routine }
  -- blocked tasks are not queued again
  | .requeue routine => match s.task.transition .running .ready with
    | some task => some { s with task := task, pc := .requeuePriority routine }
    | none => some { s with pc := .switchedOut routine }
  | .requeuePriority routine => some { s with pc := .requeuePush routine }
  | .requeuePush routine => some { s with queued := true, pc := .switchedOut routine }

/-- wake_due_sleeping_tasks from entry index on: stale entries go, entries that are due wake the task. -/
def wakeDue : Nat → Nat → BlockSystem → BlockSystem
  | 0,_,s => s
  | fuel + 1,index,s => match s.sleeping[index]? with
    | none => s
    | some wakeTime =>
      if s.isStale s.taskRef then wakeDue fuel index { s with sleeping := swapRemove s.sleeping index }
      else if s.now < wakeTime then wakeDue fuel (index + 1) s
      else match s.task.transition .blocked .ready with
        | some task => wakeDue fuel index { s with sleeping := swapRemove s.sleeping index, task := task, queued := true }
        | none => wakeDue fuel index { s with sleeping := swapRemove s.sleeping index }

def setWaker (s : BlockSystem) (w : Nat) (waker : Waker) : BlockSystem :=
  { s with wakers := Function.update s.wakers w waker }

/-- wake_all goes on with the next reference, or returns. -/
def nextWaiter (s : BlockSystem) (w : Nat) : List TaskRef → BlockSystem
  | [] => { s.setWaker w .finished with served := s.served || s.since w }
  | taskRef :: rest => s.setWaker w (.waking taskRef .pid rest)

def stepWaker (w : Nat) (s : BlockSystem) : Option BlockSystem :=
  match s.wakers w with
  | .idle | .finished => none
  | .drain => some ({ s with waiters := [] }.nextWaiter w s.waiters)
  | .waking taskRef stage rest => match stepWake taskRef.pid s stage with
    | (some stage',t) => some (t.setWaker w (.waking taskRef stage' rest))
    | (none,t) => some (t.nextWaiter w rest)

def stepKiller (s : BlockSystem) : Option BlockSystem :=
  match s.killer with
  | .idle | .returned => none
  | .findSlot => some { s with killer := if s.task.pid = s.pid then .storeExitCode else .returned }
  | .storeExitCode => some { s with task := { s.task with exitCodeRequest := s.exitCode }, killer := .storeKillPending }
  | .storeKillPending => some { s with task := { s.task with killPending := true }, killer := .waking .pid }
  | .waking stage => match stepWake s.pid s stage with
    | (some stage',t) => some { t with killer := .waking stage' }
    | (none,t) => some { t with killer := .loadState }
  | .loadState => some { s with killer := .returned, reschedule := s.reschedule || s.task.state = .running }

def step : BlockAct → BlockSystem → Option BlockSystem
  | .call routine,s => if s.pc = .outside then some { s with pc := Routine.again routine } else none
  | .target,s => stepTarget s
  -- the scheduler loop takes a task from its queue once the task has switched to it
  | .pick,s => match s.pc with
    | .switchedOut routine => if s.queued then some { s with queued := false, pc := .picked routine } else none
    | _ => none
  | .run,s => match s.pc with
    | .picked routine => some { s with task := s.task.setState .running, pc := Routine.again routine }
    | _ => none
  | .advance duration,s => some { s with now := s.now + duration }
  | .timer,s => some (wakeDue s.sleeping.length 0 s)
  | .markReschedule,s => some { s with reschedule := true }
  | .setCondition value,s =>
    some { s with condition := value, since := fun w => s.since w && value, served := s.served && value }
  | .wakeAll w,s => match s.wakers w with
    | .idle | .finished => some { s.setWaker w .drain with since := Function.update s.since w s.condition }
    | _ => none
  | .waker w,s => stepWaker w s
  | .requestKill exitCode,s => if s.killer = .idle then some { s with killer := .findSlot, exitCode := exitCode } else none
  | .kill,s => stepKiller s

/-- All that anyone but the task itself does to its state: it may be made ready while it is blocked. -/
def Woken (task task' : TaskSlot) : Prop := task' = task ∨ task.state = .blocked ∧ task' = task.setState .ready

theorem Woken.pid {task task' : TaskSlot} (h : Woken task task') : task'.pid = task.pid := by
  rcases h with rfl | ⟨_,rfl⟩ <;> rfl

theorem Woken.killPending {task task' : TaskSlot} (h : Woken task task') : task'.killPending = task.killPending := by
  rcases h with rfl | ⟨_,rfl⟩ <;> rfl

theorem Woken.blocked {task task' : TaskSlot} (h : Woken task task') (hb : task'.state = .blocked) : task.state = .blocked := by
  rcases h with rfl | ⟨hb',_⟩
  · exact hb
  · exact hb'

theorem Woken.trans {task task' task'' : TaskSlot} (h : Woken task task') (h' : Woken task' task'') : Woken task task'' := by
  rcases h with rfl | ⟨hb,rfl⟩
  · exact h'
  · rcases h' with rfl | ⟨hb',_⟩
    · exact .inr ⟨hb,rfl⟩
    · cases hb'

variable {s t : BlockSystem} {stage : WakeStage} {next : Option WakeStage} {pid : Nat}

/-- An access of wake_task. Behind the compare-and-swap the task is not blocked. -/
theorem stepWake_spec (h : stepWake pid s stage = (next,t)) :
    ∃ task queued, t = { s with task := task, queued := queued } ∧ Woken s.task task ∧
      (stage = .state → task.state ≠ .blocked) ∧ (stage = .pid → task = s.task ∧ (s.task.pid = pid → next = some .state)) := by
  cases stage with
  | pid =>
    simp only [stepWake] at h
    split_ifs at h with hpid <;> cases h
    · exact ⟨s.task,s.queued,rfl,.inl rfl,(fun hstage => by cases hstage),fun _ => ⟨rfl,fun _ => rfl⟩⟩
    · exact ⟨s.task,s.queued,rfl,.inl rfl,(fun hstage => by cases hstage),fun _ => ⟨rfl,fun e => absurd e hpid⟩⟩
  | state =>
    simp only [stepWake] at h
    cases hcas : s.task.transition .blocked .ready with
    | some task =>
      obtain ⟨hb,rfl⟩ := TaskSlot.transition_eq_some.mp hcas
      rw [hcas] at h
      cases h
      exact ⟨_,s.queued,rfl,.inr ⟨hb,rfl⟩,fun _ => by simp [TaskSlot.setState],fun hstage => by cases hstage⟩
    | none =>
      rw [hcas] at h
      cases h
      refine ⟨s.task,s.queued,rfl,.inl rfl,fun _ hb => ?_,fun hstage => by cases hstage⟩
      simp [TaskSlot.transition,hb] at hcas
  | homeCore | priority | count | push | running =>
    cases h
    exact ⟨s.task,_,rfl,.inl rfl,(fun hstage => by cases hstage),fun hstage => by cases hstage⟩

theorem wakeDue_spec (fuel index : Nat) (s : BlockSystem) : ∃ task queued sleeping,
    wakeDue fuel index s = { s with task := task, queued := queued, sleeping := sleeping } ∧ Woken s.task task := by
  induction fuel generalizing index s with
  | zero => exact ⟨s.task,s.queued,s.sleeping,rfl,.inl rfl⟩
  | succ fuel ih =>
    rw [wakeDue]
    cases s.sleeping[index]? with
    | none => exact ⟨s.task,s.queued,s.sleeping,rfl,.inl rfl⟩
    | some wakeTime =>
      simp only
      split_ifs
      · exact ih index { s with sleeping := swapRemove s.sleeping index }
      · exact ih (index + 1) s
      · cases hcas : s.task.transition .blocked .ready with
        | none => exact ih index { s with sleeping := swapRemove s.sleeping index }
        | some task =>
          obtain ⟨hb,rfl⟩ := TaskSlot.transition_eq_some.mp hcas
          obtain ⟨task',queued,sleeping,heq,hw⟩ := ih index
            { s with sleeping := swapRemove s.sleeping index, task := s.task.setState .ready, queued := true }
          exact ⟨task',queued,sleeping,heq,Woken.trans (.inr ⟨hb,rfl⟩) hw⟩

/-- Steps of the wakers, the timer and the world around them. -/
def BlockAct.others : BlockAct → Bool
  | .advance _ | .timer | .markReschedule | .setCondition _ | .wakeAll _ | .waker _ => true
  | _ => false

theorem nextWaiter_frame (s : BlockSystem) (w : Nat) (rest : List TaskRef) :
    ∃ wakers served, s.nextWaiter w rest = { s with wakers := wakers, served := served } := by
  cases rest with
  | nil => exact ⟨_,_,rfl⟩
  | cons taskRef rest => exact ⟨_,s.served,rfl⟩

theorem stepWaker_frame {w : Nat} (h : stepWaker w s = some t) : ∃ task queued waiters wakers served,
    t = { s with task := task, queued := queued, waiters := waiters, wakers := wakers, served := served } ∧ Woken s.task task := by
  cases hw : s.wakers w with
  | idle | finished =>
    simp only [stepWaker,hw] at h
    cases h
  | drain =>
    simp only [stepWaker,hw] at h
    obtain ⟨wakers,served,hnext⟩ := nextWaiter_frame { s with waiters := [] } w s.waiters
    rw [hnext] at h
    cases h
    exact ⟨s.task,s.queued,[],wakers,served,rfl,.inl rfl⟩
  | waking taskRef stage rest =>
    simp only [stepWaker,hw] at h
    split at h <;> rename_i stage' t' hstep <;> obtain ⟨task,queued,rfl,hwoken,_⟩ := stepWake_spec hstep
    · cases h
      exact ⟨task,queued,s.waiters,_,s.served,rfl,hwoken⟩
    · obtain ⟨wakers,served,hnext⟩ := nextWaiter_frame { s with task := task, queued := queued } w rest
      rw [hnext] at h
      cases h
      exact ⟨task,queued,s.waiters,wakers,served,rfl,hwoken⟩

theorem step_others {act : BlockAct} (ho : BlockAct.others act = true) (h : step act s = some t) :
    t.pid = s.pid ∧ t.slot = s.slot ∧ t.pc = s.pc ∧ t.killer = s.killer ∧ Woken s.task t.task := by
  cases act with
  | advance duration | markReschedule | setCondition value =>
    cases h
    exact ⟨rfl,rfl,rfl,rfl,.inl rfl⟩
  | timer =>
    obtain ⟨task,queued,sleeping,heq,hw⟩ := wakeDue_spec s.sleeping.length 0 s
    simp only [step,heq,Option.some.injEq] at h
    subst h
    exact ⟨rfl,rfl,rfl,rfl,hw⟩
  | wakeAll w =>
    simp only [step] at h
    split at h <;> cases h <;> exact ⟨rfl,rfl,rfl,rfl,.inl rfl⟩
  | waker w =>
    obtain ⟨task,queued,waiters,wakers,served,rfl,hw⟩ := stepWaker_frame h
    exact ⟨rfl,rfl,rfl,rfl,hw⟩
  | call _ | target | pick | run | requestKill _ | kill => cases ho

end BlockSystem
end MofuOS.Process
