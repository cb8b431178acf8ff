import MofuOS.Lib.Steps
import MofuOS.Process.RunQueueSpec
import MofuOS.Process.Scheduler
import Mathlib.Data.Fintype.Card
import Mathlib.Data.List.Perm.Subperm

/-! The arrays of waiters and of sleeping tasks, with all tasks that block, are woken and are killed, and with
slots that are used again. One step is one access of a task or of a wake_task call, one section under a lock
or one evaluation of a condition. The run queues are left out: a ready task may be run on any core that is free. -/
namespace MofuOS.Process.Waiters
open Lib

/-- What a task that has switched out goes on with, and the core id it has read. -/
inductive Routine where
  | user
  | event (coreId : Core) (waitQueue : WaitQueue)
  | sleep (coreId : Core) (wakeTimeUs : Nat)
  deriving DecidableEq, Repr

/-- The access a call of wake_task makes next. -/
inductive WakeStage where
  | pid
  | state
  deriving DecidableEq, Repr

inductive Pc where
  | user
  -- block_current_task_until_event
  | condition (coreId : Core) (waitQueue : WaitQueue)
  | killPending (coreId : Core) (waitQueue : WaitQueue)
  | join (coreId : Core) (waitQueue : WaitQueue)
  | recheck (coreId : Core) (waitQueue : WaitQueue)
  | recheckKill (coreId : Core) (waitQueue : WaitQueue)
  | remove (coreId : Core) (waitQueue : WaitQueue)
  | wake (coreId : Core) (waitQueue : WaitQueue) (stage : WakeStage)
  -- sleep_current_task_ms and core_block_current_task_until_wake_time
  | time (coreId : Core) (wakeTimeUs : Nat)
  | sleepKill (coreId : Core) (wakeTimeUs : Nat)
  | sleepHome (coreId : Core) (wakeTimeUs : Nat)
  | sleepJoin (coreId : Core) (wakeTimeUs : Nat) (homeCore : Core)
  -- core_run_scheduling
  | schedule (coreId : Core) (routine : Routine)
  | switchedOut (routine : Routine)
  deriving DecidableEq, Repr

def Routine.again : Routine → Pc
  | .user => .user
  | .event coreId waitQueue => .condition coreId waitQueue
  | .sleep coreId wakeTimeUs => .time coreId wakeTimeUs

/-- A caller of wake_all or of request_kill. -/
inductive Waker where
  | idle
  | drain (waitQueue : WaitQueue)
  | killPending (taskRef : TaskRef)
  | waking (taskRef : TaskRef) (stage : WakeStage) (rest : List TaskRef)
  deriving DecidableEq, Repr

def wakeNext : List TaskRef → Waker
  | [] => .idle
  | taskRef :: rest => .waking taskRef .pid rest

structure System where
  tasks : Tasks := .new
  /-- The core that runs the task. -/
  core : Slot → Option Core := fun _ => none
  pc : Slot → Pc := fun _ => .switchedOut .user
  wakers : Nat → Waker := fun _ => .idle
  waiters : WaitQueue → List TaskRef := fun _ => []
  sleepingTasks : Core → List SleepingTask := fun _ => []
  newPid : Nat := 1

inductive Act where
  | create (priority : Nat) (homeCore : Core)
  | ready (slot : Slot)
  | run (slot : Slot) (core : Core)
  | event (slot : Slot) (waitQueue : WaitQueue)
  | sleep (slot : Slot) (wakeTimeUs : Nat)
  | giveUp (slot : Slot)
  | exit (slot : Slot)
  | release (slot : Slot)
  | task (slot : Slot) (value : Bool)
  | wakeAll (w : Nat) (waitQueue : WaitQueue)
  | requestKill (w pid : Nat)
  | waker (w : Nat)
  | timer (core : Core) (index nowUs : Nat)
  deriving DecidableEq, Repr

namespace System

def taskRef (s : System) (slot : Slot) : TaskRef := ⟨slot,(s.tasks slot).pid⟩

def setTask (s : System) (slot : Slot) (task : TaskSlot) : System := { s with tasks := Function.update s.tasks slot task }

def goto (s : System) (slot : Slot) (pc : Pc) : System := { s with pc := Function.update s.pc slot pc }

def setCore (s : System) (slot : Slot) (core : Option Core) : System := { s with core := Function.update s.core slot core }

def setWaker (s : System) (w : Nat) (waker : Waker) : System := { s with wakers := Function.update s.wakers w waker }

def setWaiters (s : System) (waitQueue : WaitQueue) (waiters : List TaskRef) : System :=
  { s with waiters := Function.update s.waiters waitQueue waiters }

def setSleeping (s : System) (core : Core) (sleepers : List SleepingTask) : System :=
  { s with sleepingTasks := Function.update s.sleepingTasks core sleepers }

/-- The running task blocks. -/
def block (s : System) (slot : Slot) : System :=
  s.setTask slot (((s.tasks slot).transition .running .blocked).getD (s.tasks slot))

/-- One access of wake_task: the stage behind it, none when the call returns. -/
def stepWake (s : System) (taskRef : TaskRef) : WakeStage → Option WakeStage × System
  | .pid => (if (s.tasks taskRef.slot).pid = taskRef.pid then some .state else none,s)
  | .state => match (s.tasks taskRef.slot).transition .blocked .ready with
    | some task => (none,s.setTask taskRef.slot task)
    | none => (none,s)

/-- The entry that add_sleeping_task makes, and none when it would be behind the end of the array. -/
def addSleepingTask (s : System) (core : Core) (taskRef : TaskRef) (wakeTimeUs : Nat) : Option System :=
  (({ sleepingTasks := s.sleepingTasks core } : CoreRunQueue).addSleepingTask s.tasks taskRef wakeTimeUs).toOption.map fun queue =>
    s.setSleeping core queue.sleepingTasks

/-- A task on its core. Where the routine has read the id of another core, the call would act on the task of that
core, and this model ends. -/
def stepTask (s : System) (slot : Slot) (value : Bool) : Pc → Option System
  | .user | .switchedOut _ => none
  | .condition coreId waitQueue => some (s.goto slot (if value then .user else .killPending coreId waitQueue))
  | .killPending coreId waitQueue => if s.core slot ≠ some coreId then none
    else some (s.goto slot (if (s.tasks slot).killPending then .user else .join coreId waitQueue))
  | .join coreId waitQueue => (WaiterList.push (·.isStale s.tasks) (s.waiters waitQueue) (s.taskRef slot)).map fun waiters =>
    ((s.setWaiters waitQueue waiters).block slot).goto slot (.recheck coreId waitQueue)
  | .recheck coreId waitQueue => some (s.goto slot (if value then .remove coreId waitQueue else .recheckKill coreId waitQueue))
  | .recheckKill coreId waitQueue => if s.core slot ≠ some coreId then none
    else some (s.goto slot (if (s.tasks slot).killPending then .remove coreId waitQueue else .schedule coreId (.event coreId waitQueue)))
  | .remove coreId waitQueue => if s.core slot ≠ some coreId then none
    else some ((s.setWaiters waitQueue (WaiterList.remove (s.waiters waitQueue) (s.taskRef slot))).goto slot
      (.wake coreId waitQueue .pid))
  | .wake coreId waitQueue stage => match s.stepWake (s.taskRef slot) stage with
    | (some stage,s) => some (s.goto slot (.wake coreId waitQueue stage))
    | (none,s) => some (s.goto slot (.schedule coreId (.event coreId waitQueue)))
  | .time coreId wakeTimeUs => some (s.goto slot (if value then .user else .sleepKill coreId wakeTimeUs))
  | .sleepKill coreId wakeTimeUs => if s.core slot ≠ some coreId then none
    else some (s.goto slot (if (s.tasks slot).killPending then .user else .sleepHome coreId wakeTimeUs))
  | .sleepHome coreId wakeTimeUs => if s.core slot ≠ some coreId then none
    else some (s.goto slot (.sleepJoin coreId wakeTimeUs (s.tasks slot).homeCore))
  | .sleepJoin coreId wakeTimeUs homeCore => (s.addSleepingTask homeCore (s.taskRef slot) wakeTimeUs).map fun s =>
    (s.block slot).goto slot (.schedule homeCore (.sleep coreId wakeTimeUs))
  | .schedule coreId routine => if s.core slot ≠ some coreId then none
    else some (((s.setTask slot (((s.tasks slot).transition .running .ready).getD (s.tasks slot))).setCore slot none).goto slot
      (.switchedOut routine))

def stepWaker (s : System) (w : Nat) : Waker → Option System
  | .idle => none
  | .drain waitQueue => some ((s.setWaiters waitQueue []).setWaker w (wakeNext (s.waiters waitQueue)))
  | .killPending taskRef => some ((s.setTask taskRef.slot { s.tasks taskRef.slot with killPending := true }).setWaker w
    (.waking taskRef .pid []))
  | .waking taskRef stage rest => match s.stepWake taskRef stage with
    | (some stage,s) => some (s.setWaker w (.waking taskRef stage rest))
    | (none,s) => some (s.setWaker w (wakeNext rest))

/-- wake_due_sleeping_tasks looks at one entry. -/
def stepTimer (s : System) (core : Core) (index nowUs : Nat) : Option System :=
  ((s.sleepingTasks core)[index]?).map fun sleeper =>
    let dropped := s.setSleeping core (swapRemove (s.sleepingTasks core) index)
    if sleeper.isStale s.tasks then dropped
    else if nowUs < sleeper.wakeTimeUs then s
    else dropped.setTask sleeper.taskRef.slot ((s.tasks sleeper.taskRef.slot).setState .ready)

def step : Act → System → Option System
  | .create priority homeCore,s => (allocateTaskSlot s.tasks s.newPid priority homeCore).map fun (slot,tasks) =>
    { s with tasks := tasks, newPid := s.newPid + 1 }.goto slot (.switchedOut .user)
  | .ready slot,s => if (s.tasks slot).state = .creating then some (s.setTask slot ((s.tasks slot).setState .ready)) else none
  | .run slot core,s => match s.pc slot with
    | .switchedOut routine => if (s.tasks slot).state = .ready ∧ ∀ other, s.core other ≠ some core then
        some (((s.setTask slot { s.tasks slot with state := .running, homeCore := core }).setCore slot (some core)).goto slot
          routine.again)
      else none
    | _ => none
  | .event slot waitQueue,s => match s.pc slot,s.core slot with
    | .user,some core => some (s.goto slot (.condition core waitQueue))
    | _,_ => none
  | .sleep slot wakeTimeUs,s => match s.pc slot,s.core slot with
    | .user,some core => some (s.goto slot (.time core wakeTimeUs))
    | _,_ => none
  | .giveUp slot,s => match s.pc slot,s.core slot with
    | .user,some core => some (s.goto slot (.schedule core .user))
    | _,_ => none
  | .exit slot,s => match s.pc slot,s.core slot with
    | .user,some _ => some (((s.setTask slot ((s.tasks slot).setState .dead)).setCore slot none).goto slot (.switchedOut .user))
    | _,_ => none
  | .release slot,s => if (s.tasks slot).state = .dead then some { s with tasks := releaseTaskSlot s.tasks slot } else none
  | .task slot value,s => s.stepTask slot value (s.pc slot)
  | .wakeAll w waitQueue,s => if s.wakers w = .idle then some (s.setWaker w (.drain waitQueue)) else none
  | .requestKill w pid,s => if s.wakers w = .idle then
      (findSlotByPid s.tasks pid).map fun slot => s.setWaker w (.killPending ⟨slot,pid⟩)
    else none
  | .waker w,s => s.stepWaker w (s.wakers w)
  | .timer core index nowUs,s => s.stepTimer core index nowUs

/-- The step is a push that finds no free entry, stale ones removed: it would be written behind the end of its array. -/
def Overflows : Act → System → Prop
  | .task slot _,s => match s.pc slot with
    | .join _ waitQueue => WaiterList.push (·.isStale s.tasks) (s.waiters waitQueue) (s.taskRef slot) = none
    | .sleepJoin _ wakeTimeUs homeCore => s.addSleepingTask homeCore (s.taskRef slot) wakeTimeUs = none
    | _ => False
  | _,_ => False

/-- A task that joins an array has no entry in it. -/
def joinsOnce : Act → System → Bool
  | .task slot _,s => match s.pc slot with
    | .join _ waitQueue => s.taskRef slot ∉ s.waiters waitQueue
    | .sleepJoin _ _ homeCore => s.taskRef slot ∉ (s.sleepingTasks homeCore).map SleepingTask.taskRef
    | _ => true
  | _,_ => true

/-- The entries of an array are different from each other, and fit into it. -/
structure Distinct (entries : List TaskRef) : Prop where
  nodup : entries.Nodup
  fits : entries.length ≤ maxTasks

structure Arrays (s : System) : Prop where
  waiters : ∀ waitQueue, Distinct (s.waiters waitQueue)
  sleepingTasks : ∀ core, Distinct ((s.sleepingTasks core).map SleepingTask.taskRef)

section Entries
variable {tasks : Tasks} {entries : List TaskRef} {ref : TaskRef}

/-- Two entries that are not stale are those of two slots, and the slot of the task that joins is not among them. -/
theorem Distinct.waiting_lt (h : Distinct entries) (hnot : ref ∉ entries) (hpid : (tasks ref.slot).pid = ref.pid) :
    (entries.filter (!·.isStale tasks)).length < maxTasks := by
  have hwaiting : ∀ x ∈ ref :: entries.filter (!·.isStale tasks), (tasks x.slot).pid = x.pid := by
    intro x hx
    obtain rfl | hx := List.mem_cons.mp hx
    · exact hpid
    · have hstale := (List.mem_filter.mp hx).2
      simp only [TaskRef.isStale,Bool.not_or,Bool.and_eq_true,Bool.not_eq_true',decide_eq_false_iff_not,not_not] at hstale
      exact hstale.1
  have hnodup : ((ref :: entries.filter (!·.isStale tasks)).map TaskRef.slot).Nodup := by
    refine List.Nodup.map_on (fun x hx y hy hslot => ?_)
      (List.nodup_cons.mpr ⟨fun hmem => hnot (List.mem_filter.mp hmem).1,h.nodup.filter _⟩)
    have hxpid := hwaiting x hx
    rw [hslot,hwaiting y hy] at hxpid
    obtain ⟨slot,pid⟩ := x
    obtain ⟨slot',pid'⟩ := y
    cases hslot
    cases hxpid
    rfl
  have hcard := hnodup.length_le_card
  rwa [List.length_map,List.length_cons,Fintype.card_fin] at hcard

theorem Distinct.append (h : Distinct entries) (hnot : ref ∉ entries) (hlt : entries.length < maxTasks) : Distinct (entries ++ [ref]) := by
  refine ⟨List.nodup_append.mpr ⟨h.nodup,List.nodup_singleton ref,?_⟩,?_⟩
  · rintro x hx y hy rfl
    exact hnot (List.mem_singleton.mp hy ▸ hx)
  · rw [List.length_append]
    exact hlt

theorem Distinct.of_subperm {entries' : List TaskRef} (h : Distinct entries) (hsub : entries'.Subperm entries) : Distinct entries' := by
  obtain ⟨l,hperm,hl⟩ := hsub
  exact ⟨hperm.nodup_iff.mp (h.nodup.sublist hl),hperm.length_eq ▸ hl.length_le.trans h.fits⟩

/-- The stale entries leave room for a task that has none. -/
theorem Distinct.room {α : Type} (key : α → TaskRef) {l : List α} (h : Distinct (l.map key)) (hnot : ref ∉ l.map key)
    (hpid : (tasks ref.slot).pid = ref.pid) {room : List α}
    (hroom : room = if l.length = maxTasks then purge (fun a => (key a).isStale tasks) l else l) :
    room.length < maxTasks ∧ Distinct (room.map key ++ [ref]) := by
  have hfits : l.length ≤ maxTasks := by
    have := h.fits
    rwa [List.length_map] at this
  have hsub : (room.map key).Subperm (l.map key) ∧ room.length < maxTasks := by
    rw [hroom]
    split_ifs with hfull
    · have hperm := purge_perm (fun a => (key a).isStale tasks) l
      have hwaiting := h.waiting_lt hnot hpid
      rw [List.filter_map,List.length_map] at hwaiting
      exact ⟨(hperm.map key).subperm.trans (List.filter_sublist.map key).subperm,hperm.length_eq ▸ hwaiting⟩
    · exact ⟨List.Subperm.refl _,by omega⟩
  refine ⟨hsub.2,(h.of_subperm hsub.1).append (fun hmem => hnot (hsub.1.subset hmem)) ?_⟩
  rw [List.length_map]
  exact hsub.2

theorem Distinct.push (tasks : Tasks) (h : Distinct entries) (hnot : ref ∉ entries) (hpid : (tasks ref.slot).pid = ref.pid) :
    ∃ entries', WaiterList.push (·.isStale tasks) entries ref = some entries' ∧ Distinct entries' := by
  obtain ⟨hlt,hdistinct⟩ := Distinct.room id (show Distinct (entries.map id) by rwa [List.map_id])
    (by rwa [List.map_id]) hpid rfl
  rw [List.map_id] at hdistinct
  exact ⟨_,if_pos hlt,hdistinct⟩

/-- Where nobody is stale in a full array, there is no room. -/
theorem push_full {isStale : TaskRef → Bool} (hfull : entries.length = maxTasks) (hwaiting : ∀ x ∈ entries, isStale x = false) :
    WaiterList.push isStale entries ref = none := by
  have hpurge : (purge isStale entries).length = maxTasks := by
    rw [(purge_perm isStale entries).length_eq,List.filter_eq_self.mpr fun x hx => by rw [hwaiting x hx]; rfl,hfull]
  rw [WaiterList.push,if_pos hfull]
  exact if_neg hpurge.not_lt

end Entries

section Step
variable {s t : System} {slot : Slot} {act : Act}

theorem Arrays.congr (h : Arrays s) (hwaiters : t.waiters = s.waiters) (hsleeping : t.sleepingTasks = s.sleepingTasks) : Arrays t :=
  ⟨fun waitQueue => by rw [hwaiters]; exact h.waiters waitQueue,fun core => by rw [hsleeping]; exact h.sleepingTasks core⟩

theorem Arrays.setWaiters (h : Arrays s) (waitQueue : WaitQueue) {waiters : List TaskRef} (hw : Distinct waiters) :
    Arrays (s.setWaiters waitQueue waiters) := by
  refine ⟨fun other => ?_,h.sleepingTasks⟩
  simp only [System.setWaiters,Function.update_apply]
  split_ifs
  · exact hw
  · exact h.waiters other

theorem Arrays.setSleeping (h : Arrays s) (core : Core) {sleepers : List SleepingTask}
    (hw : Distinct (sleepers.map SleepingTask.taskRef)) : Arrays (s.setSleeping core sleepers) := by
  refine ⟨h.waiters,fun other => ?_⟩
  simp only [System.setSleeping,Function.update_apply]
  split_ifs
  · exact hw
  · exact h.sleepingTasks other

theorem Arrays.addSleepingTask (h : Arrays s) {core : Core} (hnot : s.taskRef slot ∉ (s.sleepingTasks core).map SleepingTask.taskRef)
    (wakeTimeUs : Nat) : ∃ t, s.addSleepingTask core (s.taskRef slot) wakeTimeUs = some t ∧ Arrays t := by
  obtain ⟨room,hroom⟩ : ∃ room, room = if (s.sleepingTasks core).length = maxTasks then
    purge (fun sleeper => sleeper.taskRef.isStale s.tasks) (s.sleepingTasks core) else s.sleepingTasks core := ⟨_,rfl⟩
  obtain ⟨hlt,hdistinct⟩ := (h.sleepingTasks core).room SleepingTask.taskRef hnot rfl hroom
  refine ⟨s.setSleeping core (room ++ [⟨s.taskRef slot,wakeTimeUs⟩]),?_,h.setSleeping core ?_⟩
  · rw [hroom] at hlt ⊢
    rw [System.addSleepingTask,CoreRunQueue.addSleepingTask]
    exact congrArg (fun queue => Option.map _ (Except.toOption queue)) (if_pos hlt)
  · rwa [List.map_append]

theorem Arrays.stepWake (h : Arrays s) (taskRef : TaskRef) (stage : WakeStage) : Arrays (s.stepWake taskRef stage).2 := by
  cases stage with
  | pid => exact h
  | state =>
    rw [System.stepWake]
    cases (s.tasks taskRef.slot).transition .blocked .ready with
    | some task => exact h.congr rfl rfl
    | none => exact h

theorem Arrays.stepTask {value : Bool} (h : Arrays s) (hc : joinsOnce (.task slot value) s = true)
    (ht : s.stepTask slot value (s.pc slot) = some t) : Arrays t := by
  simp only [joinsOnce] at hc
  cases hpc : s.pc slot with
  | user | switchedOut =>
    rw [hpc] at ht
    cases ht
  | condition | recheck | time =>
    rw [hpc] at ht
    cases ht
    exact h.congr rfl rfl
  | killPending | recheckKill | sleepKill | sleepHome | schedule =>
    simp only [hpc,System.stepTask] at ht
    split_ifs at ht <;> cases ht
    all_goals exact h.congr rfl rfl
  | join coreId waitQueue =>
    simp only [hpc,System.stepTask,decide_eq_true_eq] at hc ht
    obtain ⟨waiters,hpush,hdistinct⟩ := (h.waiters waitQueue).push s.tasks hc rfl
    rw [hpush] at ht
    cases ht
    exact (h.setWaiters waitQueue hdistinct).congr rfl rfl
  | remove coreId waitQueue =>
    simp only [hpc,System.stepTask] at ht
    split_ifs at ht
    cases ht
    refine (h.setWaiters waitQueue (show Distinct (WaiterList.remove (s.waiters waitQueue) (s.taskRef slot)) from ?_)).congr rfl rfl
    by_cases hmem : s.taskRef slot ∈ s.waiters waitQueue
    · exact (h.waiters waitQueue).of_subperm ((List.sublist_cons_self _ _).subperm.trans (WaiterList.remove_perm hmem).symm.subperm)
    · rw [WaiterList.remove_of_notMem hmem]
      exact h.waiters waitQueue
  | wake coreId waitQueue stage =>
    simp only [hpc,System.stepTask] at ht
    have hwake := h.stepWake (s.taskRef slot) stage
    rcases hs : s.stepWake (s.taskRef slot) stage with ⟨_ | stage,u⟩
    all_goals
      rw [hs] at ht hwake
      cases ht
      exact hwake.congr rfl rfl
  | sleepJoin coreId wakeTimeUs homeCore =>
    simp only [hpc,System.stepTask,decide_eq_true_eq] at hc ht
    obtain ⟨u,hadd,hu⟩ := h.addSleepingTask hc wakeTimeUs
    rw [hadd] at ht
    cases ht
    exact hu.congr rfl rfl

theorem Arrays.stepWaker {w : Nat} {waker : Waker} (h : Arrays s) (ht : s.stepWaker w waker = some t) : Arrays t := by
  cases waker with
  | idle => cases ht
  | drain waitQueue =>
    cases ht
    exact (h.setWaiters waitQueue ⟨List.nodup_nil,Nat.zero_le _⟩).congr rfl rfl
  | killPending taskRef =>
    cases ht
    exact h.congr rfl rfl
  | waking taskRef stage rest =>
    simp only [System.stepWaker] at ht
    have hwake := h.stepWake taskRef stage
    rcases hs : s.stepWake taskRef stage with ⟨_ | stage,u⟩
    all_goals
      rw [hs] at ht hwake
      cases ht
      exact hwake.congr rfl rfl

theorem Arrays.stepTimer {core : Core} {index nowUs : Nat} (h : Arrays s) (ht : s.stepTimer core index nowUs = some t) : Arrays t := by
  obtain ⟨sleeper,hget,rfl⟩ := Option.map_eq_some_iff.mp ht
  have hdropped : Arrays (s.setSleeping core (swapRemove (s.sleepingTasks core) index)) := by
    have hperm := (swapRemove_perm hget).map SleepingTask.taskRef
    exact h.setSleeping core ((h.sleepingTasks core).of_subperm ((List.sublist_cons_self _ _).subperm.trans hperm.symm.subperm))
  dsimp only
  split_ifs
  · exact hdropped
  · exact h
  · exact hdropped.congr rfl rfl

/-- One step of a run in which nobody joins an array twice. -/
theorem step_arrays (hc : joinsOnce act s = true) (h : Arrays s) (ht : step act s = some t) : Arrays t := by
  cases act with
  | create priority homeCore =>
    obtain ⟨_,-,rfl⟩ := Option.map_eq_some_iff.mp ht
    exact h.congr rfl rfl
  | ready | release =>
    simp only [step] at ht
    split_ifs at ht
    cases ht
    exact h.congr rfl rfl
  | run slot core =>
    simp only [step] at ht
    split at ht
    · split_ifs at ht
      cases ht
      exact h.congr rfl rfl
    · cases ht
  | event | sleep | giveUp | exit =>
    simp only [step] at ht
    split at ht
    · cases ht
      exact h.congr rfl rfl
    · cases ht
  | task slot value => exact h.stepTask hc ht
  | wakeAll w waitQueue =>
    simp only [step] at ht
    split_ifs at ht
    cases ht
    exact h.congr rfl rfl
  | requestKill w pid =>
    simp only [step] at ht
    split_ifs at ht
    obtain ⟨_,-,rfl⟩ := Option.map_eq_some_iff.mp ht
    exact h.congr rfl rfl
  | waker w => exact h.stepWaker ht
  | timer core index nowUs => exact h.stepTimer ht

theorem Arrays.not_overflows (h : Arrays s) (hc : joinsOnce act s = true) : ¬ Overflows act s := by
  cases act with
  | task slot value =>
    simp only [joinsOnce] at hc
    simp only [Overflows]
    cases hpc : s.pc slot with
    | join coreId waitQueue =>
      simp only [hpc,decide_eq_true_eq] at hc
      obtain ⟨waiters,hpush,-⟩ := (h.waiters waitQueue).push s.tasks hc rfl
      simp only [hpush]
      nofun
    | sleepJoin coreId wakeTimeUs homeCore =>
      simp only [hpc,decide_eq_true_eq] at hc
      obtain ⟨u,hadd,-⟩ := h.addSleepingTask hc wakeTimeUs
      simp only [hadd]
      nofun
    | _ => exact id
  | _ => exact id

theorem start_arrays : Arrays {} := ⟨fun _ => ⟨List.nodup_nil,Nat.zero_le _⟩,fun _ => ⟨List.nodup_nil,Nat.zero_le _⟩⟩

/-- As long as no task joins an array that still has an entry of it, every push finds a free entry. -/
theorem run_never_overflows {acts : List Act} (hc : stepsMeet step (fun act s => joinsOnce act s) (acts ++ [act]) {})
    (h : steps step acts {} = some s) : ¬ Overflows act s := by
  obtain ⟨hacts,hact⟩ := stepsMeet_of_append hc
  exact (steps_invariant (fun _ _ _ hc hs => step_arrays hc hs) hacts start_arrays h).not_overflows (hact s h).1

end Step

/-! A run that fills the waiters of the futex with entries of the task in slot 1. -/

def waiter : TaskRef := ⟨1,2⟩

/-- What slot 1 is in. -/
def waiterTask (state : TaskState) : TaskSlot := { pid := 2, state, homeCore := 1 }

/-- Slot 0 is about to join the waiters of the futex on core 2, and slot 1 is ready. -/
def first : List Act :=
  [.create 0 2,.ready 0,.run 0 2,.event 0 .futex,.task 0 false,.task 0 false,.create 0 1,.ready 1]

def before : System := (steps step first {}).getD {}

def scene (core : Option Core) (state : TaskState) (pc : Pc) (waiters : List TaskRef) (waker : Waker) : System :=
  { before with
    tasks := Function.update before.tasks 1 (waiterTask state), core := Function.update before.core 1 core,
    pc := Function.update before.pc 1 pc, wakers := Function.update before.wakers 0 waker,
    waiters := Function.update before.waiters .futex waiters }

section Scene
variable {core core' : Option Core} {state state' : TaskState} {pc pc' : Pc} {waiters waiters' : List TaskRef} {waker waker' : Waker}

theorem scene_pc : (scene core state pc waiters waker).pc 1 = pc := rfl
theorem scene_core : (scene core state pc waiters waker).core 1 = core := rfl
theorem scene_task : (scene core state pc waiters waker).tasks 1 = waiterTask state := rfl
theorem scene_waker : (scene core state pc waiters waker).wakers 0 = waker := rfl
theorem scene_waiters : (scene core state pc waiters waker).waiters .futex = waiters := rfl

theorem scene_goto : (scene core state pc waiters waker).goto 1 pc' = scene core state pc' waiters waker := by
  simp only [scene,goto,Function.update_idem]

theorem scene_setTask : (scene core state pc waiters waker).setTask 1 (waiterTask state') = scene core state' pc waiters waker := by
  simp only [scene,setTask,Function.update_idem]

theorem scene_setWaker : (scene core state pc waiters waker).setWaker 0 waker' = scene core state pc waiters waker' := by
  simp only [scene,setWaker,Function.update_idem]

theorem scene_setWaiters : (scene core state pc waiters waker).setWaiters .futex waiters' = scene core state pc waiters' waker := by
  simp only [scene,setWaiters,Function.update_idem]

theorem scene_setCore : (scene core state pc waiters waker).setCore 1 core' = scene core' state pc waiters waker := by
  simp only [scene,setCore,Function.update_idem]

attribute [local simp] scene_pc scene_core scene_task scene_waker scene_waiters scene_goto scene_setTask scene_setWaker
  scene_setWaiters scene_setCore

theorem scene_schedule : step (.task 1 false) (scene (some 1) .ready (.schedule 1 (.event 1 .futex)) waiters waker) =
    some (scene none .ready (.switchedOut (.event 1 .futex)) waiters waker) := by
  simp only [step,scene_pc,stepTask,scene_core,scene_task,ne_eq,not_true_eq_false,if_false]
  rw [show ((waiterTask .ready).transition .running .ready).getD (waiterTask .ready) = waiterTask .ready from rfl,scene_setTask,
    scene_setCore,scene_goto]

theorem scene_run (routine : Routine) : step (.run 1 1) (scene none .ready (.switchedOut routine) waiters waker) =
    some (scene (some 1) .running routine.again waiters waker) := by
  have hbefore : ∀ other, before.core other ≠ some 1 := by decide +kernel
  have hfree : ∀ other, (scene none .ready (.switchedOut routine) waiters waker).core other ≠ some 1 := by
    intro other
    simp only [scene,Function.update_apply]
    split_ifs
    · nofun
    · exact hbefore other
  simp only [step,scene_pc,scene_task]
  refine (if_pos ⟨rfl,hfree⟩).trans ?_
  rw [show ({ waiterTask .ready with state := .running, homeCore := 1 } : TaskSlot) = waiterTask .running from rfl,scene_setTask,
    scene_setCore,scene_goto]

theorem scene_condition : step (.task 1 false) (scene core state (.condition 1 .futex) waiters waker) =
    some (scene core state (.killPending 1 .futex) waiters waker) := congrArg some scene_goto

theorem scene_killPending : step (.task 1 false) (scene (some 1) state (.killPending 1 .futex) waiters waker) =
    some (scene (some 1) state (.join 1 .futex) waiters waker) := congrArg some scene_goto

theorem scene_join (hlt : waiters.length < maxTasks) : step (.task 1 false) (scene core .running (.join 1 .futex) waiters waker) =
    some (scene core .blocked (.recheck 1 .futex) (waiters ++ [waiter]) waker) := by
  have hpush : ∀ isStale, WaiterList.push isStale waiters waiter = some (waiters ++ [waiter]) := fun isStale => by
    rw [WaiterList.push,if_neg hlt.ne]
    exact if_pos hlt
  simp only [step,scene_pc,stepTask,scene_waiters]
  rw [show (scene core .running (.join 1 .futex) waiters waker).taskRef 1 = waiter from rfl,hpush,Option.map_some,scene_setWaiters,block,
    scene_task,show ((waiterTask .running).transition .running .blocked).getD (waiterTask .running) = waiterTask .blocked from rfl,
    scene_setTask,scene_goto]

theorem scene_recheck (value : Bool) : step (.task 1 value) (scene core state (.recheck 1 .futex) waiters waker) =
    some (scene core state (if value then .remove 1 .futex else .recheckKill 1 .futex) waiters waker) := congrArg some scene_goto

theorem scene_recheckKill : step (.task 1 false) (scene (some 1) state (.recheckKill 1 .futex) waiters waker) =
    some (scene (some 1) state (.schedule 1 (.event 1 .futex)) waiters waker) := congrArg some scene_goto

theorem scene_remove : step (.task 1 false) (scene (some 1) state (.remove 1 .futex) [] waker) =
    some (scene (some 1) state (.wake 1 .futex .pid) [] waker) := by
  refine congrArg some ?_
  rw [show WaiterList.remove _ _ = [] from rfl,scene_setWaiters,scene_goto]

theorem scene_wakePid : step (.task 1 false) (scene core state (.wake 1 .futex .pid) waiters waker) =
    some (scene core state (.wake 1 .futex .state) waiters waker) := congrArg some scene_goto

theorem scene_stepWake : (scene core .blocked pc waiters waker).stepWake waiter .state = (none,scene core .ready pc waiters waker) :=
  congrArg (Prod.mk none) scene_setTask

theorem scene_wakeState : step (.task 1 false) (scene core .blocked (.wake 1 .futex .state) waiters waker) =
    some (scene core .ready (.schedule 1 (.event 1 .futex)) waiters waker) := by
  simp only [step,scene_pc,stepTask]
  rw [show (scene core .blocked (.wake 1 .futex .state) waiters waker).taskRef 1 = waiter from rfl]
  simp only [scene_stepWake,scene_goto]

theorem scene_wakeAll : step (.wakeAll 0 .futex) (scene core state pc waiters .idle) =
    some (scene core state pc waiters (.drain .futex)) := by
  simp only [step,scene_waker,if_true,scene_setWaker]

theorem scene_drain : step (.waker 0) (scene core state pc waiters (.drain .futex)) =
    some (scene core state pc [] (wakeNext waiters)) := by
  simp only [step,scene_waker,stepWaker,scene_setWaiters,scene_setWaker,scene_waiters]

theorem scene_wakerPid {rest : List TaskRef} : step (.waker 0) (scene core state pc waiters (.waking waiter .pid rest)) =
    some (scene core state pc waiters (.waking waiter .state rest)) := congrArg some scene_setWaker

theorem scene_wakerState {rest : List TaskRef} : step (.waker 0) (scene core .blocked pc waiters (.waking waiter .state rest)) =
    some (scene core .ready pc waiters (wakeNext rest)) := by
  simp only [step,scene_waker,stepWaker,scene_stepWake,scene_setWaker]

theorem before_runs : steps step first {} = some before := rfl

theorem before_eq : before = scene none .ready (.switchedOut .user) [] .idle := by
  have htask : waiterTask .ready = before.tasks 1 := rfl
  have hcore : none = before.core 1 := rfl
  have hpc : .switchedOut .user = before.pc 1 := rfl
  have hwaker : .idle = before.wakers 0 := rfl
  have hwaiters : [] = before.waiters .futex := rfl
  rw [scene,htask,hcore,hpc,hwaker,hwaiters]
  simp only [Function.update_eq_self]

theorem scene_event : step (.event 1 .futex) (scene (some 1) state .user waiters waker) =
    some (scene (some 1) state (.condition 1 .futex) waiters waker) := congrArg some scene_goto

/-- The task switches out, is run again and waits again. -/
def rejoin : List Act := [.task 1 false,.run 1 1,.task 1 false,.task 1 false,.task 1 false]

theorem rejoin_runs (waiters : List TaskRef) (hlt : waiters.length < maxTasks) :
    steps step rejoin (scene (some 1) .ready (.schedule 1 (.event 1 .futex)) waiters waker) =
      some (scene (some 1) .blocked (.recheck 1 .futex) (waiters ++ [waiter]) waker) := by
  simp only [rejoin,steps,scene_schedule,Option.bind_some,scene_run,Routine.again,scene_condition,scene_killPending,scene_join hlt]

/-- The task is woken by a reference that was drained before it joined, and joins again. -/
def lateWake : List Act := [.waker 0,.waker 0,.task 1 false,.task 1 false] ++ rejoin

theorem lateWake_runs (waiters rest : List TaskRef) (hlt : waiters.length < maxTasks) :
    steps step lateWake (scene (some 1) .blocked (.recheck 1 .futex) waiters (.waking waiter .pid rest)) =
      some (scene (some 1) .blocked (.recheck 1 .futex) (waiters ++ [waiter]) (wakeNext rest)) := by
  refine (steps_append ?_).trans (rejoin_runs waiters hlt)
  simp only [steps,scene_wakerPid,Option.bind_some,scene_wakerState,scene_recheck,Bool.false_eq_true,if_false,scene_recheckKill]

theorem lateWakes_run {n m : Nat} (hle : n + m ≤ maxTasks) :
    steps step (List.replicate m lateWake).flatten
      (scene (some 1) .blocked (.recheck 1 .futex) (List.replicate n waiter) (wakeNext (List.replicate m waiter))) =
      some (scene (some 1) .blocked (.recheck 1 .futex) (List.replicate (n + m) waiter) .idle) := by
  induction m generalizing n with
  | zero => rfl
  | succ m ih =>
    have hlate := lateWake_runs (List.replicate n waiter) (List.replicate m waiter)
      (by rw [List.length_replicate]; omega)
    rw [← List.replicate_succ'] at hlate
    rw [List.replicate_succ,List.flatten_cons]
    refine (steps_append hlate).trans ?_
    rw [ih (by omega),Nat.add_right_comm,Nat.add_assoc]

/-- All entries are drained, the task finds its condition true, wakes itself and comes back to wait. -/
def drained : List Act :=
  [.wakeAll 0 .futex,.waker 0,.task 1 true,.task 1 false,.task 1 false,.task 1 false] ++ rejoin

theorem drained_runs : steps step drained (scene (some 1) .blocked (.recheck 1 .futex) waiters .idle) =
    some (scene (some 1) .blocked (.recheck 1 .futex) [waiter] (wakeNext waiters)) := by
  refine (steps_append ?_).trans (rejoin_runs [] (by decide))
  simp only [steps,scene_wakeAll,Option.bind_some,scene_drain,scene_recheck,if_true,scene_remove,scene_wakePid,scene_wakeState]

/-- The array holds n + 1 entries, all of them of slot 1. -/
def filled : Nat → List Act
  | 0 => first ++ [.run 1 1,.event 1 .futex,.task 1 false,.task 1 false,.task 1 false]
  | n + 1 => filled n ++ drained ++ (List.replicate (n + 1) lateWake).flatten

theorem filled_runs {n : Nat} (hlt : n < maxTasks) :
    steps step (filled n) {} = some (scene (some 1) .blocked (.recheck 1 .futex) (List.replicate (n + 1) waiter) .idle) := by
  induction n with
  | zero =>
    refine (steps_append before_runs).trans ?_
    rw [before_eq]
    simp only [steps,scene_run,Option.bind_some,Routine.again,scene_event,scene_condition,scene_killPending,
      scene_join (show ([] : List TaskRef).length < maxTasks by decide)]
    rfl
  | succ n ih =>
    have hdrained := (steps_append (ih (Nat.lt_of_succ_lt hlt))).trans drained_runs
    refine (steps_append hdrained).trans ?_
    rw [← List.replicate_one]
    refine (lateWakes_run (by omega)).trans ?_
    rw [Nat.add_comm]

/-- The task in slot 0 is about to join for the first time. -/
theorem first_never_overflows : ∃ s, steps step first {} = some s ∧ s.pc 0 = .join 2 .futex ∧ ¬ Overflows (.task 0 false) s :=
  ⟨before,before_runs,rfl,run_never_overflows (stepsMeet_of_check joinsOnce (fun _ _ h => h) (by decide +kernel)) before_runs⟩

theorem filled_overflows : ∃ s, steps step (filled 63) {} = some s ∧ Overflows (.task 0 false) s := by
  refine ⟨_,filled_runs (by decide),?_⟩
  have hwaiting : ∀ ref ∈ List.replicate 64 waiter, TaskRef.isStale (scene (some 1) .blocked (.recheck 1 .futex)
      (List.replicate 64 waiter) .idle).tasks ref = false := by
    intro ref href
    rw [List.eq_of_mem_replicate href]
    rfl
  exact push_full (List.length_replicate ..) hwaiting

end Scene
end System
end MofuOS.Process.Waiters
