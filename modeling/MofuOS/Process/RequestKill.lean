import MofuOS.Process.Task
import MofuOS.Lib.Steps
import Mathlib.Logic.Function.Basic

/-! request_kill against the recycling of task slots, one step for each atomic access.
Run queues are left out: they hold no pid and no kill flag. -/
namespace MofuOS.Process
open Lib

/-- The access a call of request_kill makes next. -/
inductive KillStage where
  | idle
  | scan (slot : Nat)
  | storeExitCode (slot : Slot)
  | storeKillPending (slot : Slot)
  | wakePid (slot : Slot)
  | wakeState (slot : Slot)
  | loadState (slot : Slot)
  | returned (found : Bool)
  deriving DecidableEq, Repr

structure KillCall where
  pid : Nat := invalidPid
  exitCode : Int := 0
  stage : KillStage := .idle
  deriving DecidableEq, Repr

/-- The stores of allocate_task_slot into the slot it has reserved, in their order. -/
inductive AllocField where
  | priority
  | homeCore
  | onCpu
  | killPending
  | exitCodeRequest
  | pid
  deriving DecidableEq, Repr

/-- The access a call of allocate_task_slot makes next. -/
inductive AllocStage where
  | idle
  | scan (slot : Nat)
  | store (slot : Slot) (field : AllocField)
  | allocated (slot : Slot)
  | failed
  deriving DecidableEq, Repr

structure AllocCall where
  pid : Nat := invalidPid
  priority : Nat := 0
  homeCore : Core := 0
  stage : AllocStage := .idle
  deriving DecidableEq, Repr

def AllocField.write (call : AllocCall) (task : TaskSlot) : AllocField → TaskSlot
  | .priority => { task with priority := call.priority }
  | .homeCore => { task with homeCore := call.homeCore }
  | .onCpu => { task with onCpu := false }
  | .killPending => { task with killPending := false }
  | .exitCodeRequest => { task with exitCodeRequest := 0 }
  | .pid => { task with pid := call.pid }

def AllocField.following (slot : Slot) : AllocField → AllocStage
  | .priority => .store slot .homeCore
  | .homeCore => .store slot .onCpu
  | .onCpu => .store slot .killPending
  | .killPending => .store slot .exitCodeRequest
  | .exitCodeRequest => .store slot .pid
  | .pid => .allocated slot

/-- Behind the store that clears the kill flag. -/
def AllocField.cleared : AllocField → Bool
  | .exitCodeRequest | .pid => true
  | _ => false

/-- Any number of calls on any cores. asked lists the pids request_kill was ever called with. -/
structure KillSystem where
  tasks : Tasks := .new
  newPid : Nat := 1
  kills : Nat → KillCall := fun _ => {}
  allocs : Nat → AllocCall := fun _ => {}
  releasing : Slot → Bool := fun _ => false
  asked : List Nat := []

inductive KillAct where
  | requestKill (k pid : Nat) (exitCode : Int)
  | kill (k : Nat)
  | allocateTaskSlot (a priority : Nat) (homeCore : Core)
  | alloc (a : Nat)
  | makeReady (a : Nat)
  | move (slot : Slot) (source target : TaskState)
  | exitCurrent (slot : Slot)
  | releasePid (slot : Slot)
  | releaseState (slot : Slot)
  deriving DecidableEq, Repr

/-- What the scheduler and the wait queues do to the state of a task. -/
def legalMove : TaskState → TaskState → Bool
  | .ready,.running => true
  | .running,.ready => true
  | .running,.blocked => true
  | .blocked,.ready => true
  | _,_ => false

theorem legalMove_spec {source target : TaskState} (h : legalMove source target = true) :
    source ≠ .creating ∧ source ≠ .dead ∧ target ≠ .free := by
  cases source <;> cases target <;> revert h <;> decide

namespace KillSystem

def setTask (s : KillSystem) (slot : Slot) (task : TaskSlot) : KillSystem :=
  { s with tasks := Function.update s.tasks slot task }

def setKill (s : KillSystem) (k : Nat) (stage : KillStage) : KillSystem :=
  { s with kills := Function.update s.kills k { s.kills k with stage := stage } }

def setAlloc (s : KillSystem) (a : Nat) (stage : AllocStage) : KillSystem :=
  { s with allocs := Function.update s.allocs a { s.allocs a with stage := stage } }

def stepKill (k : Nat) (s : KillSystem) : Option KillSystem :=
  let call := s.kills k
  match call.stage with
  | .idle => none
  | .scan i =>
    if h : i < maxTasks then
      if (s.tasks ⟨i,h⟩).pid = call.pid then some (s.setKill k (.storeExitCode ⟨i,h⟩))
      else some (s.setKill k (.scan (i + 1)))
    else some (s.setKill k (.returned false))
  | .storeExitCode slot =>
    some ((s.setTask slot { s.tasks slot with exitCodeRequest := call.exitCode }).setKill k (.storeKillPending slot))
  | .storeKillPending slot =>
    some ((s.setTask slot { s.tasks slot with killPending := true }).setKill k (.wakePid slot))
  | .wakePid slot =>
    if (s.tasks slot).pid = call.pid then some (s.setKill k (.wakeState slot))
    else some (s.setKill k (.loadState slot))
  | .wakeState slot =>
    match (s.tasks slot).transition .blocked .ready with
    | some task => some ((s.setTask slot task).setKill k (.loadState slot))
    | none => some (s.setKill k (.loadState slot))
  -- the state only decides whether the core of the target is asked to reschedule
  | .loadState _ => some (s.setKill k (.returned true))
  | .returned _ => none

def stepAlloc (a : Nat) (s : KillSystem) : Option KillSystem :=
  let call := s.allocs a
  match call.stage with
  | .scan i =>
    if h : i < maxTasks then
      match (s.tasks ⟨i,h⟩).transition .free .creating with
      | some task => some ((s.setTask ⟨i,h⟩ task).setAlloc a (.store ⟨i,h⟩ .priority))
      | none => some (s.setAlloc a (.scan (i + 1)))
    else some (s.setAlloc a .failed)
  | .store slot field => some ((s.setTask slot (field.write call (s.tasks slot))).setAlloc a (field.following slot))
  | _ => none

def step : KillAct → KillSystem → Option KillSystem
  -- the callers of request_kill refuse INVALID_PID
  | .requestKill k pid exitCode,s =>
    if (s.kills k).stage = .idle ∧ pid ≠ invalidPid then
      some { s with kills := Function.update s.kills k ⟨pid,exitCode,.scan 0⟩, asked := pid :: s.asked }
    else none
  | .kill k,s => stepKill k s
  | .allocateTaskSlot a priority homeCore,s =>
    if (s.allocs a).stage = .idle ∧ s.newPid < invalidPid then
      some { s with allocs := Function.update s.allocs a ⟨s.newPid,priority,homeCore,.scan 0⟩, newPid := s.newPid + 1 }
    else none
  | .alloc a,s => stepAlloc a s
  | .makeReady a,s =>
    match (s.allocs a).stage with
    | .allocated slot => some ((s.setTask slot ((s.tasks slot).setState .ready)).setAlloc a .idle)
    | _ => none
  | .move slot source target,s =>
    if legalMove source target then ((s.tasks slot).transition source target).map (s.setTask slot) else none
  | .exitCurrent slot,s => ((s.tasks slot).transition .running .dead).map (s.setTask slot)
  | .releasePid slot,s =>
    if (s.tasks slot).state = .dead ∧ s.releasing slot = false then
      some { s.setTask slot { s.tasks slot with pid := invalidPid } with releasing := Function.update s.releasing slot true }
    else none
  | .releaseState slot,s =>
    if s.releasing slot then
      some { s.setTask slot ((s.tasks slot).setState .free) with releasing := Function.update s.releasing slot false }
    else none

/-- No slot is released between the lookup of a request_kill that found it and its store. -/
def sparesLookups : KillAct → KillSystem → Prop
  | .releasePid slot,s => ∀ k, (s.kills k).stage ≠ .storeExitCode slot ∧ (s.kills k).stage ≠ .storeKillPending slot
  | _,_ => True

/-- The call has found the slot and has not stored the kill flag yet. -/
def Targets (call : KillCall) (slot : Slot) : Prop :=
  call.stage = .storeExitCode slot ∨ call.stage = .storeKillPending slot

/-- The slot is reserved by the call, from the compare-and-swap until the task is made ready. -/
def Holds (call : AllocCall) (slot : Slot) : Prop :=
  (∃ field, call.stage = .store slot field) ∨ call.stage = .allocated slot

/-- What the calls in flight may rely on in a slot that holds the task. -/
structure SlotOk (s : KillSystem) (slot : Slot) (task : TaskSlot) : Prop where
  target : ∀ k, Targets (s.kills k) slot → task.pid = (s.kills k).pid
  free : task.state = .free → task.pid = invalidPid
  released : s.releasing slot = true → task.state = .dead ∧ task.pid = invalidPid
  held : ∀ a, Holds (s.allocs a) slot → task.state = .creating
  unnamed : ∀ a field, (s.allocs a).stage = .store slot field → task.pid = invalidPid
  cleared : ∀ a field, (s.allocs a).stage = .store slot field → field.cleared = true → task.killPending = false
  wanted : task.pid ≠ invalidPid → task.killPending = true → task.pid ∈ s.asked

structure KillInv (s : KillSystem) : Prop where
  slots : ∀ slot, SlotOk s slot (s.tasks slot)
  called : ∀ k, (s.kills k).stage ≠ .idle → (s.kills k).pid ≠ invalidPid ∧ (s.kills k).pid ∈ s.asked
  holder : ∀ a b slot, Holds (s.allocs a) slot → Holds (s.allocs b) slot → a = b

section Invariant
variable {s t : KillSystem} {slot : Slot} {task : TaskSlot} {k a : Nat}

theorem KillInv.init : KillInv {} := by
  refine ⟨fun slot => ⟨?_,?_,?_,?_,?_,?_,?_⟩,?_,?_⟩ <;> simp [Targets,Holds,Tasks.new]

theorem KillInv.setTask (h : KillInv s) (hslot : SlotOk s slot task) : KillInv (s.setTask slot task) := by
  refine ⟨fun i => ?_,h.called,h.holder⟩
  have hok : SlotOk s i ((s.setTask slot task).tasks i) := by
    by_cases hi : i = slot
    · subst hi
      simpa only [KillSystem.setTask,Function.update_self] using hslot
    · simpa only [KillSystem.setTask,Function.update_of_ne hi] using h.slots i
  exact ⟨hok.target,hok.free,hok.released,hok.held,hok.unnamed,hok.cleared,hok.wanted⟩

/-- A step of a request moves to a stage whose slot, if it has just been found, holds the pid. -/
theorem KillInv.setKill {stage : KillStage} (h : KillInv s) (hidle : (s.kills k).stage ≠ .idle)
    (htarget : ∀ slot, Targets ⟨(s.kills k).pid,(s.kills k).exitCode,stage⟩ slot → (s.tasks slot).pid = (s.kills k).pid) :
    KillInv (s.setKill k stage) := by
  refine ⟨fun i => ?_,fun j hj => ?_,h.holder⟩
  · have hok := h.slots i
    refine ⟨fun j hj => ?_,hok.free,hok.released,hok.held,hok.unnamed,hok.cleared,hok.wanted⟩
    by_cases hjk : j = k
    · subst hjk
      simp only [KillSystem.setKill,Function.update_self] at hj ⊢
      exact htarget i hj
    · simp only [KillSystem.setKill,Function.update_of_ne hjk] at hj ⊢
      exact hok.target j hj
  · by_cases hjk : j = k
    · subst hjk
      simp only [KillSystem.setKill,Function.update_self]
      exact h.called j hidle
    · simp only [KillSystem.setKill,Function.update_of_ne hjk] at hj ⊢
      exact h.called j hj

theorem SlotOk.congr {task' : TaskSlot} (h : SlotOk s slot task) (hpid : task'.pid = task.pid)
    (hkill : task'.killPending = task.killPending) (hstate : task'.state = task.state) : SlotOk s slot task' := by
  constructor
  · rw [hpid]
    exact h.target
  · rw [hpid,hstate]
    exact h.free
  · rw [hpid,hstate]
    exact h.released
  · rw [hstate]
    exact h.held
  · rw [hpid]
    exact h.unnamed
  · rw [hkill]
    exact h.cleared
  · rw [hpid,hkill]
    exact h.wanted

/-- A task that runs, waits or is queued moves on: no call holds or releases its slot. -/
theorem SlotOk.setState {state : TaskState} (h : SlotOk s slot task) (hcreating : task.state ≠ .creating)
    (hdead : task.state ≠ .dead) (hfree : state ≠ .free) : SlotOk s slot (task.setState state) :=
  ⟨h.target,fun e => absurd e hfree,fun e => absurd (h.released e).1 hdead,fun a ha => absurd (h.held a ha) hcreating,
    h.unnamed,h.cleared,h.wanted⟩

theorem SlotOk.transition {source target : TaskState} {task' : TaskSlot} (h : SlotOk s slot task)
    (ht : task.transition source target = some task') (hcreating : source ≠ .creating) (hdead : source ≠ .dead)
    (hfree : target ≠ .free) : SlotOk s slot task' := by
  obtain ⟨hs,rfl⟩ := TaskSlot.transition_eq_some.mp ht
  exact h.setState (hs ▸ hcreating) (hs ▸ hdead) hfree

theorem KillInv.stepKill (h : KillInv s) (ht : KillSystem.stepKill k s = some t) : KillInv t := by
  have hstage : (s.kills k).stage ≠ .idle := by
    intro hidle
    simp only [KillSystem.stepKill,hidle] at ht
    cases ht
  have hpass : ∀ stage, (∀ slot, stage ≠ .storeExitCode slot ∧ stage ≠ .storeKillPending slot) → ∀ {s' : KillSystem},
      s'.kills = s.kills → KillInv s' → KillInv (s'.setKill k stage) := by
    intro stage hne s' hk hs'
    refine hs'.setKill (hk ▸ hstage) fun slot htar => ?_
    rcases htar with htar | htar
    · exact absurd htar (hne slot).1
    · exact absurd htar (hne slot).2
  simp only [KillSystem.stepKill] at ht
  split at ht
  case h_1 => cases ht
  case h_2 i heq =>
    split_ifs at ht with hi hpid <;> cases ht
    · refine h.setKill hstage fun slot htar => ?_
      rcases htar with htar | htar
      · cases htar
        exact hpid
      · cases htar
    · exact hpass _ (by simp) rfl h
    · exact hpass _ (by simp) rfl h
  case h_3 slot heq =>
    cases ht
    have hpid := (h.slots slot).target k (.inl heq)
    have hok : SlotOk s slot { s.tasks slot with exitCodeRequest := (s.kills k).exitCode } :=
      (h.slots slot).congr rfl rfl rfl
    refine (h.setTask hok).setKill hstage fun i htar => ?_
    rcases htar with htar | htar
    · cases htar
    · cases htar
      simpa only [KillSystem.setTask,Function.update_self] using hpid
  case h_4 slot heq =>
    cases ht
    have hok := h.slots slot
    have hpid := hok.target k (.inr heq)
    have hcalled := h.called k hstage
    refine hpass _ (by simp) rfl (h.setTask ⟨hok.target,hok.free,hok.released,hok.held,hok.unnamed,?_,fun _ _ => ?_⟩)
    -- a slot whose flag was cleared for a new task has no pid yet, so no request can have found it
    · intro a field ha hc
      exact absurd (hpid.symm.trans (hok.unnamed a field ha)) hcalled.1
    · exact hpid ▸ hcalled.2
  case h_5 slot heq =>
    split_ifs at ht <;> cases ht <;> exact hpass _ (by simp) rfl h
  case h_6 slot heq =>
    split at ht <;> cases ht
    · rename_i task htask
      exact hpass _ (by simp) rfl (h.setTask ((h.slots slot).transition htask (by simp) (by simp) (by simp)))
    · exact hpass _ (by simp) rfl h
  case h_7 slot heq =>
    cases ht
    exact hpass _ (by simp) rfl h
  case h_8 => cases ht

/-- A call of allocate_task_slot stores into the slot it holds, or reserves a free one. -/
theorem KillInv.setAlloc {stage : AllocStage} (h : KillInv s) (hothers : ∀ b, b ≠ a → ¬ Holds (s.allocs b) slot)
    (hstage : ∀ i, Holds { s.allocs a with stage := stage } i → i = slot)
    (hslot : SlotOk ((s.setTask slot task).setAlloc a stage) slot task) : KillInv ((s.setTask slot task).setAlloc a stage) := by
  have hself : ((s.setTask slot task).setAlloc a stage).allocs a = { s.allocs a with stage := stage } :=
    Function.update_self ..
  have hkeep : ∀ b, b ≠ a → ((s.setTask slot task).setAlloc a stage).allocs b = s.allocs b := fun b hb =>
    Function.update_of_ne hb ..
  refine ⟨fun i => ?_,h.called,fun b c i hb hc => ?_⟩
  · by_cases hi : i = slot
    · subst hi
      simpa only [KillSystem.setAlloc,KillSystem.setTask,Function.update_self] using hslot
    · have hok := h.slots i
      have hold : ∀ b, Holds (((s.setTask slot task).setAlloc a stage).allocs b) i → b ≠ a := by
        rintro b hb rfl
        exact hi (hstage i (hself ▸ hb))
      have htask : ((s.setTask slot task).setAlloc a stage).tasks i = s.tasks i := Function.update_of_ne hi ..
      rw [htask]
      refine ⟨hok.target,hok.free,hok.released,fun b hb => ?_,fun b field hb => ?_,fun b field hb => ?_,hok.wanted⟩
      · exact hok.held b (hkeep b (hold b hb) ▸ hb)
      · exact hok.unnamed b field (hkeep b (hold b (.inl ⟨field,hb⟩)) ▸ hb)
      · exact hok.cleared b field (hkeep b (hold b (.inl ⟨field,hb⟩)) ▸ hb)
  · by_cases hba : b = a <;> by_cases hca : c = a
    · rw [hba,hca]
    · rw [hba,hself] at hb
      rw [hkeep c hca] at hc
      exact absurd (hstage i hb ▸ hc) (hothers c hca)
    · rw [hca,hself] at hc
      rw [hkeep b hba] at hb
      exact absurd (hstage i hc ▸ hb) (hothers b hba)
    · rw [hkeep b hba] at hb
      rw [hkeep c hca] at hc
      exact h.holder b c i hb hc

/-- A call that holds no slot takes the place of call a. -/
theorem KillInv.setAlloc_none {call : AllocCall} (h : KillInv s) (hcall : ∀ i, ¬ Holds call i) (newPid : Nat) :
    KillInv { s with allocs := Function.update s.allocs a call, newPid := newPid } := by
  have hkeep : ∀ b i, Holds (Function.update s.allocs a call b) i → Function.update s.allocs a call b = s.allocs b := by
    intro b i hb
    by_cases hba : b = a
    · rw [hba,Function.update_self] at hb
      exact absurd hb (hcall i)
    · exact Function.update_of_ne hba ..
  refine ⟨fun i => ?_,h.called,fun b c i hb hc => ?_⟩
  · have hok := h.slots i
    refine ⟨hok.target,hok.free,hok.released,fun b hb => ?_,fun b field hb => ?_,fun b field hb => ?_,hok.wanted⟩
    · exact hok.held b (hkeep b i hb ▸ hb)
    · exact hok.unnamed b field (hkeep b i (.inl ⟨field,hb⟩) ▸ hb)
    · exact hok.cleared b field (hkeep b i (.inl ⟨field,hb⟩) ▸ hb)
  · exact h.holder b c i (hkeep b i hb ▸ hb) (hkeep c i hc ▸ hc)

theorem write_state (call : AllocCall) (task : TaskSlot) (field : AllocField) : (field.write call task).state = task.state := by
  cases field <;> rfl

theorem write_pid (call : AllocCall) {field : AllocField} (h : field ≠ .pid) : (field.write call task).pid = task.pid := by
  cases field <;> first | rfl | exact absurd rfl h

theorem write_killPending (call : AllocCall) (field : AllocField) :
    (field.write call task).killPending = (task.killPending && field != .killPending) := by
  cases field <;> simp [AllocField.write]

/-- The store behind this one, with the kill flag cleared from its own store on. -/
theorem following_store {field field' : AllocField} (h : field.following slot = .store slot field') :
    field ≠ .pid ∧ (field'.cleared = true → field = .killPending ∨ field.cleared = true) := by
  cases field <;> cases h <;> simp [AllocField.cleared]

theorem holds_following {field : AllocField} {call : AllocCall} {i : Slot}
    (h : Holds { call with stage := field.following slot } i) : i = slot := by
  rcases h with ⟨field',h⟩ | h <;> cases field <;> cases h <;> rfl

theorem KillInv.stepAlloc (h : KillInv s) (ht : KillSystem.stepAlloc a s = some t) : KillInv t := by
  simp only [KillSystem.stepAlloc] at ht
  split at ht
  case h_1 i heq =>
    split_ifs at ht with hi
    · split at ht <;> cases ht
      · rename_i task htask
        obtain ⟨hfree,rfl⟩ := TaskSlot.transition_eq_some.mp htask
        have hok := h.slots ⟨i,hi⟩
        have hothers : ∀ b, ¬ Holds (s.allocs b) ⟨i,hi⟩ := by
          intro b hb
          have := hfree.symm.trans (hok.held b hb)
          cases this
        refine h.setAlloc (fun b _ => hothers b) (fun j hj => ?_) ?_
        · rcases hj with ⟨field,hj⟩ | hj <;> cases hj
          rfl
        · refine ⟨hok.target,(nomatch ·),fun e => ?_,fun _ _ => rfl,fun _ _ _ => hok.free hfree,
            fun b field hb hc => ?_,hok.wanted⟩
          · have := hfree.symm.trans (hok.released e).1
            cases this
          · by_cases hba : b = a
            · subst hba
              simp only [KillSystem.setAlloc,Function.update_self] at hb
              cases hb
              cases hc
            · simp only [KillSystem.setAlloc,Function.update_of_ne hba] at hb
              exact absurd (.inl ⟨field,hb⟩) (hothers b)
      · exact h.setAlloc_none (fun j => by simp [Holds]) s.newPid
    · cases ht
      exact h.setAlloc_none (fun j => by simp [Holds]) s.newPid
  case h_2 slot field heq =>
    cases ht
    have hok := h.slots slot
    have hothers : ∀ b, b ≠ a → ¬ Holds (s.allocs b) slot := fun b hba hb => hba (h.holder b a slot hb (.inl ⟨field,heq⟩))
    have hpid := hok.unnamed a field heq
    have hcreating := hok.held a (.inl ⟨field,heq⟩)
    have hstate := (write_state (s.allocs a) (s.tasks slot) field).trans hcreating
    have hstore : ∀ b f, (((s.setTask slot (field.write (s.allocs a) (s.tasks slot))).setAlloc a
        (field.following slot)).allocs b).stage = .store slot f → b = a ∧ field.following slot = .store slot f := by
      intro b f hb
      by_cases hba : b = a
      · subst hba
        simp only [KillSystem.setAlloc,Function.update_self] at hb
        exact ⟨rfl,hb⟩
      · simp only [KillSystem.setAlloc,Function.update_of_ne hba] at hb
        exact absurd (.inl ⟨f,hb⟩) (hothers b hba)
    refine h.setAlloc hothers (fun j hj => holds_following hj) ⟨fun k hk => ?_,fun e => ?_,fun e => ?_,fun _ _ => hstate,
      fun b f hb => ?_,fun b f hb hc => ?_,fun hne hkill => ?_⟩
    · have hidle : (s.kills k).stage ≠ .idle := by
        intro hidle
        rcases hk with hk | hk <;> cases hidle.symm.trans hk
      exact absurd ((hok.target k hk).symm.trans hpid) (h.called k hidle).1
    · have := hstate.symm.trans e
      cases this
    · have := hcreating.symm.trans (hok.released e).1
      cases this
    · rw [write_pid _ (following_store (hstore b f hb).2).1]
      exact hpid
    · rw [write_killPending]
      rcases (following_store (hstore b f hb).2).2 hc with hf | hf
      · simp [hf]
      · rw [hok.cleared a field heq hf,Bool.false_and]
    -- the pid is stored last, so the flag is clear when the slot gets one
    · rw [write_killPending,Bool.and_eq_true] at hkill
      by_cases hf : field = .pid
      · rw [hok.cleared a field heq (by rw [hf]; rfl)] at hkill
        exact absurd hkill.1 (by simp)
      · rw [write_pid _ hf] at hne
        exact absurd hpid hne
  case h_3 => cases ht

theorem KillInv.step {act : KillAct} (hc : sparesLookups act s) (h : KillInv s) (ht : step act s = some t) : KillInv t := by
  cases act with
  | requestKill k pid exitCode =>
    simp only [KillSystem.step] at ht
    split_ifs at ht with hcall
    cases ht
    refine ⟨fun i => ?_,fun j hj => ?_,h.holder⟩
    · have hok := h.slots i
      refine ⟨fun j hj => ?_,hok.free,hok.released,hok.held,hok.unnamed,hok.cleared,fun hne hkill =>
        List.mem_cons_of_mem _ (hok.wanted hne hkill)⟩
      by_cases hjk : j = k
      · subst hjk
        simp only [Function.update_self] at hj
        rcases hj with hj | hj <;> cases hj
      · simp only [Function.update_of_ne hjk] at hj ⊢
        exact hok.target j hj
    · by_cases hjk : j = k
      · subst hjk
        simp only [Function.update_self]
        exact ⟨hcall.2,List.mem_cons_self⟩
      · simp only [Function.update_of_ne hjk] at hj ⊢
        exact (h.called j hj).imp_right (List.mem_cons_of_mem _)
  | kill k => exact h.stepKill ht
  | allocateTaskSlot a priority homeCore =>
    simp only [KillSystem.step] at ht
    split_ifs at ht with hcall
    cases ht
    exact h.setAlloc_none (fun i => by simp [Holds]) (s.newPid + 1)
  | alloc a => exact h.stepAlloc ht
  | makeReady a =>
    simp only [KillSystem.step] at ht
    split at ht <;> cases ht
    rename_i slot heq
    have hok := h.slots slot
    have hcreating := hok.held a (.inr heq)
    have hothers : ∀ b, b ≠ a → ¬ Holds (s.allocs b) slot := fun b hba hb => hba (h.holder b a slot hb (.inr heq))
    have hnone : ∀ b, ¬ Holds (((s.setTask slot ((s.tasks slot).setState .ready)).setAlloc a .idle).allocs b) slot := by
      intro b hb
      by_cases hba : b = a
      · subst hba
        simp only [KillSystem.setAlloc,Function.update_self] at hb
        rcases hb with ⟨field,hb⟩ | hb <;> cases hb
      · simp only [KillSystem.setAlloc,Function.update_of_ne hba] at hb
        exact hothers b hba hb
    refine h.setAlloc hothers (fun i hi => ?_) ⟨hok.target,(nomatch ·),fun e => ?_,fun b hb => absurd hb (hnone b),
      fun b field hb => absurd (.inl ⟨field,hb⟩) (hnone b),fun b field hb => absurd (.inl ⟨field,hb⟩) (hnone b),hok.wanted⟩
    · rcases hi with ⟨field,hi⟩ | hi <;> cases hi
    · cases hcreating.symm.trans (hok.released e).1
  | move slot source target =>
    simp only [KillSystem.step] at ht
    split_ifs at ht with hlegal
    obtain ⟨task,htask,rfl⟩ := Option.map_eq_some_iff.mp ht
    obtain ⟨hcreating,hdead,hfree⟩ := legalMove_spec hlegal
    exact h.setTask ((h.slots slot).transition htask hcreating hdead hfree)
  | exitCurrent slot =>
    obtain ⟨task,htask,rfl⟩ := Option.map_eq_some_iff.mp ht
    exact h.setTask ((h.slots slot).transition htask (by simp) (by simp) (by simp))
  | releasePid slot =>
    simp only [KillSystem.step] at ht
    split_ifs at ht with hdead
    cases ht
    have hok := h.slots slot
    have hset : SlotOk s slot { s.tasks slot with pid := invalidPid } := by
      refine ⟨fun k hk => ?_,fun _ => rfl,fun e => ⟨hdead.1,rfl⟩,hok.held,fun _ _ _ => rfl,hok.cleared,fun e => absurd rfl e⟩
      rcases hk with hk | hk
      · exact absurd hk (hc k).1
      · exact absurd hk (hc k).2
    have hs := h.setTask hset
    refine ⟨fun i => ?_,hs.called,hs.holder⟩
    have hi := hs.slots i
    refine ⟨hi.target,hi.free,fun e => ?_,hi.held,hi.unnamed,hi.cleared,hi.wanted⟩
    by_cases his : i = slot
    · subst his
      simp only [KillSystem.setTask,Function.update_self]
      exact ⟨hdead.1,trivial⟩
    · simp only [Function.update_of_ne his] at e
      exact hi.released e
  | releaseState slot =>
    simp only [KillSystem.step] at ht
    split_ifs at ht with hrel
    cases ht
    have hok := h.slots slot
    obtain ⟨hdead,hpid⟩ := hok.released hrel
    refine ⟨fun i => ?_,h.called,h.holder⟩
    by_cases his : i = slot
    · subst his
      simp only [KillSystem.setTask,Function.update_self]
      refine ⟨hok.target,fun _ => hpid,fun e => ?_,fun a ha => ?_,hok.unnamed,hok.cleared,hok.wanted⟩
      · simp only [Function.update_self] at e
        cases e
      · cases hdead.symm.trans (hok.held a ha)
    · have hi := h.slots i
      simp only [KillSystem.setTask,Function.update_of_ne his]
      refine ⟨hi.target,hi.free,fun e => ?_,hi.held,hi.unnamed,hi.cleared,hi.wanted⟩
      simp only [Function.update_of_ne his] at e
      exact hi.released e

end Invariant

/-- The flag is about to be set in slots that hold the pid only, and no process finds it set unasked. -/
def KillsOnlyTargets (s : KillSystem) : Prop :=
  (∀ k slot, (s.kills k).stage = .storeKillPending slot → (s.tasks slot).pid = (s.kills k).pid) ∧
  ∀ slot, (s.tasks slot).pid ≠ invalidPid → (s.tasks slot).pid ∉ s.asked → (s.tasks slot).killPending = false

theorem run_kills_only_targets {acts : List KillAct} {s : KillSystem} (hrun : steps step acts {} = some s)
    (hc : stepsMeet step sparesLookups acts {}) : KillsOnlyTargets s := by
  have h : KillInv s := steps_invariant (fun a s t hc h ht => h.step hc ht) hc .init hrun
  refine ⟨fun k slot hk => (h.slots slot).target k (.inr hk),fun slot hpid hasked => ?_⟩
  by_contra hkill
  exact hasked ((h.slots slot).wanted hpid (by simpa using hkill))

private def releases : KillAct → Bool
  | .releasePid _ => true
  | _ => false

private theorem sparesLookups_of_keep {act : KillAct} {s : KillSystem} (h : releases act = false) : sparesLookups act s := by
  cases act <;> trivial

/-- Process 1 is created, starts to run and is asked to exit; slot 0 is still its own. -/
private def askedOne : List KillAct :=
  .allocateTaskSlot 0 5 1 :: List.replicate 7 (.alloc 0) ++
    [.makeReady 0,.move 0 .ready .running,.requestKill 0 1 7,.kill 0]

/-- The request stores its flag before the slot is released. -/
theorem run_kills_only_targets_one : ∃ s, steps step (askedOne ++ [.kill 0,.kill 0,.exitCurrent 0] ++ [.releasePid 0]) {} = some s ∧
    (s.tasks 0).killPending = true ∧ KillsOnlyTargets s := by
  have hview : ((steps step (askedOne ++ [.kill 0,.kill 0,.exitCurrent 0] ++ [.releasePid 0]) {}).map fun s =>
      (s.tasks 0).killPending) = some true := rfl
  obtain ⟨s,hs,hkill⟩ := Option.map_eq_some_iff.mp hview
  refine ⟨s,hs,hkill,run_kills_only_targets hs (stepsMeet_append (stepsMeet_of_forall ?_) ?_)⟩
  · have hkeep : ∀ a ∈ askedOne ++ [.kill 0,.kill 0,.exitCurrent 0], releases a = false := by decide
    exact fun a ha s => sparesLookups_of_keep (hkeep a ha)
  · intro t ht
    refine ⟨fun k => ?_,fun _ _ => trivial⟩
    have hstage : ((steps step (askedOne ++ [.kill 0,.kill 0,.exitCurrent 0]) {}).map fun s => (s.kills k).stage) =
        some (if k = 0 then .wakePid 0 else .idle) := by
      cases k <;> rfl
    rw [ht,Option.map_some,Option.some.injEq] at hstage
    rw [hstage]
    split_ifs <;> simp

/-- Slot 0 passes from process 1 to process 2 while a request for process 1 has it in hand. -/
theorem recycled_slot_is_killed : ∃ acts s, steps step acts {} = some s ∧ ¬ KillsOnlyTargets s := by
  have hview : ((steps step (askedOne ++ [.exitCurrent 0,.releasePid 0,.releaseState 0,.allocateTaskSlot 0 5 2] ++
      List.replicate 7 (.alloc 0) ++ [.makeReady 0,.kill 0,.kill 0]) {}).map fun s =>
      ((s.tasks 0).pid,(s.tasks 0).killPending,s.asked)) = some (2,true,[1]) := rfl
  obtain ⟨s,hs,hkill⟩ := Option.map_eq_some_iff.mp hview
  simp only [Prod.mk.injEq] at hkill
  refine ⟨_,s,hs,fun h => ?_⟩
  have := h.2 0 (by rw [hkill.1]; decide) (by rw [hkill.1,hkill.2.2]; decide)
  rw [hkill.2.1] at this
  cases this

end KillSystem
end MofuOS.Process
