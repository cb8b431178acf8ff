import MofuOS.Process.Cores
import MofuOS.Process.QueueOk

/-! What holds between the steps of the cores, what each agent knows, and what the others leave it. -/
namespace MofuOS.Process.Cores
open Lib

/-- The agent that alone may move the task on. -/
def Phase.owner : Phase → Option Agent
  | .woken agent | .counted agent _ => some agent
  | .held core | .taken core _ => some (.core core)
  | .off | .queued _ => none

/-- The core the task is bound for or has arrived at. -/
def Phase.settled : Phase → Option Core
  | .counted _ core | .queued core | .held core => some core
  | .off | .woken _ | .taken _ _ => none

/-- The core whose counter counts the task. -/
def Phase.countedOn : Phase → Option Core
  | .counted _ core | .queued core | .held core | .taken _ core => some core
  | .off | .woken _ => none

def Routine.coreId : Routine → Option Core
  | .user => none
  | .event coreId _ | .sleep coreId _ => some coreId

structure SlotOk (phase : Phase) (task : TaskSlot) : Prop where
  off : task.state = .blocked ∨ task.state = .free → phase = .off
  held : task.state = .running → ∃ core, phase = .held core
  home : ∀ core, phase.settled = some core → task.homeCore = core

/-- A core runs the task, a timer has an entry of it, or it has switched out inside a blocking routine. -/
def Shared.Remembers (s : Shared) (slot : Slot) : Prop :=
  (∃ core ref, s.current core = some ref ∧ ref.slot = slot) ∨
  (∃ core sleeper, sleeper ∈ (s.runQueues core).sleepingTasks ∧ sleeper.taskRef.slot = slot) ∨ s.resume slot ≠ .user

/-- Wherever a task is remembered, it is with its home core. -/
structure Memory (s : Shared) : Prop where
  current : ∀ core ref, s.current core = some ref → (s.tasks ref.slot).pid = ref.pid ∧ (s.tasks ref.slot).homeCore = core
  entries : ∀ core sleeper, sleeper ∈ (s.runQueues core).sleepingTasks →
    (s.tasks sleeper.taskRef.slot).pid = sleeper.taskRef.pid ∧ (s.tasks sleeper.taskRef.slot).homeCore = core
  resume : ∀ slot coreId, (s.resume slot).coreId = some coreId → (s.tasks slot).homeCore = coreId
  loose : ∀ slot, ((s.tasks slot).state = .free ∨ ∃ core coreFrom, s.phase slot = .taken core coreFrom) → ¬ s.Remembers slot

def counts (core : Core) (phase : Phase) : Bool := phase.countedOn = some core

structure SharedOk (s : Shared) : Prop where
  slots : ∀ slot, SlotOk (s.phase slot) (s.tasks slot)
  queues : ∃ lists, RunQueuesOk s.next s.runQueues lists ∧ ∀ core slot, onCore lists core slot ↔ s.phase slot = .queued core
  count : ∀ core, s.runnableTasksCount core = tally (counts core) s.phase
  memory : Memory s

/-- What a call of wake_task has reached. -/
def WakeOk (s : Shared) (agent : Agent) (slot : Slot) : WakeCall → Prop
  | .pid | .state => True
  | .homeCore => s.phase slot = .woken agent
  | .count homeCore => s.phase slot = .woken agent ∧ (s.tasks slot).homeCore = homeCore
  | .push homeCore => s.phase slot = .counted agent homeCore

def WakerOk (i : Nat) (s : Shared) : Waker → Prop
  | .creating taskRef => s.phase taskRef.slot = .woken (.waker i)
  | .waking taskRef call _ => WakeOk s (.waker i) taskRef.slot call
  | .idle | .drain _ | .killPending _ => True

def TimerOk (core : Core) (s : Shared) : Timer → Prop
  | .idle => True
  | .entry _ _ => s.locked core = true
  | .state _ _ sleeper => s.locked core = true ∧ sleeper ∈ (s.runQueues core).sleepingTasks
  | .count _ _ sleeper => s.locked core = true ∧ s.phase sleeper.taskRef.slot = .woken (.timer core) ∧
    (s.tasks sleeper.taskRef.slot).homeCore = core
  | .push _ _ sleeper => s.locked core = true ∧ s.phase sleeper.taskRef.slot = .counted (.timer core) core

/-- The task runs and is its core's to dispose of. -/
def Runs (core : Core) (s : Shared) (slot : Slot) : Prop := s.phase slot = .held core ∧ (s.tasks slot).state = .running

def TaskOk (core : Core) (s : Shared) (slot : Slot) : TaskPc → Prop
  | .user | .condition _ _ | .killPending _ _ | .join _ _ | .time _ _ | .sleepKill _ _ | .sleepHome _ _ => Runs core s slot
  | .sleepJoin _ _ homeCore => Runs core s slot ∧ homeCore = core
  | .wake _ _ call => WakeOk s (.core core) slot call
  | .requeuePush _ routine => (s.phase slot = .held core ∧ (s.tasks slot).state = .ready) ∧
    ∀ coreId, routine.coreId = some coreId → coreId = core
  | .requeue _ routine | .switch _ routine => ∀ coreId, routine.coreId = some coreId → coreId = core
  | .recheck _ _ | .recheckKill _ _ | .remove _ _ => True

def CoreOk (core : Core) (s : Shared) : CorePc → Prop
  | .loop | .looking _ | .taking _ => s.current core = none
  | .storeHome slot coreFrom => s.current core = none ∧ s.phase slot = .taken core coreFrom
  | .leaveFrom slot coreFrom => s.current core = none ∧ s.phase slot = .taken core coreFrom ∧ (s.tasks slot).homeCore = core
  | .count slot => s.current core = none ∧ s.phase slot = .woken (.core core) ∧ (s.tasks slot).homeCore = core
  | .push slot => s.current core = none ∧ s.phase slot = .counted (.core core) core
  | .picked slot => s.current core = none ∧ s.phase slot = .held core
  | .started slot => s.current core = none ∧ Runs core s slot
  | .entering slot => s.current core = none ∧ Runs core s slot ∧ (s.tasks slot).onCpu = true
  | .task ref pc => s.current core = some ref ∧ (s.tasks ref.slot).onCpu = true ∧
    (∀ coreId, pc.coreId = some coreId → coreId = core) ∧ TaskOk core s ref.slot pc
  | .left slot => ∃ ref, s.current core = some ref ∧ ref.slot = slot ∧ (s.tasks slot).onCpu = true
  | .clearing slot => ∃ ref, s.current core = some ref ∧ ref.slot = slot

def AgentOk : (agent : Agent) → Pc agent → Shared → Prop
  | .waker i,pc,s => WakerOk i s pc
  | .timer core,pc,s => TimerOk core s pc
  | .core core,pc,s => CoreOk core s pc

/-- What the steps of the others leave an agent. -/
structure Rely (agent : Agent) (s s' : Shared) : Prop where
  own : ∀ slot, (s.phase slot).owner = some agent → s'.phase slot = s.phase slot ∧
    (s'.tasks slot).homeCore = (s.tasks slot).homeCore ∧ (s'.tasks slot).state = (s.tasks slot).state
  core : ∀ core, agent = .core core → s'.current core = s.current core ∧
    ∀ slot, (s.current core).map (·.slot) = some slot ∨ s.phase slot = .held core →
      (s'.tasks slot).onCpu = (s.tasks slot).onCpu
  timer : ∀ core, agent = .timer core → s'.locked core = s.locked core ∧
    (s.locked core = true → (s'.runQueues core).sleepingTasks = (s.runQueues core).sleepingTasks)

section Stable
variable {agent : Agent} {core : Core} {slot : Slot} {s s' : Shared}

theorem Rely.refl (agent : Agent) (s : Shared) : Rely agent s s :=
  ⟨fun _ _ => ⟨rfl,rfl,rfl⟩,fun _ _ => ⟨rfl,fun _ _ => rfl⟩,fun _ _ => ⟨rfl,fun _ => rfl⟩⟩

theorem WakeOk.stable {call : WakeCall} (h : WakeOk s agent slot call) (hr : Rely agent s s') : WakeOk s' agent slot call := by
  cases call with
  | pid => trivial
  | state => trivial
  | homeCore =>
    have h : s.phase slot = .woken agent := h
    exact (hr.own slot (by rw [h]; rfl)).1.trans h
  | count homeCore =>
    obtain ⟨h,hhome⟩ := h
    obtain ⟨hp,hh,_⟩ := hr.own slot (by rw [h]; rfl)
    exact ⟨hp.trans h,hh.trans hhome⟩
  | push homeCore =>
    have h : s.phase slot = .counted agent homeCore := h
    exact (hr.own slot (by rw [h]; rfl)).1.trans h

theorem Runs.stable (h : Runs core s slot) (hr : Rely (.core core) s s') : Runs core s' slot := by
  obtain ⟨h,hstate⟩ := h
  obtain ⟨hp,_,hs⟩ := hr.own slot (by rw [h]; rfl)
  exact ⟨hp.trans h,hs.trans hstate⟩

theorem TaskOk.stable {pc : TaskPc} (h : TaskOk core s slot pc) (hr : Rely (.core core) s s') : TaskOk core s' slot pc := by
  cases pc with
  | user | condition | killPending | join | time | sleepKill | sleepHome => exact Runs.stable h hr
  | sleepJoin => exact ⟨h.1.stable hr,h.2⟩
  | wake => exact WakeOk.stable h hr
  | requeuePush coreId routine =>
    obtain ⟨⟨h,hready⟩,hroutine⟩ := h
    obtain ⟨hp,_,hs⟩ := hr.own slot (by rw [h]; rfl)
    exact ⟨⟨hp.trans h,hs.trans hready⟩,hroutine⟩
  | requeue | switch => exact h
  | recheck | recheckKill | remove => trivial

theorem CoreOk.stable {pc : CorePc} (h : CoreOk core s pc) (hr : Rely (.core core) s s') : CoreOk core s' pc := by
  obtain ⟨hcur,hcpu⟩ := hr.core core rfl
  have hnone : s.current core = none → s'.current core = none := fun h => hcur.trans h
  cases pc with
  | loop | looking | taking => exact hnone h
  | storeHome slot coreFrom =>
    exact ⟨hnone h.1,(hr.own slot (by rw [h.2]; rfl)).1.trans h.2⟩
  | leaveFrom slot coreFrom =>
    obtain ⟨hp,hh,_⟩ := hr.own slot (by rw [h.2.1]; rfl)
    exact ⟨hnone h.1,hp.trans h.2.1,hh.trans h.2.2⟩
  | count slot =>
    obtain ⟨hp,hh,_⟩ := hr.own slot (by rw [h.2.1]; rfl)
    exact ⟨hnone h.1,hp.trans h.2.1,hh.trans h.2.2⟩
  | push slot => exact ⟨hnone h.1,(hr.own slot (by rw [h.2]; rfl)).1.trans h.2⟩
  | picked slot => exact ⟨hnone h.1,(hr.own slot (by rw [h.2]; rfl)).1.trans h.2⟩
  | started slot => exact ⟨hnone h.1,h.2.stable hr⟩
  | entering slot =>
    obtain ⟨hc,hrun,hon⟩ := h
    exact ⟨hnone hc,hrun.stable hr,(hcpu slot (.inr hrun.1)).trans hon⟩
  | task ref pc =>
    obtain ⟨hc,hon,hid,htask⟩ := h
    exact ⟨hcur.trans hc,(hcpu ref.slot (.inl (by rw [hc]; rfl))).trans hon,hid,htask.stable hr⟩
  | left slot =>
    obtain ⟨ref,hc,hslot,hon⟩ := h
    subst hslot
    exact ⟨ref,hcur.trans hc,rfl,(hcpu ref.slot (.inl (by rw [hc]; rfl))).trans hon⟩
  | clearing slot =>
    obtain ⟨ref,hc,hslot⟩ := h
    exact ⟨ref,hcur.trans hc,hslot⟩

theorem TimerOk.stable {pc : Timer} (h : TimerOk core s pc) (hr : Rely (.timer core) s s') : TimerOk core s' pc := by
  obtain ⟨hlock,hsleep⟩ := hr.timer core rfl
  cases pc with
  | idle => trivial
  | entry => exact hlock.trans h
  | state nowUs index sleeper =>
    obtain ⟨h,hmem⟩ := h
    exact ⟨hlock.trans h,by rw [hsleep h]; exact hmem⟩
  | count nowUs index sleeper =>
    obtain ⟨h,hphase,hhome⟩ := h
    obtain ⟨hp,hh,_⟩ := hr.own sleeper.taskRef.slot (by rw [hphase]; rfl)
    exact ⟨hlock.trans h,hp.trans hphase,hh.trans hhome⟩
  | push nowUs index sleeper =>
    obtain ⟨h,hphase⟩ := h
    exact ⟨hlock.trans h,(hr.own sleeper.taskRef.slot (by rw [hphase]; rfl)).1.trans hphase⟩

theorem WakerOk.stable {i : Nat} {pc : Waker} (h : WakerOk i s pc) (hr : Rely (.waker i) s s') : WakerOk i s' pc := by
  cases pc with
  | idle | drain | killPending => trivial
  | creating taskRef =>
    have h : s.phase taskRef.slot = .woken (.waker i) := h
    exact (hr.own taskRef.slot (by rw [h]; rfl)).1.trans h
  | waking taskRef call rest => exact WakeOk.stable h hr

theorem AgentOk.stable (agent : Agent) (pc : Pc agent) (s s' : Shared) (h : AgentOk agent pc s) (hr : Rely agent s s') :
    AgentOk agent pc s' := by
  cases agent with
  | waker i => exact WakerOk.stable h hr
  | timer core => exact TimerOk.stable h hr
  | core core => exact CoreOk.stable h hr

end Stable
end MofuOS.Process.Cores
