import MofuOS.Process.Scheduler

/-! The tasks the cores run, through every change of a task and every switch of a core. -/
namespace MofuOS.Process
open Lib

/-- The tasks that are on a core. One that has joined a wait queue there may be blocked, or woken already. -/
structure CurrentOk (tasks : Tasks) (current : Core → Option TaskRef) (joined : Slot → Option WaitQueue) : Prop where
  held : ∀ core ref, current core = some ref →
    (tasks ref.slot).pid = ref.pid ∧ (tasks ref.slot).onCpu = true ∧ (tasks ref.slot).homeCore = core
  running : ∀ core ref, current core = some ref → joined ref.slot = none → (tasks ref.slot).state = .running
  waiting : ∀ core ref, current core = some ref → joined ref.slot ≠ none →
    (tasks ref.slot).state = .blocked ∨ (tasks ref.slot).state = .ready
  owner : ∀ slot, (tasks slot).state = .running ∨ joined slot ≠ none → ∃ core ref, current core = some ref ∧ ref.slot = slot

namespace CurrentOk
variable {tasks tasks' : Tasks} {current : Core → Option TaskRef} {joined : Slot → Option WaitQueue} {core core' : Core}
  {ref ref' : TaskRef} {slot : Slot} {task : TaskSlot}

theorem unique (h : CurrentOk tasks current joined) (hc : current core = some ref) (hc' : current core' = some ref')
    (hslot : ref'.slot = ref.slot) : core' = core := by
  rw [← (h.held core ref hc).2.2,← (h.held core' ref' hc').2.2,hslot]

/-- A task changes in nothing the cores look at. -/
theorem congr (h : CurrentOk tasks current joined) (ht : ∀ slot, (tasks' slot).pid = (tasks slot).pid ∧
    (tasks' slot).onCpu = (tasks slot).onCpu ∧ (tasks' slot).homeCore = (tasks slot).homeCore ∧
    (tasks' slot).state = (tasks slot).state) : CurrentOk tasks' current joined := by
  refine ⟨fun core ref hc => ?_,fun core ref hc hj => ?_,fun core ref hc hj => ?_,fun slot hs => ?_⟩
  · obtain ⟨hpid,hcpu,hhome,_⟩ := ht ref.slot
    rw [hpid,hcpu,hhome]
    exact h.held core ref hc
  · rw [(ht ref.slot).2.2.2]
    exact h.running core ref hc hj
  · rw [(ht ref.slot).2.2.2]
    exact h.waiting core ref hc hj
  · rw [(ht slot).2.2.2] at hs
    exact h.owner slot hs

/-- A task that is on no core changes, and is not made to run. -/
theorem replace (h : CurrentOk tasks current joined) (hoff : ∀ core ref, current core = some ref → ref.slot ≠ slot)
    (hstate : task.state ≠ .running) : CurrentOk (Function.update tasks slot task) current joined := by
  refine ⟨fun core ref hc => ?_,fun core ref hc hj => ?_,fun core ref hc hj => ?_,fun s hs => ?_⟩
  · rw [Function.update_of_ne (hoff core ref hc)]
    exact h.held core ref hc
  · rw [Function.update_of_ne (hoff core ref hc)]
    exact h.running core ref hc hj
  · rw [Function.update_of_ne (hoff core ref hc)]
    exact h.waiting core ref hc hj
  · by_cases hslot : s = slot
    · subst hslot
      rw [Function.update_self] at hs
      exact h.owner s (.inr (hs.resolve_left hstate))
    · rw [Function.update_of_ne hslot] at hs
      exact h.owner s hs

theorem wake (h : CurrentOk tasks current joined) (hb : (tasks slot).state = .blocked) :
    CurrentOk (Function.update tasks slot ((tasks slot).setState .ready)) current joined := by
  have hsame : ∀ s, (Function.update tasks slot ((tasks slot).setState .ready) s).pid = (tasks s).pid ∧
      (Function.update tasks slot ((tasks slot).setState .ready) s).onCpu = (tasks s).onCpu ∧
      (Function.update tasks slot ((tasks slot).setState .ready) s).homeCore = (tasks s).homeCore := by
    intro s
    by_cases hs : s = slot
    · subst hs
      rw [Function.update_self]
      exact ⟨rfl,rfl,rfl⟩
    · rw [Function.update_of_ne hs]
      exact ⟨rfl,rfl,rfl⟩
  refine ⟨fun core ref hc => ?_,fun core ref hc hj => ?_,fun core ref hc hj => ?_,fun s hs => ?_⟩
  · obtain ⟨hpid,hcpu,hhome⟩ := hsame ref.slot
    rw [hpid,hcpu,hhome]
    exact h.held core ref hc
  · have hrun := h.running core ref hc hj
    have hne : ref.slot ≠ slot := by
      intro e
      rw [e,hb] at hrun
      cases hrun
    rwa [Function.update_of_ne hne]
  · by_cases hslot : ref.slot = slot
    · rw [hslot,Function.update_self]
      exact .inr rfl
    · rw [Function.update_of_ne hslot]
      exact h.waiting core ref hc hj
  · refine h.owner s (hs.imp_left fun hr => ?_)
    by_cases hslot : s = slot
    · subst hslot
      rw [Function.update_self] at hr
      cases hr
    · rwa [Function.update_of_ne hslot] at hr

/-- The running task of a core joins a wait queue. -/
theorem join (h : CurrentOk tasks current joined) (hc : current core = some ref) (waitQueue : WaitQueue) :
    CurrentOk (Function.update tasks ref.slot ((tasks ref.slot).setState .blocked)) current
      (Function.update joined ref.slot (some waitQueue)) := by
  refine ⟨fun core' ref' hc' => ?_,fun core' ref' hc' hj => ?_,fun core' ref' hc' hj => ?_,fun s hs => ?_⟩
  · by_cases hslot : ref'.slot = ref.slot
    · have hheld := h.held core' ref' hc'
      rw [hslot] at hheld ⊢
      rw [Function.update_self]
      exact hheld
    · rw [Function.update_of_ne hslot]
      exact h.held core' ref' hc'
  · by_cases hslot : ref'.slot = ref.slot
    · rw [hslot,Function.update_self] at hj
      cases hj
    · rw [Function.update_of_ne hslot] at hj ⊢
      exact h.running core' ref' hc' hj
  · by_cases hslot : ref'.slot = ref.slot
    · rw [hslot,Function.update_self]
      exact .inl rfl
    · rw [Function.update_of_ne hslot] at hj ⊢
      exact h.waiting core' ref' hc' hj
  · by_cases hslot : s = ref.slot
    · exact ⟨core,ref,hc,hslot.symm⟩
    · rw [Function.update_of_ne hslot,Function.update_of_ne hslot] at hs
      exact h.owner s hs

/-- The task of a core gives it up. -/
theorem leave (h : CurrentOk tasks current joined) (hc : current core = some ref) (hstate : task.state ≠ .running) :
    CurrentOk (Function.update tasks ref.slot task) (Function.update current core none) (Function.update joined ref.slot none) := by
  have hoff : ∀ core' ref', Function.update current core none core' = some ref' →
      current core' = some ref' ∧ ref'.slot ≠ ref.slot := by
    intro core' ref' hc'
    by_cases hcc : core' = core
    · rw [hcc,Function.update_self] at hc'
      cases hc'
    · rw [Function.update_of_ne hcc] at hc'
      exact ⟨hc',fun e => hcc (h.unique hc hc' e)⟩
  refine ⟨fun core' ref' hc' => ?_,fun core' ref' hc' hj => ?_,fun core' ref' hc' hj => ?_,fun s hs => ?_⟩
  · obtain ⟨hc',hne⟩ := hoff core' ref' hc'
    rw [Function.update_of_ne hne]
    exact h.held core' ref' hc'
  · obtain ⟨hc',hne⟩ := hoff core' ref' hc'
    rw [Function.update_of_ne hne] at hj ⊢
    exact h.running core' ref' hc' hj
  · obtain ⟨hc',hne⟩ := hoff core' ref' hc'
    rw [Function.update_of_ne hne] at hj ⊢
    exact h.waiting core' ref' hc' hj
  · by_cases hslot : s = ref.slot
    · rw [hslot,Function.update_self,Function.update_self] at hs
      exact (hs.elim hstate fun e => e rfl).elim
    · rw [Function.update_of_ne hslot,Function.update_of_ne hslot] at hs
      obtain ⟨core',ref',hc',hs'⟩ := h.owner s hs
      refine ⟨core',ref',?_,hs'⟩
      rw [Function.update_of_ne]
      · exact hc'
      · rintro rfl
        rw [hc] at hc'
        cases hc'
        exact hslot hs'.symm

/-- A task that is on no core gets one that was free. -/
theorem enter (h : CurrentOk tasks current joined) (hc : current core = none)
    (hoff : ∀ core ref, current core = some ref → ref.slot ≠ slot) (hhome : (tasks slot).homeCore = core) :
    CurrentOk (Function.update tasks slot { tasks slot with state := .running, onCpu := true })
      (Function.update current core (some ⟨slot,(tasks slot).pid⟩)) joined := by
  have hjoined : joined slot = none := by
    by_contra hj
    obtain ⟨core',ref,hc',hs⟩ := h.owner slot (.inr hj)
    exact hoff core' ref hc' hs
  have hcases : ∀ core' ref, Function.update current core (some ⟨slot,(tasks slot).pid⟩) core' = some ref →
      core' = core ∧ ref = ⟨slot,(tasks slot).pid⟩ ∨ current core' = some ref ∧ ref.slot ≠ slot := by
    intro core' ref hc'
    by_cases hcc : core' = core
    · rw [hcc,Function.update_self] at hc'
      exact .inl ⟨hcc,(Option.some.inj hc').symm⟩
    · rw [Function.update_of_ne hcc] at hc'
      exact .inr ⟨hc',hoff core' ref hc'⟩
  refine ⟨fun core' ref hc' => ?_,fun core' ref hc' hj => ?_,fun core' ref hc' hj => ?_,fun s hs => ?_⟩
  · rcases hcases core' ref hc' with ⟨rfl,rfl⟩ | ⟨hc',hne⟩
    · rw [Function.update_self]
      exact ⟨rfl,rfl,hhome⟩
    · rw [Function.update_of_ne hne]
      exact h.held core' ref hc'
  · rcases hcases core' ref hc' with ⟨rfl,rfl⟩ | ⟨hc',hne⟩
    · rw [Function.update_self]
    · rw [Function.update_of_ne hne]
      exact h.running core' ref hc' hj
  · rcases hcases core' ref hc' with ⟨rfl,rfl⟩ | ⟨hc',hne⟩
    · exact absurd hjoined hj
    · rw [Function.update_of_ne hne]
      exact h.waiting core' ref hc' hj
  · by_cases hslot : s = slot
    · exact ⟨core,⟨slot,(tasks slot).pid⟩,Function.update_self ..,hslot.symm⟩
    · rw [Function.update_of_ne hslot] at hs
      obtain ⟨core',ref,hc',hs'⟩ := h.owner s hs
      refine ⟨core',ref,?_,hs'⟩
      rw [Function.update_of_ne]
      · exact hc'
      · rintro rfl
        rw [hc] at hc'
        cases hc'

end CurrentOk
end MofuOS.Process
