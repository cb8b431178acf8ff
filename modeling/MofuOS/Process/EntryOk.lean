import MofuOS.Process.Scheduler

/-! The entries that sleepers and waiters leave in the lists: a task that blocks has no older one. -/
namespace MofuOS.Process
open Lib

/-- A list that holds references to blocked tasks. -/
inductive WaitPlace where
  | sleeping (core : Core)
  | waiting (waitQueue : WaitQueue)
  deriving DecidableEq, Repr

def Kernel.entries (k : Kernel) : WaitPlace → List TaskRef
  | .sleeping core => (k.runQueues core).sleepingTasks.map (·.taskRef)
  | .waiting waitQueue => k.waiters waitQueue

/-- The entry of a live task is the one of its present wait, or it was killed and will not wait again. -/
structure EntryOk (entries : WaitPlace → List TaskRef) (slot : Slot) (task : TaskSlot) (joined : Option WaitQueue)
    (sawKill : Bool) : Prop where
  spent : ∀ place, ⟨slot,task.pid⟩ ∈ entries place →
    task.state = .blocked ∧ (∀ core, place = .sleeping core → task.homeCore = core) ∨
    task.killPending = true ∧ (task.state = .ready ∨ task.state = .running ∧ sawKill = true)
  once : task.state = .blocked → ∀ place, (entries place).count ⟨slot,task.pid⟩ ≤ 1
  place : task.state = .blocked → ∀ place place', ⟨slot,task.pid⟩ ∈ entries place → ⟨slot,task.pid⟩ ∈ entries place' → place = place'
  joined : task.state = .blocked → ∀ waitQueue, joined = some waitQueue → ∀ place, ⟨slot,task.pid⟩ ∈ entries place →
    place = .waiting waitQueue

namespace EntryOk
variable {entries entries' : WaitPlace → List TaskRef} {slot : Slot} {task task' : TaskSlot} {joined joined' : Option WaitQueue}
  {sawKill sawKill' : Bool} {place : WaitPlace}

theorem of_notMem (h : ∀ place, ⟨slot,task.pid⟩ ∉ entries place) : EntryOk entries slot task joined sawKill :=
  ⟨fun place hm => absurd hm (h place),fun _ place => (List.count_eq_zero.mpr (h place)).le.trans (Nat.zero_le 1),
    fun _ place _ hm => absurd hm (h place),fun _ _ _ place hm => absurd hm (h place)⟩

theorem mono (h : EntryOk entries slot task joined sawKill)
    (hle : ∀ place, (entries' place).count ⟨slot,task.pid⟩ ≤ (entries place).count ⟨slot,task.pid⟩) :
    EntryOk entries' slot task joined sawKill := by
  have hmem : ∀ place, ⟨slot,task.pid⟩ ∈ entries' place → ⟨slot,task.pid⟩ ∈ entries place := by
    intro place hm
    exact List.count_pos_iff.mp (Nat.lt_of_lt_of_le (List.count_pos_iff.mpr hm) (hle place))
  exact ⟨fun place hm => h.spent place (hmem place hm),fun hb place => (hle place).trans (h.once hb place),
    fun hb p p' hm hm' => h.place hb p p' (hmem p hm) (hmem p' hm'),
    fun hb q hq place hm => h.joined hb q hq place (hmem place hm)⟩

/-- A task that can block has no entry left. -/
theorem fresh (h : EntryOk entries slot task joined sawKill) (hrun : task.state = .running) (hkill : sawKill = false)
    (place : WaitPlace) : ⟨slot,task.pid⟩ ∉ entries place := by
  intro hm
  rcases h.spent place hm with ⟨hb,_⟩ | ⟨_,hr | ⟨_,hs⟩⟩
  · rw [hrun] at hb
    cases hb
  · rw [hrun] at hr
    cases hr
  · rw [hkill] at hs
    cases hs

/-- A task that has been killed while it was blocked, or that had no entry, is ready or runs. -/
theorem off (hpid : task'.pid = task.pid) (hstate : task'.state ≠ .blocked)
    (h : ∀ place, ⟨slot,task.pid⟩ ∈ entries place → task'.killPending = true ∧
      (task'.state = .ready ∨ task'.state = .running ∧ sawKill = true)) : EntryOk entries slot task' joined sawKill := by
  refine ⟨fun place hm => .inr (h place (hpid ▸ hm)),fun hb => absurd hb hstate,fun hb => absurd hb hstate,
    fun hb => absurd hb hstate⟩

/-- The one entry of a blocked task is dropped. -/
theorem gone (h : EntryOk entries slot task joined sawKill) (hb : task.state = .blocked) (place : WaitPlace) (rest : List TaskRef)
    (hself : rest.count ⟨slot,task.pid⟩ + 1 ≤ (entries place).count ⟨slot,task.pid⟩) (p : WaitPlace) :
    ⟨slot,task.pid⟩ ∉ Function.update entries place rest p := by
  intro hp
  have hm : ⟨slot,task.pid⟩ ∈ entries place := List.count_pos_iff.mp (by omega)
  by_cases he : p = place
  · subst he
    rw [Function.update_self] at hp
    have hpos := List.count_pos_iff.mpr hp
    have hone := h.once hb p
    omega
  · rw [Function.update_of_ne he] at hp
    exact he (h.place hb p place hp hm)

/-- A task without an entry blocks and gets one. -/
theorem block {room : List TaskRef} (hnone : ∀ p, ⟨slot,task.pid⟩ ∉ entries p) (hroom : ⟨slot,task.pid⟩ ∉ room)
    (hhome : ∀ core, place = .sleeping core → task.homeCore = core) (hb : task.state = .blocked)
    (hjoined : ∀ q, joined = some q → place = .waiting q) :
    EntryOk (Function.update entries place (room ++ [⟨slot,task.pid⟩])) slot task joined sawKill := by
  have honly : ∀ p, ⟨slot,task.pid⟩ ∈ Function.update entries place (room ++ [⟨slot,task.pid⟩]) p → p = place := by
    intro p hm
    by_contra hne
    rw [Function.update_of_ne hne] at hm
    exact hnone p hm
  refine ⟨fun p hm => .inl ⟨hb,fun core hp => hhome core ((honly p hm).symm.trans hp)⟩,fun _ p => ?_,
    fun _ p p' hm hm' => (honly p hm).trans (honly p' hm').symm,fun _ q hq p hm => (honly p hm).trans (hjoined q hq)⟩
  by_cases hp : p = place
  · rw [hp,Function.update_self,List.count_append,List.count_eq_zero.mpr hroom,List.count_singleton_self]
  · rw [Function.update_of_ne hp,List.count_eq_zero.mpr (hnone p)]
    exact Nat.zero_le 1

/-- A task changes in nothing its entries depend on, or is killed, or leaves the core it had joined a wait queue on. -/
theorem congr (h : EntryOk entries slot task joined sawKill) (hpid : task'.pid = task.pid) (hstate : task'.state = task.state)
    (hhome : task'.homeCore = task.homeCore) (hkill : task.killPending = true → task'.killPending = true)
    (hjoined : ∀ q, joined' = some q → joined = some q) : EntryOk entries slot task' joined' sawKill := by
  refine ⟨fun place hm => ?_,?_,?_,?_⟩
  · rw [hpid] at hm
    rw [hstate,hhome]
    exact (h.spent place hm).imp_right fun hk => ⟨hkill hk.1,hk.2⟩
  · rw [hpid,hstate]
    exact h.once
  · rw [hpid,hstate]
    exact h.place
  · rw [hpid,hstate]
    exact fun hb q hq => h.joined hb q (hjoined q hq)

/-- One task is replaced. -/
theorem update {tasks : Tasks} {joined : Slot → Option WaitQueue} {sawKill : Slot → Bool}
    (hself : EntryOk entries slot task (joined slot) (sawKill slot))
    (hother : ∀ s, s ≠ slot → EntryOk entries s (tasks s) (joined s) (sawKill s)) (s : Slot) :
    EntryOk entries s (Function.update tasks slot task s) (joined s) (sawKill s) := by
  by_cases hs : s = slot
  · rw [hs,Function.update_self]
    exact hself
  · rw [Function.update_of_ne hs]
    exact hother s hs

end EntryOk
end MofuOS.Process
