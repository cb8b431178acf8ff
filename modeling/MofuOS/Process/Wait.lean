import MofuOS.Process.Task
import MofuOS.Lib.SwapRemove

/-! The list of a wait queue: task references in an array of fixed size, in no order that matters. -/
namespace MofuOS.Process
open Lib

/-- A waiter that was killed or has been woken leaves its entry behind. -/
def TaskRef.isStale (tasks : Tasks) (taskRef : TaskRef) : Bool :=
  (tasks taskRef.slot).pid ≠ taskRef.pid || (tasks taskRef.slot).state ≠ .blocked

namespace WaiterList

/-- The oldest stale entries make room in a full list. There is no result when none is stale. -/
def push (isStale : TaskRef → Bool) (waiters : List TaskRef) (taskRef : TaskRef) : Option (List TaskRef) :=
  let room := if waiters.length = maxTasks then purge isStale waiters else waiters
  if room.length < maxTasks then some (room ++ [taskRef]) else none

def remove (waiters : List TaskRef) (taskRef : TaskRef) : List TaskRef :=
  match waiters.findIdx? (· = taskRef) with
  | some index => swapRemove waiters index
  | none => waiters

variable {isStale : TaskRef → Bool} {waiters waiters' : List TaskRef} {taskRef other : TaskRef}

theorem push_eq (h : push isStale waiters taskRef = some waiters') :
    ∃ room, waiters' = room ++ [taskRef] ∧ (room = waiters ∨ room.Perm (waiters.filter (!isStale ·))) := by
  simp only [push] at h
  split_ifs at h with hfull hroom hroom <;> cases h
  · exact ⟨_,rfl,.inr (purge_perm ..)⟩
  · exact ⟨_,rfl,.inl rfl⟩

theorem remove_perm (h : taskRef ∈ waiters) : waiters.Perm (taskRef :: remove waiters taskRef) := by
  cases hidx : waiters.findIdx? (· = taskRef) with
  | none =>
    have := List.findIdx?_eq_none_iff.mp hidx taskRef h
    simp at this
  | some index =>
    obtain ⟨hi,heq,_⟩ := List.findIdx?_eq_some_iff_getElem.mp hidx
    have hget : waiters[index]? = some taskRef := by
      rw [List.getElem?_eq_getElem hi]
      exact congrArg some (by simpa using heq)
    rw [remove,hidx]
    exact swapRemove_perm hget

theorem remove_of_notMem (h : taskRef ∉ waiters) : remove waiters taskRef = waiters := by
  have hidx : waiters.findIdx? (· = taskRef) = none := by
    rw [List.findIdx?_eq_none_iff]
    intro x hx
    simp only [decide_eq_false_iff_not]
    rintro rfl
    exact h hx
  rw [remove,hidx]

end WaiterList
end MofuOS.Process
