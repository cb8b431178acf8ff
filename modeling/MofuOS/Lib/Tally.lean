import Mathlib.Algebra.BigOperators.Group.Finset.Basic
import Mathlib.Algebra.Order.BigOperators.Group.Finset
import Mathlib.Algebra.BigOperators.Group.Finset.Piecewise
import Mathlib.Data.Fintype.Card

/-! How many entries of a finite table pass a test. -/
namespace MofuOS.Lib
variable {α β : Type} [Fintype α]

def tally (test : β → Bool) (f : α → β) : Nat := ∑ i, (test (f i)).toNat

variable (test : β → Bool) (f : α → β)

/-- One entry changes, and the tally changes by what it adds and no longer adds. -/
theorem tally_update [DecidableEq α] (i : α) (b : β) :
    tally test (Function.update f i b) + (test (f i)).toNat = tally test f + (test b).toNat := by
  have hrest : ∑ j ∈ Finset.univ.erase i, (test (Function.update f i b j)).toNat = ∑ j ∈ Finset.univ.erase i, (test (f j)).toNat := by
    refine Finset.sum_congr rfl fun j hj => ?_
    rw [Function.update_of_ne (Finset.ne_of_mem_erase hj)]
  have hnew := Finset.add_sum_erase Finset.univ (fun j => (test (Function.update f i b j)).toNat) (Finset.mem_univ i)
  have hold := Finset.add_sum_erase Finset.univ (fun j => (test (f j)).toNat) (Finset.mem_univ i)
  rw [Function.update_self,hrest] at hnew
  rw [tally,tally,← hnew,← hold]
  omega

theorem tally_le : tally test f ≤ Fintype.card α := by
  have := Finset.sum_le_card_nsmul Finset.univ (fun i => (test (f i)).toNat) 1 fun i _ => Bool.toNat_le _
  simpa [tally] using this

theorem tally_eq_card : tally test f = (Finset.univ.filter fun i => test (f i) = true).card := by
  rw [tally,Finset.card_filter]
  refine Finset.sum_congr rfl fun i _ => ?_
  cases test (f i) <;> rfl

variable {test f}

theorem tally_pos {i : α} (h : test (f i) = true) : 0 < tally test f := by
  have hone : (1 : Nat) = (test (f i)).toNat := by rw [h]; rfl
  rw [tally,Nat.lt_iff_add_one_le,Nat.zero_add,hone]
  exact Finset.single_le_sum (fun j _ => Nat.zero_le (test (f j)).toNat) (Finset.mem_univ i)

end MofuOS.Lib
