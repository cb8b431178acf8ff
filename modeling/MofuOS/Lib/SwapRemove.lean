import Mathlib.Data.List.Basic
import Mathlib.Data.List.Perm.Basic

/-! Arrays that close the gap of a removed element with their last one, up to the order of their elements. -/
namespace MofuOS.Lib
variable {α : Type}

/-- The last element takes the place i. -/
def swapRemove (l : List α) (i : Nat) : List α :=
  match l.getLast? with
  | some x => (l.set i x).dropLast
  | none => []

/-- From place i on, drop every element the test accepts, looking again at the place that was closed. -/
def purgeFrom (test : α → Bool) : Nat → Nat → List α → List α
  | 0, _, l => l
  | fuel + 1, i, l => match l[i]? with
    | none => l
    | some x => if test x then purgeFrom test fuel i (swapRemove l i) else purgeFrom test fuel (i + 1) l

def purge (test : α → Bool) (l : List α) : List α := purgeFrom test l.length 0 l

variable {l : List α} {i : Nat} {x : α}

theorem swapRemove_append (f : List α) (x : α) (i : Nat) : swapRemove (f ++ [x]) i = f.set i x := by
  rw [swapRemove,List.getLast?_append_of_ne_nil _ (List.cons_ne_nil x []),List.getLast?_singleton]
  change ((f ++ [x]).set i x).dropLast = f.set i x
  rw [List.set_append]
  split_ifs with hi
  · exact List.dropLast_concat
  · rw [List.set_eq_of_length_le (Nat.le_of_not_lt hi)]
    cases i - f.length with
    | zero => exact List.dropLast_concat
    | succ n => exact List.dropLast_concat

/-- Places in front of the closed one are untouched, and the ones from it on keep all but its element. -/
theorem swapRemove_split (h : l[i]? = some x) :
    (swapRemove l i).take i = l.take i ∧ ((swapRemove l i).drop i).Perm (l.drop (i + 1)) := by
  obtain ⟨hi,hx⟩ := List.getElem?_eq_some_iff.mp h
  obtain ⟨f,y,rfl⟩ : ∃ f y, l = f ++ [y] := ⟨_,_,(List.dropLast_append_getLast (List.ne_nil_of_length_pos (by omega))).symm⟩
  rw [List.length_append,List.length_singleton] at hi
  rw [swapRemove_append]
  rcases Nat.lt_or_eq_of_le (Nat.le_of_lt_succ hi) with hlt | rfl
  · constructor
    · rw [List.take_set_of_le (Nat.le_refl i),List.take_append_of_le_length (Nat.le_of_lt hlt)]
    · have hlen : (f.take i).length = i := List.length_take_of_le (Nat.le_of_lt hlt)
      rw [List.set_eq_take_append_cons_drop,if_pos hlt,List.drop_append_of_le_length (Nat.le_of_eq hlen.symm),
        List.drop_of_length_le (Nat.le_of_eq hlen),List.nil_append,List.drop_append_of_le_length (by omega)]
      exact (List.perm_append_singleton y _).symm
  · rw [List.set_eq_of_length_le (Nat.le_refl _),List.take_left,List.take_length,List.drop_length,
      List.drop_of_length_le (by simp)]
    exact ⟨rfl,.refl []⟩

theorem swapRemove_perm (h : l[i]? = some x) : l.Perm (x :: swapRemove l i) := by
  obtain ⟨htake,hdrop⟩ := swapRemove_split h
  obtain ⟨hi,hx⟩ := List.getElem?_eq_some_iff.mp h
  have hl : l.Perm (x :: (l.take i ++ l.drop (i + 1))) := by
    refine List.Perm.trans (.of_eq ?_) List.perm_middle
    rw [← hx,← List.drop_eq_getElem_cons hi,List.take_append_drop]
  have hrest : (l.take i ++ l.drop (i + 1)).Perm (swapRemove l i) := by
    rw [← htake]
    refine (hdrop.symm.append_left _).trans ?_
    rw [List.take_append_drop]
  exact hl.trans (hrest.cons x)

theorem mem_of_mem_swapRemove {y : α} (h : y ∈ swapRemove l i) : y ∈ l := by
  rcases List.eq_nil_or_concat l with rfl | ⟨f,x,rfl⟩
  · exact h
  · rw [List.concat_eq_append] at h ⊢
    rw [swapRemove_append] at h
    rcases List.mem_or_eq_of_mem_set h with hm | rfl
    · exact List.mem_append_left _ hm
    · exact List.mem_append_right _ List.mem_cons_self

theorem length_swapRemove (h : l[i]? = some x) : (swapRemove l i).length + 1 = l.length :=
  (swapRemove_perm h).length_eq.symm

/-- The rounds are enough for the places that are left, so what stays is what the test refuses. -/
theorem purgeFrom_perm (test : α → Bool) (fuel : Nat) (hfuel : l.length ≤ i + fuel) :
    (purgeFrom test fuel i l).Perm (l.take i ++ (l.drop i).filter (!test ·)) := by
  induction fuel generalizing i l with
  | zero =>
    rw [Nat.add_zero] at hfuel
    rw [purgeFrom,List.drop_of_length_le hfuel,List.take_of_length_le hfuel,List.filter_nil,List.append_nil]
  | succ fuel ih =>
    rw [purgeFrom]
    cases hx : l[i]? with
    | none =>
      have hle := List.getElem?_eq_none_iff.mp hx
      simp only [List.drop_of_length_le hle,List.take_of_length_le hle,List.filter_nil,List.append_nil]
      exact .refl l
    | some x =>
      obtain ⟨hi,hget⟩ := List.getElem?_eq_some_iff.mp hx
      have hdrop : l.drop i = x :: l.drop (i + 1) := by rw [← hget,← List.drop_eq_getElem_cons hi]
      simp only
      split_ifs with htest
      · obtain ⟨htake,hrest⟩ := swapRemove_split hx
        have hlen := length_swapRemove hx
        rw [hdrop,List.filter_cons_of_neg (by simp [htest]),← htake]
        exact (ih (by omega)).trans ((hrest.filter _).append_left _)
      · rw [hdrop,List.filter_cons_of_pos (by simp [htest])]
        refine (ih (by omega)).trans ?_
        rw [List.take_succ_eq_append_getElem hi,hget,List.append_assoc]
        exact .refl _

theorem purge_perm (test : α → Bool) (l : List α) : (purge test l).Perm (l.filter (!test ·)) := by
  simpa only [purge,List.take_zero,List.drop_zero,List.nil_append] using purgeFrom_perm (i := 0) test l.length (by omega)

end MofuOS.Lib
