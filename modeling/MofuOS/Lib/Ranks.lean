import Mathlib.Data.List.Sort

/-! The ranks of the entries of a list by a key. Where no two entries share a key, ranks are in the order of the keys. -/
namespace MofuOS.Lib
variable {α : Type} {key : α → Nat} {l : List α} {a b : α} {n : Nat}

/-- No two entries have one key. -/
def KeysApart (key : α → Nat) (l : List α) : Prop := ∀ a ∈ l, ∀ b ∈ l, key a = key b → a = b

theorem KeysApart.length_le (h : KeysApart key l) (hnodup : l.Nodup) (hlt : ∀ a ∈ l, key a < n) : l.length ≤ n := by
  have hkeys : (l.map key).Nodup := hnodup.map_on h
  have hsub : l.map key ⊆ List.range n := by
    intro k hk
    obtain ⟨a,ha,rfl⟩ := List.mem_map.mp hk
    exact List.mem_range.mpr (hlt a ha)
  simpa using (List.subperm_of_subset hkeys hsub).length_le

variable [DecidableEq α]

/-- How many entries come before this one when the list is sorted. -/
def rank (key : α → Nat) (l : List α) (a : α) : Nat := (l.insertionSort fun a b => key a ≤ key b).idxOf a

theorem rank_lt_length (key : α → Nat) (ha : a ∈ l) : rank key l a < l.length := by
  have hperm := List.perm_insertionSort (fun a b => key a ≤ key b) l
  exact hperm.length_eq ▸ List.idxOf_lt_length_of_mem (hperm.mem_iff.mpr ha)

/-- Every place is taken. -/
theorem exists_rank (key : α → Nat) (hnodup : l.Nodup) (hn : n < l.length) : ∃ a ∈ l, rank key l a = n := by
  have hperm := List.perm_insertionSort (fun a b => key a ≤ key b) l
  have hlt : n < (l.insertionSort fun a b => key a ≤ key b).length := hperm.length_eq.symm ▸ hn
  exact ⟨_,hperm.mem_iff.mp (List.getElem_mem hlt),(hperm.nodup_iff.mpr hnodup).idxOf_getElem n hlt⟩

theorem rank_lt_of_lt (ha : a ∈ l) (hb : b ∈ l) (hlt : key a < key b) : rank key l a < rank key l b := by
  have hperm := List.perm_insertionSort (fun a b => key a ≤ key b) l
  have hsorted : (l.insertionSort fun a b => key a ≤ key b).Pairwise fun a b => key a ≤ key b :=
    haveI : Std.Total fun a b : α => key a ≤ key b := ⟨fun a b => Nat.le_total (key a) (key b)⟩
    haveI : IsTrans α fun a b => key a ≤ key b := ⟨fun _ _ _ => Nat.le_trans⟩
    List.pairwise_insertionSort _ l
  have hltA := List.idxOf_lt_length_of_mem (hperm.mem_iff.mpr ha)
  have hltB := List.idxOf_lt_length_of_mem (hperm.mem_iff.mpr hb)
  refine Nat.not_le.mp fun hle => ?_
  obtain hbefore | hsame := Nat.lt_or_eq_of_le hle
  · have hkeys := List.pairwise_iff_getElem.mp hsorted _ _ hltB hltA hbefore
    rw [List.getElem_idxOf,List.getElem_idxOf] at hkeys
    exact absurd hlt (Nat.not_lt.mpr hkeys)
  · have heq : b = a := by
      rw [← List.getElem_idxOf hltB,← List.getElem_idxOf hltA]
      exact getElem_congr_idx hsame
    exact absurd hlt (heq ▸ Nat.lt_irrefl _)

theorem KeysApart.rank_lt_iff (h : KeysApart key l) (ha : a ∈ l) (hb : b ∈ l) : rank key l a < rank key l b ↔ key a < key b := by
  refine ⟨fun hrank => ?_,rank_lt_of_lt ha hb⟩
  obtain hlt | heq | hgt := Nat.lt_trichotomy (key a) (key b)
  · exact hlt
  · rw [h a ha b hb heq] at hrank
    exact absurd hrank (Nat.lt_irrefl _)
  · exact absurd hrank (Nat.lt_asymm (rank_lt_of_lt hb ha hgt))

end MofuOS.Lib
