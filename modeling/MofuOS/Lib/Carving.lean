import MofuOS.Lib.Arena
import Mathlib.Data.Multiset.AddSub
import Mathlib.Algebra.BigOperators.Group.Finset.Basic

/-! Memory that was obtained in regions and is carved into parts: a part stays inside what was obtained and
shares no cell with another part. -/
namespace MofuOS.Lib
namespace Region
variable {q r r' o : Region}

def Within (r o : Region) : Prop := o.off ≤ r.off ∧ r.stop ≤ o.stop

theorem Within.trans (h : q.Within r) (h' : r.Within o) : q.Within o := ⟨h'.1.trans h.1,h.2.trans h'.2⟩

theorem Apart.within (h : r.Apart r') (hq : q.Within r) : q.Apart r' := by
  unfold Apart Within stop at *
  omega

instance : Std.Symm Region.Apart := ⟨fun _ _ h => h.symm⟩

end Region

/-- Each part is empty or inside a region that was obtained, and no two parts share a cell. -/
structure Carved (obtained : List Region) (parts : Multiset Region) : Prop where
  inside : ∀ r ∈ parts, r.len = 0 ∨ ∃ o ∈ obtained, r.Within o
  apart : parts.Pairwise Region.Apart

namespace Carved
variable {obtained : List Region} {parts : Multiset Region} {q q' r : Region}

private theorem pairwise_cons : (r ::ₘ parts).Pairwise Region.Apart ↔ (∀ r' ∈ parts, r.Apart r') ∧ parts.Pairwise Region.Apart := by
  induction parts using Quotient.inductionOn with
  | _ l =>
    change Multiset.Pairwise _ ((r :: l : List Region) : Multiset Region) ↔ (∀ r' ∈ l, _) ∧ Multiset.Pairwise _ (l : Multiset Region)
    rw [Multiset.pairwise_coe_iff_pairwise,Multiset.pairwise_coe_iff_pairwise,List.pairwise_cons]

theorem cons_iff : Carved obtained (r ::ₘ parts) ↔
    (r.len = 0 ∨ ∃ o ∈ obtained, r.Within o) ∧ (∀ r' ∈ parts, r.Apart r') ∧ Carved obtained parts := by
  constructor
  · intro h
    obtain ⟨hr,hrest⟩ := pairwise_cons.mp h.apart
    exact ⟨h.inside r (Multiset.mem_cons_self ..),hr,fun r' hr' => h.inside r' (Multiset.mem_cons_of_mem hr'),hrest⟩
  · rintro ⟨hin,hr,hrest⟩
    refine ⟨fun r' hr' => ?_,pairwise_cons.mpr ⟨hr,hrest.apart⟩⟩
    obtain rfl | hr' := Multiset.mem_cons.mp hr'
    · exact hin
    · exact hrest.inside r' hr'

theorem nothing : Carved obtained 0 := ⟨fun r hr => absurd hr (Multiset.notMem_zero r),Multiset.pairwise_zero _⟩

theorem drop (h : Carved obtained (r ::ₘ parts)) : Carved obtained parts := (cons_iff.mp h).2.2

/-- An empty part lies nowhere. -/
theorem add_empty (h : Carved obtained parts) (hr : r.len = 0) : Carved obtained (r ::ₘ parts) :=
  cons_iff.mpr ⟨.inl hr,fun _ _ => .inl hr,h⟩

/-- A part may shrink. -/
theorem shrink (h : Carved obtained (r ::ₘ parts)) (hq : q.Within r) : Carved obtained (q ::ₘ parts) := by
  obtain ⟨hin,hr,hrest⟩ := cons_iff.mp h
  refine cons_iff.mpr ⟨hin.imp (fun h0 => ?_) fun ⟨o,ho,hwithin⟩ => ⟨o,ho,hq.trans hwithin⟩,fun r' hr' => (hr r' hr').within hq,hrest⟩
  unfold Region.Within Region.stop at hq
  omega

/-- A part may be cut in two, and what lies outside both pieces is lost. -/
theorem split (h : Carved obtained (r ::ₘ parts)) (hq : q.Within r) (hq' : q'.Within r) (happart : q.Apart q') :
    Carved obtained (q ::ₘ q' ::ₘ parts) := by
  obtain ⟨hin,hr,_⟩ := cons_iff.mp (h.shrink hq)
  refine cons_iff.mpr ⟨hin,fun r' hr' => ?_,h.shrink hq'⟩
  obtain rfl | hr' := Multiset.mem_cons.mp hr'
  · exact happart
  · exact hr r' hr'

/-- A region is obtained that none of the others meets. -/
theorem obtain_region (h : Carved obtained parts) (hfresh : ∀ o ∈ obtained, r.Apart o) :
    Carved (r :: obtained) (r ::ₘ parts) := by
  refine cons_iff.mpr ⟨.inr ⟨r,List.mem_cons_self,Nat.le_refl _,Nat.le_refl _⟩,fun r' hr' => ?_,fun r' hr' => ?_,h.apart⟩
  · obtain h0 | ⟨o,ho,hwithin⟩ := h.inside r' hr'
    · exact .inr (.inl h0)
    · exact ((hfresh o ho).symm.within hwithin).symm
  · exact (h.inside r' hr').imp id fun ⟨o,ho,hwithin⟩ => ⟨o,List.mem_cons_of_mem r ho,hwithin⟩

end Carved

/-- Parts that are kept on a list for each class: one list gets longer by one of them. -/
theorem sum_classes_push {κ α β : Type} [Fintype κ] [DecidableEq κ] {lists lists' : κ → List α} (f : κ → α → β) {k : κ} {a : α}
    (hk : lists' k = a :: lists k) (hother : ∀ other, other ≠ k → lists' other = lists other) :
    ∑ c, (↑((lists' c).map (f c)) : Multiset β) = f k a ::ₘ ∑ c, ↑((lists c).map (f c)) := by
  rw [← Finset.add_sum_erase _ _ (Finset.mem_univ k),← Finset.add_sum_erase _ _ (Finset.mem_univ k),hk]
  have hrest : ∑ c ∈ Finset.univ.erase k, (↑((lists' c).map (f c)) : Multiset β) =
      ∑ c ∈ Finset.univ.erase k, ↑((lists c).map (f c)) :=
    Finset.sum_congr rfl fun c hc => by rw [hother c (Finset.ne_of_mem_erase hc)]
  rw [hrest,List.map_cons,← Multiset.cons_coe,Multiset.cons_add]

end MofuOS.Lib
