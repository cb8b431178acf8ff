import Mathlib.Data.Finset.Max
import Mathlib.Data.Fintype.Defs

/-! Agents that hold resources and wait for others. Where the resources are taken in an order, they do not wait for each
other in a circle. -/
namespace MofuOS.Lib
variable {α L : Type} [Fintype α] (wants : α → Option L) (holds : α → L → Prop) {rank : L → Nat} {a : α} {l : L}

/-- Behind every agent that waits is one that holds something and does not. -/
theorem exists_holder_not_waiting (hheld : ∀ a l, wants a = some l → ∃ b, holds b l)
    (hrank : ∀ a l l', wants a = some l' → holds a l → rank l < rank l') (ha : wants a = some l) :
    ∃ b l', holds b l' ∧ rank l ≤ rank l' ∧ wants b = none := by
  let wanted : α → Nat := fun b => ((wants b).map rank).getD 0
  let waiting : Finset α := Finset.univ.filter fun b => (wants b).isSome = true
  have hmem : ∀ b l', wants b = some l' → b ∈ waiting := fun b l' hb =>
    Finset.mem_filter.mpr ⟨Finset.mem_univ b,by rw [hb]; rfl⟩
  have hwanted : ∀ b l', wants b = some l' → wanted b = rank l' := fun b l' hb => by
    show ((wants b).map rank).getD 0 = rank l'
    rw [hb]
    rfl
  -- the holder of what is last among the things waited for
  obtain ⟨last,hlast,hmax⟩ := waiting.exists_max_image wanted ⟨a,hmem a l ha⟩
  obtain ⟨l',hl'⟩ := Option.isSome_iff_exists.mp (Finset.mem_filter.mp hlast).2
  obtain ⟨b,hb⟩ := hheld last l' hl'
  refine ⟨b,l',hb,?_,?_⟩
  · rw [← hwanted a l ha,← hwanted last l' hl']
    exact hmax a (hmem a l ha)
  · by_contra hno
    obtain ⟨l'',hl''⟩ := Option.ne_none_iff_exists'.mp hno
    have hle := hmax b (hmem b l'' hl'')
    rw [hwanted b l'' hl'',hwanted last l' hl'] at hle
    exact absurd (hrank b l' l'' hl'' hb) (Nat.not_lt.mpr hle)

end MofuOS.Lib
