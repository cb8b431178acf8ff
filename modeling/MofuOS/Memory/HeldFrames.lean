import MofuOS.Memory.Rollback
import Mathlib.Algebra.BigOperators.Group.Finset.Basic
import Mathlib.Algebra.BigOperators.Group.Finset.Piecewise

/-! Frames are neither lost nor made when pages are mapped and unmapped: those behind the pages, those of the
tables and the free ones stay the same together. -/
namespace MofuOS.Memory
variable {F : Type}

/-- The frame behind a page, if it is mapped. -/
def frameOf (entry : Option (PageTableEntry F)) : Multiset F := (entry.map PageTableEntry.frame).elim 0 fun frame => {frame}

namespace UserMemory
variable {s t : UserMemory F} {page first n : Nat} {frame : F} {flags : PageTableFlags} {ownership : FrameOwnership}
  {pages : Finset Nat} {new : List (TableKey × F)} {frames : Multiset F}

/-- What the pages hold, and the tables, and what is free. -/
def total (pages : Finset Nat) (s : UserMemory F) : Multiset F :=
  ∑ page ∈ pages, frameOf (s.leaves page) + ↑(s.tables.map Prod.snd) + s.available

section Update
theorem sum_frameOf_update (leaves : PageTable F) (entry : Option (PageTableEntry F)) (hpage : page ∈ pages) :
    ∑ p ∈ pages, frameOf (Function.update leaves page entry p) + frameOf (leaves page) =
      ∑ p ∈ pages, frameOf (leaves p) + frameOf entry := by
  rw [← Finset.add_sum_erase pages _ hpage,← Finset.add_sum_erase pages (fun p => frameOf (leaves p)) hpage,Function.update_self]
  have hrest : ∑ p ∈ pages.erase page, frameOf (Function.update leaves page entry p) = ∑ p ∈ pages.erase page, frameOf (leaves p) :=
    Finset.sum_congr rfl fun p hp => by rw [Function.update_of_ne (Finset.ne_of_mem_erase hp)]
  rw [hrest]
  abel

theorem sum_frameOf_update_of_notMem (leaves : PageTable F) (entry : Option (PageTableEntry F)) (hpage : page ∉ pages) :
    ∑ p ∈ pages, frameOf (Function.update leaves page entry p) = ∑ p ∈ pages, frameOf (leaves p) :=
  Finset.sum_congr rfl fun p hp => by rw [Function.update_of_ne fun heq : p = page => hpage (heq ▸ hp)]

end Update

/-- What was taken is held by the pages or by the new tables. -/
theorem Took.total (h : Took s t new frames)
    (hleaves : ∑ p ∈ pages, frameOf (t.leaves p) = ∑ p ∈ pages, frameOf (s.leaves p) + frames) : t.total pages = s.total pages := by
  rw [UserMemory.total,UserMemory.total,hleaves,h.tables,h.available,List.map_append,← Multiset.coe_add]
  abel

section Unmap
variable [Mapper F]

theorem unmapPage_total (hpresent : ∀ entry, s.leaves page = some entry → entry.flags.present)
    (howned : ownership = .owned ↔ page ∈ pages) : (s.unmapPage ownership page).total pages = s.total pages := by
  rw [total,total,unmapPage_leaves ownership hpresent,(unmapPage_keeps ownership hpresent).1,unmapPage_available hpresent]
  by_cases hpage : page ∈ pages
  · have hsum := sum_frameOf_update s.leaves none hpage
    rw [show frameOf (none : Option (PageTableEntry F)) = 0 from rfl,add_zero] at hsum
    rw [if_pos (howned.mpr hpage),← hsum,frameOf]
    abel
  · rw [if_neg fun h => hpage (howned.mp h),sum_frameOf_update_of_notMem s.leaves none hpage,zero_add]

theorem unmapPages_total (hpresent : ∀ page entry, s.leaves page = some entry → entry.flags.present)
    (howned : ∀ page, first ≤ page → page < first + n → (ownership = .owned ↔ page ∈ pages)) :
    (s.unmapPages ownership first n).total pages = s.total pages := by
  induction n generalizing first s with
  | zero => rfl
  | succ n ih =>
    rw [unmapPages,ih,unmapPage_total (hpresent first) (howned first (Nat.le_refl _) (by omega))]
    · intro page entry hpage
      rw [unmapPage_leaves ownership (hpresent first),Function.update_apply] at hpage
      split_ifs at hpage
      exact hpresent page entry hpage
    · exact fun page hle hlt => howned page (by omega) (by omega)

theorem unmapUserRegion_total (hpresent : ∀ page entry, s.leaves page = some entry → entry.flags.present)
    {region : MappedMemoryRegion}
    (howned : ∀ page, Touches region.startVirt region.endVirt page → (region.frameOwnership = .owned ↔ page ∈ pages)) :
    (s.unmapUserRegion region).total pages = s.total pages := by
  unfold unmapUserRegion
  split_ifs with hsize
  · rfl
  · refine unmapPages_total hpresent fun page hle hlt => howned page ?_
    simp only [Touches,MappedMemoryRegion.endVirt,pageCount,pageSize] at *
    omega

end Unmap

section Map
variable [DecidableEq F] [Mapper F]

theorem mapNewPage_total (hpage : page ∈ pages) : (s.mapNewPage page flags).2.total pages = s.total pages := by
  obtain ⟨new,-,⟨-,htook,hleaves,-⟩ | ⟨existing,hex,-,htook,-,hleaves,-⟩ | ⟨frame,hnone,-,htook,hleaves,-⟩⟩ := mapNewPage_cases page flags s
  · refine htook.total ?_
    rw [hleaves,add_zero]
  · refine htook.total (add_right_cancel (b := frameOf (s.leaves page)) ?_)
    rw [hleaves,sum_frameOf_update _ _ hpage,hex,add_zero]
    rfl
  · refine htook.total ?_
    have hsum := sum_frameOf_update s.leaves (some ⟨frame,{ flags with userAccessible := true }⟩) hpage
    rw [hnone,show frameOf (none : Option (PageTableEntry F)) = 0 from rfl,add_zero] at hsum
    rw [hleaves,hsum]
    rfl

theorem Rounds.total (h : Rounds flags first n s t) (hpages : ∀ page, first ≤ page → page < first + n → page ∈ pages) :
    t.total pages = s.total pages := by
  induction h with
  | nil => rfl
  | @cons page n s t hfirst rest ih =>
    rw [ih fun p hle hlt => hpages p (by omega) (by omega),mapNewPage_total (hpages page (Nat.le_refl _) (by omega))]

/-- Also when it fails. -/
theorem mapPages_total (hs : s.Intact) (hflags : flags.present) (hpages : ∀ page, first ≤ page → page < first + n → page ∈ pages) :
    (mapPages first flags first n s).2.total pages = s.total pages := by
  obtain ⟨j,t,hrounds,⟨rfl,hres⟩ | ⟨hj,-,hres⟩⟩ := mapPages_cases first flags first n s
  · rw [hres]
    exact hrounds.total hpages
  · rw [hres]
    dsimp only
    rw [rollbackPartialMapping_eq,unmapPages_total (mapNewPage_keeps _ (hrounds.keeps hs hflags) hflags).present,
      mapNewPage_total (hpages _ (Nat.le_add_right _ _) (by omega)),hrounds.total fun page hle hlt => hpages page hle (by omega)]
    exact fun page hle hlt => iff_of_true rfl (hpages page hle (by omega))

/-- The frame itself is not counted. -/
theorem mapSpecificFrame_total (hpage : page ∉ pages) : (s.mapSpecificFrame page frame flags).2.total pages = s.total pages := by
  obtain ⟨new,htook,-,⟨-,hleaves,-⟩ | ⟨-,hleaves,-⟩⟩ := mapSpecificFrame_cases page frame flags s <;> refine htook.total ?_
  · rw [hleaves,add_zero]
  · rw [hleaves,sum_frameOf_update_of_notMem _ _ hpage,add_zero]

end Map
end UserMemory
end MofuOS.Memory
