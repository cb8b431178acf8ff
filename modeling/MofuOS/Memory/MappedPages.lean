import MofuOS.Memory.UserMemory
import Mathlib.Algebra.Order.Group.Multiset
import Mathlib.Data.Multiset.Count
import Mathlib.Tactic.Abel

/-! What one page costs and leaves when it is mapped, and what a row of pages does. -/
namespace MofuOS.Memory.UserMemory
variable {F : Type} {s t u : UserMemory F} {page first n : Nat} {frame : F} {flags : PageTableFlags}
  {ownership : FrameOwnership} {key : TableKey} {new new' : List (TableKey × F)} {frames frames' : Multiset F}

theorem available_of_allocateFrame (h : s.allocateFrame = some (frame,t)) :
    s.available = frame ::ₘ t.available ∧ t.tables = s.tables ∧ t.leaves = s.leaves ∧ t.bytes = s.bytes := by
  obtain ⟨⟨f,a⟩,ha,heq⟩ := Option.map_eq_some_iff.mp h
  cases heq
  exact ⟨MemoryMapFrameAllocator.available_of_allocateFrame ha,rfl,rfl,rfl⟩

@[simp] theorem available_deallocateFrame : (s.deallocateFrame frame).available = frame ::ₘ s.available := rfl

theorem allocateFrame_eq_none : s.allocateFrame = none ↔ s.available = 0 :=
  Option.map_eq_none_iff.trans MemoryMapFrameAllocator.allocateFrame_eq_none

namespace Took

theorem refl (s : UserMemory F) : Took s s [] 0 := ⟨rfl,by simp,List.nodup_nil,by simp,fun _ _ => rfl⟩

theorem tableKeys (h : Took s t new frames) : t.tableKeys = (new.map Prod.fst).toFinset ∪ s.tableKeys := by
  rw [UserMemory.tableKeys,h.tables,List.map_append,List.toFinset_append,UserMemory.tableKeys]

theorem subset_tableKeys (h : Took s t new frames) : s.tableKeys ⊆ t.tableKeys := by
  rw [h.tableKeys]
  exact Finset.subset_union_right

theorem le_available (h : Took s t new frames) : t.available ≤ s.available := by
  rw [h.available]
  exact Multiset.le_add_left _ _

theorem trans (h : Took s t new frames) (h' : Took t u new' frames') : Took s u (new' ++ new) (frames + frames') := by
  refine ⟨by rw [h'.tables,h.tables,List.append_assoc],?_,?_,fun key hk => ?_,fun frame hf => ?_⟩
  · rw [h.available,h'.available,List.map_append,← Multiset.coe_add]
    abel
  · rw [List.map_append]
    refine h'.nodup.append h.nodup fun key hk' hk => h'.missing key hk' ?_
    rw [h.tableKeys,Finset.mem_union,List.mem_toFinset]
    exact .inl hk
  · rw [List.map_append,List.mem_append] at hk
    rcases hk with hk | hk
    · exact fun hs => h'.missing key hk (h.subset_tableKeys hs)
    · exact h.missing key hk
  · rw [h'.bytes frame fun hf' => hf (Multiset.mem_of_le h.le_available hf'),h.bytes frame hf]

/-- The tables made count, and so do the other frames. -/
theorem card (h : Took s t new frames) :
    s.available.card = (t.tableKeys \ s.tableKeys).card + frames.card + t.available.card := by
  have hnew : t.tableKeys \ s.tableKeys = (new.map Prod.fst).toFinset := by
    rw [h.tableKeys,Finset.union_sdiff_right]
    exact Finset.sdiff_eq_self_of_disjoint (Finset.disjoint_left.mpr fun key hk => h.missing key (List.mem_toFinset.mp hk))
  rw [hnew,List.toFinset_card_of_nodup h.nodup,h.available,Multiset.card_add,Multiset.card_add,Multiset.coe_card,
    List.length_map,List.length_map]

end Took

/-- The tables that a page lacks. -/
def missingTables (s : UserMemory F) (page : Nat) : Finset TableKey := (tablesAbove page).toFinset \ s.tableKeys

/-- A page that is mapped is present, and its tables are there. -/
structure Intact (s : UserMemory F) : Prop where
  present : ∀ page entry, s.leaves page = some entry → entry.flags.present
  tabled : ∀ page entry, s.leaves page = some entry → ∀ key ∈ tablesAbove page, key ∈ s.tableKeys

namespace Intact

/-- Nothing is missing for a page that is mapped. -/
theorem missingTables_eq_empty (h : s.Intact) (hpage : s.leaves page ≠ none) : s.missingTables page = ∅ := by
  obtain ⟨entry,hentry⟩ := Option.ne_none_iff_exists'.mp hpage
  exact Finset.sdiff_eq_empty_iff_subset.mpr fun key hk => h.tabled page entry hentry key (List.mem_toFinset.mp hk)

theorem of_leaves (h : s.Intact) (hkeys : s.tableKeys ⊆ t.tableKeys) (hleaves : t.leaves = s.leaves) : t.Intact :=
  ⟨fun p entry hp => h.present p entry (hleaves ▸ hp),fun p entry hp key hk => hkeys (h.tabled p entry (hleaves ▸ hp) key hk)⟩

theorem of_update {entry : PageTableEntry F} (h : s.Intact) (hkeys : s.tableKeys ⊆ t.tableKeys)
    (hleaves : t.leaves = Function.update s.leaves page (some entry)) (hpresent : entry.flags.present)
    (hall : ∀ key ∈ tablesAbove page, key ∈ t.tableKeys) : t.Intact := by
  have hcases : ∀ p e, t.leaves p = some e → p = page ∧ e = entry ∨ s.leaves p = some e := by
    intro p e hp
    rw [hleaves,Function.update_apply] at hp
    split_ifs at hp with hpage
    · exact .inl ⟨hpage,(Option.some.inj hp).symm⟩
    · exact .inr hp
  refine ⟨fun p e hp => ?_,fun p e hp key hk => ?_⟩ <;> obtain ⟨rfl,rfl⟩ | hp := hcases p e hp
  · exact hpresent
  · exact h.present p e hp
  · exact hall key hk
  · exact hkeys (h.tabled p e hp key hk)

end Intact

section Unmap

/-- The frames behind the n pages from first on. -/
def framesOf (leaves : PageTable F) (first n : Nat) : Multiset F :=
  ↑((List.range' first n).filterMap fun page => (leaves page).map PageTableEntry.frame)

theorem framesOf_succ (leaves : PageTable F) (first n : Nat) :
    framesOf leaves first (n + 1) =
      (((leaves first).map PageTableEntry.frame).elim 0 fun frame => {frame}) + framesOf leaves (first + 1) n := by
  rw [framesOf,List.range'_succ,List.filterMap_cons,framesOf]
  cases leaves first with
  | none => simp
  | some entry => rfl

theorem framesOf_congr {leaves leaves' : PageTable F}
    (h : ∀ page, first ≤ page → page < first + n → leaves page = leaves' page) :
    framesOf leaves first n = framesOf leaves' first n := by
  unfold framesOf
  rw [List.filterMap_congr]
  intro page hpage
  obtain ⟨hle,hlt⟩ := List.mem_range'_1.mp hpage
  rw [h page hle hlt]

theorem card_framesOf {leaves : PageTable F} (h : ∀ page, first ≤ page → page < first + n → leaves page ≠ none) :
    (framesOf leaves first n).card = n := by
  induction n generalizing first with
  | zero => rfl
  | succ n ih =>
    obtain ⟨entry,hentry⟩ := Option.ne_none_iff_exists'.mp (h first (Nat.le_refl _) (by omega))
    rw [framesOf_succ,hentry,Multiset.card_add,ih fun page hle hlt => h page (by omega) (by omega)]
    exact Nat.add_comm 1 n

variable [Mapper F]

/-- A page that is mapped is present and goes, and one that is not stays as it is. -/
theorem unmapPage_eq (ownership : FrameOwnership) (hpresent : ∀ entry, s.leaves page = some entry → entry.flags.present) :
    s.unmapPage ownership page = (s.leaves page).elim s fun entry =>
      if ownership = .owned then { s with leaves := Function.update s.leaves page none }.deallocateFrame entry.frame
      else { s with leaves := Function.update s.leaves page none } := by
  unfold unmapPage
  cases hpage : s.leaves page with
  | none => rw [Mapper.unmap_eq_none page s (by rw [hpage]; nofun),Option.elim_none]
  | some entry => rw [Mapper.unmap_eq_some page s entry hpage (hpresent entry hpage),Option.elim_some]

theorem unmapPage_leaves (ownership : FrameOwnership) (hpresent : ∀ entry, s.leaves page = some entry → entry.flags.present) :
    (s.unmapPage ownership page).leaves = Function.update s.leaves page none := by
  rw [unmapPage_eq ownership hpresent]
  cases hpage : s.leaves page with
  | none => exact (Function.update_eq_self_iff.mpr hpage.symm).symm
  | some entry =>
    rw [Option.elim_some]
    split_ifs <;> rfl

theorem unmapPage_keeps (ownership : FrameOwnership) (hpresent : ∀ entry, s.leaves page = some entry → entry.flags.present) :
    (s.unmapPage ownership page).tables = s.tables ∧ (s.unmapPage ownership page).bytes = s.bytes ∧
      (s.unmapPage ownership page).allocator.untouched = s.allocator.untouched := by
  rw [unmapPage_eq ownership hpresent]
  cases s.leaves page with
  | none => exact ⟨rfl,rfl,rfl⟩
  | some entry =>
    rw [Option.elim_some]
    split_ifs <;> exact ⟨rfl,rfl,rfl⟩

theorem unmapPage_available (hpresent : ∀ entry, s.leaves page = some entry → entry.flags.present) :
    (s.unmapPage ownership page).available =
      (if ownership = .owned then ((s.leaves page).map PageTableEntry.frame).elim 0 fun frame => {frame} else 0) + s.available := by
  rw [unmapPage_eq ownership hpresent]
  cases s.leaves page with
  | none => simp
  | some entry =>
    rw [Option.elim_some,Option.map_some,Option.elim_some]
    split_ifs with howned
    · rw [Multiset.singleton_add]
      rfl
    · exact (zero_add _).symm

/-- A row of pages is cleared, and an owner gives their frames back. -/
theorem unmapPages_spec (ownership : FrameOwnership) (hpresent : ∀ page entry, s.leaves page = some entry → entry.flags.present) (first n : Nat) :
    (s.unmapPages ownership first n).leaves = (fun page => if first ≤ page ∧ page < first + n then none else s.leaves page) ∧
      (s.unmapPages ownership first n).tables = s.tables ∧ (s.unmapPages ownership first n).bytes = s.bytes ∧
      (s.unmapPages ownership first n).available =
        (if ownership = .owned then framesOf s.leaves first n else 0) + s.available ∧
      (s.unmapPages ownership first n).allocator.untouched = s.allocator.untouched := by
  induction n generalizing first s with
  | zero =>
    refine ⟨funext fun page => (if_neg (by omega)).symm,rfl,rfl,?_,rfl⟩
    simp [unmapPages,framesOf]
  | succ n ih =>
    have hleaves := unmapPage_leaves ownership (hpresent first)
    obtain ⟨htables,hbytes,huntouched⟩ := unmapPage_keeps ownership (hpresent first)
    have hpresent' : ∀ page entry, (s.unmapPage ownership first).leaves page = some entry → entry.flags.present := by
      intro page entry hpage
      rw [hleaves,Function.update_apply] at hpage
      split_ifs at hpage
      exact hpresent page entry hpage
    obtain ⟨hl,ht,hb,ha,hu⟩ := ih hpresent' (first + 1)
    rw [unmapPages]
    refine ⟨?_,ht.trans htables,hb.trans hbytes,?_,hu.trans huntouched⟩
    · rw [hl,hleaves]
      funext page
      rw [Function.update_apply]
      by_cases hfirst : page = first
      · rw [if_pos hfirst,ite_self,if_pos (by omega)]
      · rw [if_neg hfirst]
        exact if_congr (by omega) rfl rfl
    · have hrest : framesOf (s.unmapPage ownership first).leaves (first + 1) n = framesOf s.leaves (first + 1) n := by
        refine framesOf_congr fun page hle _ => ?_
        rw [hleaves,Function.update_of_ne (by omega)]
      rw [ha,unmapPage_available (hpresent first),hrest,framesOf_succ]
      split_ifs
      · abel
      · rfl

/-- The pages that bytes of the region lie in are cleared. -/
theorem unmapUserRegion_spec (hpresent : ∀ page entry, s.leaves page = some entry → entry.flags.present)
    (region : MappedMemoryRegion) :
    (s.unmapUserRegion region).leaves = Memory.unmapUserRegion region s.leaves ∧
      (s.unmapUserRegion region).tables = s.tables ∧ (s.unmapUserRegion region).bytes = s.bytes := by
  unfold unmapUserRegion
  split_ifs with hsize
  · exact ⟨funext fun page => (if_neg (by simp [hsize])).symm,rfl,rfl⟩
  · obtain ⟨hleaves,htables,hbytes,-⟩ := unmapPages_spec region.frameOwnership hpresent (region.startVirt / pageSize)
      (pageCount region.startVirt region.sizeBytes)
    refine ⟨hleaves.trans (funext fun page => if_congr ?_ rfl rfl),htables,hbytes⟩
    simp only [Touches,MappedMemoryRegion.endVirt,pageCount,pageSize]
    omega

theorem Intact.unmapUserRegion (h : s.Intact) (region : MappedMemoryRegion) : (s.unmapUserRegion region).Intact := by
  obtain ⟨hleaves,htables,-⟩ := unmapUserRegion_spec h.present region
  have hkeys : (s.unmapUserRegion region).tableKeys = s.tableKeys := by rw [tableKeys,htables,tableKeys]
  have hpage : ∀ page entry, (s.unmapUserRegion region).leaves page = some entry → s.leaves page = some entry := by
    intro page entry hpage
    rw [hleaves,Memory.unmapUserRegion] at hpage
    split_ifs at hpage
    exact hpage
  exact ⟨fun page entry he => h.present page entry (hpage page entry he),
    fun page entry he key hk => hkeys ▸ h.tabled page entry (hpage page entry he) key hk⟩

end Unmap

private theorem tableKeys_of_all (h : Took s t new frames) (hsub : new.map Prod.fst ⊆ tablesAbove page)
    (hall : ∀ key ∈ tablesAbove page, key ∈ t.tableKeys) : t.tableKeys = s.tableKeys ∪ (tablesAbove page).toFinset := by
  ext key
  rw [Finset.mem_union,List.mem_toFinset]
  refine ⟨fun hk => ?_,fun hk => hk.elim (fun hk => h.subset_tableKeys hk) (hall key)⟩
  rw [h.tableKeys,Finset.mem_union,List.mem_toFinset] at hk
  exact hk.symm.imp_right fun hk => hsub hk

/-- A table that is still missing shows that fewer frames were there than it would have taken. -/
theorem Took.card_lt_of_missing (h : Took s t new 0) (hsub : new.map Prod.fst ⊆ tablesAbove page)
    (hmiss : ∃ key ∈ tablesAbove page, key ∉ t.tableKeys) : s.available.card < (s.missingTables page).card + t.available.card := by
  obtain ⟨key,hk,hmiss⟩ := hmiss
  have hcard := h.card
  have hlt : (t.tableKeys \ s.tableKeys).card < (s.missingTables page).card := by
    refine Finset.card_lt_card ((Finset.ssubset_iff_of_subset fun k hk' => ?_).mpr ⟨key,?_,?_⟩)
    · rw [h.tableKeys,Finset.union_sdiff_right,Finset.mem_sdiff,List.mem_toFinset] at hk'
      exact Finset.mem_sdiff.mpr ⟨List.mem_toFinset.mpr (hsub hk'.1),hk'.2⟩
    · exact Finset.mem_sdiff.mpr ⟨List.mem_toFinset.mpr hk,fun hs => hmiss (h.subset_tableKeys hs)⟩
    · exact fun hk' => hmiss (Finset.mem_sdiff.mp hk').1
  rw [Multiset.card_zero] at hcard
  omega

theorem Took.card_of_all (h : Took s t new frames) (hsub : new.map Prod.fst ⊆ tablesAbove page)
    (hall : ∀ key ∈ tablesAbove page, key ∈ t.tableKeys) :
    s.available.card = (s.missingTables page).card + frames.card + t.available.card := by
  rw [h.card,tableKeys_of_all h hsub hall,Finset.union_sdiff_left]
  rfl

section Map
variable [Mapper F] [DecidableEq F]

/-- A round of map_virt_mem_region fails without a change to the pages, allows more on a page that was
mapped, or maps the page to a frame that was free. -/
theorem mapNewPage_cases (page : Nat) (flags : PageTableFlags) (s : UserMemory F) :
    ∃ new, new.map Prod.fst ⊆ tablesAbove page ∧
      ((s.mapNewPage page flags).1 = false ∧ Took s (s.mapNewPage page flags).2 new 0 ∧
          (s.mapNewPage page flags).2.leaves = s.leaves ∧
          (s.available = 0 ∨ (s.mapNewPage page flags).2.available.card = 1 ∧
            ∃ key ∈ tablesAbove page, key ∉ (s.mapNewPage page flags).2.tableKeys) ∨
        (∃ existing, s.leaves page = some existing ∧ (s.mapNewPage page flags).1 = true ∧
          Took s (s.mapNewPage page flags).2 new 0 ∧ s.available ≠ 0 ∧
          (s.mapNewPage page flags).2.leaves = Function.update s.leaves page
            (some ⟨existing.frame,existing.flags.merge { flags with userAccessible := true }⟩) ∧
          ∀ key ∈ tablesAbove page, key ∈ (s.mapNewPage page flags).2.tableKeys) ∨
        ∃ frame, s.leaves page = none ∧ (s.mapNewPage page flags).1 = true ∧
          Took s (s.mapNewPage page flags).2 new {frame} ∧
          (s.mapNewPage page flags).2.leaves = Function.update s.leaves page (some ⟨frame,{ flags with userAccessible := true }⟩) ∧
          (s.available.Nodup → (s.mapNewPage page flags).2.bytes frame = fun _ => 0) ∧
          ∀ key ∈ tablesAbove page, key ∈ (s.mapNewPage page flags).2.tableKeys) := by
  unfold mapNewPage
  cases ha : s.allocateFrame with
  | none => exact ⟨[],List.nil_subset _,.inl ⟨rfl,.refl s,rfl,.inl (allocateFrame_eq_none.mp ha)⟩⟩
  | some x =>
    obtain ⟨frame,t⟩ := x
    obtain ⟨havail,htables,hleaves,hbytes⟩ := available_of_allocateFrame ha
    have hkeys : (t.zeroFrame frame).tableKeys = s.tableKeys := congrArg (fun tables => (tables.map Prod.fst).toFinset) htables
    obtain ⟨new,htook,hsub,hcase⟩ := Mapper.mapTo_cases page frame { flags with userAccessible := true } (t.zeroFrame frame)
    have hzero : ∀ f, f ∉ s.available → (t.zeroFrame frame).bytes f = s.bytes f := by
      intro f hf
      rw [← hbytes]
      exact Function.update_of_ne (fun h => hf (by simp [havail,h])) _ _
    have htouched : ∀ f, f ∉ s.available → f ∉ (t.zeroFrame frame).available := by
      intro f hf hf'
      exact hf (havail ▸ Multiset.mem_cons_of_mem hf')
    refine ⟨new,hsub,?_⟩
    dsimp only
    generalize Mapper.mapTo page frame { flags with userAccessible := true } (t.zeroFrame frame) = r at *
    obtain ⟨result,u⟩ := r
    dsimp only at *
    have hback : ∀ {v : UserMemory F}, v.tables = u.tables → v.available = frame ::ₘ u.available → v.bytes = u.bytes →
        Took s v new 0 := by
      intro v ht hv hvb
      refine ⟨by rw [ht,htook.tables]; exact congrArg _ htables,?_,htook.nodup,fun key hk => hkeys ▸ htook.missing key hk,
        fun f hf => by rw [hvb,htook.bytes f (htouched f hf),hzero f hf]⟩
      rw [havail,hv,add_zero,Multiset.add_cons,show t.available = _ from htook.available,add_zero]
    obtain ⟨hr,hl,hnone,hmiss⟩ | ⟨⟨named,hex,hr⟩,hl,hall⟩ | ⟨hpage,hr,hl,hall⟩ := hcase
    · subst hr
      refine .inl ⟨rfl,hback rfl rfl rfl,hl.trans hleaves,.inr ⟨?_,hmiss⟩⟩
      change (frame ::ₘ u.available).card = 1
      rw [hnone,Multiset.card_cons,Multiset.card_zero]
    · subst hr
      have hsame : u.leaves = s.leaves := hl.trans hleaves
      obtain ⟨existing,hex⟩ := Option.ne_none_iff_exists'.mp (show s.leaves page ≠ none from hleaves ▸ hex)
      have hupdate := Mapper.updateFlags_eq page (existing.flags.merge { flags with userAccessible := true })
        (u.deallocateFrame frame) existing (show u.leaves page = _ by rw [hsame,hex])
      have hflags : (u.deallocateFrame frame).getPageFlags page = existing.flags := by
        rw [getPageFlags,show (u.deallocateFrame frame).leaves page = some existing from (congrFun hsame page).trans hex]
        rfl
      refine .inr (.inl ⟨existing,hex,rfl,?_⟩)
      dsimp only
      rw [hflags,hupdate]
      refine ⟨hback rfl rfl rfl,?_,?_,hall⟩
      · rw [havail]
        exact Multiset.cons_ne_zero
      · change Function.update u.leaves page _ = _
        rw [hsame]
    · subst hr
      refine .inr (.inr ⟨frame,hleaves ▸ hpage,rfl,?_,hl.trans (by rw [show (t.zeroFrame frame).leaves = _ from hleaves]),fun hnodup => ?_,hall⟩)
      · refine ⟨by rw [htook.tables]; exact congrArg _ htables,?_,htook.nodup,fun key hk => hkeys ▸ htook.missing key hk,
          fun f hf => by rw [htook.bytes f (htouched f hf),hzero f hf]⟩
        rw [havail,show t.available = _ from htook.available,add_zero,← Multiset.singleton_add]
        abel
      · rw [havail] at hnodup
        rw [htook.bytes frame (Multiset.nodup_cons.mp hnodup).1]
        exact Function.update_self ..

/-- A page takes a frame of its own and one for each table that it lacks. A page that is mapped needs the
frame only for a moment. -/
theorem mapNewPage_iff (h : s.Intact) (flags : PageTableFlags) :
    (s.mapNewPage page flags).1 = true ↔ 1 + (s.missingTables page).card ≤ s.available.card := by
  obtain ⟨new,hsub,⟨hr,htook,-,hfull⟩ | ⟨existing,hex,hr,htook,hne,-⟩ | ⟨frame,-,hr,htook,-,-,hall⟩⟩ :=
    mapNewPage_cases page flags s
  · rw [hr]
    refine iff_of_false nofun fun hle => ?_
    obtain hzero | ⟨hone,hmiss⟩ := hfull
    · rw [hzero,Multiset.card_zero] at hle
      omega
    · have hcard := htook.card_lt_of_missing hsub hmiss
      omega
  · rw [hr,h.missingTables_eq_empty (by rw [hex]; nofun),Finset.card_empty]
    exact iff_of_true rfl (Multiset.card_pos.mpr hne)
  · rw [hr]
    refine iff_of_true rfl ?_
    have hcard := htook.card_of_all hsub hall
    rw [Multiset.card_singleton] at hcard
    omega

/-- The tables above a page are there once it is mapped. -/
theorem mapNewPage_tables (h : (s.mapNewPage page flags).1 = true) :
    (s.mapNewPage page flags).2.tableKeys = s.tableKeys ∪ (tablesAbove page).toFinset := by
  obtain ⟨new,hsub,⟨hr,-⟩ | ⟨existing,-,-,htook,-,-,hall⟩ | ⟨frame,-,-,htook,-,-,hall⟩⟩ := mapNewPage_cases page flags s
  · rw [h] at hr
    cases hr
  all_goals exact tableKeys_of_all htook hsub hall

/-- What a page that was not mapped takes. -/
theorem mapNewPage_of_unmapped (hpage : s.leaves page = none) (h : (s.mapNewPage page flags).1 = true) :
    ∃ new frame, Took s (s.mapNewPage page flags).2 new {frame} ∧
      (s.mapNewPage page flags).2.leaves = Function.update s.leaves page (some ⟨frame,{ flags with userAccessible := true }⟩) ∧
      (s.mapNewPage page flags).2.tableKeys = s.tableKeys ∪ (tablesAbove page).toFinset := by
  obtain ⟨new,hsub,⟨hr,-⟩ | ⟨existing,hex,-⟩ | ⟨frame,-,hr,htook,hleaves,-,hall⟩⟩ := mapNewPage_cases page flags s
  · rw [h] at hr
    cases hr
  · rw [hpage] at hex
    cases hex
  · exact ⟨new,frame,htook,hleaves,tableKeys_of_all htook hsub hall⟩

theorem mapNewPage_keeps (page : Nat) (h : s.Intact) (hflags : flags.present) : (s.mapNewPage page flags).2.Intact := by
  obtain ⟨new,hsub,⟨-,htook,hleaves,-⟩ | ⟨existing,hex,-,htook,-,hleaves,hall⟩ | ⟨frame,-,-,htook,hleaves,-,hall⟩⟩ :=
    mapNewPage_cases page flags s
  · exact h.of_leaves htook.subset_tableKeys hleaves
  · refine h.of_update htook.subset_tableKeys hleaves ?_ hall
    simp only [PageTableFlags.merge,h.present page existing hex,Bool.true_or]
  · exact h.of_update htook.subset_tableKeys hleaves hflags hall

/-- A round leaves the other pages alone, and a page that was mapped stays mapped. -/
theorem mapNewPage_leaves (page : Nat) (flags : PageTableFlags) (s : UserMemory F) :
    (∀ p, p ≠ page → (s.mapNewPage page flags).2.leaves p = s.leaves p) ∧
      ((s.mapNewPage page flags).1 = false → (s.mapNewPage page flags).2.leaves = s.leaves) ∧
      ((s.mapNewPage page flags).1 = true → (s.mapNewPage page flags).2.leaves page ≠ none) := by
  obtain ⟨new,-,⟨hr,-,hleaves,-⟩ | ⟨existing,-,hr,-,-,hleaves,-⟩ | ⟨frame,-,hr,-,hleaves,-⟩⟩ := mapNewPage_cases page flags s <;>
    simp +contextual [hr,hleaves]

theorem mapNewPage_available_le (page : Nat) (flags : PageTableFlags) (s : UserMemory F) :
    (s.mapNewPage page flags).2.available ≤ s.available := by
  obtain ⟨new,-,⟨-,htook,-⟩ | ⟨existing,-,-,htook,-⟩ | ⟨frame,-,-,htook,-⟩⟩ := mapNewPage_cases page flags s <;>
    exact htook.le_available

/-- A frame is placed on a page that was free, a page that was mapped has its flags replaced, or the pages stay as they
are. -/
theorem mapSpecificFrame_cases (page : Nat) (frame : F) (flags : PageTableFlags) (s : UserMemory F) :
    ∃ new, Took s (s.mapSpecificFrame page frame flags).2 new 0 ∧ new.map Prod.fst ⊆ tablesAbove page ∧
      ((∃ e, (s.mapSpecificFrame page frame flags).1 = .error e) ∧ (s.mapSpecificFrame page frame flags).2.leaves = s.leaves ∧
          (s.leaves page ≠ none ∨ ∃ key ∈ tablesAbove page, key ∉ (s.mapSpecificFrame page frame flags).2.tableKeys) ∧
          (s.leaves page = none → (s.mapSpecificFrame page frame flags).2.available = 0) ∨
        (s.mapSpecificFrame page frame flags).1 = .ok () ∧
          (s.mapSpecificFrame page frame flags).2.leaves = Function.update s.leaves page
            (some ⟨((s.leaves page).map PageTableEntry.frame).getD frame,{ flags with userAccessible := true }⟩) ∧
          ∀ key ∈ tablesAbove page, key ∈ (s.mapSpecificFrame page frame flags).2.tableKeys) := by
  obtain ⟨new,htook,hsub,hcase⟩ := Mapper.mapTo_cases page frame { flags with userAccessible := true } s
  refine ⟨new,?_⟩
  unfold mapSpecificFrame
  dsimp only
  generalize Mapper.mapTo page frame { flags with userAccessible := true } s = r at *
  obtain ⟨result,t⟩ := r
  obtain ⟨hr,hleaves,hnone,hmiss⟩ | ⟨⟨named,hex,hr⟩,hleaves,hall⟩ | ⟨hpage,hr,hleaves,hall⟩ := hcase <;> dsimp only at * <;> subst hr
  · exact ⟨htook,hsub,.inl ⟨⟨_,rfl⟩,hleaves,.inr hmiss,fun _ => hnone⟩⟩
  · dsimp only
    split_ifs with hframe
    · exact ⟨htook,hsub,.inl ⟨⟨_,rfl⟩,hleaves,.inl hex,fun hpage => absurd hpage hex⟩⟩
    · obtain ⟨existing,hex⟩ := Option.ne_none_iff_exists'.mp hex
      rw [Mapper.updateFlags_eq page _ t existing (by rw [hleaves,hex]),hex]
      refine ⟨⟨htook.tables,htook.available,htook.nodup,htook.missing,htook.bytes⟩,hsub,.inr ⟨rfl,?_,hall⟩⟩
      change Function.update t.leaves page _ = _
      rw [hleaves]
      rfl
  · refine ⟨htook,hsub,.inr ⟨rfl,?_,hall⟩⟩
    rw [hleaves,hpage]
    rfl

/-- A frame that is placed takes the tables that the page lacks. -/
theorem mapSpecificFrame_iff (hpage : s.leaves page = none) (frame : F) (flags : PageTableFlags) :
    (s.mapSpecificFrame page frame flags).1 = .ok () ↔ (s.missingTables page).card ≤ s.available.card := by
  obtain ⟨new,htook,hsub,⟨⟨e,hr⟩,-,hmiss,hnone⟩ | ⟨hr,-,hall⟩⟩ := mapSpecificFrame_cases page frame flags s
  · have hlt := htook.card_lt_of_missing hsub (hmiss.resolve_left fun hmapped => hmapped hpage)
    rw [hnone hpage,Multiset.card_zero] at hlt
    rw [hr]
    exact iff_of_false nofun (by omega)
  · have hcard := htook.card_of_all hsub hall
    rw [Multiset.card_zero] at hcard
    exact iff_of_true hr (by omega)

/-- Where the errors of the mapper name what is mapped, a page that is mapped takes the frame that it has and no other. -/
theorem mapSpecificFrame_mapped_iff [NamesMapped F] (h : s.Intact) {existing : PageTableEntry F}
    (hpage : s.leaves page = some existing) : (s.mapSpecificFrame page frame flags).1 = .ok () ↔ existing.frame = frame := by
  have hnames := NamesMapped.names page frame { flags with userAccessible := true } s existing
  obtain ⟨new,htook,-,hcase⟩ := Mapper.mapTo_cases page frame { flags with userAccessible := true } s
  unfold mapSpecificFrame
  dsimp only
  generalize Mapper.mapTo page frame { flags with userAccessible := true } s = r at *
  obtain ⟨result,t⟩ := r
  obtain ⟨-,-,-,key,hkey,hmiss⟩ | ⟨⟨named,-,hr⟩,-⟩ | ⟨hnone,-⟩ := hcase <;> dsimp only at *
  · exact absurd (htook.subset_tableKeys (h.tabled page existing hpage key hkey)) hmiss
  · subst hr
    rw [hnames named hpage rfl]
    dsimp only
    split_ifs with hframe
    · exact iff_of_false nofun hframe
    · exact iff_of_true rfl (not_not.mp hframe)
  · rw [hpage] at hnone
    cases hnone

theorem mapSpecificFrame_keeps (page : Nat) (frame : F) (h : s.Intact) (hflags : flags.present) :
    (s.mapSpecificFrame page frame flags).2.Intact := by
  obtain ⟨new,htook,-,⟨-,hleaves,-⟩ | ⟨-,hleaves,hall⟩⟩ := mapSpecificFrame_cases page frame flags s
  · exact h.of_leaves htook.subset_tableKeys hleaves
  · exact h.of_update htook.subset_tableKeys hleaves hflags hall

end Map

end MofuOS.Memory.UserMemory
