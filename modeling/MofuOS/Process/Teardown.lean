import MofuOS.Memory.HeldFrames
import MofuOS.Process.RegionMirror

/-! What freeing an address space gives back: all the frames that were taken for it. -/
namespace MofuOS.Process
open Memory

theorem Aligned.touches_iff {r : MappedMemoryRegion} (h : Aligned r) (page : Nat) :
    Touches r.startVirt r.endVirt page ↔ r.startVirt ≤ page * pageSize ∧ page * pageSize + pageSize ≤ r.endVirt := by
  obtain ⟨hs,hz,hp⟩ := h
  simp only [Touches,MappedMemoryRegion.endVirt,pageSize] at *
  omega

/-- The pages that bytes of the range lie in. -/
def pagesOf (start size : Nat) : List Nat :=
  if size = 0 then [] else List.range' (start / pageSize) (UserMemory.pageCount start size)

theorem mem_pagesOf {start size page : Nat} : page ∈ pagesOf start size ↔ size ≠ 0 ∧ Touches start (start + size) page := by
  unfold pagesOf
  split_ifs with hsize
  · exact iff_of_false List.not_mem_nil fun h => h.1 hsize
  · rw [List.mem_range'_1,and_iff_right hsize]
    simp only [Touches,UserMemory.pageCount,pageSize]
    omega

/-- A region owns its pages if they are owned at all. -/
abbrev OwnerOf (owned : Finset Nat) (ownership : FrameOwnership) (page : Nat) : Prop := ownership = .owned ↔ page ∈ owned

namespace AddressSpace
variable {F : Type} {s t : AddressSpace F} {owned : Finset Nat} {frames : Multiset F} {start size page : Nat} {pageFlags : PageTableFlags}
  {frame : F} {memory : UserMemory F} {regions : List MappedMemoryRegion}

/-- The regions cover what is mapped, each page in a region that owns it if it is one of the owned ones, and
the frames are those that there were. -/
structure Accounted (owned : Finset Nat) (frames : Multiset F) (s : AddressSpace F) : Prop where
  intact : s.memory.Intact
  ordered : Ordered s.regions
  tracked : ∀ page, s.memory.leaves page ≠ none → CoversPage s.regions page
  owners : ∀ r ∈ s.regions, EachPage (OwnerOf owned) r
  frames : s.topPageTablePhys ::ₘ s.memory.total owned = frames

section Free
variable [Mapper F]

private theorem unmapAll_spec (hs : memory.Intact) (haligned : ∀ r ∈ regions, Aligned r)
    (howners : ∀ r ∈ regions, EachPage (OwnerOf owned) r) :
    (regions.foldl (fun memory region => memory.unmapUserRegion region) memory).total owned = memory.total owned ∧
      (regions.foldl (fun memory region => memory.unmapUserRegion region) memory).tables = memory.tables ∧
      ∀ page, (regions.foldl (fun memory region => memory.unmapUserRegion region) memory).leaves page ≠ none →
        memory.leaves page ≠ none ∧ ¬ CoversPage regions page := by
  induction regions generalizing memory with
  | nil => exact ⟨rfl,rfl,fun page hpage => ⟨hpage,Covers.nil_iff.mp⟩⟩
  | cons r regions ih =>
    obtain ⟨hr,haligned⟩ := List.forall_mem_cons.mp haligned
    obtain ⟨howner,howners⟩ := List.forall_mem_cons.mp howners
    obtain ⟨htotal,htables,hleaves⟩ := ih (hs.unmapUserRegion r) haligned howners
    obtain ⟨hunmapped,hkept,-⟩ := UserMemory.unmapUserRegion_spec hs.present r
    rw [List.foldl_cons]
    refine ⟨htotal.trans (UserMemory.unmapUserRegion_total hs.present fun page hpage => ?_),htables.trans hkept,fun page hpage => ?_⟩
    · exact howner page ((hr.touches_iff page).mp hpage)
    · obtain ⟨hmapped,hrest⟩ := hleaves page hpage
      rw [hunmapped,Memory.unmapUserRegion] at hmapped
      split_ifs at hmapped with hrange
      · exact absurd rfl hmapped
      · refine ⟨hmapped,fun hcov => ?_⟩
        obtain hcov | hcov := Covers.cons_iff.mp hcov
        · exact hrange ⟨hr.positive.ne',(hr.touches_iff page).mpr hcov⟩
        · exact hrest hcov

omit [Mapper F] in
private theorem freeUserTables_available (memory : UserMemory F) :
    (freeUserTables memory).available = ↑(memory.tables.map Prod.snd) + memory.available := by
  have hfold : ∀ (tables : List (TableKey × F)) (u : UserMemory F),
      (tables.foldl (fun s table => s.deallocateFrame table.2) u).available = ↑(tables.map Prod.snd) + u.available := by
    intro tables
    induction tables with
    | nil => exact fun u => (zero_add _).symm
    | cons table tables ih =>
      intro u
      rw [List.foldl_cons,ih,List.map_cons,← Multiset.cons_coe,Multiset.cons_add,UserMemory.available_deallocateFrame,
        Multiset.add_cons]
  exact hfold memory.tables _

namespace Accounted

theorem unmapped (h : Accounted owned frames s) (page : Nat) :
    (s.regions.foldl (fun memory region => memory.unmapUserRegion region) s.memory).leaves page = none := by
  by_contra hpage
  obtain ⟨hmapped,hcov⟩ := (unmapAll_spec h.intact h.ordered.aligned h.owners).2.2 page hpage
  exact hcov (h.tracked page hmapped)

theorem freeAddressSpace (h : Accounted owned frames s) : s.freeAddressSpace.available = frames := by
  obtain ⟨htotal,htables,-⟩ := unmapAll_spec h.intact h.ordered.aligned h.owners
  have hnone : ∑ page ∈ owned, frameOf ((s.regions.foldl (fun memory region => memory.unmapUserRegion region) s.memory).leaves page) = 0 :=
    Finset.sum_eq_zero fun page _ => by rw [h.unmapped page]; rfl
  rw [UserMemory.total,hnone,zero_add] at htotal
  rw [← h.frames,← htotal,← freeUserTables_available]
  rfl

end Accounted
end Free

section Build

theorem Accounted.withPageTable (owned : Finset Nat) (frame : F) (memory : UserMemory F) :
    Accounted owned (frame ::ₘ memory.available) (.withPageTable frame memory) := by
  refine ⟨⟨nofun,nofun⟩,⟨List.Pairwise.nil,nofun⟩,fun page hpage => absurd rfl hpage,nofun,?_⟩
  have hsum : ∑ page ∈ owned, frameOf ((AddressSpace.withPageTable frame memory).memory.leaves page) = 0 :=
    Finset.sum_eq_zero fun page _ => rfl
  rw [UserMemory.total,hsum,zero_add]
  exact congrArg _ (zero_add _)

/-- What is written into the pages does not matter. -/
theorem Accounted.of_bytes (h : Accounted owned frames s) (bytes : F → Nat → UInt8) :
    Accounted owned frames { s with memory := { s.memory with bytes } } :=
  ⟨⟨h.intact.present,h.intact.tabled⟩,h.ordered,h.tracked,h.owners,h.frames⟩

variable [DecidableEq F] [Mapper F]

/-- Also when it fails. -/
theorem Accounted.mapOwnedRegion (h : Accounted owned frames s) (hflags : pageFlags.present)
    (hpages : ∀ page ∈ pagesOf start size, page ∈ owned) :
    Accounted owned frames (s.mapOwnedRegion start size pageFlags).2 := by
  by_cases hsize : size = 0
  · rwa [AddressSpace.mapOwnedRegion,if_pos hsize]
  have htotal : (s.memory.mapVirtMemRegion start size pageFlags).2.total owned = s.memory.total owned := by
    refine UserMemory.mapPages_total h.intact hflags fun page hle hlt => hpages page ?_
    rw [pagesOf,if_neg hsize]
    exact List.mem_range'_1.mpr ⟨hle,hlt⟩
  have hintact : (s.mapOwnedRegion start size pageFlags).2.memory.Intact := mapOwnedRegion_keeps h.intact hflags
  cases hok : (s.mapOwnedRegion start size pageFlags).1 with
  | true =>
    obtain ⟨hregions,hleaves⟩ := mapOwnedRegion_spec hok hsize
    obtain ⟨hordered,hcovers⟩ := h.ordered.trackRegion ⟨start,size,pageFlags,.owned⟩ (Nat.pos_of_ne_zero hsize)
    have howners := h.ordered.trackRegion_each ⟨start,size,pageFlags,.owned⟩ (Nat.pos_of_ne_zero hsize) h.owners
      fun page hpage => iff_of_true rfl (hpages page (mem_pagesOf.mpr ⟨hsize,hpage⟩))
    refine ⟨hintact,hregions ▸ hordered,fun page hpage => ?_,hregions ▸ howners,?_⟩
    · rw [hregions,hcovers]
      exact ((hleaves page).mp hpage).imp_left (h.tracked page)
    · rw [← h.frames,← htotal]
      rw [AddressSpace.mapOwnedRegion,if_neg hsize] at hok ⊢
      generalize s.memory.mapVirtMemRegion start size pageFlags = r at *
      obtain ⟨_ | _,memory⟩ := r
      · cases hok
      · rfl
  | false =>
    have hfailed := UserMemory.mapPages_failed (start / pageSize) (UserMemory.pageCount start size) h.intact hflags
    rw [← UserMemory.mapVirtMemRegion] at hfailed
    rw [AddressSpace.mapOwnedRegion,if_neg hsize] at hintact hok ⊢
    generalize s.memory.mapVirtMemRegion start size pageFlags = r at *
    obtain ⟨_ | _,memory⟩ := r
    · exact ⟨hintact,h.ordered,fun page hpage => h.tracked page (hfailed rfl page hpage),h.owners,by rw [← h.frames,← htotal]⟩
    · cases hok

/-- One frame of the kernel. -/
theorem mapFrames_one (page : Nat) (frame : F) (pageFlags : PageTableFlags) (ownership : FrameOwnership) (s : AddressSpace F) :
    s.mapFrames (page * pageSize) [frame] pageFlags ownership =
      match s.memory.mapSpecificFrame page frame pageFlags with
      | (.ok (),memory) => (true,{ s with memory, regions := trackRegion ⟨page * pageSize,pageSize,pageFlags,ownership⟩ s.regions })
      | (.error _,memory) => (false,{ s with memory }) := by
  have hpage : (page * pageSize + 0 * pageSize) / pageSize = page := by
    rw [Nat.zero_mul,Nat.add_zero,Nat.mul_div_cancel _ (by decide)]
  simp only [mapFrames,List.cons_ne_nil,if_false,mapEach,hpage]
  generalize s.memory.mapSpecificFrame page frame pageFlags = r
  obtain ⟨_ | _,memory⟩ := r
  · simp [UserMemory.unmapUserRegion]
  · simp

theorem Accounted.mapBorrowed (h : Accounted owned frames s) (page : Nat) (frame : F) (hflags : pageFlags.present) (hpage : page ∉ owned)
    (hok : (s.memory.mapSpecificFrame page frame pageFlags).1 = .ok ()) :
    Accounted owned frames (s.mapFrames (page * pageSize) [frame] pageFlags .borrowed).2 := by
  have hintact := UserMemory.mapSpecificFrame_keeps page frame h.intact hflags
  have htotal : (s.memory.mapSpecificFrame page frame pageFlags).2.total owned = s.memory.total owned :=
    UserMemory.mapSpecificFrame_total hpage
  have htouches : ∀ p, Touches (page * pageSize) (page * pageSize + pageSize) p ↔ p = page := by
    intro p
    simp only [Touches,pageSize]
    omega
  have hsize : 0 < pageSize := by decide
  obtain ⟨hordered,hcovers⟩ := h.ordered.trackRegion ⟨page * pageSize,pageSize,pageFlags,.borrowed⟩ hsize
  have howners := h.ordered.trackRegion_each ⟨page * pageSize,pageSize,pageFlags,.borrowed⟩ hsize h.owners
    fun p hp => iff_of_false (fun hb => by cases hb) fun howned => hpage ((htouches p).mp hp ▸ howned)
  obtain ⟨new,-,-,⟨⟨e,he⟩,-⟩ | ⟨-,hleaves,-⟩⟩ := UserMemory.mapSpecificFrame_cases page frame pageFlags s.memory
  · rw [hok] at he
    cases he
  rw [mapFrames_one]
  generalize s.memory.mapSpecificFrame page frame pageFlags = r at *
  obtain ⟨_ | _,memory⟩ := r
  · cases hok
  · refine ⟨hintact,hordered,fun p hp => (hcovers p).mpr ?_,howners,by rw [← h.frames,← htotal]⟩
    dsimp only at hp hleaves
    rw [hleaves,Function.update_apply] at hp
    split_ifs at hp with heq
    · exact .inr ((htouches p).mpr heq)
    · exact .inl (h.tracked p hp)

end Build
end AddressSpace
end MofuOS.Process
