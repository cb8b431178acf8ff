import MofuOS.Process.RegionMirror

/-! Frames placed on pages none of which is mapped, and their region taken out again. -/
namespace MofuOS.Process
open Memory

section Regions
variable {regions : List MappedMemoryRegion}

/-- A region that meets no other, and ends in front of those behind it, is merged with the one in front of it
at most. Taking it out again leaves the regions as they were. -/
theorem carve_trackRegion (region : MappedMemoryRegion) (hsorted : regions.Pairwise fun r r' => r.startVirt ≤ r'.startVirt)
    (hstart : pageSize ∣ region.startVirt) (hsize : pageSize ∣ region.sizeBytes) (hpos : 0 < region.sizeBytes)
    (hregions : ∀ r ∈ regions, 0 < r.sizeBytes ∧ (r.endVirt ≤ region.startVirt ∨ region.endVirt < r.startVirt)) :
    ∃ found, carve region.startVirt region.endVirt (trackRegion region regions) = some (found,regions) ∧
      found.pageFlags = region.pageFlags ∧ found.frameOwnership = region.frameOwnership := by
  obtain ⟨m,m',before,before',after,after',rfl,htrack,hbefore,hafter,hprevious,hnext⟩ := trackRegion_eq region regions
  rw [widened_eq hstart (Nat.dvd_add hstart hsize)] at hprevious
  have hstart' : alignDownToPageSize region.startVirt = region.startVirt := Nat.div_mul_cancel hstart
  have hfront : ∀ r ∈ before, r.endVirt ≤ region.startVirt := by
    intro r hr
    have hlt := hbefore r hr
    have hapart := (hregions r (List.mem_append_left _ hr)).2
    simp only [MappedMemoryRegion.endVirt] at *
    omega
  have hend : region.endVirt = region.startVirt + region.sizeBytes := rfl
  -- what is merged in front comes back as the piece that is left
  have hmerged : m.pageFlags = region.pageFlags ∧ m.frameOwnership = region.frameOwnership ∧ m.startVirt ≤ region.startVirt ∧
      m.endVirt = region.endVirt ∧ before = before' ++ pieces m region.startVirt region.endVirt := by
    unfold absorbPrevious at hprevious
    obtain rfl | ⟨front,previous,rfl⟩ := List.eq_nil_or_concat before
    · cases hprevious
      exact ⟨rfl,rfl,Nat.le_refl _,rfl,by simp [pieces]⟩
    rw [List.concat_eq_append] at *
    have hlast := hfront previous (by simp)
    have hlastPos := (hregions previous (by simp)).1
    simp only [List.getLast?_concat,List.dropLast_concat] at hprevious
    split_ifs at hprevious with habsorb
    · obtain ⟨hflags,howner,htouch⟩ := habsorb
      cases hprevious
      have hmeets := Nat.le_antisymm hlast htouch
      refine ⟨rfl,rfl,?_,?_,?_⟩
      · simp only [MappedMemoryRegion.endVirt] at *
        omega
      · simp only [MappedMemoryRegion.endVirt] at *
        omega
      · have hpiece : previous = { region with
            startVirt := previous.startVirt
            sizeBytes := region.startVirt - previous.startVirt } := by
          obtain ⟨start,size,flags,ownership⟩ := previous
          simp only [MappedMemoryRegion.endVirt,MappedMemoryRegion.mk.injEq] at *
          exact ⟨trivial,by omega,hflags,howner⟩
        rw [pieces,if_pos (hstart' ▸ hbefore previous (by simp)),if_neg (by simp only [MappedMemoryRegion.endVirt] at *; omega),
          List.append_nil]
        congr 2
    · cases hprevious
      exact ⟨rfl,rfl,Nat.le_refl _,rfl,by simp [pieces]⟩
  obtain ⟨hflags,howner,hle,hge,rfl⟩ := hmerged
  have hbehind : ∀ r ∈ after, region.endVirt < r.startVirt := by
    intro r hr
    have hlow := hafter hsorted r hr
    obtain ⟨hr,hapart⟩ := hregions r (List.mem_append_right _ hr)
    simp only [MappedMemoryRegion.endVirt] at *
    omega
  have hlast : m' = m ∧ after' = after := by
    cases after with
    | nil =>
      cases hnext
      exact ⟨rfl,rfl⟩
    | cons next after =>
      have hfar := hbehind next List.mem_cons_self
      rw [absorbNext,if_neg (by rintro ⟨-,-,hnear⟩; omega)] at hnext
      cases hnext
      exact ⟨rfl,rfl⟩
  obtain ⟨rfl,rfl⟩ := hlast
  refine ⟨m',?_,hflags,howner⟩
  rw [htrack,carve_append (fun r hr hcovers => ?_) hle (Nat.le_of_eq hge.symm)]
  have hpast := hfront r (List.mem_append_left _ hr)
  simp only [MappedMemoryRegion.endVirt] at *
  omega

end Regions

namespace AddressSpace
variable {F : Type} {memory : UserMemory F} {first n k : Nat} {frames : List F} {pageFlags : PageTableFlags}

open ProcessMemoryLayout (placed placed_nil placed_cons)

/-- The frames placed on a row of pages are those behind the pages. -/
theorem framesOf_placed (first : Nat) (frames : List F) (pageFlags : PageTableFlags) (table : PageTable F) :
    UserMemory.framesOf (placed first frames pageFlags table) first frames.length = ↑frames := by
  induction frames generalizing first table with
  | nil => rfl
  | cons frame frames ih =>
    rw [List.length_cons,UserMemory.framesOf_succ,← placed_cons,ih]
    have hfirst : placed (first + 1) frames pageFlags
        (Function.update table first (some ⟨frame,{ pageFlags with userAccessible := true }⟩)) first =
          some ⟨frame,{ pageFlags with userAccessible := true }⟩ := by
      rw [placed,if_neg (by omega),Function.update_self]
    rw [hfirst]
    rfl

variable [Mapper F]

/-- Borrowed pages that are unmapped give no frame back. -/
private theorem unmapBorrowed (h : memory.Intact) (first k : Nat) (pageFlags : PageTableFlags) :
    UserMemory.Took memory (memory.unmapUserRegion ⟨first * pageSize,k * pageSize,pageFlags,.borrowed⟩) [] 0 ∧
      (memory.unmapUserRegion ⟨first * pageSize,k * pageSize,pageFlags,.borrowed⟩).leaves =
        fun page => if first ≤ page ∧ page < first + k then none else memory.leaves page := by
  obtain ⟨hleaves,htables,hbytes⟩ := UserMemory.unmapUserRegion_spec h.present ⟨first * pageSize,k * pageSize,pageFlags,.borrowed⟩
  refine ⟨⟨by rw [htables]; rfl,?_,List.nodup_nil,by simp,fun frame _ => congrFun hbytes frame⟩,?_⟩
  · rw [UserMemory.unmapUserRegion]
    split_ifs
    · simp
    · have havail := (UserMemory.unmapPages_spec .borrowed h.present (first * pageSize / pageSize)
        (UserMemory.pageCount (first * pageSize) (k * pageSize))).2.2.2.1
      simpa using havail.symm
  · rw [hleaves]
    exact funext fun page => unmapUserRegion_pages

variable [DecidableEq F]

private theorem mapEach_unmapped (h : memory.Intact) (hflags : pageFlags.present)
    (hunmapped : ∀ i < frames.length, memory.leaves (first + k + i) = none) :
    (∃ new, UserMemory.Took memory (mapEach (first * pageSize) pageFlags k frames memory).2 new 0) ∧
      ((mapEach (first * pageSize) pageFlags k frames memory).1 = true ∧
          (mapEach (first * pageSize) pageFlags k frames memory).2.leaves = placed (first + k) frames pageFlags memory.leaves ∨
        (mapEach (first * pageSize) pageFlags k frames memory).1 = false ∧
          (mapEach (first * pageSize) pageFlags k frames memory).2.leaves =
            fun page => if first ≤ page ∧ page < first + k then none else memory.leaves page) := by
  induction frames generalizing k memory with
  | nil => exact ⟨⟨[],.refl memory⟩,.inl ⟨rfl,placed_nil.symm⟩⟩
  | cons frame frames ih =>
    have hpage : (first * pageSize + k * pageSize) / pageSize = first + k := by
      rw [← Nat.add_mul,Nat.mul_div_cancel _ (by decide)]
    have hnone : memory.leaves (first + k) = none := hunmapped 0 (Nat.succ_pos _)
    have hkeeps := UserMemory.mapSpecificFrame_keeps (first + k) frame h hflags
    rw [mapEach,hpage]
    obtain ⟨new,htook,-,⟨⟨e,hr⟩,hleaves,-⟩ | ⟨hr,hleaves,-⟩⟩ := UserMemory.mapSpecificFrame_cases (first + k) frame pageFlags memory
    · generalize memory.mapSpecificFrame (first + k) frame pageFlags = r at *
      obtain ⟨result,u⟩ := r
      dsimp only at *
      subst hr
      obtain ⟨hback,hleaves'⟩ := unmapBorrowed hkeeps first k pageFlags
      exact ⟨⟨_,htook.trans hback⟩,.inr ⟨rfl,hleaves'.trans (by rw [hleaves])⟩⟩
    · generalize memory.mapSpecificFrame (first + k) frame pageFlags = r at *
      obtain ⟨result,u⟩ := r
      dsimp only at *
      subst hr
      obtain ⟨⟨new',htook'⟩,hcase⟩ := ih (k := k + 1) hkeeps fun i hi => by
        rw [hleaves,Function.update_of_ne (by omega),← hunmapped (i + 1) (Nat.succ_lt_succ hi)]
        congr 1
        omega
      refine ⟨⟨_,htook.trans htook'⟩,?_⟩
      obtain ⟨hok,hplaced⟩ | ⟨hfail,hback⟩ := hcase
      · refine .inl ⟨hok,?_⟩
        dsimp only
        rw [hplaced,hleaves,hnone]
        exact placed_cons frame
      · refine .inr ⟨hfail,?_⟩
        dsimp only
        rw [hback,hleaves]
        funext page
        by_cases hlast : page = first + k
        · rw [hlast,if_pos (by omega),if_neg (by omega),hnone]
        · rw [Function.update_of_ne hlast]
          exact if_congr (by omega) rfl rfl

/-- Frames for pages none of which is mapped: they are all placed, or the pages stay as they are. Only frames
for page tables are taken. -/
theorem mapFrames_unmapped (s : AddressSpace F) (first : Nat) (ownership : FrameOwnership) (h : s.memory.Intact)
    (hflags : pageFlags.present) (hframes : frames ≠ []) (hunmapped : ∀ i < frames.length, s.memory.leaves (first + i) = none) :
    (∃ new, UserMemory.Took s.memory (s.mapFrames (first * pageSize) frames pageFlags ownership).2.memory new 0) ∧
      ((s.mapFrames (first * pageSize) frames pageFlags ownership).1 = true ∧
          (s.mapFrames (first * pageSize) frames pageFlags ownership).2.memory.leaves = placed first frames pageFlags s.memory.leaves ∧
          (s.mapFrames (first * pageSize) frames pageFlags ownership).2.regions =
            trackRegion ⟨first * pageSize,frames.length * pageSize,pageFlags,ownership⟩ s.regions ∨
        (s.mapFrames (first * pageSize) frames pageFlags ownership).1 = false ∧
          (s.mapFrames (first * pageSize) frames pageFlags ownership).2.memory.leaves = s.memory.leaves ∧
          (s.mapFrames (first * pageSize) frames pageFlags ownership).2.regions = s.regions) := by
  obtain ⟨htook,hcase⟩ := mapEach_unmapped (k := 0) h hflags (by simpa using hunmapped)
  rw [mapFrames,if_neg hframes]
  generalize mapEach (first * pageSize) pageFlags 0 frames s.memory = r at *
  obtain ⟨ok,memory⟩ := r
  dsimp only at *
  obtain ⟨rfl,hleaves⟩ | ⟨rfl,hleaves⟩ := hcase
  · exact ⟨htook,.inl ⟨rfl,hleaves,rfl⟩⟩
  · refine ⟨htook,.inr ⟨rfl,hleaves.trans (funext fun page => if_neg ?_),rfl⟩⟩
    omega

end AddressSpace
end MofuOS.Process
