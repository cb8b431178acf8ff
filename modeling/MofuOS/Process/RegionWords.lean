import MofuOS.Words
import MofuOS.Process.ProcessMem

/-! track_region on machine words. An address that does not fit a word panics where overflow is checked and
wraps around where it is not. Below the bound nothing is lost. -/
namespace MofuOS.Process
open Lib Memory

/-- align_to_page_size on a word. -/
def alignWordToPageSize (p : Profile) (size : Nat) : Outcome Nat := do
  let sum ← unsigned p 64 (size + pageSize)
  let last ← unsigned p 64 (sum - 1)
  .ok (last / pageSize * pageSize)

/-- end_virt on words. -/
def endVirtWord (p : Profile) (region : MappedMemoryRegion) : Outcome Nat := unsigned p 64 (region.startVirt + region.sizeBytes)

def absorbNextWords (p : Profile) (merged : MappedMemoryRegion) :
    List MappedMemoryRegion → Outcome (MappedMemoryRegion × List MappedMemoryRegion)
  | [] => .ok (merged,[])
  | next :: rest =>
    if next.pageFlags = merged.pageFlags ∧ next.frameOwnership = merged.frameOwnership then do
      let mergedEnd ← endVirtWord p merged
      if next.startVirt ≤ mergedEnd then do
        let nextEnd ← endVirtWord p next
        let sizeBytes ← unsigned p 64 ((max mergedEnd nextEnd : Nat) - merged.startVirt)
        absorbNextWords p { merged with sizeBytes } rest
      else .ok (merged,next :: rest)
    else .ok (merged,next :: rest)

def absorbPreviousWords (p : Profile) (merged : MappedMemoryRegion) (before : List MappedMemoryRegion) :
    Outcome (MappedMemoryRegion × List MappedMemoryRegion) :=
  match before.getLast? with
  | none => .ok (merged,before)
  | some previous =>
    if previous.pageFlags = merged.pageFlags ∧ previous.frameOwnership = merged.frameOwnership then do
      let previousEnd ← endVirtWord p previous
      if previousEnd ≥ merged.startVirt then do
        let mergedEnd ← endVirtWord p merged
        let sizeBytes ← unsigned p 64 ((max mergedEnd previousEnd : Nat) - previous.startVirt)
        .ok ({ merged with startVirt := previous.startVirt, sizeBytes },before.dropLast)
      else .ok (merged,before)
    else .ok (merged,before)

/-- The start of a region is canonical, and so is that of its first page. -/
def trackRegionWords (p : Profile) (region : MappedMemoryRegion) (regions : List MappedMemoryRegion) :
    Outcome (List MappedMemoryRegion) := do
  debugAssert p (decide (0 < region.sizeBytes))
  let alignedStart := alignDownToPageSize region.startVirt
  let endVirt ← endVirtWord p region
  let alignedEnd ← alignWordToPageSize p endVirt
  let sizeBytes ← unsigned p 64 (alignedEnd - alignedStart)
  let merged := { region with startVirt := alignedStart, sizeBytes }
  let before := regions.takeWhile fun existing => existing.startVirt < alignedStart
  let after := regions.dropWhile fun existing => existing.startVirt < alignedStart
  let (merged,before) ← absorbPreviousWords p merged before
  let (merged,after) ← absorbNextWords p merged after
  .ok (before ++ merged :: after)

variable {p : Profile} {n m : Nat} {region merged : MappedMemoryRegion} {regions : List MappedMemoryRegion}

theorem alignWordToPageSize_of_lt (hfits : n + pageSize < 2^64) : alignWordToPageSize p n = .ok (alignToPageSize n) := by
  have hsum : unsigned p 64 ((n : Int) + pageSize) = .ok (n + pageSize) := unsigned_add hfits
  have hlast : unsigned p 64 (((n + pageSize : Nat) : Int) - 1) = .ok (n + pageSize - 1) :=
    unsigned_sub (Nat.le_add_left_of_le (by decide)) hfits
  rw [alignWordToPageSize,hsum,ok_bind,hlast,ok_bind]
  rfl

theorem endVirtWord_of_lt (h : region.endVirt < 2^64) : endVirtWord p region = .ok region.endVirt := unsigned_add h

private theorem absorbNextWords_eq (hmerged : merged.endVirt < 2^64) (hends : ∀ r ∈ regions, r.endVirt < 2^64) :
    absorbNextWords p merged regions = .ok (absorbNext merged regions) := by
  induction regions generalizing merged with
  | nil => rfl
  | cons next rest ih =>
    obtain ⟨hnext,hends⟩ := List.forall_mem_cons.mp hends
    have hstart : merged.startVirt ≤ merged.endVirt := Nat.le_add_right ..
    rw [absorbNextWords,absorbNext]
    by_cases hkind : next.pageFlags = merged.pageFlags ∧ next.frameOwnership = merged.frameOwnership
    · by_cases htouch : next.startVirt ≤ merged.endVirt
      · rw [if_pos hkind,endVirtWord_of_lt hmerged,ok_bind,if_pos htouch,endVirtWord_of_lt hnext,ok_bind,
          unsigned_sub (by omega) (by omega),ok_bind,if_pos ⟨hkind.1,hkind.2,htouch⟩]
        refine ih ?_ hends
        change merged.startVirt + (max merged.endVirt next.endVirt - merged.startVirt) < 2^64
        omega
      · rw [if_pos hkind,endVirtWord_of_lt hmerged,ok_bind,if_neg htouch,if_neg fun h => htouch h.2.2]
    · rw [if_neg hkind,if_neg fun h => hkind ⟨h.1,h.2.1⟩]

private theorem absorbPreviousWords_eq (hmerged : merged.endVirt < 2^64) (hends : ∀ r ∈ regions, r.endVirt < 2^64) :
    absorbPreviousWords p merged regions = .ok (absorbPrevious merged regions) ∧
      (absorbPrevious merged regions).1.endVirt < 2^64 := by
  unfold absorbPreviousWords absorbPrevious
  cases hlast : regions.getLast? with
  | none => exact ⟨rfl,hmerged⟩
  | some previous =>
    have hprevious := hends previous (List.mem_of_getLast? hlast)
    have hstart : previous.startVirt ≤ previous.endVirt := Nat.le_add_right ..
    dsimp only
    by_cases hkind : previous.pageFlags = merged.pageFlags ∧ previous.frameOwnership = merged.frameOwnership
    · by_cases htouch : previous.endVirt ≥ merged.startVirt
      · rw [if_pos hkind,endVirtWord_of_lt hprevious,ok_bind,if_pos htouch,endVirtWord_of_lt hmerged,ok_bind,
          unsigned_sub (by omega) (by omega),ok_bind,if_pos ⟨hkind.1,hkind.2,htouch⟩]
        refine ⟨rfl,?_⟩
        change previous.startVirt + (max merged.endVirt previous.endVirt - previous.startVirt) < 2^64
        omega
      · rw [if_pos hkind,endVirtWord_of_lt hprevious,ok_bind,if_neg htouch,if_neg fun h => htouch h.2.2]
        exact ⟨rfl,hmerged⟩
    · rw [if_neg hkind,if_neg fun h => hkind ⟨h.1,h.2.1⟩]
      exact ⟨rfl,hmerged⟩

/-- A region that ends below the last page is tracked without a wrap. -/
theorem trackRegionWords_eq (hsize : 0 < region.sizeBytes) (hend : region.endVirt + pageSize < 2^64)
    (hends : ∀ r ∈ regions, r.endVirt < 2^64) : trackRegionWords p region regions = .ok (trackRegion region regions) := by
  have hassert : debugAssert p (decide (0 < region.sizeBytes)) = .ok () := by
    rw [debugAssert,decide_eq_true hsize]
    simp
  have hlt : alignToPageSize region.endVirt < 2^64 := by
    unfold alignToPageSize pageSize at *
    omega
  have hle : alignDownToPageSize region.startVirt ≤ alignToPageSize region.endVirt := by
    unfold alignDownToPageSize alignToPageSize MappedMemoryRegion.endVirt pageSize
    omega
  rw [trackRegionWords,hassert,ok_bind,endVirtWord_of_lt (by omega),ok_bind,alignWordToPageSize_of_lt hend,ok_bind,
    unsigned_sub hle hlt,ok_bind]
  generalize hnew : ({ region with
    startVirt := alignDownToPageSize region.startVirt
    sizeBytes := alignToPageSize region.endVirt - alignDownToPageSize region.startVirt } : MappedMemoryRegion) = new
  have hnewEnd : new.endVirt < 2^64 := by
    rw [← hnew]
    change alignDownToPageSize region.startVirt + (alignToPageSize region.endVirt - alignDownToPageSize region.startVirt) < 2^64
    omega
  have hfront : ∀ r ∈ regions.takeWhile (fun existing => existing.startVirt < alignDownToPageSize region.startVirt),
      r.endVirt < 2^64 := fun r hr => hends r ((List.takeWhile_sublist _).subset hr)
  obtain ⟨hprevious,hmerged⟩ := absorbPreviousWords_eq (p := p) hnewEnd hfront
  dsimp only
  rw [hprevious,ok_bind]
  rw [absorbNextWords_eq hmerged fun r hr => hends r ((List.dropWhile_sublist _).subset hr),ok_bind,trackRegion,hnew]

end MofuOS.Process
