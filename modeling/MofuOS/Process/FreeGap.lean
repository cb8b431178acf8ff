import MofuOS.Process.RegionWords
import MofuOS.Process.RegionClasses
import Mathlib.Order.Bounds.Basic

/-! The search for room between the tracked regions. -/
namespace MofuOS.Process
open Lib Memory

def processUserVaddrAllocMaxSize : Nat := 0x50000000
def processUserVaddrAllocStart : Nat := 0x10000000
def processUserVaddrAllocEnd : Nat := processUserVaddrAllocStart + processUserVaddrAllocMaxSize

def saturatingAdd (a b : Nat) : Nat := min (a + b) (2^64 - 1)

/-- What find_free_gap returns behind its loop. -/
def lastGap (alignedSize cursor : Nat) : Option Nat :=
  if saturatingAdd cursor alignedSize ≤ processUserVaddrAllocEnd then some cursor else none

/-- The loop of find_free_gap. -/
def gapLoop (alignedSize : Nat) : Nat → List MappedMemoryRegion → Option Nat
  | cursor,[] => lastGap alignedSize cursor
  | cursor,region :: regions =>
    if region.endVirt ≤ processUserVaddrAllocStart then gapLoop alignedSize cursor regions
    else if region.startVirt ≥ processUserVaddrAllocEnd then lastGap alignedSize cursor
    else if region.startVirt ≥ saturatingAdd cursor alignedSize then some cursor
    else gapLoop alignedSize (max cursor region.endVirt) regions

def findFreeGap (p : Profile) (sizeBytes : UInt64) (regions : List MappedMemoryRegion) : Outcome (Option Nat) := do
  let alignedSize ← alignWordToPageSize p sizeBytes.toNat
  .ok (if alignedSize = 0 then none else gapLoop alignedSize processUserVaddrAllocStart regions)

/-- The loop of find_free_gap where the end of a region is a word. -/
def gapLoopWords (p : Profile) (alignedSize : Nat) : Nat → List MappedMemoryRegion → Outcome (Option Nat)
  | cursor,[] => .ok (lastGap alignedSize cursor)
  | cursor,region :: regions => do
    let regionEnd ← endVirtWord p region
    if regionEnd ≤ processUserVaddrAllocStart then gapLoopWords p alignedSize cursor regions
    else if region.startVirt ≥ processUserVaddrAllocEnd then .ok (lastGap alignedSize cursor)
    else if region.startVirt ≥ saturatingAdd cursor alignedSize then .ok (some cursor)
    else gapLoopWords p alignedSize (max cursor regionEnd) regions

def findFreeGapWords (p : Profile) (sizeBytes : UInt64) (regions : List MappedMemoryRegion) : Outcome (Option Nat) := do
  let alignedSize ← alignWordToPageSize p sizeBytes.toNat
  if alignedSize = 0 then .ok none else gapLoopWords p alignedSize processUserVaddrAllocStart regions

variable {regions passed : List MappedMemoryRegion} {n cursor a size : Nat} {p : Profile}

/-- The n bytes from a on lie in the window and meet no region. -/
structure Free (regions : List MappedMemoryRegion) (n a : Nat) : Prop where
  start : processUserVaddrAllocStart ≤ a
  stop : a + n ≤ processUserVaddrAllocEnd
  apart : ∀ r ∈ regions, r.endVirt ≤ a ∨ a + n ≤ r.startVirt

/-- The places at which the search may find room. -/
def GapStart (regions : List MappedMemoryRegion) (a : Nat) : Prop :=
  pageSize ∣ a ∧ (a = processUserVaddrAllocStart ∨ ∃ r ∈ regions, a = r.endVirt)

/-- The cursor is where room may start, behind the regions passed, and no room starts in front of it. -/
structure Swept (passed : List MappedMemoryRegion) (n cursor : Nat) : Prop where
  start : processUserVaddrAllocStart ≤ cursor
  gapStart : GapStart passed cursor
  behind : ∀ r ∈ passed, r.endVirt ≤ cursor
  full : ∀ a, Free passed n a → cursor ≤ a

theorem Free.of_append {rest : List MappedMemoryRegion} (h : Free (passed ++ rest) n a) : Free passed n a :=
  ⟨h.start,h.stop,fun r hr => h.apart r (List.mem_append_left _ hr)⟩

theorem GapStart.append (h : GapStart passed a) (rest : List MappedMemoryRegion) : GapStart (passed ++ rest) a :=
  ⟨h.1,h.2.imp id fun ⟨r,hr,ha⟩ => ⟨r,List.mem_append_left _ hr,ha⟩⟩

theorem Swept.new (n : Nat) : Swept [] n processUserVaddrAllocStart :=
  ⟨Nat.le_refl _,⟨by decide,.inl rfl⟩,nofun,fun _ h => h.start⟩

/-- A region that leaves no room for n bytes in front of it. -/
theorem Swept.pass {region : MappedMemoryRegion} (h : Swept passed n cursor) (haligned : pageSize ∣ region.endVirt)
    (hroom : region.startVirt < cursor + n ∨ region.endVirt ≤ cursor) :
    Swept (passed ++ [region]) n (max cursor region.endVirt) := by
  have hstart := h.start
  refine ⟨by omega,?_,?_,?_⟩
  · obtain hle | hlt := Nat.le_total region.endVirt cursor
    · rw [Nat.max_eq_left hle]
      exact h.gapStart.append _
    · rw [Nat.max_eq_right hlt]
      exact ⟨haligned,.inr ⟨region,by simp,rfl⟩⟩
  · intro r hr
    obtain hr | hr := List.mem_append.mp hr
    · have := h.behind r hr
      omega
    · rw [List.mem_singleton.mp hr]
      omega
  · intro a ha
    have hcursor := h.full a ha.of_append
    have hregion := ha.apart region (by simp)
    omega

/-- The least place for n bytes, if there is one. -/
def Finds (regions : List MappedMemoryRegion) (n : Nat) (gap : Option Nat) : Prop :=
  (∀ a, gap = some a → IsLeast { a | GapStart regions a ∧ Free regions n a } a) ∧ (gap = none ↔ ∀ a, ¬ Free regions n a)

/-- Room at the cursor, which no region behind it takes away. -/
private theorem finds_cursor {rest : List MappedMemoryRegion} (h : Swept passed n cursor)
    (hstop : cursor + n ≤ processUserVaddrAllocEnd) (hrest : ∀ r ∈ rest, r.endVirt ≤ cursor ∨ cursor + n ≤ r.startVirt) :
    Finds (passed ++ rest) n (some cursor) := by
  have hfree : Free (passed ++ rest) n cursor := by
    refine ⟨h.start,hstop,fun r hr => ?_⟩
    obtain hr | hr := List.mem_append.mp hr
    · exact .inl (h.behind r hr)
    · exact hrest r hr
  refine ⟨fun a ha => ?_,⟨nofun,fun hall => absurd hfree (hall cursor)⟩⟩
  cases ha
  exact ⟨⟨h.gapStart.append rest,hfree⟩,fun b hb => h.full b hb.2.of_append⟩

private theorem finds_last {rest : List MappedMemoryRegion} (h : Swept passed n cursor)
    (hrest : ∀ r ∈ rest, processUserVaddrAllocEnd ≤ r.startVirt) : Finds (passed ++ rest) n (lastGap n cursor) := by
  have hiff : saturatingAdd cursor n ≤ processUserVaddrAllocEnd ↔ cursor + n ≤ processUserVaddrAllocEnd := by
    unfold saturatingAdd processUserVaddrAllocEnd processUserVaddrAllocStart processUserVaddrAllocMaxSize
    omega
  rw [lastGap]
  split_ifs with hfits
  · have hstop := hiff.mp hfits
    exact finds_cursor h hstop fun r hr => .inr (Nat.le_trans hstop (hrest r hr))
  · refine ⟨nofun,fun _ a ha => hfits (hiff.mpr ?_),fun _ => rfl⟩
    have hcursor := h.full a ha.of_append
    have hstop := ha.stop
    omega

/-- The loop with the regions passed behind it. -/
private theorem gapLoop_spec {rest : List MappedMemoryRegion} (h : Swept passed n cursor)
    (hsorted : rest.Pairwise fun r r' => r.startVirt ≤ r'.startVirt) (haligned : ∀ r ∈ rest, PageAligned r) :
    Finds (passed ++ rest) n (gapLoop n cursor rest) := by
  induction rest generalizing passed cursor with
  | nil => exact finds_last h nofun
  | cons region rest ih =>
    obtain ⟨hfirst,hsorted⟩ := List.pairwise_cons.mp hsorted
    obtain ⟨hregion,haligned⟩ := List.forall_mem_cons.mp haligned
    have hend : pageSize ∣ region.endVirt := Nat.dvd_add hregion.1 hregion.2
    have hcons : passed ++ region :: rest = passed ++ [region] ++ rest := by rw [List.append_assoc,List.singleton_append]
    rw [gapLoop]
    split_ifs with hskip hbreak hgap
    · -- the region ends in front of the window
      have hpass := h.pass hend (.inr (Nat.le_trans hskip h.start))
      rw [Nat.max_eq_left (Nat.le_trans hskip h.start)] at hpass
      rw [hcons]
      exact ih hpass hsorted haligned
    · exact finds_last h (List.forall_mem_cons.mpr ⟨hbreak,fun r hr => Nat.le_trans hbreak (hfirst r hr)⟩)
    · have hroom : cursor + n ≤ region.startVirt := by
        unfold saturatingAdd processUserVaddrAllocEnd processUserVaddrAllocStart processUserVaddrAllocMaxSize at *
        omega
      refine finds_cursor h (Nat.le_trans hroom (Nat.le_of_lt (Nat.not_le.mp hbreak))) ?_
      exact List.forall_mem_cons.mpr ⟨.inr hroom,fun r hr => .inr (Nat.le_trans hroom (hfirst r hr))⟩
    · have hfull : region.startVirt < cursor + n := by
        unfold saturatingAdd at hgap
        omega
      rw [hcons]
      exact ih (h.pass hend (.inl hfull)) hsorted haligned

/-- A size that does not wrap around when it is aligned, or one so large that no window holds it. -/
private theorem alignWordToPageSize_cases (size : UInt64) (hchecks : p.checks = true → size.toNat + pageSize < 2^64) :
    ∃ n, alignWordToPageSize p size.toNat = .ok n ∧
      (n = alignToPageSize size.toNat ∨ n = 0 ∧ processUserVaddrAllocEnd < size.toNat) := by
  have hsize := size.toNat_lt
  by_cases hfits : size.toNat + pageSize < 2^64
  · exact ⟨alignToPageSize size.toNat,alignWordToPageSize_of_lt hfits,.inl rfl⟩
  · -- only where nothing is checked: the sum wraps to less than a page
    have hp : p.checks = false := Bool.eq_false_iff.mpr fun h => hfits (hchecks h)
    have hsum : unsigned p 64 ((size.toNat : Int) + pageSize) = .ok (size.toNat + pageSize - 2^64) := by
      have hwrap : (((size.toNat : Int) + pageSize) % 2^64).toNat = size.toNat + pageSize - 2^64 := by
        unfold pageSize at *
        omega
      rw [unsigned,if_neg (by omega),hp,hwrap]
      rfl
    rw [alignWordToPageSize,hsum,ok_bind]
    by_cases hzero : size.toNat + pageSize - 2^64 = 0
    · have hlast : unsigned p 64 (((0 : Nat) : Int) - 1) = .ok (2^64 - 1) := by
        rw [unsigned,if_neg (by omega),hp]
        rfl
      rw [hzero,hlast,ok_bind]
      refine ⟨_,rfl,.inl ?_⟩
      unfold alignToPageSize pageSize at *
      omega
    · have hlast : unsigned p 64 (((size.toNat + pageSize - 2^64 : Nat) : Int) - 1) = .ok (size.toNat + pageSize - 2^64 - 1) := by
        rw [show ((size.toNat + pageSize - 2^64 : Nat) : Int) - 1 = ((size.toNat + pageSize - 2^64 - 1 : Nat) : Int) by omega]
        exact unsigned_of_lt (by unfold pageSize; omega)
      rw [hlast,ok_bind]
      refine ⟨_,rfl,.inr ⟨?_,?_⟩⟩
      · unfold pageSize at *
        omega
      · unfold processUserVaddrAllocEnd processUserVaddrAllocStart processUserVaddrAllocMaxSize pageSize at *
        omega

/-- With overflow checks the size is one that can be aligned, as that of every caller is. -/
theorem findFreeGap_spec (size : UInt64) (hsorted : regions.Pairwise fun r r' => r.startVirt ≤ r'.startVirt)
    (haligned : ∀ r ∈ regions, PageAligned r) (hpos : 0 < size) (hchecks : p.checks = true → size.toNat + pageSize < 2^64) :
    ∃ gap, findFreeGap p size regions = .ok gap ∧ Finds regions (alignToPageSize size.toNat) gap := by
  have hpos : 0 < size.toNat := UInt64.lt_iff_toNat_lt.mp hpos
  have hle : size.toNat ≤ alignToPageSize size.toNat := by
    unfold alignToPageSize pageSize
    omega
  obtain ⟨n,hn,rfl | ⟨rfl,hlarge⟩⟩ := alignWordToPageSize_cases size hchecks
  · refine ⟨_,by rw [findFreeGap,hn,ok_bind],?_⟩
    rw [if_neg (by omega)]
    exact gapLoop_spec (Swept.new _) hsorted haligned
  · refine ⟨_,by rw [findFreeGap,hn,ok_bind],?_⟩
    rw [if_pos rfl]
    refine ⟨nofun,fun _ a ha => ?_,fun _ => rfl⟩
    have hstop := ha.stop
    omega

private theorem gapLoopWords_eq (hends : ∀ r ∈ regions, r.endVirt < 2^64) (cursor : Nat) :
    gapLoopWords p n cursor regions = .ok (gapLoop n cursor regions) := by
  induction regions generalizing cursor with
  | nil => rfl
  | cons region regions ih =>
    obtain ⟨hregion,hends⟩ := List.forall_mem_cons.mp hends
    rw [gapLoopWords,gapLoop,endVirtWord_of_lt hregion,ok_bind]
    split_ifs
    · exact ih hends cursor
    · rfl
    · rfl
    · exact ih hends _

/-- Where every region ends within a word the search is the one with exact ends. -/
theorem findFreeGapWords_eq {size : UInt64} (hends : ∀ r ∈ regions, r.endVirt < 2^64) :
    findFreeGapWords p size regions = findFreeGap p size regions := by
  rw [findFreeGapWords,findFreeGap]
  cases alignWordToPageSize p size.toNat with
  | error fault => rfl
  | ok alignedSize =>
    rw [ok_bind,ok_bind]
    split_ifs
    · rfl
    · exact gapLoopWords_eq hends _

/-- The search returns the least of the places at which there is room, and nothing when there is none. -/
theorem findFreeGap_finds (size : UInt64) (hsorted : regions.Pairwise fun r r' => r.startVirt ≤ r'.startVirt)
    (haligned : ∀ r ∈ regions, PageAligned r) (hends : ∀ r ∈ regions, r.endVirt < 2^64) (hpos : 0 < size)
    (hchecks : p.checks = true → size.toNat + pageSize < 2^64) :
    ∃ gap, findFreeGapWords p size regions = .ok gap ∧ Finds regions (alignToPageSize size.toNat) gap := by
  rw [findFreeGapWords_eq hends]
  exact findFreeGap_spec size hsorted haligned hpos hchecks

/-- A region over the start of the window, one inside it, and one further on. -/
private abbrev straddling : List MappedMemoryRegion :=
  [⟨0xFFFF000,0x3000,{},.owned⟩,⟨0x10000000,0x1000,{},.borrowed⟩,⟨0x10004000,0x1000,{},.owned⟩]

theorem findFreeGap_finds_straddling : findFreeGapWords .dev 0x1001 straddling = .ok (some 0x10002000) ∧
    ∃ gap, findFreeGapWords .dev 0x1001 straddling = .ok gap ∧ Finds straddling 0x2000 gap :=
  ⟨by decide +kernel,
    findFreeGap_finds 0x1001 (by decide) (by simp [PageAligned,pageSize]) (by decide) (by decide) (fun _ => by decide)⟩

/-- With overflow checks the largest size panics when it is aligned, and a region up to the end of the address
space when its end is summed. -/
theorem findFreeGap_panics : findFreeGapWords .dev 0xFFFFFFFFFFFFFFFF [] = .error .panic ∧
    findFreeGapWords .dev 0x1000 [⟨0xFFFFFFFFFFFFF000,0x1000,{},.owned⟩] = .error .panic ∧
    ¬ ∃ gap, findFreeGapWords .dev 0xFFFFFFFFFFFFFFFF [] = .ok gap := by
  have hsize : findFreeGapWords .dev 0xFFFFFFFFFFFFFFFF [] = .error .panic := by decide +kernel
  refine ⟨hsize,by decide +kernel,?_⟩
  rintro ⟨gap,hgap⟩
  rw [hsize] at hgap
  cases hgap

end MofuOS.Process
