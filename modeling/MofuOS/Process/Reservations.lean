import MofuOS.Process.FreeGap
import MofuOS.Lib.Steps

/-! Reservations of virtual ranges: a bump pointer, and behind its end the search for room between the tracked
regions. -/
namespace MofuOS.Process
open Lib Memory

/-- The range that is reserved, if there is one, and next_alloc_vaddr afterwards. -/
def allocateVirtualRange (p : Profile) (sizeBytes : UInt64) (nextAllocVaddr : Nat) (regions : List MappedMemoryRegion) :
    Outcome (Option Nat × Nat) :=
  if sizeBytes.toNat > processUserVaddrAllocMaxSize then .ok (none,nextAllocVaddr)
  else do
    let alignedSize ← alignWordToPageSize p sizeBytes.toNat
    let rangeEnd ← unsigned p 64 (nextAllocVaddr + alignedSize)
    if rangeEnd > processUserVaddrAllocEnd then
      let gap ← findFreeGap p (UInt64.ofNat alignedSize) regions
      .ok (gap,nextAllocVaddr)
    else .ok (some nextAllocVaddr,rangeEnd)

variable {p : Profile} {regions : List MappedMemoryRegion} {r r' region merged : MappedMemoryRegion} {n a b v next page : Nat}

section Pages

/-- Whole pages meet a region exactly when it covers one of them. -/
theorem apart_iff (hr : PageAligned r) (ha : pageSize ∣ a) (hn : pageSize ∣ n) (hpos : 0 < n) (hsize : 0 < r.sizeBytes) :
    r.endVirt ≤ a ∨ a + n ≤ r.startVirt ↔ ∀ page, a ≤ page * pageSize → page * pageSize + pageSize ≤ a + n → ¬ Within r page := by
  obtain ⟨hs,hz⟩ := hr
  simp only [Within,MappedMemoryRegion.endVirt,pageSize] at *
  constructor
  · intro h page hle hlt
    omega
  · intro h
    have := h (max a r.startVirt / 4096)
    omega

/-- A range that is free of an ordered list of regions, by its pages. -/
theorem Ordered.apart_iff (h : Ordered regions) (ha : pageSize ∣ a) (hn : pageSize ∣ n) (hpos : 0 < n) :
    (∀ r ∈ regions, r.endVirt ≤ a ∨ a + n ≤ r.startVirt) ↔
      ∀ page, a ≤ page * pageSize → page * pageSize + pageSize ≤ a + n → ¬ CoversPage regions page := by
  have hone : ∀ r ∈ regions, _ := fun r hr =>
    Process.apart_iff ⟨(h.aligned r hr).start,(h.aligned r hr).size⟩ ha hn hpos (h.aligned r hr).positive
  constructor
  · rintro hall page hle hlt ⟨r,hr,hwithin⟩
    exact (hone r hr).mp (hall r hr) page hle hlt hwithin
  · exact fun hall r hr => (hone r hr).mpr fun page hle hlt hwithin => hall page hle hlt ⟨r,hr,hwithin⟩

end Pages

section Allocate

theorem dvd_alignToPageSize (n : Nat) : pageSize ∣ alignToPageSize n := Nat.dvd_mul_left ..

theorem alignToPageSize_pos {sizeBytes : UInt64} (h : 0 < sizeBytes) : 0 < alignToPageSize sizeBytes.toNat := by
  have : 0 < sizeBytes.toNat := UInt64.lt_iff_toNat_lt.mp h
  unfold alignToPageSize pageSize
  omega

/-- Nothing is reserved, or the range behind next_alloc_vaddr, or what the search finds. -/
theorem allocateVirtualRange_cases (h : Ordered regions) (hstop : next ≤ processUserVaddrAllocEnd) (sizeBytes : UInt64) :
    ∃ gap next', allocateVirtualRange p sizeBytes next regions = .ok (gap,next') ∧
      (gap = none ∧ next' = next ∨
        next + alignToPageSize sizeBytes.toNat ≤ processUserVaddrAllocEnd ∧ gap = some next ∧
          next' = next + alignToPageSize sizeBytes.toNat ∨
        processUserVaddrAllocEnd < next + alignToPageSize sizeBytes.toNat ∧ next' = next ∧
          Finds regions (alignToPageSize sizeBytes.toNat) gap) := by
  unfold allocateVirtualRange
  split_ifs with hlarge
  · exact ⟨none,_,rfl,.inl ⟨rfl,rfl⟩⟩
  have hn : alignToPageSize sizeBytes.toNat ≤ processUserVaddrAllocMaxSize := by
    unfold alignToPageSize pageSize processUserVaddrAllocMaxSize at *
    omega
  have hfixed : alignToPageSize (alignToPageSize sizeBytes.toNat) = alignToPageSize sizeBytes.toNat := by
    unfold alignToPageSize pageSize
    omega
  rw [alignWordToPageSize_of_lt (by unfold processUserVaddrAllocMaxSize pageSize at *; omega),ok_bind]
  generalize alignToPageSize sizeBytes.toNat = n at *
  rw [unsigned_add (by unfold processUserVaddrAllocEnd processUserVaddrAllocStart processUserVaddrAllocMaxSize at *; omega),ok_bind]
  split_ifs with hend
  · have hword : (UInt64.ofNat n).toNat = n :=
      UInt64.toNat_ofNat_of_lt' (by unfold processUserVaddrAllocMaxSize at hn; unfold UInt64.size; omega)
    obtain ⟨gap,hgap,hfinds⟩ := findFreeGap_spec (p := p) (UInt64.ofNat n) h.sorted
      (fun r hr => ⟨(h.aligned r hr).start,(h.aligned r hr).size⟩)
      (UInt64.lt_iff_toNat_lt.mpr (by rw [hword]; show 0 < n; omega))
      (fun _ => by rw [hword]; unfold processUserVaddrAllocMaxSize pageSize at *; omega)
    rw [hword,hfixed] at hfinds
    exact ⟨gap,_,by rw [hgap,ok_bind],.inr (.inr ⟨hend,rfl,hfinds⟩)⟩
  · exact ⟨_,_,rfl,.inr (.inl ⟨Nat.not_lt.mp hend,rfl,rfl⟩)⟩

end Allocate

section Order

/-- Sorted by start, and two regions do not overlap unless they do so outside the window. -/
def InOrder (r r' : MappedMemoryRegion) : Prop :=
  r.startVirt ≤ r'.startVirt ∧
    (r.endVirt ≤ r'.startVirt ∨ r.endVirt ≤ processUserVaddrAllocStart ∨ processUserVaddrAllocEnd ≤ r'.startVirt)

/-- A region that ends where the later one of two others does. -/
private theorem inOrder_joined (h : InOrder r region) (h' : InOrder r' region) (hstart : merged.startVirt ≤ region.startVirt)
    (hend : merged.endVirt = max r.endVirt r'.endVirt) : InOrder merged region := by
  unfold InOrder processUserVaddrAllocEnd processUserVaddrAllocStart at *
  omega

private theorem absorbNext_inOrder (hregions : regions.Pairwise InOrder) (hmerged : ∀ r ∈ regions, InOrder merged r) :
    (absorbNext merged regions).1.startVirt = merged.startVirt ∧ (absorbNext merged regions).2 <:+ regions ∧
      ∀ r ∈ (absorbNext merged regions).2, InOrder (absorbNext merged regions).1 r := by
  induction regions generalizing merged with
  | nil => exact ⟨rfl,List.nil_suffix,nofun⟩
  | cons next regions ih =>
    obtain ⟨hnext,hregions⟩ := List.pairwise_cons.mp hregions
    obtain ⟨hfirst,hmerged'⟩ := List.forall_mem_cons.mp hmerged
    rw [absorbNext]
    split_ifs with habsorb
    · obtain ⟨hstart,hsuffix,horder⟩ := @ih { merged with sizeBytes := max merged.endVirt next.endVirt - merged.startVirt } hregions
        fun r hr => by
          refine inOrder_joined (hmerged' r hr) (hnext r hr) (hmerged' r hr).1 ?_
          simp only [MappedMemoryRegion.endVirt]
          omega
      exact ⟨hstart,hsuffix.trans (List.suffix_cons _ _),horder⟩
    · exact ⟨rfl,List.suffix_refl _,hmerged⟩

private theorem absorbPrevious_inOrder {behind : List MappedMemoryRegion} (hregions : (regions ++ behind).Pairwise InOrder)
    (hfront : ∀ r ∈ regions, InOrder r merged) (hbehind : ∀ r ∈ behind, InOrder merged r) :
    (absorbPrevious merged regions).2 <+: regions ∧
      (∀ r ∈ (absorbPrevious merged regions).2, InOrder r (absorbPrevious merged regions).1) ∧
      ∀ r ∈ behind, InOrder (absorbPrevious merged regions).1 r := by
  unfold absorbPrevious
  obtain rfl | ⟨front,previous,rfl⟩ := List.eq_nil_or_concat regions
  · exact ⟨List.nil_prefix,nofun,hbehind⟩
  rw [List.concat_eq_append] at *
  obtain ⟨hfronts,-,hcross⟩ := List.pairwise_append.mp hregions
  simp only [List.getLast?_concat]
  split_ifs with habsorb
  · rw [List.dropLast_concat]
    refine ⟨List.prefix_append _ _,fun r hr => (List.pairwise_append.mp hfronts).2.2 r hr previous List.mem_cons_self,fun r hr => ?_⟩
    have hprevious := hcross previous (by simp) r hr
    refine inOrder_joined (hbehind r hr) hprevious hprevious.1 ?_
    simp only [MappedMemoryRegion.endVirt]
    have := (hfront previous (by simp)).1
    omega
  · exact ⟨List.prefix_refl _,hfront,hbehind⟩

/-- A range none of whose pages is covered does not disturb the order. -/
theorem inOrder_trackRegion (h : Ordered regions) (hregions : regions.Pairwise InOrder) (hsize : 0 < region.sizeBytes)
    (hfresh : ∀ page, Touches region.startVirt region.endVirt page → ¬ CoversPage regions page) :
    (trackRegion region regions).Pairwise InOrder := by
  obtain ⟨m,m',before,before',after,after',rfl,htrack,hbefore,hafter,hprevious,hnext⟩ := trackRegion_eq region regions
  rw [htrack]
  generalize hnew : ({ region with
    startVirt := alignDownToPageSize region.startVirt
    sizeBytes := alignToPageSize region.endVirt - alignDownToPageSize region.startVirt } : MappedMemoryRegion) = new at hprevious
  have hstart : new.startVirt = alignDownToPageSize region.startVirt := by rw [← hnew]
  obtain ⟨hnewAligned,hnewPages⟩ := aligned_widened hsize hstart (by rw [← hnew])
  have hapart : ∀ r ∈ before ++ after, r.endVirt ≤ new.startVirt ∨ new.endVirt ≤ r.startVirt :=
    (h.apart_iff hnewAligned.start hnewAligned.size hnewAligned.positive).mpr fun page hle hlt =>
      hfresh page ((hnewPages page).mp ⟨hle,hlt⟩)
  have hfront : ∀ r ∈ before, InOrder r new := by
    intro r hr
    have hlt := hbefore r hr
    have hnext := hapart r (List.mem_append_left _ hr)
    simp only [InOrder,MappedMemoryRegion.endVirt] at *
    omega
  have hbehind : ∀ r ∈ after, InOrder new r := by
    intro r hr
    have hle := hafter h.sorted r hr
    have hnext := hapart r (List.mem_append_right _ hr)
    have hpos := (h.aligned r (List.mem_append_right _ hr)).positive
    simp only [InOrder,MappedMemoryRegion.endVirt] at *
    omega
  obtain ⟨hfronts',hfront',hbehind'⟩ := absorbPrevious_inOrder hregions hfront hbehind
  rw [hprevious] at hfronts' hfront' hbehind'
  obtain ⟨hsB,hsA,hcross⟩ := List.pairwise_append.mp hregions
  obtain ⟨hstart',hsuffix,horder⟩ := absorbNext_inOrder hsA hbehind'
  rw [hnext] at hstart' hsuffix horder
  dsimp only at *
  refine List.pairwise_append.mpr ⟨hsB.sublist hfronts'.sublist,List.pairwise_cons.mpr ⟨horder,hsA.sublist hsuffix.sublist⟩,?_⟩
  intro r hr r' hr'
  obtain rfl | hr' := List.mem_cons.mp hr'
  · have := hfront' r hr
    unfold InOrder at this ⊢
    rwa [hstart']
  · exact hcross r (hfronts'.subset hr) r' (hsuffix.subset hr')

/-- Neither does a range in the window that is taken out of the region that covers it. -/
theorem inOrder_pieces {before after : List MappedMemoryRegion} (h : (before ++ region :: after).Pairwise InOrder)
    (hstart : region.startVirt ≤ a) (hend : a + n ≤ region.endVirt) (hpos : 0 < n) (hlow : processUserVaddrAllocStart ≤ a)
    (hhigh : a + n ≤ processUserVaddrAllocEnd) :
    (∀ r ∈ before ++ after, r.endVirt ≤ a ∨ a + n ≤ r.startVirt) ∧ (∀ r ∈ after, a + n ≤ r.startVirt) ∧
      (before ++ pieces region a (a + n) ++ after).Pairwise InOrder := by
  obtain ⟨hB,hA,hcross⟩ := List.pairwise_append.mp h
  obtain ⟨hregion,hA⟩ := List.pairwise_cons.mp hA
  have hafter : ∀ r ∈ after, a + n ≤ r.startVirt := by
    intro r hr
    have := hregion r hr
    unfold InOrder at this
    omega
  have hbefore : ∀ r ∈ before, r.endVirt ≤ a := by
    intro r hr
    have := hcross r hr region List.mem_cons_self
    unfold InOrder at this
    omega
  refine ⟨List.forall_mem_append.mpr ⟨fun r hr => .inl (hbefore r hr),fun r hr => .inr (hafter r hr)⟩,hafter,?_⟩
  rw [List.append_assoc]
  refine List.pairwise_append.mpr ⟨hB,List.pairwise_append.mpr ⟨?_,hA,fun r hr r' hr' => ?_⟩,fun r hr r' hr' => ?_⟩
  · unfold pieces
    split_ifs <;> simp
    unfold InOrder
    simp only [MappedMemoryRegion.endVirt]
    omega
  · have := hregion r' hr'
    have := hafter r' hr'
    unfold InOrder at *
    obtain ⟨-,hs,he⟩ | ⟨-,hs,he⟩ := mem_pieces hr <;> omega
  · obtain hr' | hr' := List.mem_append.mp hr'
    · have := hcross r hr region List.mem_cons_self
      unfold InOrder at *
      obtain ⟨-,hs,he⟩ | ⟨-,hs,he⟩ := mem_pieces hr' <;> omega
    · exact hcross r hr r' (List.mem_cons_of_mem _ hr')

end Order

/-- A part of a reserved range, as it is mapped. -/
structure Part where
  sizeBytes : Nat
  pageFlags : PageTableFlags
  frameOwnership : FrameOwnership

/-- The parts one behind the other. Nothing is tracked for an empty one. -/
def trackParts : Nat → List Part → List MappedMemoryRegion → List MappedMemoryRegion
  | _, [], regions => regions
  | startVirt, part :: parts, regions =>
    trackParts (startVirt + alignToPageSize part.sizeBytes) parts
      (if part.sizeBytes = 0 then regions
      else trackRegion ⟨startVirt,part.sizeBytes,part.pageFlags,part.frameOwnership⟩ regions)

def partsSize (parts : List Part) : Nat := (parts.map fun part => alignToPageSize part.sizeBytes).sum

section Parts

/-- A part that starts with a page takes whole pages. -/
private theorem touches_part (hv : pageSize ∣ v) (hsize : 0 < n) :
    Touches v (v + n) page ↔ v ≤ page * pageSize ∧ page * pageSize + pageSize ≤ v + alignToPageSize n := by
  unfold Touches alignToPageSize pageSize at *
  omega

theorem trackParts_spec (parts : List Part) (h : Ordered regions) (hregions : regions.Pairwise InOrder) (hv : pageSize ∣ v)
    (hfree : ∀ page, v ≤ page * pageSize → page * pageSize + pageSize ≤ v + partsSize parts → ¬ CoversPage regions page) :
    Ordered (trackParts v parts regions) ∧ (trackParts v parts regions).Pairwise InOrder ∧
      ∀ page, CoversPage (trackParts v parts regions) page ↔
        CoversPage regions page ∨ v ≤ page * pageSize ∧ page * pageSize + pageSize ≤ v + partsSize parts := by
  induction parts generalizing v regions with
  | nil =>
    refine ⟨h,hregions,fun page => (or_iff_left fun hpage => ?_).symm⟩
    have := hpage.2
    simp only [partsSize,List.map_nil,List.sum_nil,pageSize] at this hpage
    omega
  | cons part parts ih =>
    have hsum : partsSize (part :: parts) = alignToPageSize part.sizeBytes + partsSize parts := List.sum_cons
    have hnext : pageSize ∣ v + alignToPageSize part.sizeBytes := Nat.dvd_add hv (dvd_alignToPageSize _)
    rw [hsum] at hfree ⊢
    rw [trackParts]
    by_cases hsize : part.sizeBytes = 0
    · have hzero : alignToPageSize part.sizeBytes = 0 := by
        rw [hsize]
        rfl
      rw [hzero,Nat.zero_add] at hfree
      rw [if_pos hsize,hzero,Nat.add_zero,Nat.zero_add]
      exact ih h hregions hv hfree
    rw [if_neg hsize]
    have hpart : ∀ page, Touches v (v + part.sizeBytes) page ↔ _ := fun page => touches_part hv (Nat.pos_of_ne_zero hsize)
    have hfresh : ∀ page, Touches v (v + part.sizeBytes) page → ¬ CoversPage regions page := by
      intro page htouch
      obtain ⟨hle,hlt⟩ := (hpart page).mp htouch
      exact hfree page hle (by omega)
    obtain ⟨hordered,hcovers⟩ :=
      h.trackRegion ⟨v,part.sizeBytes,part.pageFlags,part.frameOwnership⟩ (Nat.pos_of_ne_zero hsize)
    have hcovers := fun page => (hcovers page).trans (or_congr_right (hpart page))
    have horder : (trackRegion ⟨v,part.sizeBytes,part.pageFlags,part.frameOwnership⟩ regions).Pairwise InOrder :=
      inOrder_trackRegion h hregions (Nat.pos_of_ne_zero hsize) hfresh
    obtain ⟨hordered',horder',hcovers'⟩ := ih hordered horder hnext fun page hle hlt hcov => by
      obtain hcov | hpage := (hcovers page).mp hcov
      · exact hfree page (by omega) (by omega) hcov
      · unfold pageSize at *
        omega
    refine ⟨hordered',horder',fun page => ?_⟩
    rw [hcovers',hcovers,or_assoc]
    refine or_congr_right ?_
    have hdvd := hnext
    unfold pageSize at *
    omega

end Parts

/-- What allocate_virtual_range and unmap_region keep of a process. -/
structure VirtualRanges where
  nextAllocVaddr : Nat
  regions : List MappedMemoryRegion
  deriving DecidableEq

namespace VirtualRanges

/-- A range is reserved and mapped in full, a range is mapped elsewhere, or pages of the window are unmapped. -/
inductive Event where
  | reserve (sizeBytes : UInt64) (parts : List Part)
  | mapElsewhere (region : MappedMemoryRegion)
  | unmapRegion (startVirt sizeBytes : Nat)

/-- Outside the window, and on pages that no region covers. -/
def Elsewhere (region : MappedMemoryRegion) (regions : List MappedMemoryRegion) : Prop :=
  0 < region.sizeBytes ∧ (region.endVirt ≤ processUserVaddrAllocStart ∨ processUserVaddrAllocEnd ≤ region.startVirt) ∧
    ∀ r ∈ regions, r.endVirt ≤ alignDownToPageSize region.startVirt ∨ alignToPageSize region.endVirt ≤ r.startVirt

instance (region : MappedMemoryRegion) (regions : List MappedMemoryRegion) : Decidable (Elsewhere region regions) :=
  inferInstanceAs (Decidable (_ ∧ _ ∧ _))

/-- Pages of the window. -/
def InWindow (startVirt sizeBytes : Nat) : Prop :=
  pageSize ∣ startVirt ∧ pageSize ∣ sizeBytes ∧ 0 < sizeBytes ∧ processUserVaddrAllocStart ≤ startVirt ∧
    startVirt + sizeBytes ≤ processUserVaddrAllocEnd

instance (startVirt sizeBytes : Nat) : Decidable (InWindow startVirt sizeBytes) := inferInstanceAs (Decidable (_ ∧ _))

/-- Anything else is not part of a run. -/
def exec (p : Profile) : Event → VirtualRanges → Option VirtualRanges
  | .reserve sizeBytes parts, s =>
    match allocateVirtualRange p sizeBytes s.nextAllocVaddr s.regions with
    | .ok (some startVirt,nextAllocVaddr) =>
      if partsSize parts = alignToPageSize sizeBytes.toNat then some ⟨nextAllocVaddr,trackParts startVirt parts s.regions⟩ else none
    | .ok (none,nextAllocVaddr) => some { s with nextAllocVaddr }
    | .error _ => none
  | .mapElsewhere region, s =>
    if Elsewhere region s.regions then some { s with regions := trackRegion region s.regions } else none
  | .unmapRegion startVirt sizeBytes, s =>
    if InWindow startVirt sizeBytes then
      match carve startVirt (startVirt + sizeBytes) s.regions with
      | none => some s
      | some (_,regions) => some { s with regions }
    else none

variable {s t : VirtualRanges} {sizeBytes : UInt64} {parts : List Part} {e : Event} {events : List Event}

/-- Pages behind next_alloc_vaddr that lie in the window are not covered. -/
structure Kept (s : VirtualRanges) : Prop where
  ordered : Ordered s.regions
  inOrder : s.regions.Pairwise InOrder
  aligned : pageSize ∣ s.nextAllocVaddr
  start : processUserVaddrAllocStart ≤ s.nextAllocVaddr
  stop : s.nextAllocVaddr ≤ processUserVaddrAllocEnd
  behind : ∀ page, s.nextAllocVaddr ≤ page * pageSize → page * pageSize + pageSize ≤ processUserVaddrAllocEnd →
    ¬ CoversPage s.regions page

/-- The size fits behind next_alloc_vaddr, or there is room in front of it if there is any in the window. -/
def RoomInFront (n : Nat) (s : VirtualRanges) : Prop :=
  s.nextAllocVaddr + n ≤ processUserVaddrAllocEnd ∨
    ∀ a, Free s.regions n a → ∃ b, Free s.regions n b ∧ b + n ≤ s.nextAllocVaddr

def FindsRoom : Event → VirtualRanges → Prop
  | .reserve sizeBytes _, s => RoomInFront (alignToPageSize sizeBytes.toNat) s
  | _, _ => True

/-- A reservation returns no range, or one that is aligned, lies in the window and meets no region. -/
def ReservesFree (p : Profile) (sizeBytes : UInt64) (s : VirtualRanges) : Prop :=
  ∃ gap nextAllocVaddr, allocateVirtualRange p sizeBytes s.nextAllocVaddr s.regions = .ok (gap,nextAllocVaddr) ∧
    ∀ v, gap = some v → pageSize ∣ v ∧ Free s.regions (alignToPageSize sizeBytes.toNat) v

/-- No room starts in front of the first place where the search may find some. -/
private theorem gapStart_le (h : Ordered regions) (ha : Free regions n a) : ∃ b ≤ a, GapStart regions b ∧ Free regions n b := by
  classical
  have hex : ∃ a, Free regions n a := ⟨a,ha⟩
  have hfree := Nat.find_spec hex
  have hleast := fun b => @Nat.find_min _ _ hex b
  refine ⟨Nat.find hex,Nat.find_min' hex ha,?_,hfree⟩
  generalize Nat.find hex = b at *
  have hplace : b = processUserVaddrAllocStart ∨ ∃ r ∈ regions, b = r.endVirt := by
    refine or_iff_not_imp_left.mpr fun hstart => Classical.byContradiction fun hend => ?_
    -- one byte further in front there would be room, too
    have hlow := hfree.start
    refine hleast (b - 1) (by omega) ⟨by omega,by have := hfree.stop; omega,fun r hr => ?_⟩
    have hne : b ≠ r.endVirt := fun heq => hend ⟨r,hr,heq⟩
    have := hfree.apart r hr
    omega
  refine ⟨?_,hplace⟩
  obtain rfl | ⟨r,hr,rfl⟩ := hplace
  · decide
  · exact Nat.dvd_add (h.aligned r hr).start (h.aligned r hr).size

/-- What a reservation returns, and that it leaves next_alloc_vaddr behind the range. -/
private theorem allocateVirtualRange_spec (h : s.Kept) (hroom : RoomInFront (alignToPageSize sizeBytes.toNat) s) :
    ∃ gap next, allocateVirtualRange p sizeBytes s.nextAllocVaddr s.regions = .ok (gap,next) ∧ s.nextAllocVaddr ≤ next ∧
      next ≤ processUserVaddrAllocEnd ∧ pageSize ∣ next ∧ ∀ v, gap = some v →
        pageSize ∣ v ∧ v + alignToPageSize sizeBytes.toNat ≤ next ∧
          (0 < sizeBytes → Free s.regions (alignToPageSize sizeBytes.toNat) v) := by
  have hstop := h.stop
  have hdvd := dvd_alignToPageSize sizeBytes.toNat
  obtain ⟨gap,next,halloc,hcase⟩ := allocateVirtualRange_cases (p := p) h.ordered hstop sizeBytes
  refine ⟨gap,next,halloc,?_⟩
  obtain ⟨rfl,rfl⟩ | ⟨hend,rfl,rfl⟩ | ⟨hend,rfl,hfinds⟩ := hcase
  · exact ⟨Nat.le_refl _,hstop,h.aligned,nofun⟩
  · refine ⟨Nat.le_add_right _ _,hend,Nat.dvd_add h.aligned hdvd,fun v hv => ?_⟩
    cases hv
    refine ⟨h.aligned,Nat.le_refl _,fun hpos => ⟨h.start,hend,?_⟩⟩
    exact (h.ordered.apart_iff h.aligned hdvd (alignToPageSize_pos hpos)).mpr fun page hle hlt => h.behind page hle (by omega)
  · refine ⟨Nat.le_refl _,hstop,h.aligned,fun v hv => ?_⟩
    obtain ⟨⟨hplace,hfree⟩,hleast⟩ := hfinds.1 v hv
    obtain ⟨b,hb,hfront⟩ := (hroom.resolve_left (by omega)) v hfree
    obtain ⟨c,hc,hplace',hfree'⟩ := gapStart_le h.ordered hb
    have hle : v ≤ c := hleast ⟨hplace',hfree'⟩
    exact ⟨hplace.1,by omega,fun _ => hfree⟩

private theorem Kept.reserve (h : s.Kept) (parts : List Part) {gap : Option Nat} {next : Nat} (hle : s.nextAllocVaddr ≤ next)
    (hstop : next ≤ processUserVaddrAllocEnd) (hdvd : pageSize ∣ next) (hgap : ∀ v, gap = some v →
      pageSize ∣ v ∧ v + alignToPageSize sizeBytes.toNat ≤ next ∧
        (0 < sizeBytes → Free s.regions (alignToPageSize sizeBytes.toNat) v)) :
    (gap = none → ({ s with nextAllocVaddr := next } : VirtualRanges).Kept) ∧
      ∀ v, gap = some v → partsSize parts = alignToPageSize sizeBytes.toNat →
        (⟨next,trackParts v parts s.regions⟩ : VirtualRanges).Kept := by
  have hstart := h.start
  refine ⟨fun _ => ⟨h.ordered,h.inOrder,hdvd,by dsimp only; omega,hstop,fun page hpage => h.behind page ?_⟩,fun v hv hsum => ?_⟩
  · dsimp only at hpage
    omega
  obtain ⟨haligned,hend,hfree⟩ := hgap v hv
  obtain ⟨hordered,horder,hcovers⟩ := trackParts_spec parts h.ordered h.inOrder haligned fun page hlow hhigh => by
    rw [hsum] at hhigh
    have hpos : 0 < sizeBytes := by
      refine UInt64.lt_iff_toNat_lt.mpr (Nat.pos_of_ne_zero fun hzero => ?_)
      rw [hzero] at hhigh
      unfold alignToPageSize pageSize at *
      omega
    exact (h.ordered.apart_iff haligned (dvd_alignToPageSize _) (alignToPageSize_pos hpos)).mp (hfree hpos).apart page hlow hhigh
  refine ⟨hordered,horder,hdvd,by dsimp only; omega,hstop,fun page hpage hwindow hcov => ?_⟩
  dsimp only at hpage hcov
  obtain hcov | ⟨-,hlt⟩ := (hcovers page).mp hcov
  · exact h.behind page (by omega) hwindow hcov
  · unfold pageSize at *
    omega

private theorem Kept.mapElsewhere (h : s.Kept) {region : MappedMemoryRegion} (helse : Elsewhere region s.regions) :
    ({ s with regions := trackRegion region s.regions } : VirtualRanges).Kept := by
  obtain ⟨hsize,houtside,hfresh⟩ := helse
  obtain ⟨hordered,hcovers⟩ := h.ordered.trackRegion region hsize
  refine ⟨hordered,inOrder_trackRegion h.ordered h.inOrder hsize ?_,h.aligned,h.start,h.stop,fun page hpage hwindow hcov => ?_⟩
  · rintro page htouch ⟨r,hr,hlow,hhigh⟩
    have := hfresh r hr
    unfold Touches alignDownToPageSize alignToPageSize pageSize at *
    omega
  · obtain hcov | htouch := (hcovers page).mp hcov
    · exact h.behind page hpage hwindow hcov
    · have := h.start
      unfold Touches pageSize at *
      dsimp only at hpage
      omega

private theorem Kept.unmapRegion (h : s.Kept) {start size : Nat} (hwindow : InWindow start size)
    {x : MappedMemoryRegion × List MappedMemoryRegion} (hcarve : carve start (start + size) s.regions = some x) : ({ s with regions := x.2 } : VirtualRanges).Kept := by
  obtain ⟨halignedStart,halignedSize,hpos,hlow,hhigh⟩ := hwindow
  obtain ⟨region,rest⟩ := x
  obtain ⟨before,after,hregions,hle,hge,hrest⟩ := carve_some hcarve
  have hordered := h.ordered
  have horder := h.inOrder
  rw [hregions] at hordered horder
  obtain ⟨hapart,hafter,hpieces⟩ := inOrder_pieces horder hle hge hpos hlow hhigh
  have hcarvable : Carvable start size before after region :=
    ⟨halignedStart,halignedSize,fun r hr => (hapart r hr).imp id .inl,fun _ => hafter⟩
  obtain ⟨hordered',hcovers⟩ := hcarvable.ordered hordered hle hge
  dsimp only
  rw [hrest]
  refine ⟨hordered',hpieces,h.aligned,h.start,h.stop,fun page hpage hstop hcov => h.behind page hpage hstop ?_⟩
  rw [hregions]
  exact ((hcovers page).mp hcov).1

/-- What a step does to the pages behind next_alloc_vaddr. -/
private theorem exec_kept (h : s.Kept) (hroom : FindsRoom e s) (hexec : exec p e s = some t) : t.Kept := by
  cases e with
  | reserve sizeBytes parts =>
    obtain ⟨gap,next,halloc,hle,hstop,hdvd,hgap⟩ := allocateVirtualRange_spec (p := p) h hroom
    obtain ⟨hnone,hsome⟩ := h.reserve parts hle hstop hdvd hgap
    rw [exec,halloc] at hexec
    cases gap with
    | none =>
      cases hexec
      exact hnone rfl
    | some v =>
      dsimp only at hexec
      split_ifs at hexec with hsum
      cases hexec
      exact hsome v rfl hsum
  | mapElsewhere region =>
    rw [exec] at hexec
    split_ifs at hexec with helse
    cases hexec
    exact h.mapElsewhere helse
  | unmapRegion start size =>
    rw [exec] at hexec
    split_ifs at hexec with hwindow
    cases hcarve : carve start (start + size) s.regions with
    | none =>
      rw [hcarve] at hexec
      cases hexec
      exact h
    | some x =>
      rw [hcarve] at hexec
      cases hexec
      exact h.unmapRegion hwindow hcarve

/-- Nothing has been reserved yet, and what is tracked lies outside the window. -/
structure Unreserved (s : VirtualRanges) : Prop where
  ordered : Ordered s.regions
  outside : ∀ r ∈ s.regions, r.endVirt ≤ processUserVaddrAllocStart ∨ processUserVaddrAllocEnd ≤ r.startVirt
  next : s.nextAllocVaddr = processUserVaddrAllocStart

theorem Unreserved.kept (h : s.Unreserved) : s.Kept := by
  refine ⟨h.ordered,?_,by rw [h.next]; decide,Nat.le_of_eq h.next.symm,by rw [h.next]; decide,?_⟩
  · refine h.ordered.sorted.imp_of_mem fun {r r'} hr hr' hle => ⟨hle,?_⟩
    have := h.outside r hr
    omega
  · rintro page hpage hstop ⟨r,hr,hlow,hhigh⟩
    have := h.outside r hr
    rw [h.next] at hpage
    unfold pageSize at *
    omega

/-- In a run in which every reservation that does not fit behind next_alloc_vaddr finds room in front of it, or
none at all, every range that is reserved is free. -/
theorem run_reserves_free (h : s.Unreserved) (hroom : stepsMeet (exec p) FindsRoom events s) :
    ∀ done sizeBytes parts, done ++ [.reserve sizeBytes parts] <+: events → 0 < sizeBytes →
      ∀ t, steps (exec p) done s = some t → ReservesFree p sizeBytes t := by
  rintro done sizeBytes parts ⟨rest,rfl⟩ hpos t hrun
  rw [List.append_assoc] at hroom
  obtain ⟨hdone,hrest⟩ := stepsMeet_of_append hroom
  have hkept : t.Kept := steps_invariant (fun _ _ _ hc hI hexec => exec_kept hI hc hexec) hdone h.kept hrun
  obtain ⟨gap,next,halloc,-,-,-,hgap⟩ := allocateVirtualRange_spec (p := p) hkept (hrest t hrun).1
  exact ⟨gap,next,halloc,fun v hv => ⟨(hgap v hv).1,(hgap v hv).2.2 hpos⟩⟩

/-- The conditions of a run that stays behind next_alloc_vaddr. -/
private def fits : Event → VirtualRanges → Bool
  | .reserve sizeBytes _, s => decide (s.nextAllocVaddr + alignToPageSize sizeBytes.toNat ≤ processUserVaddrAllocEnd)
  | _, _ => true

private theorem findsRoom_of_fits (e : Event) (s : VirtualRanges) (h : fits e s = true) : FindsRoom e s := by
  cases e with
  | reserve sizeBytes parts => exact .inl (of_decide_eq_true h)
  | mapElsewhere region => trivial
  | unmapRegion start size => trivial

private abbrev userFlags : PageTableFlags := { present := true, writable := true, userAccessible := true, noExecute := true }

/-- Two views of size bytes each. -/
private abbrev views (size : Nat) : List Part := [⟨size,userFlags,.owned⟩,⟨size,userFlags,.borrowed⟩]

private abbrev code : MappedMemoryRegion := ⟨0x400000,0x3000,{ present := true, userAccessible := true },.owned⟩

/-- The second reservation of a run takes what lies behind the first one, though a page of that is free again. -/
theorem run_reserves_free_views : ∃ s, steps (exec .dev) [.reserve 0x2000 (views 0x1000),.unmapRegion 0x10001000 0x1000]
    ⟨0x10000000,[code]⟩ = some s ∧ ReservesFree .dev 0x1001 s := by
  have hsteps : (steps (exec .dev) [.reserve 0x2000 (views 0x1000),.unmapRegion 0x10001000 0x1000] ⟨0x10000000,[code]⟩).isSome = true := by
    decide +kernel
  obtain ⟨s,hs⟩ := Option.isSome_iff_exists.mp hsteps
  refine ⟨s,hs,run_reserves_free (p := .dev) ⟨⟨by decide,?_⟩,by decide,rfl⟩ (stepsMeet_of_check fits findsRoom_of_fits ?_)
    [.reserve 0x2000 (views 0x1000),.unmapRegion 0x10001000 0x1000] 0x1001 [⟨0x1001,userFlags,.owned⟩] (List.prefix_refl _)
    (by decide) s hs⟩
  · simp only [List.forall_mem_singleton]
    exact ⟨by decide,by decide,by decide⟩
  · decide +kernel

/-- Almost the whole window is reserved and unmapped again. The whole window fits in front of its end then,
and reaches over next_alloc_vaddr. -/
private abbrev straddlingCalls : List Event :=
  [.reserve 0x4FFFE000 (views 0x27FFF000),.unmapRegion 0x10000000 0x27FFF000,.unmapRegion 0x37FFF000 0x27FFF000,
    .reserve 0x50000000 (views 0x28000000)]

private theorem steps_straddling : steps (exec .dev) straddlingCalls ⟨0x10000000,[code]⟩ =
    some ⟨0x5FFFE000,[code,⟨0x10000000,0x28000000,userFlags,.owned⟩,⟨0x38000000,0x28000000,userFlags,.borrowed⟩]⟩ := by
  decide +kernel

/-- The next reservation returns two pages of the range that is mapped already. -/
theorem reserved_range_tracked : ∃ s, steps (exec .dev) straddlingCalls ⟨0x10000000,[code]⟩ = some s ∧
    allocateVirtualRange .dev 0x2000 s.nextAllocVaddr s.regions = .ok (some 0x5FFFE000,0x60000000) ∧
    ¬ ReservesFree .dev 0x2000 s := by
  refine ⟨_,steps_straddling,by decide +kernel,?_⟩
  rintro ⟨gap,next,halloc,hfree⟩
  have hreturns : allocateVirtualRange .dev 0x2000 0x5FFFE000
      [code,⟨0x10000000,0x28000000,userFlags,.owned⟩,⟨0x38000000,0x28000000,userFlags,.borrowed⟩] =
        .ok (some 0x5FFFE000,0x60000000) := by
    decide +kernel
  cases halloc.symm.trans hreturns
  have := (hfree _ rfl).2.apart ⟨0x38000000,0x28000000,userFlags,.borrowed⟩ (by simp)
  revert this
  decide

end VirtualRanges

namespace AddressSpace
variable {F : Type}

/-- The calls that a part of a reserved range is mapped with. -/
inductive Mapping (F : Type) where
  | fresh (sizeBytes : Nat) (pageFlags : {flags : PageTableFlags // flags.present})
  | given (frames : List F) (pageFlags : {flags : PageTableFlags // flags.present}) (frameOwnership : FrameOwnership)

namespace Mapping

def part : Mapping F → Part
  | fresh sizeBytes pageFlags => ⟨sizeBytes,pageFlags,.owned⟩
  | given frames pageFlags frameOwnership => ⟨frames.length * pageSize,pageFlags,frameOwnership⟩

def call (startVirt : Nat) : Mapping F → Call F
  | fresh sizeBytes pageFlags => .mapOwnedRegion startVirt sizeBytes pageFlags
  | given frames pageFlags frameOwnership => .mapFrames startVirt frames pageFlags frameOwnership

def calls : Nat → List (Mapping F) → List (Call F)
  | _, [] => []
  | startVirt, mapping :: mappings =>
    mapping.call startVirt :: calls (startVirt + alignToPageSize mapping.part.sizeBytes) mappings

end Mapping

variable [DecidableEq F] [Mapper F] {s t : AddressSpace F} {start size : Nat}

private theorem step_mapping {mapping : Mapping F} (h : s.step (mapping.call start) = some t) :
    t.regions = if mapping.part.sizeBytes = 0 then s.regions
      else trackRegion ⟨start,mapping.part.sizeBytes,mapping.part.pageFlags,mapping.part.frameOwnership⟩ s.regions := by
  cases mapping with
  | fresh sizeBytes pageFlags =>
    have h : succeeded (s.mapOwnedRegion start sizeBytes pageFlags) = some t := h
    obtain ⟨hok,rfl⟩ := succeeded_eq_some.mp h
    by_cases hsize : sizeBytes = 0
    · rw [mapOwnedRegion,if_pos hsize]
      exact (if_pos hsize).symm
    · exact (mapOwnedRegion_spec hok hsize).1.trans (if_neg hsize).symm
  | given frames pageFlags frameOwnership =>
    have h : succeeded (s.mapFrames start frames pageFlags frameOwnership) = some t := h
    obtain ⟨hok,rfl⟩ := succeeded_eq_some.mp h
    by_cases hframes : frames = []
    · have hsize : frames.length * pageSize = 0 := by rw [hframes,List.length_nil,Nat.zero_mul]
      rw [mapFrames,if_pos hframes]
      exact (if_pos hsize).symm
    · have hsize : frames.length * pageSize ≠ 0 := Nat.mul_ne_zero (mt List.length_eq_zero_iff.mp hframes) (by decide)
      exact (mapFrames_spec hok hframes).1.trans (if_neg hsize).symm

/-- A reserved range that is mapped in parts is tracked in these parts. -/
theorem regions_mapped {mappings : List (Mapping F)} (h : run (Mapping.calls start mappings) s = some t) :
    t.regions = trackParts start (mappings.map Mapping.part) s.regions := by
  induction mappings generalizing start s with
  | nil =>
    cases h
    rfl
  | cons mapping mappings ih =>
    obtain ⟨u,hu,ht⟩ := Option.bind_eq_some_iff.mp h
    rw [List.map_cons,trackParts,ih ht,step_mapping hu]

omit [DecidableEq F] in
theorem regions_unmapRegion : (s.unmapRegion start size).2.regions =
    match carve start (start + size) s.regions with
    | none => s.regions
    | some (_,regions) => regions := by
  unfold unmapRegion
  cases carve start (start + size) s.regions <;> rfl

end AddressSpace
end MofuOS.Process
