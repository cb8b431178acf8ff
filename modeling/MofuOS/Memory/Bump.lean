import MofuOS.Words
import MofuOS.Lib.Run
import MofuOS.Memory.FrameAllocator
import MofuOS.Memory.UserMem
import Mathlib.Data.Finset.Card
import Mathlib.Data.List.Nodup
import Mathlib.Data.Nat.Bitwise

/-! MemoryMapFrameAllocator over the memory map of the boot loader: a cursor that moves through the usable
regions, in front of a list of the frames that were given back. -/
namespace MofuOS.Memory.Bump
open Lib

def memmapUsable : UInt64 := 0

/-- An entry of the memory map. -/
structure Entry where
  base : UInt64
  length : UInt64
  type : UInt64
  deriving DecidableEq, Repr

/-- The frames are written as the addresses at which they start, and the one freed last is in front. -/
structure MemoryMapFrameAllocator where
  memoryMap : List Entry
  currRegionIndex : Nat
  frameOffsetInRegion : Nat
  freeList : List Nat
  deriving DecidableEq, Repr

variable (p : Profile) (containingAddress : Nat → Outcome Nat)

def alignUp (x align : Nat) : Outcome Nat := do
  let sum ← unsigned p 64 (x + align)
  let last ← unsigned p 64 (sum - 1)
  .ok (last &&& (2^64 - 1 - (align - 1)))

def init (memoryMap : List Entry) : MemoryMapFrameAllocator := ⟨memoryMap,0,0,[]⟩

/-- The loop of allocate_frame, from the region of the cursor on. -/
def bump : List Entry → Nat → Nat → Outcome (Option Nat × Nat × Nat)
  | [],index,offset => .ok (none,index,offset)
  | region :: regions,index,offset =>
    if region.type ≠ memmapUsable then bump regions (index + 1) 0
    else do
      let start ← alignUp p region.base.toNat pageSize
      let stop ← unsigned p 64 (region.base.toNat + region.length.toNat)
      let addr ← unsigned p 64 (start + offset)
      let next ← unsigned p 64 (addr + pageSize)
      if next ≤ stop then
        let offset ← unsigned p 64 (offset + pageSize)
        let frame ← containingAddress addr
        .ok (some frame,index,offset)
      else bump regions (index + 1) 0

namespace MemoryMapFrameAllocator

def allocateFrame (a : MemoryMapFrameAllocator) : Outcome (Option Nat × MemoryMapFrameAllocator) :=
  match a.freeList with
  | frame :: freeList => .ok (some frame,{ a with freeList })
  | [] => do
    let (frame,index,offset) ← bump p containingAddress (a.memoryMap.drop a.currRegionIndex) a.currRegionIndex a.frameOffsetInRegion
    .ok (frame,{ a with currRegionIndex := index, frameOffsetInRegion := offset })

def deallocateFrame (frame : Nat) (a : MemoryMapFrameAllocator) : MemoryMapFrameAllocator :=
  { a with freeList := frame :: a.freeList }

/-- The frames of a region that the cursor has left, added to a count. -/
def countRegion (a : MemoryMapFrameAllocator) (count idx : Nat) : Outcome Nat :=
  match a.memoryMap[idx]? with
  | none => .error .panic
  | some region =>
    if region.type = memmapUsable then do
      let start ← alignUp p region.base.toNat pageSize
      let stop ← unsigned p 64 (region.base.toNat + region.length.toNat)
      if start < stop then unsigned p 64 (count + ((stop - start) / pageSize : Nat)) else .ok count
    else .ok count

def allocatedBumpFrames (a : MemoryMapFrameAllocator) : Outcome Nat := do
  let left ← (List.range a.currRegionIndex).foldlM (countRegion p a) 0
  let count ← (match a.memoryMap[a.currRegionIndex]? with
    | none => .ok left
    | some region =>
      if region.type = memmapUsable then unsigned p 64 (left + (a.frameOffsetInRegion / pageSize : Nat)) else .ok left)
  .ok (if a.freeList.length ≤ count then count - a.freeList.length else 0)

end MemoryMapFrameAllocator

def Entry.stop (region : Entry) : Nat := region.base.toNat + region.length.toNat

/-- The memory of a region. -/
def Entry.Covers (region : Entry) (byte : Nat) : Prop :=
  region.base.toNat ≤ byte ∧ byte < region.stop

/-- The first page at or behind the start of a region. -/
def Entry.firstPage (region : Entry) : Nat := (region.base.toNat + pageSize - 1) / pageSize * pageSize

/-- The whole frames of a region that is usable. -/
def Entry.frames (region : Entry) : List Nat :=
  if region.type = memmapUsable then
    List.range' region.firstPage ((region.stop - region.firstPage) / pageSize) pageSize
  else []

/-- The frames in front of the cursor. -/
def untouchedFrom : List Entry → Nat → List Nat
  | [],_ => []
  | region :: regions,offset => region.frames.drop (offset / pageSize) ++ regions.flatMap Entry.frames

/-- The cursor is at a frame of the region, or behind the last one. -/
def AtFrame (regions : List Entry) (offset : Nat) : Prop :=
  ∃ k, offset = pageSize * k ∧ k ≤ (regions.head?.elim 0 fun region => region.frames.length)

section Align
variable {p : Profile} {x : Nat}

/-- The mask clears the twelve low bits. -/
private theorem land_pageMask (h : x < 2^64) : x &&& (2^64 - 1 - (pageSize - 1)) = x / pageSize * pageSize := by
  rw [show 2^64 - 1 - (pageSize - 1) = (2^52 - 1) * 2^12 by decide,show pageSize = 2^12 from rfl]
  refine Nat.eq_of_testBit_eq fun i => ?_
  simp only [Nat.testBit_and,Nat.testBit_mul_two_pow,Nat.testBit_two_pow_sub_one,Nat.testBit_div_two_pow]
  rcases Nat.lt_or_ge i 12 with hi | hi
  · simp [show ¬ 12 ≤ i by omega]
  · rcases Nat.lt_or_ge i 64 with hi' | hi'
    · simp [hi,show i - 12 < 52 by omega]
    · have hbit : x.testBit i = false :=
        Nat.testBit_lt_two_pow (Nat.lt_of_lt_of_le h (Nat.pow_le_pow_right (by decide) hi'))
      simp [hbit,hi]

theorem alignUp_of_lt (h : x + pageSize < 2^64) : alignUp p x pageSize = .ok ((x + pageSize - 1) / pageSize * pageSize) := by
  have hlast : (((x + pageSize : Nat) : Int) - 1) = (x + pageSize - 1 : Nat) := by simp only [pageSize]; omega
  rw [alignUp,unsigned_add h,ok_bind,hlast,unsigned_of_lt (by omega),ok_bind,land_pageMask (by omega)]

end Align

/-- The start of a region can be rounded up to a page that ends below 2^64, and its frames have addresses of 52 bits. -/
structure Entry.WithinLimits (region : Entry) : Prop where
  start : region.base.toNat + 2 * pageSize ≤ 2^64
  frames : ∀ frame ∈ region.frames, frame < 2^52

def AllWithinLimits (memoryMap : List Entry) : Prop :=
  ∀ region ∈ memoryMap, region.type = memmapUsable → region.WithinLimits

instance (region : Entry) : Decidable region.WithinLimits :=
  decidable_of_iff (region.base.toNat + 2 * pageSize ≤ 2^64 ∧ ∀ frame ∈ region.frames, frame < 2^52)
    ⟨fun h => ⟨h.1,h.2⟩,fun h => ⟨h.1,h.2⟩⟩

instance (memoryMap : List Entry) : Decidable (AllWithinLimits memoryMap) :=
  inferInstanceAs (Decidable (∀ region ∈ memoryMap, region.type = memmapUsable → region.WithinLimits))

/-- PhysFrame::containing_address of PhysAddr::new, which takes addresses of 52 bits only. -/
def Contains (containingAddress : Nat → Outcome Nat) : Prop :=
  ∀ addr, containingAddress addr = if addr < 2^52 then .ok (addr / pageSize * pageSize) else .error .panic

section Frames
variable {region : Entry} {frame : Nat}

/-- The frames of a region are the aligned pages that lie in it. -/
theorem Entry.mem_frames : frame ∈ region.frames ↔ region.type = memmapUsable ∧ pageSize ∣ frame ∧
    region.base.toNat ≤ frame ∧ frame + pageSize ≤ region.stop := by
  simp only [Entry.frames,Entry.firstPage,pageSize]
  split_ifs with htype
  · rw [List.mem_range']
    constructor
    · rintro ⟨i,hi,rfl⟩
      refine ⟨htype,?_,?_,?_⟩
      all_goals omega
    · rintro ⟨-,⟨k,rfl⟩,hbase,hstop⟩
      exact ⟨k - (region.base.toNat + 4096 - 1) / 4096,by omega,by omega⟩
  · simp [htype]

theorem Entry.nodup_frames : region.frames.Nodup := by
  simp only [Entry.frames]
  split_ifs
  · exact List.nodup_range' _ (by decide)
  · exact List.nodup_nil

theorem Entry.frames_of_usable (h : region.type = memmapUsable) :
    region.frames = List.range' region.firstPage ((region.stop - region.firstPage) / pageSize) pageSize := if_pos h

theorem Entry.frames_of_not_usable (h : region.type ≠ memmapUsable) : region.frames = [] := if_neg h

/-- A region that ends at 2^64 has a frame there. -/
theorem Entry.WithinLimits.stop_lt (h : region.WithinLimits) (htype : region.type = memmapUsable) : region.stop < 2^64 := by
  rcases Nat.lt_or_ge region.stop (2^64) with hlt | hge
  · exact hlt
  · have hstart := h.start
    have hmem : 2^64 - pageSize ∈ region.frames :=
      Entry.mem_frames.mpr ⟨htype,by decide,by simp only [pageSize] at *; omega,by simp only [pageSize]; omega⟩
    exact absurd (h.frames _ hmem) (by decide)

theorem untouchedFrom_zero (regions : List Entry) : untouchedFrom regions 0 = regions.flatMap Entry.frames := by
  cases regions <;> rfl

theorem atFrame_zero (regions : List Entry) : AtFrame regions 0 := ⟨0,rfl,Nat.zero_le _⟩

end Frames

section Cursor
variable {p : Profile} {containingAddress : Nat → Outcome Nat} {regions : List Entry} {index offset : Nat}

/-- The cursor at a usable region: the region's next frame is handed out, or the cursor leaves it. -/
private theorem bump_usable {region : Entry} (hcontains : Contains containingAddress) (htype : region.type = memmapUsable)
    (hlimits : region.WithinLimits) {k : Nat} (hk : k ≤ region.frames.length) :
    bump p containingAddress (region :: regions) index (pageSize * k) =
      if k < region.frames.length then .ok (some (region.firstPage + pageSize * k),index,pageSize * (k + 1))
      else bump p containingAddress regions (index + 1) 0 := by
  have hstart := hlimits.start
  have hstop := hlimits.stop_lt htype
  rw [region.frames_of_usable htype,List.length_range'] at hk ⊢
  have hfirst : region.firstPage ≤ region.base.toNat + 4095 := by
    simp only [Entry.firstPage,pageSize]
    omega
  have haligned : pageSize ∣ region.firstPage := Nat.dvd_mul_left ..
  -- behind the first page the cursor has passed a frame of the region, so its address is small
  have haddr : region.firstPage + pageSize * k + pageSize < 2^64 := by
    cases k with
    | zero => simp only [pageSize] at *; omega
    | succ k =>
      have hmem : region.firstPage + pageSize * k ∈ region.frames := by
        rw [region.frames_of_usable htype,List.mem_range']
        exact ⟨k,hk,rfl⟩
      have := hlimits.frames _ hmem
      simp only [pageSize] at *
      omega
  rw [bump,if_neg (not_not_intro htype),alignUp_of_lt (by simp only [pageSize] at *; omega),ok_bind]
  have hstop' : unsigned p 64 (region.base.toNat + region.length.toNat) = .ok region.stop := unsigned_add hstop
  rw [hstop',ok_bind]
  have haddr' : unsigned p 64 (((region.base.toNat + pageSize - 1) / pageSize * pageSize : Nat) + (pageSize * k : Nat)) =
      .ok (region.firstPage + pageSize * k) := unsigned_add (by rw [← Entry.firstPage]; omega)
  rw [haddr',ok_bind,unsigned_add haddr,ok_bind]
  split_ifs with hnext hlt hlt
  · have hmem : region.firstPage + pageSize * k ∈ region.frames := by
      rw [region.frames_of_usable htype,List.mem_range']
      exact ⟨k,hlt,rfl⟩
    have hframe : (region.firstPage + pageSize * k) / pageSize * pageSize = region.firstPage + pageSize * k :=
      Nat.div_mul_cancel (Nat.dvd_add haligned (Nat.dvd_mul_right ..))
    rw [unsigned_add (by omega),ok_bind,hcontains,if_pos (hlimits.frames _ hmem),ok_bind,hframe,Nat.mul_succ]
  · simp only [pageSize] at *
    omega
  · simp only [pageSize] at *
    omega
  · rfl

theorem bump_spec (index : Nat) (hcontains : Contains containingAddress)
    (hlimits : AllWithinLimits regions) (hat : AtFrame regions offset) :
    ∃ j offset', bump p containingAddress regions index offset = .ok ((untouchedFrom regions offset).head?,index + j,offset') ∧
      AtFrame (regions.drop j) offset' ∧ untouchedFrom (regions.drop j) offset' = (untouchedFrom regions offset).tail ∧
      j ≤ regions.length := by
  induction regions generalizing index offset with
  | nil => exact ⟨0,offset,rfl,hat,rfl,Nat.le_refl _⟩
  | cons region regions ih =>
    obtain ⟨k,rfl,hk⟩ := hat
    rw [List.head?_cons,Option.elim_some] at hk
    have hdiv : pageSize * k / pageSize = k := Nat.mul_div_cancel_left k (by decide)
    have hrest : ∃ j offset',
        bump p containingAddress regions (index + 1) 0 = .ok ((regions.flatMap Entry.frames).head?,index + j,offset') ∧
        AtFrame ((region :: regions).drop j) offset' ∧
        untouchedFrom ((region :: regions).drop j) offset' = (regions.flatMap Entry.frames).tail ∧ j ≤ (region :: regions).length := by
      obtain ⟨j,offset',hbump,hat,huntouched,hj⟩ :=
        ih (index + 1) (fun r hr => hlimits r (List.mem_cons_of_mem _ hr)) (atFrame_zero regions)
      rw [untouchedFrom_zero] at hbump huntouched
      exact ⟨j + 1,offset',by rw [hbump,Nat.add_right_comm,Nat.add_assoc],hat,huntouched,Nat.succ_le_succ hj⟩
    rw [untouchedFrom,hdiv]
    by_cases htype : region.type = memmapUsable
    · rw [bump_usable hcontains htype (hlimits region List.mem_cons_self htype) hk]
      split_ifs with hlt
      · have hdrop : region.frames.drop k = (region.firstPage + pageSize * k) :: region.frames.drop (k + 1) := by
          rw [List.drop_eq_getElem_cons hlt]
          simp only [region.frames_of_usable htype,List.getElem_range']
        refine ⟨0,pageSize * (k + 1),?_,⟨k + 1,rfl,hlt⟩,?_,Nat.zero_le _⟩
        · rw [hdrop]
          rfl
        · rw [List.drop_zero,untouchedFrom,Nat.mul_div_cancel_left _ (by decide),hdrop]
          rfl
      · rw [List.drop_of_length_le (Nat.le_of_not_lt hlt),List.nil_append]
        exact hrest
    · rw [region.frames_of_not_usable htype,List.drop_nil,List.nil_append,bump,if_pos htype]
      exact hrest

end Cursor

/-- The usable regions do not wrap around and do not overlap. -/
structure ValidMap (memoryMap : List Entry) : Prop where
  stop : ∀ region ∈ memoryMap, region.type = memmapUsable → region.stop ≤ 2^64
  disjoint : memoryMap.Pairwise fun region other => region.type = memmapUsable → other.type = memmapUsable →
    ∀ byte, region.Covers byte → ¬ other.Covers byte

section Map
variable {memoryMap : List Entry}

theorem ValidMap.nodup (h : ValidMap memoryMap) : (memoryMap.flatMap Entry.frames).Nodup := by
  rw [List.nodup_flatMap]
  refine ⟨fun region _ => region.nodup_frames,h.disjoint.imp fun {region other} hapart frame hmem hmem' => ?_⟩
  obtain ⟨htype,-,hbase,hstop⟩ := Entry.mem_frames.mp hmem
  obtain ⟨htype',-,hbase',hstop'⟩ := Entry.mem_frames.mp hmem'
  have hpage : 0 < pageSize := by decide
  exact hapart htype htype' frame ⟨hbase,by omega⟩ ⟨hbase',by omega⟩

theorem ValidMap.of_sorted (hstop : ∀ region ∈ memoryMap, region.type = memmapUsable → region.stop ≤ 2^64)
    (h : memoryMap.Pairwise fun region other => region.stop ≤ other.base.toNat) : ValidMap memoryMap :=
  ⟨hstop,h.imp fun hle _ _ _ hbyte hbyte' => Nat.not_lt.mpr (Nat.le_trans hle hbyte'.1) hbyte.2⟩

theorem ValidMap.length_le (h : ValidMap memoryMap) (hlimits : AllWithinLimits memoryMap) :
    (memoryMap.flatMap Entry.frames).length ≤ 2^52 := by
  have hsub : (memoryMap.flatMap Entry.frames).toFinset ⊆ Finset.range (2^52) := fun frame hframe => by
    obtain ⟨region,hregion,hmem⟩ := List.mem_flatMap.mp (List.mem_toFinset.mp hframe)
    exact Finset.mem_range.mpr ((hlimits region hregion (Entry.mem_frames.mp hmem).1).frames frame hmem)
  have hcard := Finset.card_le_card hsub
  rwa [List.toFinset_card_of_nodup h.nodup,Finset.card_range] at hcard

end Map

namespace MemoryMapFrameAllocator
variable {p : Profile} {containingAddress : Nat → Outcome Nat} {a : MemoryMapFrameAllocator}

/-- The cursor is in the memory map. -/
structure WellFormed (a : MemoryMapFrameAllocator) : Prop where
  index : a.currRegionIndex ≤ a.memoryMap.length
  cursor : AtFrame (a.memoryMap.drop a.currRegionIndex) a.frameOffsetInRegion

/-- The frames that were given back, and those in front of the cursor. -/
def abstract (a : MemoryMapFrameAllocator) : Memory.MemoryMapFrameAllocator Nat :=
  ⟨a.freeList,untouchedFrom (a.memoryMap.drop a.currRegionIndex) a.frameOffsetInRegion⟩

theorem deallocateFrame_abstract (frame : Nat) : (a.deallocateFrame frame).abstract = a.abstract.deallocateFrame frame := rfl

/-- A call of allocate_frame is one of the allocator that only knows the frames. -/
theorem allocateFrame_refines (hcontains : Contains containingAddress) (hlimits : AllWithinLimits a.memoryMap)
    (ha : a.WellFormed) : ∃ frame b, a.allocateFrame p containingAddress = .ok (frame,b) ∧ b.WellFormed ∧
      b.memoryMap = a.memoryMap ∧ a.abstract.allocateFrame = frame.map (·,b.abstract) ∧ (frame = none → b.abstract = a.abstract) := by
  obtain ⟨memoryMap,index,offset,freeList⟩ := a
  cases freeList with
  | cons frame freeList => exact ⟨some frame,_,rfl,⟨ha.index,ha.cursor⟩,rfl,rfl,nofun⟩
  | nil =>
    obtain ⟨j,offset',hbump,hat,huntouched,hj⟩ := bump_spec (p := p) index hcontains
      (fun region hregion => hlimits region (List.mem_of_mem_drop hregion)) ha.cursor
    dsimp only at hbump hat huntouched hj
    rw [List.drop_drop] at hat huntouched
    rw [List.length_drop] at hj
    have hindex : index + j ≤ memoryMap.length := by
      have : index ≤ memoryMap.length := ha.index
      omega
    refine ⟨(untouchedFrom (memoryMap.drop index) offset).head?,⟨memoryMap,index + j,offset',[]⟩,
      by simp only [allocateFrame,hbump,ok_bind],⟨hindex,hat⟩,rfl,?_,fun hnone => ?_⟩
    · simp only [abstract,huntouched]
      cases untouchedFrom (memoryMap.drop index) offset <;> rfl
    · simp only [abstract,huntouched]
      rw [List.head?_eq_none_iff.mp hnone]
      rfl

/-- The regions that the cursor has left were handed out whole. -/
theorem countRegions (hlimits : AllWithinLimits a.memoryMap) (hlength : (a.memoryMap.flatMap Entry.frames).length ≤ 2^52)
    {n : Nat} (hn : n ≤ a.memoryMap.length) :
    (List.range n).foldlM (countRegion p a) 0 = .ok ((a.memoryMap.take n).flatMap Entry.frames).length := by
  induction n with
  | zero => rfl
  | succ n ih =>
    have hsplit := congrArg (List.length ∘ List.flatMap Entry.frames) (List.take_append_drop (n + 1) a.memoryMap)
    have htake : a.memoryMap.take (n + 1) = a.memoryMap.take n ++ [a.memoryMap[n]] := List.take_succ_eq_append_getElem hn
    simp only [Function.comp_apply,List.flatMap_append,List.length_append,htake,List.flatMap_singleton] at hsplit
    rw [List.range_succ,List.foldlM_append,ih (Nat.le_of_succ_le hn),htake]
    simp only [ok_bind,List.foldlM_cons,List.foldlM_nil,countRegion,List.getElem?_eq_getElem hn,List.flatMap_append,
      List.flatMap_singleton,List.length_append]
    set region := a.memoryMap[n]
    by_cases htype : region.type = memmapUsable
    · have hregion := hlimits region (List.getElem_mem hn) htype
      have hstart := hregion.start
      have hstop : unsigned p 64 (region.base.toNat + region.length.toNat) = .ok region.stop := unsigned_add (hregion.stop_lt htype)
      rw [if_pos htype,alignUp_of_lt (by simp only [pageSize] at *; omega),ok_bind,hstop,ok_bind,← Entry.firstPage]
      rw [region.frames_of_usable htype,List.length_range'] at hsplit ⊢
      split_ifs with hlt
      · rw [unsigned_add (by omega)]
        rfl
      · rw [Nat.sub_eq_zero_of_le (Nat.le_of_not_lt hlt)]
        rfl
    · rw [if_neg htype,region.frames_of_not_usable htype]
      rfl

/-- The frames are those in front of the cursor and those behind it. -/
theorem allocatedBumpFrames_eq (hlimits : AllWithinLimits a.memoryMap) (hlength : (a.memoryMap.flatMap Entry.frames).length ≤ 2^52)
    (ha : a.WellFormed) (hle : a.abstract.available.card ≤ (a.memoryMap.flatMap Entry.frames).length) :
    a.allocatedBumpFrames p = .ok ((a.memoryMap.flatMap Entry.frames).length - a.abstract.available.card) := by
  obtain ⟨k,hoffset,hk⟩ := ha.cursor
  have hdiv : a.frameOffsetInRegion / pageSize = k := by rw [hoffset,Nat.mul_div_cancel_left k (by decide)]
  have hsplit := congrArg (List.length ∘ List.flatMap Entry.frames) (List.take_append_drop a.currRegionIndex a.memoryMap)
  simp only [Function.comp_apply,List.flatMap_append,List.length_append] at hsplit
  have havailable : a.abstract.available.card =
      a.freeList.length + (untouchedFrom (a.memoryMap.drop a.currRegionIndex) a.frameOffsetInRegion).length := by
    rw [abstract,Memory.MemoryMapFrameAllocator.available,Multiset.coe_card,List.length_append]
  rw [allocatedBumpFrames,countRegions hlimits hlength ha.index,ok_bind,hdiv]
  cases hdrop : a.memoryMap.drop a.currRegionIndex with
  | nil =>
    rw [hdrop] at havailable hsplit
    simp only [untouchedFrom,List.length_nil,List.flatMap_nil] at havailable hsplit
    simp only [List.getElem?_eq_none (List.drop_eq_nil_iff.mp hdrop),ok_bind]
    rw [if_pos (by omega)]
    congr 1
    omega
  | cons region regions =>
    have hregion : a.memoryMap[a.currRegionIndex]? = some region := by
      rw [← List.head?_drop,hdrop]
      rfl
    rw [hdrop] at havailable hsplit hk
    simp only [untouchedFrom,hdiv,List.length_append,List.length_drop,List.flatMap_cons,List.head?_cons,
      Option.elim_some] at havailable hsplit hk
    have hcount : (if region.type = memmapUsable then
          unsigned p 64 (((a.memoryMap.take a.currRegionIndex).flatMap Entry.frames).length + (k : Nat))
        else .ok ((a.memoryMap.take a.currRegionIndex).flatMap Entry.frames).length) =
        .ok (((a.memoryMap.take a.currRegionIndex).flatMap Entry.frames).length + k) := by
      split_ifs with htype
      · exact unsigned_add (by omega)
      · rw [region.frames_of_not_usable htype] at hk
        rw [Nat.le_zero.mp hk,Nat.add_zero]
    simp only [hregion]
    rw [hcount,ok_bind,if_pos (by omega)]
    congr 1
    omega

end MemoryMapFrameAllocator

/-- The allocator, and the frames that it has handed out and not got back. -/
structure System where
  allocator : MemoryMapFrameAllocator
  outstanding : List Nat
  deriving DecidableEq, Repr

inductive Call where
  | allocateFrame
  | deallocateFrame (frame : Nat)
  deriving DecidableEq, Repr

def exec : Call → Prog System Empty (Option Nat)
  | .allocateFrame => fun s => do
    let (frame,allocator) ← s.allocator.allocateFrame p containingAddress
    .ok (.ok frame,⟨allocator,frame.toList ++ s.outstanding⟩)
  | .deallocateFrame frame => fun s => .ok (.ok none,⟨s.allocator.deallocateFrame frame,s.outstanding.erase frame⟩)

/-- Only outstanding frames are given back. -/
def givesBack : Call → System → Bool
  | .allocateFrame,_ => true
  | .deallocateFrame frame,s => s.outstanding.contains frame

def start (memoryMap : List Entry) : System := ⟨init memoryMap,[]⟩

/-- A whole aligned frame of a usable region. -/
def IsFrame (memoryMap : List Entry) (frame : Nat) : Prop :=
  pageSize ∣ frame ∧ ∃ region ∈ memoryMap, region.type = memmapUsable ∧
    ∀ byte, frame ≤ byte → byte < frame + pageSize → region.Covers byte

/-- The next frame is a new one, there is none only when all are outstanding, and the outstanding ones are counted. -/
structure HandsOutOnce (s : System) : Prop where
  allocates : ∃ answer t, exec p containingAddress .allocateFrame s = .ok (.ok answer,t) ∧
    (∀ frame, answer = some frame → IsFrame s.allocator.memoryMap frame ∧ frame ∉ s.outstanding) ∧
    (answer = none → ∀ frame, IsFrame s.allocator.memoryMap frame → frame ∈ s.outstanding)
  counts : s.allocator.allocatedBumpFrames p = .ok s.outstanding.length

/-- Every frame of the memory map is outstanding or can still be handed out. -/
structure Accounted (memoryMap : List Entry) (s : System) : Prop where
  regions : s.allocator.memoryMap = memoryMap
  wellFormed : s.allocator.WellFormed
  frames : ↑s.outstanding + s.allocator.abstract.available = (↑(memoryMap.flatMap Entry.frames) : Multiset Nat)

section Run
variable {p : Profile} {containingAddress : Nat → Outcome Nat} {memoryMap : List Entry} {s : System}

theorem isFrame_iff {frame : Nat} : IsFrame memoryMap frame ↔ frame ∈ memoryMap.flatMap Entry.frames := by
  simp only [IsFrame,List.mem_flatMap,Entry.mem_frames]
  have hpage : 0 < pageSize := by decide
  constructor
  · rintro ⟨hdvd,region,hregion,htype,hcovers⟩
    have hfirst := (hcovers frame (Nat.le_refl _) (by omega)).1
    have hlast := (hcovers (frame + pageSize - 1) (by omega) (by omega)).2
    exact ⟨region,hregion,htype,hdvd,hfirst,by omega⟩
  · rintro ⟨region,hregion,htype,hdvd,hbase,hstop⟩
    exact ⟨hdvd,region,hregion,htype,fun byte hle hlt => ⟨by omega,by omega⟩⟩

theorem start_accounted (memoryMap : List Entry) : Accounted memoryMap (start memoryMap) :=
  ⟨rfl,⟨Nat.zero_le _,atFrame_zero _⟩,by
    rw [start,init,MemoryMapFrameAllocator.abstract,Memory.MemoryMapFrameAllocator.available,List.drop_zero,untouchedFrom_zero]
    exact Multiset.zero_add _⟩

theorem exec_accounted (hcontains : Contains containingAddress) (hlimits : AllWithinLimits memoryMap) {call : Call}
    (hcall : givesBack call s = true) (hs : Accounted memoryMap s) :
    ∃ answer t, exec p containingAddress call s = .ok (answer,t) ∧ Accounted memoryMap t := by
  cases call with
  | allocateFrame =>
    obtain ⟨answer,b,hruns,hb,hmap,habstract,hnone⟩ :=
      MemoryMapFrameAllocator.allocateFrame_refines (p := p) hcontains (hs.regions ▸ hlimits) hs.wellFormed
    refine ⟨.ok answer,⟨b,answer.toList ++ s.outstanding⟩,by simp only [exec,hruns,ok_bind],hmap.trans hs.regions,hb,?_⟩
    rw [← hs.frames]
    cases answer with
    | none => rw [hnone rfl,Option.toList_none,List.nil_append]
    | some frame =>
      have havailable := Memory.MemoryMapFrameAllocator.available_of_allocateFrame habstract
      rw [havailable,Option.toList_some,List.singleton_append,← Multiset.cons_coe,Multiset.cons_add,Multiset.add_cons]
  | deallocateFrame frame =>
    refine ⟨.ok none,_,rfl,hs.regions,⟨hs.wellFormed.index,hs.wellFormed.cursor⟩,?_⟩
    have hmem : frame ∈ s.outstanding := List.contains_iff_mem.mp hcall
    rw [← hs.frames,MemoryMapFrameAllocator.deallocateFrame_abstract,
      Memory.MemoryMapFrameAllocator.available_deallocateFrame,← Multiset.coe_erase,Multiset.add_cons,← Multiset.cons_add,Multiset.cons_erase hmem]

theorem Accounted.handsOutOnce (hcontains : Contains containingAddress) (hvalid : ValidMap memoryMap)
    (hlimits : AllWithinLimits memoryMap) (hs : Accounted memoryMap s) : HandsOutOnce p containingAddress s := by
  have hmap := hs.regions
  have hlength := hvalid.length_le hlimits
  subst hmap
  have hcard := congrArg Multiset.card hs.frames
  rw [Multiset.card_add,Multiset.coe_card,Multiset.coe_card] at hcard
  have hnodup : (↑s.outstanding + s.allocator.abstract.available).Nodup := by
    rw [hs.frames]
    exact hvalid.nodup
  constructor
  · obtain ⟨answer,b,hruns,-,-,habstract,-⟩ :=
      MemoryMapFrameAllocator.allocateFrame_refines (p := p) hcontains hlimits hs.wellFormed
    refine ⟨answer,⟨b,answer.toList ++ s.outstanding⟩,by simp only [exec,hruns,ok_bind],fun frame hanswer => ?_,fun hanswer frame hframe => ?_⟩
    · rw [hanswer] at habstract
      have havailable := Memory.MemoryMapFrameAllocator.available_of_allocateFrame habstract
      have hmem : frame ∈ s.allocator.abstract.available := by
        rw [havailable]
        exact Multiset.mem_cons_self _ _
      refine ⟨isFrame_iff.mpr ?_,fun hout => ?_⟩
      · rw [← Multiset.mem_coe,← hs.frames]
        exact Multiset.mem_add.mpr (.inr hmem)
      · exact Multiset.disjoint_left.mp (Multiset.nodup_add.mp hnodup).2.2 hout hmem
    · rw [hanswer] at habstract
      have hempty := Memory.MemoryMapFrameAllocator.allocateFrame_eq_none.mp habstract
      have hall := hs.frames
      rw [hempty,Multiset.add_zero] at hall
      rw [← Multiset.mem_coe,hall]
      exact Multiset.mem_coe.mpr (isFrame_iff.mp hframe)
  · rw [MemoryMapFrameAllocator.allocatedBumpFrames_eq hlimits hlength hs.wellFormed (by omega)]
    congr 1
    omega

/-- However often frames are allocated and given back, those of a memory map within the limits are handed out once. -/
theorem frames_handed_out_once (hcontains : Contains containingAddress) (hvalid : ValidMap memoryMap)
    (hlimits : AllWithinLimits memoryMap) {calls : List Call}
    (hcalls : meets (exec p containingAddress) givesBack calls (start memoryMap) = true) :
    ∃ answers s, runAll (exec p containingAddress) calls (start memoryMap) = .ok (answers,s) ∧
      s.allocator.memoryMap = memoryMap ∧ HandsOutOnce p containingAddress s := by
  obtain ⟨answers,s,hruns,hs⟩ := runAll_total (exec_accounted (p := p) hcontains hlimits) hcalls (start_accounted memoryMap)
  exact ⟨answers,s,hruns,hs.regions,hs.handsOutOnce hcontains hvalid hlimits⟩

end Run

/-- The crate's conversion. -/
def containing (addr : Nat) : Outcome Nat := if addr < 2^52 then .ok (addr / pageSize * pageSize) else .error .panic

/-- Two usable regions that share a page, with a reserved one between them. -/
def sharedPage : List Entry := [⟨0x1800,0x2000,0⟩,⟨0x3800,0x400,1⟩,⟨0x3c00,0x1800,0⟩]

theorem shared_page_handed_out_once : ∃ answers s,
    runAll (exec .dev containing) [.allocateFrame,.allocateFrame,.deallocateFrame 0x2000,.allocateFrame] (start sharedPage) =
      .ok (answers,s) ∧ s.allocator.memoryMap = sharedPage ∧ HandsOutOnce .dev containing s :=
  frames_handed_out_once (fun _ => rfl) (.of_sorted (by decide) (by decide)) (by decide) (by decide)

/-- A region of 50 bytes, 100 bytes below 2^64. -/
def top : List Entry := [⟨0xffffffffffffff9c,50,0⟩]

theorem top_hands_out_frame_zero : ValidMap top ∧
    exec .release containing .allocateFrame (start top) = .ok (.ok (some 0),⟨⟨top,0,4096,[]⟩,[0]⟩) ∧
    ¬ HandsOutOnce .release containing (start top) := by
  have hzero : exec .release containing .allocateFrame (start top) = .ok (.ok (some 0),⟨⟨top,0,4096,[]⟩,[0]⟩) := by
    decide +kernel
  refine ⟨.of_sorted (by decide) (by decide),hzero,fun h => ?_⟩
  obtain ⟨answer,t,hruns,hframe,-⟩ := h.allocates
  rw [hzero] at hruns
  cases hruns
  obtain ⟨region,hregion,-,hcovers⟩ := (hframe 0 rfl).1.2
  rw [List.mem_singleton.mp hregion] at hcovers
  exact absurd (hcovers 0 (Nat.le_refl _) (by decide)).1 (by decide)

end MofuOS.Memory.Bump
