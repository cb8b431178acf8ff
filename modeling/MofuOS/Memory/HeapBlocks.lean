import MofuOS.Lib.Carving
import MofuOS.Lib.Steps
import MofuOS.Memory.Allocator

/-! The blocks of the kernel heap: those that are live, and those on the lists of the sizes. -/
namespace MofuOS.Memory
open Lib

namespace FixedSizeBlockAllocator
variable {fb : FallbackHeap}

/-- The block that the fallback heap has handed out for what was asked. -/
def whole (b : Block) : Block := ((getBlockIndex b.2).elim b fun index => (b.1,blockLayout index))

/-- The blocks on the lists. -/
def listed (a : FixedSizeBlockAllocator fb) : Multiset Block := ∑ index, ↑((a.lists index).map (·,blockLayout index))

theorem getBlockIndex_blockLayout (index : Fin blockSizes.length) : getBlockIndex (blockLayout index) = some index := by
  revert index
  decide

theorem whole_of_index {layout : Layout} {index : Fin blockSizes.length} (p : Nat) (h : getBlockIndex layout = some index) :
    whole (p,layout) = (p,blockLayout index) := by
  rw [whole,h]
  rfl

theorem whole_of_none {layout : Layout} (p : Nat) (h : getBlockIndex layout = none) : whole (p,layout) = (p,layout) := by
  rw [whole,h]
  rfl

/-- A block of a size class holds what is asked of the class. -/
theorem whole_fits (b : Block) : (whole b).1 = b.1 ∧ b.2.size ≤ (whole b).2.size ∧ b.2.align ∣ (whole b).2.align := by
  obtain ⟨p,layout⟩ := b
  cases hindex : getBlockIndex layout with
  | none =>
    rw [whole_of_none p hindex]
    exact ⟨rfl,Nat.le_refl _,Nat.dvd_refl _⟩
  | some index =>
    rw [whole_of_index p hindex]
    have hfound : max layout.size layout.align ≤ blockSizes[index] := by
      simpa using (List.findFinIdx?_eq_some_iff.mp hindex).1
    refine ⟨rfl,(Nat.le_max_left ..).trans hfound,?_⟩
    obtain ⟨k,hk⟩ := layout.align_pow
    obtain ⟨m,hm⟩ := (blockLayout index).align_pow
    have hle : layout.align ≤ (blockLayout index).align := (Nat.le_max_right ..).trans hfound
    rw [hk,hm] at hle ⊢
    exact Nat.pow_dvd_pow 2 ((Nat.pow_le_pow_iff_right (by decide)).mp hle)

/-- One list gets longer by one block. -/
theorem listed_push {a a' : FixedSizeBlockAllocator fb} {index : Fin blockSizes.length} {p : Nat}
    (hindex : a'.lists index = p :: a.lists index) (hother : ∀ other, other ≠ index → a'.lists other = a.lists other) :
    a'.listed = (p,blockLayout index) ::ₘ a.listed := by
  rw [listed,listed,sum_classes_push (fun index p => (p,blockLayout index)) hindex hother]

theorem mem_listed {a : FixedSizeBlockAllocator fb} {index : Fin blockSizes.length} {p : Nat} (h : p ∈ a.lists index) :
    (p,blockLayout index) ∈ a.listed := by
  rw [listed,Multiset.mem_sum]
  exact ⟨index,Finset.mem_univ _,Multiset.mem_coe.mpr (List.mem_map.mpr ⟨p,h,rfl⟩)⟩

end FixedSizeBlockAllocator

/-- The blocks are apart from each other. -/
def AllApart (blocks : Multiset Block) : Prop := ∀ b ∈ blocks, ∀ b' ∈ blocks.erase b, b.region.Apart b'.region

section Apart
variable {blocks blocks' : Multiset Block} {b : Block}

theorem AllApart.mono (h : AllApart blocks) (hle : blocks' ≤ blocks) : AllApart blocks' := fun b hb b' hb' =>
  h b (Multiset.mem_of_le hle hb) b' (Multiset.mem_of_le (Multiset.erase_le_erase b hle) hb')

theorem AllApart.cons (h : AllApart blocks) (hb : ∀ b' ∈ blocks, b.region.Apart b'.region) : AllApart (b ::ₘ blocks) := by
  intro x hx y hy
  by_cases hxb : x = b
  · rw [hxb,Multiset.erase_cons_head] at hy
    exact hxb ▸ hb y hy
  · have hold := (Multiset.mem_cons.mp hx).resolve_left hxb
    rw [Multiset.erase_cons_tail _ (Ne.symm hxb)] at hy
    obtain hyb | hy := Multiset.mem_cons.mp hy
    · rw [hyb]
      exact (hb x hold).symm
    · exact h x hold y hy

/-- Parts of blocks that are apart are apart. -/
theorem AllApart.of_map {f : Block → Block} (h : AllApart (blocks.map f)) (hstart : ∀ b, (f b).1 = b.1)
    (hsize : ∀ b, b.2.size ≤ (f b).2.size) : AllApart blocks := by
  intro b hb b' hb'
  have happart := h (f b) (Multiset.mem_map_of_mem f hb) (f b') (by
    rw [← Multiset.map_erase_of_mem f blocks hb]
    exact Multiset.mem_map_of_mem f hb')
  have hs := hsize b
  have hs' := hsize b'
  simp only [Region.Apart,Region.stop,Block.region,hstart] at happart ⊢
  omega

end Apart

/-- The allocator, and the blocks that its callers hold. -/
structure KernelHeap (fb : FallbackHeap) where
  allocator : FixedSizeBlockAllocator fb
  live : List Block

inductive HeapCall where
  | alloc (layout : Layout)
  | dealloc (p : Nat) (layout : Layout)

namespace KernelHeap
variable {fb : FallbackHeap}

/-- Blocks are given back as they were asked for. -/
def step : HeapCall → KernelHeap fb → Option (KernelHeap fb)
  | .alloc layout,s => match s.allocator.alloc layout with
    | some (p,allocator) => some ⟨allocator,(p,layout) :: s.live⟩
    | none => some s
  | .dealloc p layout,s =>
    if (p,layout) ∈ s.live then some ⟨s.allocator.dealloc p layout,s.live.erase (p,layout)⟩ else none

def start : KernelHeap fb := ⟨.new,[]⟩

/-- The blocks that are live or on a list. -/
def blocks (s : KernelHeap fb) : Multiset Block := ↑s.live + s.allocator.listed

structure Sound (held : fb.State → Multiset Block) (s : KernelHeap fb) : Prop where
  live : ∀ b ∈ s.live, b.2.align ∣ b.1 ∧ ∃ block ∈ held s.allocator.fallbackAllocator, block.1 = b.1 ∧ b.2.size ≤ block.2.size
  lists : ∀ index p, p ∈ s.allocator.lists index → blockSizes.get index ∣ p ∧
    ∃ block ∈ held s.allocator.fallbackAllocator, block.1 = p ∧ blockSizes.get index ≤ block.2.size
  apart : AllApart s.blocks

/-- The fallback heap has handed out the blocks, whole, and nothing else. -/
structure Whole (held : fb.State → Multiset Block) (s : KernelHeap fb) : Prop where
  blocks : s.blocks.map FixedSizeBlockAllocator.whole = held s.allocator.fallbackAllocator
  aligned : ∀ b ∈ held s.allocator.fallbackAllocator, b.2.align ∣ b.1
  apart : AllApart (held s.allocator.fallbackAllocator)

variable {held : fb.State → Multiset Block} {s t : KernelHeap fb} {call : HeapCall}

theorem Whole.sound (h : Whole held s) : Sound held s := by
  have hwhole : ∀ b ∈ s.blocks, FixedSizeBlockAllocator.whole b ∈ held s.allocator.fallbackAllocator := fun b hb =>
    h.blocks ▸ Multiset.mem_map_of_mem _ hb
  refine ⟨fun b hb => ?_,fun index p hp => ?_,?_⟩
  · have hmem := hwhole b (Multiset.mem_add.mpr (.inl hb))
    obtain ⟨hstart,hsize,halign⟩ := FixedSizeBlockAllocator.whole_fits b
    exact ⟨hstart ▸ halign.trans (h.aligned _ hmem),_,hmem,hstart,hsize⟩
  · have hmem := hwhole _ (Multiset.mem_add.mpr (.inr (FixedSizeBlockAllocator.mem_listed hp)))
    rw [FixedSizeBlockAllocator.whole_of_index p (FixedSizeBlockAllocator.getBlockIndex_blockLayout index)] at hmem
    exact ⟨h.aligned _ hmem,_,hmem,rfl,Nat.le_refl _⟩
  · have happart := h.apart
    rw [← h.blocks] at happart
    exact happart.of_map (fun b => (FixedSizeBlockAllocator.whole_fits b).1) fun b => (FixedSizeBlockAllocator.whole_fits b).2.1

theorem start_whole (hlawful : fb.Lawful held) : Whole held (start : KernelHeap fb) := by
  have hinit : held (start : KernelHeap fb).allocator.fallbackAllocator = 0 := hlawful.init
  refine ⟨?_,?_,?_⟩
  · rw [hinit]
    simp [start,blocks,FixedSizeBlockAllocator.new,FixedSizeBlockAllocator.listed]
  · rw [hinit]
    exact fun b hb => absurd hb (Multiset.notMem_zero b)
  · rw [hinit]
    exact fun b hb => absurd hb (Multiset.notMem_zero b)

theorem Whole.fallback (hlawful : fb.Lawful held) (h : Whole held s) {asked layout : Layout} {p : Nat} {a : FixedSizeBlockAllocator fb}
    (hwhole : FixedSizeBlockAllocator.whole (p,asked) = (p,layout))
    (ha : s.allocator.allocateWithFallbackAllocator layout = some (p,a)) : Whole held ⟨a,(p,asked) :: s.live⟩ := by
  obtain ⟨⟨p',fallback⟩,hfirst,heq⟩ := Option.map_eq_some_iff.mp ha
  cases heq
  obtain ⟨hheld,halign,happart⟩ := hlawful.allocate _ _ _ _ hfirst
  have hblocks : (KernelHeap.mk { s.allocator with fallbackAllocator := fallback } ((p,asked) :: s.live)).blocks =
      (p,asked) ::ₘ s.blocks := Multiset.cons_add (p,asked) ↑s.live s.allocator.listed
  refine ⟨?_,?_,?_⟩
  · rw [hblocks,Multiset.map_cons,hwhole,h.blocks,hheld]
  · rw [hheld]
    intro b hb
    obtain rfl | hb := Multiset.mem_cons.mp hb
    · exact halign
    · exact h.aligned b hb
  · rw [hheld]
    exact h.apart.cons happart

/-- The blocks keep their whole size when one of them moves between the callers and a list. -/
theorem Whole.move (h : Whole held s) (hblocks : t.blocks.map FixedSizeBlockAllocator.whole = s.blocks.map FixedSizeBlockAllocator.whole)
    (hfallback : t.allocator.fallbackAllocator = s.allocator.fallbackAllocator) : Whole held t :=
  ⟨by rw [hblocks,hfallback]; exact h.blocks,by rw [hfallback]; exact h.aligned,by rw [hfallback]; exact h.apart⟩

theorem Whole.alloc (hlawful : fb.Lawful held) (h : Whole held s) {layout : Layout} {p : Nat} {a : FixedSizeBlockAllocator fb}
    (ha : s.allocator.alloc layout = some (p,a)) : Whole held ⟨a,(p,layout) :: s.live⟩ := by
  rw [FixedSizeBlockAllocator.alloc] at ha
  cases hindex : getBlockIndex layout with
  | none =>
    simp only [hindex] at ha
    exact h.fallback hlawful (FixedSizeBlockAllocator.whole_of_none p hindex) ha
  | some index =>
    simp only [hindex] at ha
    cases hlist : s.allocator.lists index with
    | nil =>
      simp only [hlist] at ha
      exact h.fallback hlawful (FixedSizeBlockAllocator.whole_of_index p hindex) ha
    | cons node next =>
      simp only [hlist] at ha
      cases ha
      let a : FixedSizeBlockAllocator fb := ⟨Function.update s.allocator.lists index next,s.allocator.fallbackAllocator⟩
      have hself : a.lists index = next := Function.update_self ..
      have hlisted : s.allocator.listed = (p,blockLayout index) ::ₘ a.listed :=
        FixedSizeBlockAllocator.listed_push (by rw [hlist,hself])
          fun other hne => (Function.update_of_ne hne ..).symm
      have hmove : (KernelHeap.mk a ((p,layout) :: s.live)).blocks.map FixedSizeBlockAllocator.whole =
          s.blocks.map FixedSizeBlockAllocator.whole := by
        rw [KernelHeap.blocks,KernelHeap.blocks,hlisted,← Multiset.cons_coe,Multiset.cons_add,Multiset.add_cons,Multiset.map_cons,Multiset.map_cons,
          FixedSizeBlockAllocator.whole_of_index p hindex,
          FixedSizeBlockAllocator.whole_of_index p (FixedSizeBlockAllocator.getBlockIndex_blockLayout index)]
      exact h.move hmove rfl

theorem Whole.dealloc (hlawful : fb.Lawful held) (h : Whole held s) {layout : Layout} {p : Nat} (hlive : (p,layout) ∈ s.live) :
    Whole held ⟨s.allocator.dealloc p layout,s.live.erase (p,layout)⟩ := by
  have hcons : (p,layout) ::ₘ (↑(s.live.erase (p,layout)) : Multiset Block) = ↑s.live := by
    rw [Multiset.cons_coe]
    exact Multiset.coe_eq_coe.mpr (List.perm_cons_erase hlive).symm
  rw [FixedSizeBlockAllocator.dealloc]
  cases hindex : getBlockIndex layout with
  | some index =>
    let a : FixedSizeBlockAllocator fb :=
      ⟨Function.update s.allocator.lists index (p :: s.allocator.lists index),s.allocator.fallbackAllocator⟩
    have hlisted : a.listed = (p,blockLayout index) ::ₘ s.allocator.listed :=
      FixedSizeBlockAllocator.listed_push (Function.update_self ..) fun other hne => Function.update_of_ne hne ..
    have hmove : (KernelHeap.mk a (s.live.erase (p,layout))).blocks.map FixedSizeBlockAllocator.whole =
        s.blocks.map FixedSizeBlockAllocator.whole := by
      rw [KernelHeap.blocks,KernelHeap.blocks,hlisted,← hcons,Multiset.cons_add,Multiset.add_cons,Multiset.map_cons,Multiset.map_cons,
        FixedSizeBlockAllocator.whole_of_index p hindex,
        FixedSizeBlockAllocator.whole_of_index p (FixedSizeBlockAllocator.getBlockIndex_blockLayout index)]
    exact h.move hmove rfl
  | none =>
    have hblocks : s.blocks = (p,layout) ::ₘ (KernelHeap.mk s.allocator (s.live.erase (p,layout))).blocks := by
      rw [KernelHeap.blocks,KernelHeap.blocks,← hcons,Multiset.cons_add]
    have hwhole := h.blocks
    rw [hblocks,Multiset.map_cons,FixedSizeBlockAllocator.whole_of_none p hindex] at hwhole
    have hheld := hlawful.deallocate p layout s.allocator.fallbackAllocator (hwhole ▸ Multiset.mem_cons_self _ _)
    refine ⟨?_,?_,?_⟩
    · dsimp only
      rw [hheld,← hwhole,Multiset.erase_cons_head]
      rfl
    · dsimp only
      rw [hheld]
      exact fun b hb => h.aligned b (Multiset.mem_of_mem_erase hb)
    · dsimp only
      rw [hheld]
      exact h.apart.mono (Multiset.erase_le _ _)

theorem step_whole (hlawful : fb.Lawful held) (h : Whole held s) (ht : step call s = some t) : Whole held t := by
  cases call with
  | alloc layout =>
    rw [step] at ht
    cases ha : s.allocator.alloc layout with
    | none =>
      rw [ha] at ht
      cases ht
      exact h
    | some got =>
      rw [ha] at ht
      cases ht
      exact h.alloc hlawful ha
  | dealloc p layout =>
    rw [step] at ht
    split_ifs at ht with hlive
    cases ht
    exact h.dealloc hlawful hlive

/-- However blocks are asked for and given back, they are apart, and as large and aligned as their class. -/
theorem heap_blocks_apart (hlawful : fb.Lawful held) {calls : List HeapCall} (h : steps step calls start = some s) : Sound held s :=
  (steps_keep (fun _ _ _ hs => step_whole hlawful hs) (start_whole hlawful) h).sound

section Rising

theorem Layout.align_pos (layout : Layout) : 0 < layout.align := by
  obtain ⟨k,hk⟩ := layout.align_pow
  rw [hk]
  exact Nat.two_pow_pos k

/-- The first aligned address from top on. -/
def firstFrom (layout : Layout) (top : Nat) : Nat := (top + layout.align - 1) / layout.align * layout.align

theorem le_firstFrom (layout : Layout) (top : Nat) : top ≤ firstFrom layout top := by
  have hpos := Layout.align_pos layout
  have hdiv := Nat.div_add_mod' (top + layout.align - 1) layout.align
  have hmod := Nat.mod_lt (top + layout.align - 1) hpos
  rw [firstFrom]
  omega

/-- A heap that hands out what lies behind everything it has ever handed out. -/
def risingHeap : FallbackHeap where
  State := { s : Nat × Multiset Block // ∀ b ∈ s.2, b.region.stop ≤ s.1 }
  init := ⟨(heapPointer,0),fun b hb => absurd hb (Multiset.notMem_zero b)⟩
  allocateFirstFit layout s := some (firstFrom layout s.val.1,
    ⟨(firstFrom layout s.val.1 + layout.size,(firstFrom layout s.val.1,layout) ::ₘ s.val.2),fun b hb => by
      obtain rfl | hb := Multiset.mem_cons.mp hb
      · exact Nat.le_refl _
      · exact (s.property b hb).trans ((le_firstFrom layout _).trans (Nat.le_add_right ..))⟩)
  deallocate p layout s := ⟨(s.val.1,s.val.2.erase (p,layout)),fun b hb => s.property b (Multiset.mem_of_mem_erase hb)⟩

def risingHeld (s : risingHeap.State) : Multiset Block := s.val.2

theorem risingHeap_lawful : risingHeap.Lawful risingHeld := by
  refine ⟨rfl,fun layout s p t h => ?_,fun p layout s _ => rfl⟩
  cases h
  exact ⟨rfl,Nat.dvd_mul_left ..,fun b hb => .inr (.inr (.inr ((s.property b hb).trans (le_firstFrom layout _))))⟩

def layoutOf (size k : Nat) : Layout := ⟨size,2 ^ k,k,rfl⟩

/-- The block of the first layout is used again for the last one. -/
def reusing : List HeapCall :=
  [.alloc (layoutOf 24 3),.alloc (layoutOf 5000 4),.dealloc heapPointer (layoutOf 24 3),.alloc (layoutOf 17 5)]

theorem reusing_blocks_apart : ∃ s : KernelHeap risingHeap, steps step reusing start = some s ∧ Sound risingHeld s ∧
    s.live.map Prod.fst = [heapPointer,heapPointer + 32] :=
  ⟨_,rfl,heap_blocks_apart risingHeap_lawful (show steps step reusing start = _ from rfl),rfl⟩

end Rising
end KernelHeap
end MofuOS.Memory
