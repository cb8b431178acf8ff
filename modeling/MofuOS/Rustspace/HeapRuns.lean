import MofuOS.Rustspace.BlocksPlaced

/-! Every block that the user heap hands out, in any run: where it lies, what it meets, and when it is aligned. -/
namespace MofuOS.Rustspace
open Lib
open Memory (Layout Block pageSize)

variable {m m' : Space} {held : Multiset Region} {layout : Layout} {reply : Option Nat} {replies : List (Option Nat)} {p : Nat}

/-- A block lies inside what sys_allocate has handed out and meets no block that is held and no free one. -/
structure Clear (live : List Block) (m : Space) (b : Block) : Prop where
  inside : ∃ o ∈ m.obtained, b.region.Within o
  live : ∀ b' ∈ live, b.region.Apart b'.region
  small : ∀ idx, ∀ q ∈ m.arena.smallHeads idx, b.region.Apart ⟨q,blockSizes.get idx⟩
  large : ∀ node ∈ m.arena.largeHead, b.region.Apart node

/-- A block is clear of the others and has the alignment that was asked for. -/
structure Placed (live : List Block) (m : Space) (b : Block) : Prop extends Clear live m b where
  aligned : b.2.align ∣ b.1

/-- Neither a free block nor the bump range has room, and the block is larger than a slab. -/
def ServedDirectly (layout : Layout) (m : Space) : Prop :=
  smallIndex layout = none ∧ layout.size > slabSize ∧
    takeLarge (max layout.align largeNodeAlign) layout.size m.arena.largeHead = none ∧
    bump (max layout.align largeNodeAlign) layout.size m = none

section Alignment

theorem bumpLoop_of_bump {align size : Nat} {large : Bool} {got : Nat × Space} (h : bump align size m = some got) :
    bumpLoop align size large replies m = some got := by
  cases replies with
  | nil => exact h
  | cons reply replies => rw [bumpLoop,h]

theorem max_largeNodeSize (h : layout.size > slabSize) : max layout.size largeNodeSize = layout.size := by
  unfold slabSize at h
  unfold largeNodeSize
  omega

theorem ServedDirectly.allocLarge (h : ServedDirectly layout m) (replies : List (Option Nat)) :
    alloc layout replies m = bumpLoop (max layout.align largeNodeAlign) layout.size true replies m := by
  obtain ⟨hidx,hsize,htake,_⟩ := h
  have hpos : layout.size ≠ 0 := Nat.ne_of_gt (Nat.lt_of_le_of_lt (Nat.zero_le _) hsize)
  unfold alloc Rustspace.allocLarge
  simp only [if_neg hpos,hidx,if_pos (large_of_smallIndex_none hidx),max_largeNodeSize hsize,htake]

/-- The base that the kernel answers is handed out as it is. -/
theorem ServedDirectly.alloc (h : ServedDirectly layout m) (reply : Option Nat) (replies : List (Option Nat)) :
    alloc layout (reply :: replies) m = (sysAllocate layout.size reply m).map (reply.getD 0,·) := by
  rw [h.allocLarge,bumpLoop,h.2.2.2]
  exact if_pos ⟨rfl,h.2.1⟩

theorem ServedDirectly.alloc_nil (h : ServedDirectly layout m) : Rustspace.alloc layout [] m = none := by
  rw [h.allocLarge]
  exact h.2.2.2

/-- What the kernel does not serve itself is aligned. -/
theorem Space.Sound.alloc_dvd (h : m.Sound held) (hdirect : ¬ ServedDirectly layout m) (hsize : layout.size ≠ 0)
    (ha : Rustspace.alloc layout replies m = some (p,m')) : layout.align ∣ p := by
  unfold Rustspace.alloc at ha
  rw [if_neg hsize] at ha
  cases hidx : smallIndex layout with
  | some idx =>
    have h8 := (smallIndex_fits hidx).1
    simp only [hidx] at ha
    cases hlist : m.arena.smallHeads idx with
    | nil =>
      rw [hlist] at ha
      exact (h8.trans (eight_dvd_blockSizes idx).1).trans (bumpLoop_dvd (by simp) ha)
    | cons node next =>
      rw [hlist] at ha
      cases ha
      have hmem : p ∈ m.arena.smallHeads idx := hlist ▸ List.mem_cons_self
      exact h8.trans (h.aligned _ (Multiset.mem_add.mpr (.inl (Arena.mem_free_small hmem))))
  | none =>
    have hmax := (eight_dvd_max layout).2.2
    simp only [hidx,if_pos (large_of_smallIndex_none hidx),Rustspace.allocLarge] at ha
    cases ht : takeLarge (max layout.align largeNodeAlign) (max layout.size largeNodeSize) m.arena.largeHead with
    | some taken =>
      rw [ht] at ha
      cases ha
      exact hmax.trans (dvd_alignUp ..)
    | none =>
      simp only [ht] at ha
      by_cases hslab : max layout.size largeNodeSize > slabSize
      · have hlarge : layout.size > slabSize := by
          unfold slabSize largeNodeSize at *
          omega
        rw [max_largeNodeSize hlarge] at ht ha
        cases hb : Rustspace.bump (max layout.align largeNodeAlign) layout.size m with
        | none => exact absurd ⟨hidx,hlarge,ht,hb⟩ hdirect
        | some got =>
          rw [bumpLoop_of_bump hb] at ha
          cases ha
          exact hmax.trans (bump_dvd hb)
      · exact hmax.trans (bumpLoop_dvd (fun hs => hslab hs.2) ha)

end Alignment

namespace UserHeap
variable {s t : UserHeap} {call : HeapCall} {calls : List HeapCall}

/-- What is asked for now is handed out as it should be. -/
def Serves : HeapCall → UserHeap → Prop
  | .alloc layout replies,s => ∀ p m, alloc layout replies s.space = some (p,m) → p ≠ 0 → layout.size ≠ 0 →
    Placed s.live m (p,layout)
  | _,_ => True

/-- When the kernel serves a block itself, its answer has the alignment of the layout. -/
def DirectAligned : HeapCall → UserHeap → Prop
  | .alloc layout (some base :: _),s => ServedDirectly layout s.space → s.space.Fresh ⟨base,layout.size⟩ → layout.align ∣ base
  | _,_ => True

/-- Blocks are held in the sizes in which they were set aside. -/
structure Sound (s : UserHeap) : Prop where
  space : s.space.Sound ↑(s.live.map extent)
  held : ∀ b ∈ s.live, b.1 ≠ 0 ∧ b.2.size ≠ 0

theorem start_sound : start.Sound := by
  have hfree : start.space.arena.free + ↑(start.live.map extent) = 0 := by simp [start,Arena.free]
  refine ⟨⟨?_,fun r hr => ?_,fun node hnode => by cases hnode⟩,fun b hb => by cases hb⟩
  · rw [hfree]
    exact Carved.nothing.add_empty rfl
  · rw [hfree] at hr
    exact absurd hr (Multiset.notMem_zero r)

theorem Sound.alloc (h : s.Sound) (ha : alloc layout replies s.space = some (p,m)) :
    Sound ⟨m,if p = 0 ∨ layout.size = 0 then s.live else (p,layout) :: s.live⟩ := by
  by_cases hsize : layout.size = 0
  · rw [if_pos (.inr hsize)]
    unfold Rustspace.alloc at ha
    rw [if_pos hsize] at ha
    cases ha
    exact h
  obtain hgot | ⟨hzero,hgot⟩ := h.space.alloc hsize ha
  · split_ifs with hnone
    · refine ⟨⟨?_,fun r hr => ?_,hgot.headers⟩,h.held⟩
      · have hcarved := hgot.carved
        rw [Multiset.add_cons,Multiset.cons_swap] at hcarved
        exact hcarved.drop
      · refine hgot.aligned r ?_
        rw [Multiset.add_cons]
        exact Multiset.mem_cons_of_mem hr
    · refine ⟨?_,fun b hb => ?_⟩
      · rw [List.map_cons,← Multiset.cons_coe]
        exact hgot
      · obtain rfl | hb := List.mem_cons.mp hb
        · exact not_or.mp hnone
        · exact h.held b hb
  · rw [if_pos (.inl hzero)]
    exact ⟨hgot,h.held⟩

theorem Sound.dealloc (h : s.Sound) (hlive : p = 0 ∨ layout.size = 0 ∨ (p,layout) ∈ s.live) :
    Sound ⟨{ s.space with arena := dealloc p layout s.space.arena },s.live.erase (p,layout)⟩ := by
  by_cases hmem : (p,layout) ∈ s.live
  · have ⟨hp,hsize⟩ := h.held _ hmem
    refine ⟨?_,fun b hb => h.held b (List.mem_of_mem_erase hb)⟩
    have hcons : (↑(s.live.map extent) : Multiset Region) = extent (p,layout) ::ₘ ↑((s.live.erase (p,layout)).map extent) := by
      rw [Multiset.cons_coe,← List.map_cons]
      exact Multiset.coe_eq_coe.mpr ((List.perm_cons_erase hmem).map extent)
    have hspace := h.space
    rw [hcons] at hspace
    exact hspace.dealloc hp hsize
  · have hnothing : p = 0 ∨ layout.size = 0 := hlive.imp id fun hrest => hrest.resolve_right hmem
    rw [List.erase_of_not_mem hmem,Rustspace.dealloc,if_pos hnothing]
    exact h

theorem step_sound (h : s.Sound) (ht : step call s = some t) : t.Sound := by
  cases call with
  | preallocate preallocSize reply =>
    obtain ⟨m,hm,rfl⟩ := Option.map_eq_some_iff.mp ht
    exact ⟨h.space.preallocate hm,h.held⟩
  | alloc layout replies =>
    obtain ⟨⟨p,m⟩,hm,rfl⟩ := Option.map_eq_some_iff.mp ht
    exact h.alloc hm
  | dealloc ptr layout =>
    rw [step] at ht
    split_ifs at ht with hlive
    cases ht
    exact h.dealloc hlive

/-- Whatever is handed out is clear of all else, aligned or not. -/
theorem Sound.clear (h : s.Sound) (hsize : layout.size ≠ 0) (hp : p ≠ 0) (ha : Rustspace.alloc layout replies s.space = some (p,m)) :
    Clear s.live m (p,layout) := by
  have hgot := (h.space.alloc hsize ha).resolve_right fun hzero => hp hzero.1
  have hcarved := hgot.carved.drop
  rw [Multiset.add_cons] at hcarved
  obtain ⟨hin,hapart,_⟩ := Carved.cons_iff.mp hcarved
  have hwithin := within_extent p layout
  have hfree : ∀ r ∈ m.arena.free, (Block.region (p,layout)).Apart r := fun r hr =>
    (hapart r (Multiset.mem_add.mpr (.inl hr))).within hwithin
  refine ⟨?_,fun b hb => ?_,fun idx q hq => hfree _ (Arena.mem_free_small hq),fun node hnode => hfree _ (Arena.mem_free_large hnode)⟩
  · obtain hempty | ⟨o,ho,hin⟩ := hin
    · have hle := size_le_extent p layout
      omega
    · exact ⟨o,ho,hwithin.trans hin⟩
  · have hheld := hapart (extent b) (Multiset.mem_add.mpr (.inr (Multiset.mem_coe.mpr (List.mem_map_of_mem hb))))
    exact ((hheld.within hwithin).symm.within (within_extent b.1 b.2)).symm

/-- A call hands out what it should exactly when the kernel's own blocks are aligned. -/
theorem Sound.serves_iff (h : s.Sound) (call : HeapCall) : Serves call s ↔ DirectAligned call s := by
  cases call with
  | preallocate => exact Iff.rfl
  | dealloc => exact Iff.rfl
  | alloc layout replies =>
    by_cases hdirect : ServedDirectly layout s.space
    · have hsize : layout.size ≠ 0 := Nat.ne_of_gt (Nat.lt_of_le_of_lt (Nat.zero_le _) hdirect.2.1)
      cases replies with
      | nil => exact iff_of_true (fun p m ha => by rw [hdirect.alloc_nil] at ha; cases ha) trivial
      | cons reply replies =>
        cases reply with
        | none =>
          refine iff_of_true (fun p m ha hp => ?_) trivial
          rw [hdirect.alloc] at ha
          cases ha
          exact absurd rfl hp
        | some base =>
          constructor
          · intro hserves _ hfresh
            have ha := hdirect.alloc (some base) replies
            rw [sysAllocate,if_pos hfresh] at ha
            by_cases hp : base = 0
            · rw [hp]
              exact Nat.dvd_zero _
            · exact (hserves base _ ha hp hsize).aligned
          · intro haligned p m ha hp _
            refine ⟨h.clear hsize hp ha,?_⟩
            rw [hdirect.alloc] at ha
            obtain ⟨got,hgot,heq⟩ := Option.map_eq_some_iff.mp ha
            cases heq
            obtain ⟨hnone,_⟩ | ⟨base',hbase,hfresh,_⟩ := Space.sysAllocate_cases hgot
            · cases hnone
            · cases hbase
              exact haligned hdirect hfresh
    · refine iff_of_true (fun p m ha hp hsize => ⟨h.clear hsize hp ha,h.space.alloc_dvd hdirect hsize ha⟩) ?_
      cases replies with
      | nil => trivial
      | cons reply replies =>
        cases reply with
        | none => trivial
        | some base => exact fun hserved => absurd hserved hdirect

/-- In every run, whatever is handed out is clear of all else. -/
theorem heap_blocks_clear (h : steps step calls start = some s) (hsize : layout.size ≠ 0) (hp : p ≠ 0)
    (ha : Rustspace.alloc layout replies s.space = some (p,m)) : Clear s.live m (p,layout) :=
  (steps_keep (fun _ _ _ hs => step_sound hs) start_sound h).clear hsize hp ha

/-- In every run, each block that is handed out lies inside what sys_allocate gave, clear of all live and free blocks, and
aligned: exactly when the blocks that the kernel serves itself have the alignment of their layout. -/
theorem heap_serves_iff (calls : List HeapCall) :
    (∀ done call s, done ++ [call] <+: calls → steps step done start = some s → Serves call s) ↔
      stepsMeet step DirectAligned calls start :=
  steps_each_iff (fun call _ h => h.serves_iff call) (fun _ _ _ h _ => step_sound h) start_sound

/-- Alignments up to that of pages are met in every run. -/
theorem heap_serves_of_align_le (h : ∀ layout replies, .alloc layout replies ∈ calls → layout.align ≤ pageSize) :
    ∀ done call s, done ++ [call] <+: calls → steps step done start = some s → Serves call s := by
  refine (heap_serves_iff calls).mpr (stepsMeet_of_forall fun call hcall s => ?_)
  cases call with
  | preallocate => trivial
  | dealloc => trivial
  | alloc layout replies =>
    have hle := h layout replies hcall
    match replies with
    | [] => trivial
    | none :: _ => trivial
    | some base :: _ =>
      intro _ hfresh
      obtain ⟨k,hk⟩ := layout.align_pow
      have hk12 : 2 ^ k ≤ 2 ^ 12 := hk ▸ hle
      exact hk ▸ (Nat.pow_dvd_pow 2 ((Nat.pow_le_pow_iff_right (by decide)).mp hk12)).trans hfresh.1

/-- A large block is freed; one that needs padding is cut out of it, and what is left serves the next. -/
example : (steps step [.alloc ⟨0x6000,16,4,rfl⟩ [some 0x60001000],.dealloc 0x60001000 ⟨0x6000,16,4,rfl⟩,
    .alloc ⟨0x1001,0x2000,13,rfl⟩ [],.alloc ⟨0x1002,8,3,rfl⟩ []] start).map (·.live.map Prod.fst) =
      some [0x60003008,0x60002000] := by decide

/-- A layout larger than a slab, with an alignment beyond that of pages. -/
def unalignedLayout : Layout := ⟨0x5000,2 ^ 13,13,rfl⟩

theorem direct_block_unaligned : ∃ m, Rustspace.alloc unalignedLayout [some 0x60001000] start.space = some (0x60001000,m) ∧
    ¬ Serves (.alloc unalignedLayout [some 0x60001000]) start := by
  refine ⟨_,rfl,fun hserves => ?_⟩
  have haligned := (hserves _ _ rfl (by decide) (by decide)).aligned
  revert haligned
  decide

end UserHeap
end MofuOS.Rustspace
