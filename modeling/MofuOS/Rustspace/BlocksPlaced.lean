import MofuOS.Rustspace.Heap
import MofuOS.Lib.Steps
import Mathlib.Tactic.SplitIfs

/-! Where the blocks of the user heap lie: what is free, what the program holds and what the bump range still has
are parts of the memory obtained. -/
namespace MofuOS.Rustspace
open Lib
open Memory (Layout Block pageSize)

variable {m m' : Space} {held : Multiset Region} {r node : Region} {others nodes : List Region} {layout : Layout}
  {replies : List (Option Nat)} {reply : Option Nat} {align size n p : Nat} {large : Bool}

section Rounding

theorem dvd_alignUp (n align : Nat) : align ∣ alignUp n align := Nat.dvd_mul_left ..

theorem le_alignUp (h : 0 < align) (n : Nat) : n ≤ alignUp n align := by
  have hdiv := Nat.div_add_mod' (n + align - 1) align
  have hmod := Nat.mod_lt (n + align - 1) h
  rw [alignUp]
  omega

end Rounding

section Sizes

/-- What is set aside for a block. -/
def extent (b : Block) : Region :=
  ⟨b.1,match smallIndex b.2 with | some idx => blockSizes.get idx | none => max b.2.size largeNodeSize⟩

theorem extent_small {idx : Fin blockSizes.length} (p : Nat) (h : smallIndex layout = some idx) :
    extent (p,layout) = ⟨p,blockSizes.get idx⟩ := by
  simp only [extent,h]

theorem extent_large (p : Nat) (h : smallIndex layout = none) : extent (p,layout) = ⟨p,max layout.size largeNodeSize⟩ := by
  simp only [extent,h]

theorem smallIndex_fits {idx : Fin blockSizes.length} (h : smallIndex layout = some idx) :
    layout.align ∣ 8 ∧ layout.size ≤ blockSizes.get idx := by
  unfold smallIndex at h
  split_ifs at h with halign
  obtain ⟨k,hk⟩ := layout.align_pow
  have hk8 : 2 ^ k ≤ 2 ^ 3 := hk ▸ halign
  have hfits : layout.size ≤ blockSizes.get idx := by simpa using (List.findFinIdx?_eq_some_iff.mp h).1
  exact ⟨hk ▸ Nat.pow_dvd_pow 2 ((Nat.pow_le_pow_iff_right (by decide)).mp hk8),hfits⟩

theorem size_le_extent (p : Nat) (layout : Layout) : layout.size ≤ (extent (p,layout)).len := by
  cases h : smallIndex layout with
  | none =>
    rw [extent_large p h]
    exact Nat.le_max_left ..
  | some idx =>
    rw [extent_small p h]
    exact (smallIndex_fits h).2

theorem within_extent (p : Nat) (layout : Layout) : (Block.region (p,layout)).Within (extent (p,layout)) :=
  ⟨Nat.le_refl _,Nat.add_le_add_left (size_le_extent p layout) p⟩

/-- No layout reaches the last loop of alloc. -/
theorem large_of_smallIndex_none (h : smallIndex layout = none) : layout.size > 4096 ∨ layout.align > 8 := by
  unfold smallIndex listIndex at h
  split_ifs at h with halign
  · have := List.findFinIdx?_eq_none_iff.mp h 4096 (by decide)
    exact .inl (by simpa using this)
  · exact .inr (Nat.lt_of_not_le halign)

theorem eight_dvd_blockSizes (idx : Fin blockSizes.length) : 8 ∣ blockSizes.get idx ∧ 0 < blockSizes.get idx ∧ blockSizes.get idx ≤ slabSize := by
  revert idx
  decide

theorem eight_dvd_max (layout : Layout) : 8 ∣ max layout.align largeNodeAlign ∧ 0 < max layout.align largeNodeAlign ∧
    layout.align ∣ max layout.align largeNodeAlign := by
  obtain ⟨k,hk⟩ := layout.align_pow
  rw [hk,show largeNodeAlign = 2 ^ 3 from rfl]
  obtain hle | hle := Nat.le_total k 3
  · have : 2 ^ k ≤ 2 ^ 3 := Nat.pow_le_pow_right (by decide) hle
    rw [Nat.max_eq_right this]
    exact ⟨Nat.dvd_refl _,by decide,Nat.pow_dvd_pow 2 hle⟩
  · have : 2 ^ 3 ≤ 2 ^ k := Nat.pow_le_pow_right (by decide) hle
    rw [Nat.max_eq_left this]
    exact ⟨Nat.pow_dvd_pow 2 hle,Nat.two_pow_pos k,Nat.dvd_refl _⟩

end Sizes

theorem bump_dvd (h : bump align size m = some (p,m')) : align ∣ p := by
  unfold bump at h
  dsimp only at h
  split_ifs at h
  cases h
  exact dvd_alignUp ..

namespace Arena
variable {a a' : Arena}

def bumpRange (a : Arena) : Region := ⟨a.cursor,a.endAddr - a.cursor⟩

/-- The free blocks, on the small lists and on the large one. -/
def free (a : Arena) : Multiset Region := ∑ idx, ↑((a.smallHeads idx).map (Region.mk · (blockSizes.get idx))) + ↑a.largeHead

theorem mem_free_small {idx : Fin blockSizes.length} (h : p ∈ a.smallHeads idx) : ⟨p,blockSizes.get idx⟩ ∈ a.free := by
  rw [free,Multiset.mem_add,Multiset.mem_sum]
  exact .inl ⟨idx,Finset.mem_univ _,Multiset.mem_coe.mpr (List.mem_map.mpr ⟨p,h,rfl⟩)⟩

theorem mem_free_large (h : node ∈ a.largeHead) : node ∈ a.free := Multiset.mem_add.mpr (.inr (Multiset.mem_coe.mpr h))

/-- One small list gets longer by one block. -/
theorem free_push {idx : Fin blockSizes.length} (hidx : a'.smallHeads idx = p :: a.smallHeads idx)
    (hother : ∀ other, other ≠ idx → a'.smallHeads other = a.smallHeads other) (hlarge : a'.largeHead = a.largeHead) :
    a'.free = ⟨p,blockSizes.get idx⟩ ::ₘ a.free := by
  rw [free,free,sum_classes_push (fun idx p => Region.mk p (blockSizes.get idx)) hidx hother,hlarge,Multiset.cons_add]

end Arena

/-- The free blocks, what is held and the bump range are carved out of what was obtained, and a large node holds
its header. -/
structure Space.Sound (m : Space) (held : Multiset Region) : Prop where
  carved : Carved m.obtained (m.arena.bumpRange ::ₘ (m.arena.free + held))
  aligned : ∀ r ∈ m.arena.free + held, 8 ∣ r.off
  headers : ∀ node ∈ m.arena.largeHead, largeNodeSize ≤ node.len

/-- A block is handed out, or there was no memory. -/
def Space.Granted (m : Space) (held : Multiset Region) (r : Region) : Prop := m.Sound (r ::ₘ held) ∨ r.off = 0 ∧ m.Sound held

namespace Space

/-- A new part, for free blocks that stay as they are. -/
theorem Sound.grant (h : m.Sound held) (hcarved : Carved m'.obtained (m'.arena.bumpRange ::ₘ r ::ₘ (m.arena.free + held)))
    (hfree : m'.arena.free = m.arena.free) (hlarge : m'.arena.largeHead = m.arena.largeHead) (hr : 8 ∣ r.off) :
    m'.Sound (r ::ₘ held) := by
  refine ⟨?_,fun r' hr' => ?_,hlarge ▸ h.headers⟩
  · rw [hfree,Multiset.add_cons]
    exact hcarved
  · rw [hfree,Multiset.add_cons] at hr'
    obtain rfl | hr' := Multiset.mem_cons.mp hr'
    · exact hr
    · exact h.aligned r' hr'

theorem Sound.bump (h : m.Sound held) (halign : 8 ∣ align) (hpos : 0 < align) (hb : bump align size m = some (p,m')) :
    m'.Sound (⟨p,size⟩ ::ₘ held) := by
  have hp := bump_dvd hb
  unfold Rustspace.bump at hb
  dsimp only at hb
  split_ifs at hb with hroom
  cases hb
  have hle := le_alignUp hpos m.arena.cursor
  refine h.grant ?_ rfl rfl (halign.trans hp)
  refine h.carved.split ⟨?_,?_⟩ ⟨?_,?_⟩ (.inr (.inr (.inr ?_)))
  all_goals
    simp only [Arena.bumpRange,Region.stop]
    omega

theorem sysAllocate_cases (h : sysAllocate n reply m = some m') : reply = none ∧ m' = m ∨
    ∃ base, reply = some base ∧ m.Fresh ⟨base,n⟩ ∧ m' = { m with obtained := ⟨base,n⟩ :: m.obtained } := by
  cases reply with
  | none =>
    cases h
    exact .inl ⟨rfl,rfl⟩
  | some base =>
    unfold sysAllocate at h
    dsimp only at h
    split_ifs at h with hfresh
    cases h
    exact .inr ⟨base,rfl,hfresh,rfl⟩

/-- A slab takes the place of what the bump range still had. -/
theorem Sound.preallocate (h : m.Sound held) (hp : preallocate n reply m = some m') : m'.Sound held := by
  obtain ⟨got,hgot,rfl⟩ := Option.map_eq_some_iff.mp hp
  obtain ⟨rfl,rfl⟩ | ⟨base,rfl,hfresh,rfl⟩ := sysAllocate_cases hgot
  · exact h
  · have hrange : (⟨base,base + n - base⟩ : Region) = ⟨base,n⟩ := by rw [Nat.add_sub_cancel_left]
    refine ⟨?_,h.aligned,h.headers⟩
    dsimp only [Arena.bumpRange]
    rw [hrange]
    exact h.carved.drop.obtain_region hfresh.2

/-- The kernel serves the block itself. -/
theorem Sound.direct (h : m.Sound held) (hd : sysAllocate size reply m = some m') : m'.Granted held ⟨reply.getD 0,size⟩ := by
  obtain ⟨rfl,rfl⟩ | ⟨base,rfl,hfresh,rfl⟩ := sysAllocate_cases hd
  · exact .inr ⟨rfl,h⟩
  · have hpage : 8 ∣ base := Nat.dvd_trans (by decide) hfresh.1
    refine .inl (h.grant ?_ rfl rfl hpage)
    rw [Multiset.cons_swap]
    exact h.carved.obtain_region hfresh.2

theorem Sound.bumpLoop (h : m.Sound held) (halign : 8 ∣ align) (hpos : 0 < align)
    (hl : bumpLoop align size large replies m = some (p,m')) : m'.Granted held ⟨p,size⟩ := by
  induction replies generalizing m with
  | nil => exact .inl (h.bump halign hpos hl)
  | cons reply replies ih =>
    rw [Rustspace.bumpLoop] at hl
    cases hb : Rustspace.bump align size m with
    | some got =>
      rw [hb] at hl
      cases hl
      exact .inl (h.bump halign hpos hb)
    | none =>
      simp only [hb] at hl
      split_ifs at hl with hdirect
      · obtain ⟨got,hgot,heq⟩ := Option.map_eq_some_iff.mp hl
        cases heq
        exact h.direct hgot
      · cases hg : grow reply m with
        | none =>
          rw [hg] at hl
          cases hl
        | some got =>
          obtain ⟨slab,hslab,rfl⟩ := Option.map_eq_some_iff.mp hg
          simp only [hg] at hl
          cases reply with
          | none =>
            cases hl
            exact .inr ⟨rfl,h.preallocate hslab⟩
          | some base => exact ih (h.preallocate hslab) hl

end Space

/-- A block that the kernel does not serve itself is aligned, or null. -/
theorem bumpLoop_dvd (hslab : ¬ (large ∧ size > slabSize)) (hl : bumpLoop align size large replies m = some (p,m')) : align ∣ p := by
  induction replies generalizing m with
  | nil => exact bump_dvd hl
  | cons reply replies ih =>
    rw [bumpLoop] at hl
    cases hb : bump align size m with
    | some got =>
      rw [hb] at hl
      cases hl
      exact bump_dvd hb
    | none =>
      simp only [hb,if_neg hslab] at hl
      cases hg : grow reply m with
      | none =>
        rw [hg] at hl
        cases hl
      | some got =>
        obtain ⟨slab,hslab,rfl⟩ := Option.map_eq_some_iff.mp hg
        simp only [hg] at hl
        cases reply with
        | none =>
          cases hl
          exact Nat.dvd_zero _
        | some base => exact ih hl

/-- The node that is taken was on the list, and holds the padding and the block. -/
theorem takeLarge_spec (h : takeLarge align size nodes = some (node,others)) :
    nodes.Perm (node :: others) ∧ size + (alignUp node.off align - node.off) ≤ node.len := by
  induction nodes generalizing others with
  | nil => cases h
  | cons first next ih =>
    unfold takeLarge at h
    dsimp only at h
    split_ifs at h with hroom
    · cases h
      exact ⟨List.Perm.refl _,hroom⟩
    · obtain ⟨⟨found,rest⟩,hfound,heq⟩ := Option.map_eq_some_iff.mp h
      cases heq
      obtain ⟨hperm,hlen⟩ := ih hfound
      exact ⟨(hperm.cons first).trans (List.Perm.swap ..),hlen⟩

/-- What is left of a node lies behind the block, inside the node. -/
theorem remainder_cases (node : Region) (aligned size : Nat) : remainder node aligned size = [] ∨
    ∃ r, remainder node aligned size = [r] ∧ aligned + size ≤ r.off ∧ r.stop = node.stop ∧ 8 ∣ r.off ∧ largeNodeSize ≤ r.len := by
  unfold remainder
  dsimp only
  split_ifs with hroom
  · have hle : aligned + size ≤ alignUp (aligned + size) largeNodeAlign := le_alignUp (by decide) _
    refine .inr ⟨_,rfl,hle,?_,dvd_alignUp ..,?_⟩
    all_goals
      simp only [Region.stop,largeNodeSize,largeRemainderMinBytes] at *
      omega
  · exact .inl rfl

/-- The block and what is left of a node are cut out of it. -/
theorem carved_remainder {obtained : List Region} {parts : Multiset Region} {aligned : Nat} (h : Carved obtained (node ::ₘ parts))
    (hle : node.off ≤ aligned) (hroom : aligned + size ≤ node.stop) :
    Carved obtained (⟨aligned,size⟩ ::ₘ (↑(remainder node aligned size) + parts)) := by
  obtain hrem | ⟨rest,hrem,hbehind,hstop,_⟩ := remainder_cases node aligned size
  · rw [hrem,Multiset.coe_nil,zero_add]
    exact h.shrink ⟨hle,hroom⟩
  · rw [hrem,Multiset.coe_singleton,Multiset.singleton_add]
    have hafter : node.off ≤ rest.off := by omega
    exact h.split ⟨hle,hroom⟩ ⟨hafter,Nat.le_of_eq hstop⟩ (.inr (.inr (.inl hbehind)))

theorem remainder_header {aligned : Nat} (h : r ∈ remainder node aligned size) : 8 ∣ r.off ∧ largeNodeSize ≤ r.len := by
  obtain hrem | ⟨rest,hrem,_,_,h8,hheader⟩ := remainder_cases node aligned size
  · rw [hrem] at h
    cases h
  · rw [hrem] at h
    rw [List.mem_singleton.mp h]
    exact ⟨h8,hheader⟩

namespace Space

/-- A node is taken off the large list, and what is left of it comes to the front. -/
theorem Sound.takeNode (h : m.Sound held) (halign : 8 ∣ align) (hpos : 0 < align)
    (ht : takeLarge align size m.arena.largeHead = some (node,others)) :
    Sound { m with arena := { m.arena with largeHead := remainder node (alignUp node.off align) size ++ others } }
      (⟨alignUp node.off align,size⟩ ::ₘ held) := by
  obtain ⟨hperm,hlen⟩ := takeLarge_spec ht
  have hle := le_alignUp hpos node.off
  generalize hsmall : ∑ idx, (↑((m.arena.smallHeads idx).map (Region.mk · (blockSizes.get idx))) : Multiset Region) = small
  have hfree : m.arena.free = node ::ₘ (small + ↑others) := by
    rw [Arena.free,hsmall,Multiset.coe_eq_coe.mpr hperm,← Multiset.cons_coe,Multiset.add_cons]
  generalize hrem : remainder node (alignUp node.off align) size = rem
  have hfree' : Arena.free { m.arena with largeHead := rem ++ others } = ↑rem + (small + ↑others) := by
    rw [Arena.free,hsmall,← Multiset.coe_add,add_left_comm]
  have hcarved : Carved m.obtained (node ::ₘ m.arena.bumpRange ::ₘ (small + ↑others + held)) := by
    rw [Multiset.cons_swap,← Multiset.cons_add,← hfree]
    exact h.carved
  have hroom : alignUp node.off align + size ≤ node.stop := by
    unfold Region.stop
    omega
  have hcut := carved_remainder hcarved hle hroom
  rw [hrem] at hcut
  refine ⟨?_,fun r hr => ?_,fun r hr => ?_⟩
  · rw [hfree',Multiset.add_cons,Multiset.cons_swap,add_assoc,← Multiset.add_cons]
    exact hcut
  · rw [hfree',Multiset.add_cons,add_assoc] at hr
    obtain rfl | hr := Multiset.mem_cons.mp hr
    · exact halign.trans (dvd_alignUp ..)
    obtain hr | hr := Multiset.mem_add.mp hr
    · exact (remainder_header (hrem ▸ Multiset.mem_coe.mp hr)).1
    · exact h.aligned r (by rw [hfree,Multiset.cons_add]; exact Multiset.mem_cons_of_mem hr)
  · obtain hr | hr := List.mem_append.mp hr
    · exact (remainder_header (hrem ▸ hr)).2
    · exact h.headers r (hperm.mem_iff.mpr (List.mem_cons_of_mem node hr))

theorem Sound.allocLarge (h : m.Sound held) (halign : 8 ∣ align) (hpos : 0 < align)
    (ha : allocLarge align size replies m = some (p,m')) : m'.Granted held ⟨p,size⟩ := by
  unfold Rustspace.allocLarge at ha
  cases ht : takeLarge align size m.arena.largeHead with
  | none =>
    rw [ht] at ha
    exact h.bumpLoop halign hpos ha
  | some taken =>
    rw [ht] at ha
    cases ha
    exact .inl (h.takeNode halign hpos ht)

/-- A small block that was free is held. -/
theorem Sound.pop (h : m.Sound held) {idx : Fin blockSizes.length} {next : List Nat} (hidx : m.arena.smallHeads idx = p :: next) :
    Sound { m with arena := { m.arena with smallHeads := Function.update m.arena.smallHeads idx next } }
      (⟨p,blockSizes.get idx⟩ ::ₘ held) := by
  have hself : Function.update m.arena.smallHeads idx next idx = next := Function.update_self ..
  have hfree : m.arena.free = ⟨p,blockSizes.get idx⟩ ::ₘ
      Arena.free { m.arena with smallHeads := Function.update m.arena.smallHeads idx next } :=
    Arena.free_push (by dsimp only; rw [hidx,hself]) (fun other hne => (Function.update_of_ne hne ..).symm) rfl
  have hparts := h.carved
  have haligned := h.aligned
  rw [hfree,Multiset.cons_add,← Multiset.add_cons] at hparts haligned
  exact ⟨hparts,haligned,h.headers⟩

/-- A block is set aside for what is asked, as large as its class or as its header needs. -/
theorem Sound.alloc (h : m.Sound held) (hsize : layout.size ≠ 0) (ha : alloc layout replies m = some (p,m')) :
    m'.Granted held (extent (p,layout)) := by
  unfold Rustspace.alloc at ha
  rw [if_neg hsize] at ha
  cases hidx : smallIndex layout with
  | some idx =>
    rw [extent_small p hidx]
    simp only [hidx] at ha
    cases hlist : m.arena.smallHeads idx with
    | nil =>
      rw [hlist] at ha
      exact h.bumpLoop (eight_dvd_blockSizes idx).1 (eight_dvd_blockSizes idx).2.1 ha
    | cons node next =>
      rw [hlist] at ha
      cases ha
      exact .inl (h.pop hlist)
  | none =>
    rw [extent_large p hidx]
    simp only [hidx,if_pos (large_of_smallIndex_none hidx)] at ha
    exact h.allocLarge (eight_dvd_max layout).1 (eight_dvd_max layout).2.1 ha

/-- A block that was held is free, in the size in which it was set aside. -/
theorem Sound.dealloc (h : m.Sound (extent (p,layout) ::ₘ held)) (hp : p ≠ 0) (hsize : layout.size ≠ 0) :
    Sound { m with arena := dealloc p layout m.arena } held := by
  have hcarved := h.carved
  have haligned := h.aligned
  rw [Multiset.add_cons,← Multiset.cons_add] at hcarved haligned
  unfold Rustspace.dealloc
  rw [if_neg (not_or.mpr ⟨hp,hsize⟩)]
  cases hidx : smallIndex layout with
  | some idx =>
    rw [extent_small p hidx] at hcarved haligned
    have hfree : Arena.free { m.arena with smallHeads := Function.update m.arena.smallHeads idx (p :: m.arena.smallHeads idx) } =
        ⟨p,blockSizes.get idx⟩ ::ₘ m.arena.free :=
      Arena.free_push (Function.update_self ..) (fun other hne => Function.update_of_ne hne ..) rfl
    rw [← hfree] at hcarved haligned
    exact ⟨hcarved,haligned,h.headers⟩
  | none =>
    rw [extent_large p hidx] at hcarved haligned
    have hfree : Arena.free { m.arena with largeHead := ⟨p,max layout.size largeNodeSize⟩ :: m.arena.largeHead } =
        ⟨p,max layout.size largeNodeSize⟩ ::ₘ m.arena.free := by
      rw [Arena.free,Arena.free,← Multiset.cons_coe,Multiset.add_cons]
    rw [← hfree] at hcarved haligned
    refine ⟨hcarved,haligned,fun node hnode => ?_⟩
    obtain rfl | hnode := List.mem_cons.mp hnode
    · exact Nat.le_max_right ..
    · exact h.headers node hnode

end Space
end MofuOS.Rustspace
