import MofuOS.Graphics.FocusVisible
import MofuOS.Lib.Ranks

/-! The stacking order of the visible windows. Numbering them again keeps their order, if no two have one z_index. -/
namespace MofuOS.Graphics.Focus
open Lib Events Compose
open Memory (heapSizeBytes)
open Windows (invalidWindowId)
variable {fb : FrameBufferTarget} {p : Profile} {keys : KeyCodes} {c c' : Compositor fb} {windows : List (Window fb)}
  {id i j z z' : Nat}

section Shown

/-- A visible window is in this slot, at this height. -/
def Shown (windows : List (Window fb)) (slot z : Nat) : Prop :=
  ∃ w, windows[slot]? = some w ∧ w.isVisible = true ∧ w.zIndex = z

/-- No two visible windows are at one height. -/
def Apart (windows : List (Window fb)) : Prop := ∀ i j z, Shown windows i z → Shown windows j z → i = j

theorem Shown.unique (h : Shown windows i z) (h' : Shown windows i z') : z = z' := by
  obtain ⟨w,hw,_,rfl⟩ := h
  obtain ⟨w',hw',_,rfl⟩ := h'
  cases hw.symm.trans hw'
  rfl

theorem shown_modify {height : Nat} : Shown (windows.modify id fun w => { w with zIndex := height }) i z ↔
    if i = id then (∃ old, Shown windows id old) ∧ z = height else Shown windows i z := by
  unfold Shown
  rw [List.getElem?_modify]
  by_cases hi : i = id
  · subst hi
    rw [if_pos rfl]
    constructor
    · rintro ⟨w',hw',hvisible,rfl⟩
      obtain ⟨w,hw,rfl⟩ := Option.map_eq_some_iff.mp hw'
      rw [if_pos rfl] at hvisible ⊢
      exact ⟨⟨w.zIndex,w,hw,hvisible,rfl⟩,rfl⟩
    · rintro ⟨⟨old,w,hw,hvisible,_⟩,rfl⟩
      exact ⟨{ w with zIndex := z },by rw [hw]; exact congrArg some (if_pos rfl),hvisible,rfl⟩
  · simp only [if_neg hi,if_neg (Ne.symm hi),Option.map_eq_map,Option.map_id']

end Shown
section Normalize

def visibleSlots (windows : List (Window fb)) : List Nat :=
  (List.range windows.length).filter fun slot => (windows[slot]?).any (·.isVisible)

theorem mem_visibleSlots : i ∈ visibleSlots windows ↔ ∃ z, Shown windows i z := by
  unfold visibleSlots Shown
  rw [List.mem_filter,List.mem_range]
  constructor
  · rintro ⟨hlt,hvisible⟩
    rw [List.getElem?_eq_getElem hlt] at hvisible
    exact ⟨_,_,List.getElem?_eq_getElem hlt,hvisible,rfl⟩
  · rintro ⟨z,w,hw,hvisible,_⟩
    refine ⟨(List.getElem?_eq_some_iff.mp hw).1,?_⟩
    rw [hw]
    exact hvisible

theorem nodup_visibleSlots : (visibleSlots windows).Nodup := List.nodup_range.filter _

theorem length_visibleSlots : (visibleSlots windows).length = windows.countP (·.isVisible) := by
  unfold visibleSlots
  induction windows using List.reverseRecOn with
  | nil => rfl
  | append_singleton windows w ih =>
    have hold : (List.range windows.length).filter (fun slot => ((windows ++ [w])[slot]?).any (·.isVisible)) =
        (List.range windows.length).filter fun slot => (windows[slot]?).any (·.isVisible) := by
      refine List.filter_congr fun slot hslot => ?_
      rw [List.getElem?_append_left (List.mem_range.mp hslot)]
    rw [List.length_append,List.length_singleton,List.range_succ,List.filter_append,hold,List.length_append,ih,
      List.countP_append]
    cases hvisible : w.isVisible <;> simp [hvisible]

theorem Shown.zIndexAt (h : Shown windows i z) : zIndexAt windows i = z := by
  obtain ⟨w,hw,_,hz⟩ := h
  rw [Focus.zIndexAt,hw]
  exact hz

theorem Apart.keysApart (h : Apart windows) : KeysApart (Focus.zIndexAt windows) (visibleSlots windows) := by
  intro a ha b hb heq
  obtain ⟨za,hza⟩ := mem_visibleSlots.mp ha
  obtain ⟨zb,hzb⟩ := mem_visibleSlots.mp hb
  rw [hza.zIndexAt,hzb.zIndexAt] at heq
  subst heq
  exact h a b za hza hzb

/-- A u8 numbers the visible windows. -/
theorem Apart.countP_le (h : Apart windows) (hlt : ∀ i z, Shown windows i z → z < 2^8) :
    windows.countP (·.isVisible) ≤ 2^8 := by
  rw [← length_visibleSlots]
  refine h.keysApart.length_le nodup_visibleSlots fun a ha => ?_
  obtain ⟨z,hz⟩ := mem_visibleSlots.mp ha
  exact hz.zIndexAt ▸ hlt a z hz

variable (hapart : Apart windows) (hlt : ∀ i z, Shown windows i z → z < 2^8)
include hapart hlt

/-- Every visible window gets its rank. -/
theorem shown_normalizeZIndices : Shown (normalizeZIndices windows) i z' ↔
    (∃ z, Shown windows i z) ∧ z' = rank (zIndexAt windows) (visibleSlots windows) i := by
  have hmod : (∃ z, Shown windows i z) → (stackingOrder windows).idxOf i % 2^8 =
      rank (zIndexAt windows) (visibleSlots windows) i := by
    intro hz
    have hrank : rank (zIndexAt windows) (visibleSlots windows) i < (visibleSlots windows).length :=
      rank_lt_length _ (mem_visibleSlots.mpr hz)
    rw [length_visibleSlots] at hrank
    exact Nat.mod_eq_of_lt (Nat.lt_of_lt_of_le hrank (hapart.countP_le hlt))
  constructor
  · rintro ⟨w',hw',hvisible,rfl⟩
    rw [normalizeZIndices,List.getElem?_mapIdx] at hw'
    obtain ⟨w,hw,rfl⟩ := Option.map_eq_some_iff.mp hw'
    split_ifs at hvisible ⊢ with hwvisible
    · exact ⟨⟨_,w,hw,hwvisible,rfl⟩,hmod ⟨_,w,hw,hwvisible,rfl⟩⟩
    · exact absurd hvisible hwvisible
  · rintro ⟨⟨z,w,hw,hvisible,hz⟩,rfl⟩
    refine ⟨{ w with zIndex := (stackingOrder windows).idxOf i % 2^8 },?_,hvisible,hmod ⟨z,w,hw,hvisible,hz⟩⟩
    rw [normalizeZIndices,List.getElem?_mapIdx,hw,Option.map_some,if_pos hvisible]

theorem normalizeZIndices_lt_iff {zi zj zi' zj' : Nat} (hi : Shown windows i zi) (hj : Shown windows j zj)
    (hi' : Shown (normalizeZIndices windows) i zi') (hj' : Shown (normalizeZIndices windows) j zj') : zi' < zj' ↔ zi < zj := by
  obtain ⟨_,rfl⟩ := (shown_normalizeZIndices hapart hlt).mp hi'
  obtain ⟨_,rfl⟩ := (shown_normalizeZIndices hapart hlt).mp hj'
  rw [hapart.keysApart.rank_lt_iff (mem_visibleSlots.mpr ⟨zi,hi⟩) (mem_visibleSlots.mpr ⟨zj,hj⟩),hi.zIndexAt,hj.zIndexAt]

end Normalize
section Restack

/-- What a change of focus needs of the windows: those that it does not raise are apart, and there is a height above
all of them. -/
structure Raisable (id top : Nat) (windows : List (Window fb)) : Prop where
  apart : ∀ i j z, i ≠ id → j ≠ id → Shown windows i z → Shown windows j z → i = j
  le : ∀ i z, Shown windows i z → z ≤ top
  fits : top + 1 < 2^8

variable {top : Nat}

theorem shown_raised (hfits : top + 1 < 2^8) : Shown (raised id top windows) i z ↔
    if i = id then (∃ old, Shown windows id old) ∧ z = top + 1 else Shown windows i z := by
  rw [raised,shown_modify,Nat.mod_eq_of_lt hfits]

namespace Raisable
variable (h : Raisable id top windows)
include h

theorem shown_le (hi : Shown (raised id top windows) i z) (hne : i ≠ id) : z ≤ top := by
  rw [shown_raised h.fits,if_neg hne] at hi
  exact h.le i z hi

theorem lt (i z : Nat) (hi : Shown (raised id top windows) i z) : z < 2^8 := by
  have hfits := h.fits
  by_cases hid : i = id
  · rw [shown_raised hfits,if_pos hid] at hi
    omega
  · have hle := h.shown_le hi hid
    omega

theorem apart_raised : Apart (raised id top windows) := by
  have hmixed : ∀ j, j ≠ id → Shown (raised id top windows) j (top + 1) → False :=
    fun j hj hshown => absurd (h.shown_le hshown hj) (Nat.not_succ_le_self top)
  intro i j z hi hj
  by_cases hid : i = id <;> by_cases hjd : j = id
  · exact hid.trans hjd.symm
  · rw [shown_raised h.fits,if_pos hid] at hi
    exact (hmixed j hjd (hi.2 ▸ hj)).elim
  · rw [shown_raised h.fits,if_pos hjd] at hj
    exact (hmixed i hid (hj.2 ▸ hi)).elim
  · rw [shown_raised h.fits,if_neg hid] at hi
    rw [shown_raised h.fits,if_neg hjd] at hj
    exact h.apart i j z hid hjd hi hj

/-- The windows are stacked in the order in which raising one of them has put them. -/
theorem restacked_lt_iff {zi zj zi' zj' : Nat} (hi : Shown (raised id top windows) i zi) (hj : Shown (raised id top windows) j zj)
    (hi' : Shown (restacked id top windows) i zi') (hj' : Shown (restacked id top windows) j zj') : zi' < zj' ↔ zi < zj := by
  unfold restacked at hi' hj'
  split_ifs at hi' hj'
  · exact normalizeZIndices_lt_iff h.apart_raised h.lt hi hj hi' hj'
  · rw [hi.unique hi',hj.unique hj']

theorem shown_of_restacked (hi : Shown (restacked id top windows) i z') : ∃ z, Shown (raised id top windows) i z := by
  unfold restacked at hi
  split_ifs at hi
  · exact ((shown_normalizeZIndices h.apart_raised h.lt).mp hi).1
  · exact ⟨z',hi⟩

theorem apart_restacked : Apart (restacked id top windows) := by
  intro i j z hi hj
  obtain ⟨zi,hzi⟩ := h.shown_of_restacked hi
  obtain ⟨zj,hzj⟩ := h.shown_of_restacked hj
  have hij := h.restacked_lt_iff hzi hzj hi hj
  have hji := h.restacked_lt_iff hzj hzi hj hi
  have heq : zi = zj := by omega
  exact h.apart_raised i j zi hzi (heq ▸ hzj)

/-- The raised window is above the others. -/
theorem restacked_lt (hid : Shown (restacked id top windows) id z) (hi : Shown (restacked id top windows) i z') (hne : i ≠ id) :
    z' < z := by
  obtain ⟨zid,hzid⟩ := h.shown_of_restacked hid
  obtain ⟨zi,hzi⟩ := h.shown_of_restacked hi
  have hle := h.shown_le hzi hne
  rw [h.restacked_lt_iff hzi hzid hi hid]
  rw [shown_raised h.fits,if_pos rfl] at hzid
  omega

/-- The order of the other windows stays. -/
theorem restacked_others {zi zj zi' zj' : Nat} (hid : i ≠ id) (hjd : j ≠ id) (hi : Shown windows i zi) (hj : Shown windows j zj)
    (hi' : Shown (restacked id top windows) i zi') (hj' : Shown (restacked id top windows) j zj') : zi < zj ↔ zi' < zj' :=
  (h.restacked_lt_iff ((shown_raised h.fits).mpr ((if_neg hid).symm ▸ hi)) ((shown_raised h.fits).mpr ((if_neg hjd).symm ▸ hj))
    hi' hj').symm

end Raisable
end Restack
end MofuOS.Graphics.Focus
