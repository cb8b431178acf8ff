import MofuOS.Lib.Steps
import MofuOS.Rustspace.Scrollback

/-! What read_at of terminal/scrollback.rs returns, and when that is what was written. -/
namespace MofuOS.Rustspace
open Lib

section Offsets
variable {v r d : Nat}

theorem add_mod_of_lt (hr : r < v) (hd : d ≤ v) : (r + d) % v = if r + d < v then r + d else r + d - v := by
  split_ifs with h
  · exact Nat.mod_eq_of_lt h
  · obtain rfl | hlt := Nat.eq_or_lt_of_le hd
    · rw [Nat.add_mod_right,Nat.mod_eq_of_lt hr,Nat.add_sub_cancel]
    · rw [Nat.mod_eq_sub_mod (Nat.not_lt.mp h),Nat.mod_eq_of_lt (by omega)]

/-- How far a place of the ring lies behind r. -/
theorem ahead_mod (hr : r < v) (hd : d < v) : ((r + d) % v + v - r) % v = d := by
  rw [add_mod_of_lt hr (Nat.le_of_lt hd)]
  split_ifs
  · rw [show r + d + v - r = d + v by omega,Nat.add_mod_right,Nat.mod_eq_of_lt hd]
  · rw [show r + d - v + v - r = d by omega,Nat.mod_eq_of_lt hd]

theorem behind_mod (hr : r < v) (hpos : 0 < d) (hd : d < v) : (r + v - (r + d) % v) % v = v - d := by
  rw [add_mod_of_lt hr (Nat.le_of_lt hd)]
  split_ifs
  · rw [show r + v - (r + d) = v - d by omega,Nat.mod_eq_of_lt (by omega)]
  · rw [show r + v - (r + d - v) = v - d + v by omega,Nat.add_mod_right,Nat.mod_eq_of_lt (by omega)]

end Offsets

namespace Scrollback

/-- A new scrollback. Nothing is known of the bytes that the pages hold. -/
def new (viewSize : Nat) (view : Nat → UInt8) : Scrollback := ⟨viewSize,0,0,view,fun _ => 0⟩

def isInBuffer (absPos : Nat) (s : Scrollback) : Bool :=
  if absPos ≥ s.absoluteFilled then false else s.absoluteFilled - absPos ≤ s.viewSize

/-- The slice may run past the end of the first mapping. -/
def readAt (absPos maxLen : Nat) (s : Scrollback) : List UInt8 :=
  if s.isInBuffer absPos then
    let backwardOffset := s.absoluteFilled - absPos
    let toReadLen := min backwardOffset maxLen
    let offsetFromBase :=
      if backwardOffset ≤ s.relative then s.relative - backwardOffset else s.viewSize + s.relative - backwardOffset
    (List.range toReadLen).map fun i => s.view ((offsetFromBase + i) % s.viewSize)
  else []

inductive Op where
  | writeBytes (bytes : List UInt8)
  | removeLastByte
  deriving DecidableEq

def step : Op → Scrollback → Option Scrollback
  | .writeBytes bytes,s => (s.writeBytes bytes).map Prod.snd
  | .removeLastByte,s => some s.removeLastByte

variable {s s' : Scrollback} {bytes : List UInt8} {p n : Nat}

/-- What was written last at the positions from p on, n bytes of it at most. -/
def writtenFrom (p n : Nat) (s : Scrollback) : List UInt8 := (List.range (min n (s.absoluteFilled - p))).map fun i => s.written (p + i)

/-- Reads return nothing or what was written, and something wherever the last view may still hold it. -/
structure FaithfulReads (s : Scrollback) : Prop where
  bytes : ∀ p n, s.readAt p n = [] ∨ s.readAt p n = s.writtenFrom p n
  some : ∀ p n, p < s.absoluteFilled → s.absoluteFilled ≤ p + s.viewSize → 0 < n → s.readAt p n ≠ []

/-- The ring holds the positions of the last view. -/
structure HoldsLastView (s : Scrollback) : Prop where
  pos : 0 < s.viewSize
  relative : s.relative = s.absoluteFilled % s.viewSize
  held : ∀ q, q < s.absoluteFilled → s.absoluteFilled ≤ q + s.viewSize → s.view (q % s.viewSize) = s.written q

namespace HoldsLastView

theorem new {viewSize : Nat} (view : Nat → UInt8) (h : 0 < viewSize) : (new viewSize view).HoldsLastView :=
  ⟨h,(Nat.zero_mod _).symm,fun _ hq _ => (Nat.not_lt_zero _ hq).elim⟩

theorem faithfulReads (h : s.HoldsLastView) : s.FaithfulReads := by
  have hin : ∀ p, s.isInBuffer p = true ↔ p < s.absoluteFilled ∧ s.absoluteFilled ≤ p + s.viewSize := by
    intro p
    rw [isInBuffer]
    split_ifs with hp
    · simp only [false_iff]
      omega
    · rw [decide_eq_true_iff]
      omega
  refine ⟨fun p n => ?_,fun p n hp hview hn => ?_⟩
  · rw [readAt]
    split_ifs with hbuffer
    swap
    · exact .inl rfl
    obtain ⟨hp,hview⟩ := (hin p).mp hbuffer
    obtain ⟨b,hb⟩ := Nat.exists_eq_add_of_le (Nat.le_of_lt hp)
    have hr : p % s.viewSize < s.viewSize := Nat.mod_lt _ h.pos
    have hrelative : s.relative = if p % s.viewSize + b < s.viewSize then p % s.viewSize + b else p % s.viewSize + b - s.viewSize := by
      rw [h.relative,hb,← add_mod_of_lt hr (by omega),Nat.mod_add_mod]
    -- the read starts at the place of p
    have hoffset : (if s.absoluteFilled - p ≤ s.relative then s.relative - (s.absoluteFilled - p)
        else s.viewSize + s.relative - (s.absoluteFilled - p)) = p % s.viewSize := by
      split_ifs at hrelative ⊢ <;> omega
    right
    dsimp only
    rw [hoffset,writtenFrom,Nat.min_comm]
    refine List.map_congr_left fun i hi => ?_
    have hi := List.mem_range.mp hi
    rw [Nat.mod_add_mod]
    exact h.held (p + i) (by omega) (by omega)
  · rw [readAt,if_pos ((hin p).mpr ⟨hp,hview⟩)]
    intro hnil
    have hlen := congrArg List.length hnil
    simp only [List.length_map,List.length_range,List.length_nil] at hlen
    omega

/-- One pass of the loop of write_bytes. -/
private theorem pass (h : s.HoldsLastView) (hbytes : bytes ≠ []) (hlen : bytes.length ≤ s.viewSize) :
    ((s.copyFromSlice bytes).commitBytes bytes.length).HoldsLastView := by
  have hpos := List.length_pos_iff.mpr hbytes
  have hrelative := h.relative
  have hr : s.absoluteFilled % s.viewSize < s.viewSize := Nat.mod_lt _ h.pos
  refine ⟨h.pos,?_,fun q hq hview => ?_⟩
  · simp only [commitBytes,copyFromSlice,hrelative]
    rw [← Nat.mod_add_mod,add_mod_of_lt hr hlen]
    split_ifs <;> omega
  · simp only [commitBytes,copyFromSlice] at hq hview ⊢
    rw [record,hrelative]
    split_ifs with hnew
    · obtain ⟨d,rfl⟩ := Nat.exists_eq_add_of_le hnew
      rw [← Nat.mod_add_mod s.absoluteFilled,ahead_mod hr (by omega),Nat.add_sub_cancel_left,
        List.getElem?_eq_getElem (by omega),Option.getD_some,Option.getD_some]
    · -- a place that is not overwritten
      obtain ⟨d,hd⟩ := Nat.exists_eq_add_of_le (Nat.le_of_lt (Nat.not_le.mp hnew))
      have hplace : (q % s.viewSize + s.viewSize - s.absoluteFilled % s.viewSize) % s.viewSize = s.viewSize - d := by
        rw [hd,← Nat.mod_add_mod]
        exact behind_mod (Nat.mod_lt _ h.pos) (by omega) (by omega)
      rw [hplace,List.getElem?_eq_none (by omega),Option.getD_none]
      exact h.held q (by omega) (by omega)

private theorem loop {fuel : Nat} (h : s.HoldsLastView) (hloop : writeLoop fuel bytes s = some s') : s'.HoldsLastView := by
  induction fuel generalizing bytes s with
  | zero =>
    rw [writeLoop] at hloop
    split_ifs at hloop
    cases hloop
    exact h
  | succ fuel ih =>
    rw [writeLoop] at hloop
    split_ifs at hloop with hnil
    · cases hloop
      exact h
    · have hpos := List.length_pos_iff.mpr hnil
      have hview := h.pos
      have htake : (bytes.take (min bytes.length s.viewSize)).length = min bytes.length s.viewSize := by
        rw [List.length_take]
        omega
      refine ih ?_ hloop
      have hne : bytes.take (min bytes.length s.viewSize) ≠ [] := List.length_pos_iff.mp (by omega)
      have hpass := h.pass hne (by omega)
      rwa [htake] at hpass

/-- Bytes may be written at any time, and removed as long as the ring has not been filled more than once. -/
theorem step {op : Op} (h : s.HoldsLastView) (hremove : op = .removeLastByte → s.absoluteFilled ≤ s.viewSize)
    (hstep : Scrollback.step op s = some s') : s'.HoldsLastView := by
  cases op with
  | writeBytes bytes =>
    obtain ⟨⟨a,t⟩,hwrite,rfl⟩ := Option.map_eq_some_iff.mp hstep
    obtain ⟨t',hloop,heq⟩ := Option.map_eq_some_iff.mp hwrite
    cases heq
    exact h.loop hloop
  | removeLastByte =>
    have hfull := hremove rfl
    have hrelative := h.relative
    have hpos := h.pos
    cases hstep
    rw [removeLastByte]
    by_cases hzero : s.absoluteFilled = 0
    · rw [if_pos hzero]
      exact h
    rw [if_neg hzero]
    refine ⟨hpos,?_,fun q hq _ => h.held q (by dsimp only at hq; omega) (by omega)⟩
    dsimp only
    rw [Nat.mod_eq_of_lt (by omega : s.absoluteFilled - 1 < s.viewSize),hrelative]
    obtain hlt | heq := Nat.lt_or_eq_of_le hfull
    · rw [Nat.mod_eq_of_lt hlt,if_neg hzero]
    · rw [heq,Nat.mod_self,if_pos rfl]

end HoldsLastView

/-- Bytes are removed only while no position has been overwritten. -/
def RemovesUnwrapped (op : Op) (s : Scrollback) : Prop := op = .removeLastByte → s.absoluteFilled ≤ s.viewSize

theorem faithfulReads_of_run {viewSize : Nat} {view : Nat → UInt8} {ops : List Op} (hview : 0 < viewSize)
    (hops : stepsMeet step RemovesUnwrapped ops (new viewSize view)) (hrun : steps step ops (new viewSize view) = some s) :
    s.FaithfulReads :=
  (steps_invariant (fun _ _ _ hc h hstep => h.step hc hstep) hops (HoldsLastView.new view hview) hrun).faithfulReads

/-- Four bytes, of which the last is taken back, and three more. -/
theorem faithfulReads_of_run_edited : ∃ s,
    steps step [.writeBytes [1,2,3,4],.removeLastByte,.writeBytes [5,6,7]] (new 4 fun _ => 0) = some s ∧
      s.FaithfulReads ∧ s.readAt 2 9 = [3,5,6,7] := by
  have hops : stepsMeet step RemovesUnwrapped [.writeBytes [1,2,3,4],.removeLastByte,.writeBytes [5,6,7]] (new 4 fun _ => 0) :=
    stepsMeet_of_check (fun op s => op ≠ .removeLastByte ∨ s.absoluteFilled ≤ s.viewSize)
      (fun op s h => by simpa [RemovesUnwrapped,imp_iff_not_or] using h) (by decide)
  exact ⟨_,rfl,faithfulReads_of_run (by decide) hops rfl,by decide⟩

/-- A whole view, and one byte more, which is taken back. The first byte is overwritten, and read_at returns
what overwrote it. -/
private theorem overwritten_read {v : Nat} (hv : 1 < v) : ∃ s,
    steps step [.writeBytes (List.replicate v 0 ++ [1]),.removeLastByte] (new v fun _ => 0) = some s ∧
      s.readAt 0 1 = [1] ∧ s.writtenFrom 0 1 = [0] ∧ ¬ s.FaithfulReads := by
  have hlen : (List.replicate v (0 : UInt8) ++ [1]).length = v + 1 := by simp
  have hfirst : (List.replicate v (0 : UInt8) ++ [1])[0]? = some 0 := by
    rw [List.getElem?_append_left (by rw [List.length_replicate]; omega),List.getElem?_replicate,if_pos (by omega)]
  have hlast : (List.replicate v (0 : UInt8) ++ [1])[v]? = some 1 := by simp
  generalize List.replicate v (0 : UInt8) ++ [1] = bytes at *
  obtain ⟨t,hwrite,hview,hfilled,hwritten⟩ := @writeBytes_eq (new v fun _ => 0) bytes (Nat.ne_of_gt (Nat.zero_lt_of_lt hv))
  have hstep : step (.writeBytes bytes) (new v fun _ => 0) = some t := by rw [step,hwrite]; rfl
  have hnew : (new v fun _ => 0).HoldsLastView := .new _ (by omega)
  have hholds : t.HoldsLastView := by
    refine hnew.step (fun h => ?_) hstep
    cases h
  have hview : t.viewSize = v := hview
  have hfilled : t.absoluteFilled = v + 1 := by rw [hfilled,hlen]; exact Nat.zero_add _
  have hrelative : t.relative = 1 := by rw [hholds.relative,hfilled,hview,Nat.add_mod_left,Nat.mod_eq_of_lt hv]
  have hplace : t.view 0 = 1 := by
    have hheld := hholds.held v (by omega) (by omega)
    rw [hview,Nat.mod_self,hwritten] at hheld
    rw [hheld]
    simp [record,new,hlast]
  have hold : t.written 0 = 0 := by
    rw [hwritten]
    simp [record,new,hfirst]
  have hread : t.removeLastByte.readAt 0 1 = [1] := by
    simp [removeLastByte,readAt,isInBuffer,hfilled,hrelative,hview,hplace,show v ≠ 0 by omega,Nat.min_eq_right (show 1 ≤ v by omega)]
  have hbytes : t.removeLastByte.writtenFrom 0 1 = [0] := by
    simp [removeLastByte,writtenFrom,hfilled,hold,Nat.min_eq_left (show 1 ≤ v by omega)]
  refine ⟨t.removeLastByte,by rw [steps,hstep]; rfl,hread,hbytes,fun h => ?_⟩
  obtain hnil | hsame := h.bytes 0 1
  · rw [hread] at hnil
    cases hnil
  · rw [hread,hbytes] at hsame
    exact absurd hsame (by decide)

theorem overwritten_byte_read : ∃ s,
    steps step [.writeBytes (List.replicate 4096 0 ++ [1]),.removeLastByte] (new 4096 fun _ => 0) = some s ∧
      s.readAt 0 1 = [1] ∧ s.writtenFrom 0 1 = [0] ∧ ¬ s.FaithfulReads := overwritten_read (by decide)

end Scrollback
end MofuOS.Rustspace
