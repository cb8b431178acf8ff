import Mathlib.Data.List.Basic
import Mathlib.Tactic.SplitIfs
import Mathlib.Data.UInt
import Mathlib.Algebra.Group.Nat.Defs

/-! The byte ring of terminal/scrollback.rs. Two adjacent mappings of the view make every slice of it
contiguous. -/
namespace MofuOS.Rustspace

/-- Positions count all bytes ever appended, as a u64 that is far from its end. What was written last
at a position is recorded for the proofs. -/
structure Scrollback where
  viewSize : Nat
  relative : Nat
  absoluteFilled : Nat
  view : Nat → UInt8
  written : Nat → UInt8

/-- The bytes go to the positions from a on. -/
def record (w : Nat → UInt8) (a : Nat) (bytes : List UInt8) : Nat → UInt8 := fun p =>
  if a ≤ p then (bytes[p - a]?).getD (w p) else w p

/-- The text stands at the positions from a on. -/
def Stands (w : Nat → UInt8) (a : Nat) (text : List UInt8) : Prop := ∀ (i : Nat) (h : i < text.length), w (a + i) = text[i]

namespace Scrollback
variable {s s' : Scrollback} {bytes : List UInt8}

def currentAbsolute (s : Scrollback) : Nat := s.absoluteFilled

/-- dest.copy_from_slice(bytes) for the slice that starts at relative. -/
def copyFromSlice (bytes : List UInt8) (s : Scrollback) : Scrollback := { s with
  view := fun i => (bytes[(i + s.viewSize - s.relative) % s.viewSize]?).getD (s.view i)
  written := record s.written s.absoluteFilled bytes }

def commitBytes (n : Nat) (s : Scrollback) : Scrollback := { s with
  relative := if s.relative + n ≥ s.viewSize then s.relative + n - s.viewSize else s.relative + n
  absoluteFilled := s.absoluteFilled + n }

/-- A pass writes no more than the view holds. The loop ends as long as that is something. -/
def writeLoop : Nat → List UInt8 → Scrollback → Option Scrollback
  | 0, bytes, s => if bytes = [] then some s else none
  | fuel+1, bytes, s =>
    if bytes = [] then some s
    else
      let n := min bytes.length s.viewSize
      writeLoop fuel (bytes.drop n) ((s.copyFromSlice (bytes.take n)).commitBytes n)

/-- Returns the position the bytes start at. -/
def writeBytes (bytes : List UInt8) (s : Scrollback) : Option (Nat × Scrollback) :=
  (writeLoop bytes.length bytes s).map fun s' => (s.absoluteFilled,s')

def removeLastByte (s : Scrollback) : Scrollback :=
  if s.absoluteFilled = 0 then s
  else { s with
    absoluteFilled := s.absoluteFilled - 1
    relative := if s.relative = 0 then s.viewSize - 1 else s.relative - 1 }

end Scrollback

section Record
variable {w : Nat → UInt8} {a : Nat} {text bytes bytes' : List UInt8}

theorem record_nil : record w a [] = w := by
  funext p
  unfold record
  split_ifs <;> rfl

theorem record_append : record (record w a bytes) (a + bytes.length) bytes' = record w a (bytes ++ bytes') := by
  funext p
  unfold record
  by_cases hlate : a + bytes.length ≤ p
  · have hold : bytes[p - a]? = none := List.getElem?_eq_none (by omega)
    rw [if_pos hlate,if_pos (by omega),if_pos (by omega),hold,List.getElem?_append_right (by omega),Nat.sub_sub,Option.getD_none]
  · rw [if_neg hlate]
    split_ifs with ha
    · rw [List.getElem?_append_left (by omega)]
    · rfl

theorem Stands.record (h : Stands w a text) (bytes : List UInt8) : Stands (record w (a + text.length) bytes) a (text ++ bytes) := by
  intro i hi
  unfold Rustspace.record
  by_cases hold : i < text.length
  · rw [if_neg (by omega),List.getElem_append_left hold]
    exact h i hold
  · rw [List.length_append] at hi
    rw [if_pos (by omega),List.getElem_append_right (by omega)]
    have hidx : a + i - (a + text.length) = i - text.length := by omega
    rw [hidx,List.getElem?_eq_getElem (by omega),Option.getD_some]

theorem Stands.left (h : Stands w a (text ++ bytes)) : Stands w a text := by
  intro i hi
  rw [h i (by rw [List.length_append]; omega),List.getElem_append_left hi]

theorem Stands.right (h : Stands w a (text ++ bytes)) : Stands w (a + text.length) bytes := by
  intro i hi
  have hs := h (text.length + i) (by rw [List.length_append]; omega)
  rw [List.getElem_append_right (by omega)] at hs
  rw [Nat.add_assoc,hs]
  simp

end Record

namespace Scrollback
variable {s s' : Scrollback} {bytes : List UInt8}

private theorem writeLoop_eq {fuel : Nat} (hv : s.viewSize ≠ 0) (hfuel : bytes.length ≤ fuel) :
    ∃ s', writeLoop fuel bytes s = some s' ∧ s'.viewSize = s.viewSize ∧
      s'.absoluteFilled = s.absoluteFilled + bytes.length ∧ s'.written = record s.written s.absoluteFilled bytes := by
  induction fuel generalizing bytes s with
  | zero =>
    obtain rfl := List.length_eq_zero_iff.mp (Nat.le_zero.mp hfuel)
    exact ⟨s,rfl,rfl,rfl,record_nil.symm⟩
  | succ fuel ih =>
    unfold writeLoop
    split_ifs with hnil
    · subst hnil
      exact ⟨s,rfl,rfl,rfl,record_nil.symm⟩
    have hpos := List.length_pos_iff.mpr hnil
    generalize hn : min bytes.length s.viewSize = n
    have htake : (bytes.take n).length = n := by
      rw [List.length_take]
      omega
    have happend : record (record s.written s.absoluteFilled (bytes.take n)) (s.absoluteFilled + (bytes.take n).length)
        (bytes.drop n) = _ := record_append
    rw [htake,List.take_append_drop] at happend
    obtain ⟨s',hrun,hview,habs,hwritten⟩ := @ih ((s.copyFromSlice (bytes.take n)).commitBytes n) (bytes.drop n) hv
      (by rw [List.length_drop]; omega)
    refine ⟨s',hrun,hview,?_,hwritten.trans happend⟩
    rw [habs,List.length_drop]
    simp only [commitBytes,copyFromSlice]
    omega

/-- All bytes are appended. -/
theorem writeBytes_eq (bytes : List UInt8) (hv : s.viewSize ≠ 0) :
    ∃ s', writeBytes bytes s = some (s.absoluteFilled,s') ∧ s'.viewSize = s.viewSize ∧
      s'.absoluteFilled = s.absoluteFilled + bytes.length ∧ s'.written = record s.written s.absoluteFilled bytes := by
  obtain ⟨s',hrun,hrest⟩ := writeLoop_eq hv (Nat.le_refl bytes.length)
  exact ⟨s',by rw [writeBytes,hrun]; rfl,hrest⟩

end Scrollback
end MofuOS.Rustspace
