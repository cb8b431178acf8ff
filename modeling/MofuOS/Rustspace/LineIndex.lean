import MofuOS.Lib.Ring
import Mathlib.Tactic.SplitIfs

/-! The line table of terminal/line_index.rs: a ring of the last lines, each known by its first position
and the one past its end. -/
namespace MofuOS.Rustspace
open Lib

def splitLineAt : Nat := 4096

structure LineMeta where
  firstPos : Nat
  onePastLastPos : Nat
  deriving DecidableEq, Repr

namespace LineMeta

def empty (pos : Nat) : LineMeta := ⟨pos,pos⟩

def len (l : LineMeta) : Nat := l.onePastLastPos - l.firstPos

def isEmpty (l : LineMeta) : Bool := l.firstPos == l.onePastLastPos

end LineMeta

/-- The capacity never changes, and an index out of range cannot be built. -/
structure LineIndex (max : Nat) where
  lines : Fin max → LineMeta
  current : Fin max
  count : Nat

namespace LineIndex
variable {max : Nat} [NeZero max] {l : LineIndex max} {r p : Nat} {q : List LineMeta} {a : LineMeta}

def currentRef (l : LineIndex max) : LineMeta := l.lines l.current

def logicalLineForIndex (l : LineIndex max) (logicalIdx : Nat) : Option LineMeta :=
  if logicalIdx ≥ l.count then none
  else
    let start := if l.count < max then 0 else (l.current.val + 1) % max
    some (l.lines (Fin.ofNat max (start + logicalIdx)))

def updateEnd (atP : Nat) (l : LineIndex max) : LineIndex max :=
  { l with lines := Function.update l.lines l.current { l.currentRef with onePastLastPos := atP } }

/-- The slot behind the current one. -/
def nextSlot (l : LineIndex max) : Fin max := if h : l.current.val + 1 < max then ⟨_,h⟩ else 0

def lineFeed (nextStart : Nat) (l : LineIndex max) : LineIndex max :=
  let count := if l.count ≤ l.nextSlot.val then l.nextSlot.val + 1 else l.count
  { lines := Function.update (l.updateEnd nextStart).lines l.nextSlot (.empty nextStart)
    current := l.nextSlot
    count := if count > max then max else count }

def forceLineFeedIfNeeded (abs : Nat) (l : LineIndex max) : LineIndex max :=
  if l.currentRef.len ≥ splitLineAt then l.lineFeed abs else l

def truncateLast (newEnd : Nat) (l : LineIndex max) : LineIndex max := l.updateEnd newEnd

/-- What new, followed by clear, gives is what clear gives of any table. -/
def clear (pos : Nat) : LineIndex max := ⟨fun _ => .empty pos,0,1⟩

/-- The table shows these lines. The first of them is the r-th since it was cleared. -/
structure Shows (l : LineIndex max) (r : Nat) (q : List LineMeta) : Prop where
  count : q.length = l.count
  le : q.length ≤ max
  current : l.current = Fin.ofNat max (r + (q.length - 1))
  origin : q.length < max → r = 0
  laid : Ring.Laid l.lines r q

theorem Shows.logicalLineForIndex (h : l.Shows r q) (hq : q ≠ []) (i : Nat) : l.logicalLineForIndex i = q[i]? := by
  have hpos := List.length_pos_iff.mpr hq
  have hle := h.le
  unfold LineIndex.logicalLineForIndex
  split_ifs with hi hcount
  · rw [List.getElem?_eq_none (by rw [h.count]; exact hi)]
  · rw [h.origin (by rw [h.count]; exact hcount)] at h
    rw [List.getElem?_eq_getElem (by rw [h.count]; omega)]
    exact congrArg some (h.laid i (by rw [h.count]; omega))
  · have hfull : q.length = max := by
      have := h.count
      omega
    have hstart : Fin.ofNat max ((l.current.val + 1) % max + i) = Fin.ofNat max (r + i) := by
      apply Fin.ext
      rw [h.current]
      simp only [Fin.val_ofNat]
      rw [Nat.add_mod,Nat.mod_mod,← Nat.add_mod,Nat.add_assoc,Nat.mod_add_mod,hfull]
      have hsum : r + (max - 1) + (1 + i) = r + i + max := by omega
      rw [hsum,Nat.add_mod_right]
    rw [List.getElem?_eq_getElem (by rw [h.count]; omega)]
    simp only
    rw [hstart]
    exact congrArg some (h.laid i (by rw [h.count]; omega))

theorem Shows.currentRef (h : l.Shows r (q ++ [a])) : l.currentRef = a := by
  have hcurrent := h.current
  rw [List.length_append,List.length_singleton,Nat.add_sub_cancel] at hcurrent
  rw [LineIndex.currentRef,hcurrent]
  exact h.laid.last

theorem Shows.updateEnd (h : l.Shows r (q ++ [a])) (p : Nat) :
    (l.updateEnd p).Shows r (q ++ [{ a with onePastLastPos := p }]) := by
  have hcurrent := h.current
  have hle := h.le
  rw [List.length_append,List.length_singleton] at hle
  rw [List.length_append,List.length_singleton,Nat.add_sub_cancel] at hcurrent
  refine ⟨by simpa [LineIndex.updateEnd] using h.count,by simpa using h.le,
    by simpa [LineIndex.updateEnd] using h.current,by simpa using h.origin,?_⟩
  rw [LineIndex.updateEnd,h.currentRef,hcurrent]
  exact h.laid.setLast (by omega)

private theorem nextSlot_eq (h : l.Shows r q) (hq : q ≠ []) : l.nextSlot = Fin.ofNat max (r + q.length) := by
  have hpos := List.length_pos_iff.mpr hq
  have hmax : 0 < max := Nat.pos_of_neZero max
  have hval : l.current.val = (r + (q.length - 1)) % max := by rw [h.current]; rfl
  have hsum : r + q.length = r + (q.length - 1) + 1 := by omega
  apply Fin.ext
  rw [Fin.val_ofNat,hsum,Nat.add_mod,← hval]
  unfold LineIndex.nextSlot
  split_ifs with hlt
  · have hone : 1 % max = 1 := Nat.mod_eq_of_lt (by omega)
    rw [hone,Nat.mod_eq_of_lt hlt]
  · have hlast : l.current.val + 1 = max := by
      have := l.current.isLt
      omega
    rw [← Nat.add_mod_mod,Nat.mod_mod,Nat.add_mod_mod,hlast,Nat.mod_self]
    rfl

/-- A line feed ends the last line and starts an empty one, and the oldest line goes when the table
is full. -/
theorem Shows.lineFeed (h : l.Shows r (q ++ [a])) (p : Nat) :
    ∃ r', (l.lineFeed p).Shows r'
      ((q ++ [{ a with onePastLastPos := p },.empty p]).drop (q.length + 2 - max)) := by
  have hslot := nextSlot_eq h (by simp)
  have hended := (h.updateEnd p).laid
  have hle := h.le
  have hcount := h.count
  have horigin := h.origin
  rw [List.length_append,List.length_singleton] at hle hcount hslot horigin
  generalize hlast : ({ a with onePastLastPos := p } : LineMeta) = last at hended ⊢
  by_cases hroom : q.length + 1 < max
  · have hr := horigin hroom
    subst hr
    have hval : l.nextSlot.val = q.length + 1 := by
      rw [hslot,Fin.val_ofNat,Nat.zero_add,Nat.mod_eq_of_lt hroom]
    refine ⟨0,?_,?_,?_,fun _ => rfl,?_⟩
    · simp only [LineIndex.lineFeed,hval,← hcount,Nat.le_refl,if_true,List.length_drop,List.length_append,List.length_cons,
        List.length_nil]
      split_ifs <;> omega
    · simp only [List.length_drop,List.length_append,List.length_cons,List.length_nil]
      omega
    · have hidx : q.length + 1 = (q ++ [last,.empty p]).length - (q.length + 2 - max) - 1 := by
        rw [List.length_append,List.length_cons,List.length_singleton]
        omega
      rw [List.length_drop,← hidx]
      exact hslot
    · have hdrop : (q ++ [last,.empty p]).drop (q.length + 2 - max) = (q ++ [last]) ++ [.empty p] := by
        rw [show q.length + 2 - max = 0 by omega,List.drop_zero,List.append_assoc]
        rfl
      rw [hdrop,LineIndex.lineFeed,hslot]
      have hstored := hended.store (a := .empty p) (by rw [List.length_append,List.length_singleton]; exact hroom)
      rw [List.length_append,List.length_singleton] at hstored
      refine hstored.append ?_
      rw [List.length_append,List.length_singleton,Function.update_self]
  · have hfull : q.length + 1 = max := by omega
    obtain ⟨x,rest,hcons⟩ := List.exists_cons_of_ne_nil (show q ++ [last] ≠ [] by simp)
    have hrest : rest.length + 1 = max := by
      have := congrArg List.length hcons
      rw [List.length_append,List.length_singleton,List.length_cons] at this
      omega
    have hdrop : (q ++ [last,.empty p]).drop (q.length + 2 - max) = rest ++ [.empty p] := by
      have happend : q ++ [last,.empty p] = (q ++ [last]) ++ [.empty p] := by
        rw [List.append_assoc]
        rfl
      rw [show q.length + 2 - max = 1 by omega,happend,hcons]
      rfl
    have hbehind : l.nextSlot = Fin.ofNat max (r + 1 + rest.length) := by
      rw [hslot]
      congr 1
      omega
    rw [hdrop]
    refine ⟨r + 1,?_,?_,?_,?_,?_⟩
    · have hlt := l.nextSlot.isLt
      simp only [LineIndex.lineFeed,← hcount,List.length_append,List.length_singleton]
      split_ifs <;> omega
    · rw [List.length_append,List.length_singleton]
      omega
    · rw [LineIndex.lineFeed,hbehind,List.length_append,List.length_singleton,Nat.add_sub_cancel]
    · intro hlt
      rw [List.length_append,List.length_singleton] at hlt
      omega
    · rw [LineIndex.lineFeed,hbehind]
      rw [hcons] at hended
      exact (hended.tail.store (by omega)).append (Function.update_self ..)

theorem clear_shows (pos : Nat) : (clear pos : LineIndex max).Shows 0 [.empty pos] := by
  refine ⟨rfl,Nat.pos_of_neZero max,rfl,fun _ => rfl,?_⟩
  intro i hi
  rw [List.length_singleton] at hi
  obtain rfl : i = 0 := by omega
  rfl

end LineIndex
end MofuOS.Rustspace
