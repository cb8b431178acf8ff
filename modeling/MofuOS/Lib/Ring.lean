import MofuOS.Lib.Steps
import Mathlib.Data.List.Basic
import Mathlib.Data.Nat.ModEq
import Mathlib.Logic.Function.Basic

/-! A bounded queue, known by the answers of its calls, and the layout of a queue in a ring of slots. -/
namespace MofuOS.Lib

/-- How one call to a bounded queue ends. -/
inductive Answer (α : Type) where
  | pushed (a : α)
  | full (a : α)
  | taken (a : α)
  | empty
  deriving DecidableEq, Repr

namespace Answer
variable {α : Type} [DecidableEq α] {capacity : Nat} {as : List (Answer α)} {q q' : List α}

/-- What the call leaves of the queue, if a queue of this capacity can answer so. -/
def apply (capacity : Nat) : Answer α → List α → Option (List α)
  | .pushed a, q => if q.length < capacity then some (q ++ [a]) else none
  | .full _, q => if q.length = capacity then some q else none
  | .taken _, [] => none
  | .taken a, b :: q => if b = a then some q else none
  | .empty, [] => some []
  | .empty, _ :: _ => none

omit [DecidableEq α] in
def pushes (as : List (Answer α)) : List α := as.filterMap fun
  | .pushed a => some a
  | _ => none

omit [DecidableEq α] in
def takes (as : List (Answer α)) : List α := as.filterMap fun
  | .taken a => some a
  | _ => none

/-- What was taken and what is left is what was pushed, in order. -/
theorem pushes_eq (h : steps (apply capacity) as q = some q') : q ++ pushes as = takes as ++ q' := by
  induction as generalizing q with
  | nil =>
    cases h
    simp [pushes,takes]
  | cons a as ih =>
    obtain ⟨q₁,ha,hrest⟩ := steps_cons h
    have hq := ih hrest
    cases a with
    | pushed a =>
      simp only [apply] at ha
      split_ifs at ha
      cases ha
      simpa [pushes,takes] using hq
    | full a =>
      simp only [apply] at ha
      split_ifs at ha
      cases ha
      simpa [pushes,takes] using hq
    | taken a =>
      cases q with
      | nil => cases ha
      | cons b q =>
        simp only [apply] at ha
        split_ifs at ha with hb
        cases ha
        subst hb
        simpa [pushes,takes] using hq
    | empty =>
      cases q with
      | nil =>
        cases ha
        simpa [pushes,takes] using hq
      | cons b q => cases ha

theorem length_pushes (h : steps (apply capacity) as [] = some q) : (pushes as).length = (takes as).length + q.length := by
  have hq := pushes_eq h
  rw [List.nil_append] at hq
  rw [hq,List.length_append]

/-- A call that found the queue full came when as many were left as it holds. -/
theorem length_of_full {post : List (Answer α)} {a : α} (h : steps (apply capacity) (as ++ .full a :: post) [] = some q) :
    (pushes as).length = (takes as).length + capacity := by
  obtain ⟨q₁,has,hrest⟩ := steps_append_cases h
  obtain ⟨q₂,hfull,_⟩ := steps_cons hrest
  simp only [apply] at hfull
  split_ifs at hfull with hlen
  rw [length_pushes has,hlen]

/-- A call that found the queue empty came when everything was taken. -/
theorem takes_of_empty {post : List (Answer α)} (h : steps (apply capacity) (as ++ .empty :: post) [] = some q) :
    takes as = pushes as := by
  obtain ⟨q₁,has,hrest⟩ := steps_append_cases h
  obtain ⟨q₂,hempty,_⟩ := steps_cons hrest
  have hq := pushes_eq has
  cases q₁ with
  | nil => simpa using hq.symm
  | cons b q => cases hempty

end Answer

namespace Ring
variable {α : Type} {n r : Nat} [NeZero n] {slots : Fin n → α} {a : α} {q : List α}

/-- The queue lies in the slots from position r on. -/
def Laid (slots : Fin n → α) (r : Nat) (q : List α) : Prop := ∀ (i : Nat) (h : i < q.length), slots (Fin.ofNat n (r + i)) = q[i]

theorem ofNat_ne {i : Nat} (hi : i < q.length) (hq : q.length < n) : Fin.ofNat n (r + i) ≠ Fin.ofNat n (r + q.length) := by
  intro he
  have hmod : (r + i) % n = (r + q.length) % n := congrArg Fin.val he
  have hcancel : i % n = q.length % n := Nat.ModEq.add_left_cancel' r hmod
  rw [Nat.mod_eq_of_lt (Nat.lt_trans hi hq),Nat.mod_eq_of_lt hq] at hcancel
  exact Nat.ne_of_lt hi hcancel

/-- The slot behind a queue that does not fill the ring is not one of its own. -/
theorem Laid.store (h : Laid slots r q) (hq : q.length < n) :
    Laid (Function.update slots (Fin.ofNat n (r + q.length)) a) r q := by
  intro i hi
  rw [Function.update_of_ne (ofNat_ne hi hq)]
  exact h i hi

theorem Laid.append (h : Laid slots r q) (ha : slots (Fin.ofNat n (r + q.length)) = a) : Laid slots r (q ++ [a]) := by
  intro i hi
  rw [List.length_append,List.length_singleton] at hi
  by_cases hlast : i < q.length
  · rw [List.getElem_append_left hlast]
    exact h i hlast
  · obtain rfl : i = q.length := by omega
    rw [List.getElem_concat_length rfl]
    exact ha

theorem Laid.init (h : Laid slots r (q ++ [a])) : Laid slots r q := by
  intro i hi
  rw [h i (by rw [List.length_append]; omega),List.getElem_append_left hi]

theorem Laid.last (h : Laid slots r (q ++ [a])) : slots (Fin.ofNat n (r + q.length)) = a := by
  rw [h q.length (by rw [List.length_append]; exact Nat.lt_succ_self _)]
  exact List.getElem_concat_length rfl _

/-- The slot of the last one is overwritten. -/
theorem Laid.setLast {b : α} (h : Laid slots r (q ++ [a])) (hq : q.length < n) :
    Laid (Function.update slots (Fin.ofNat n (r + q.length)) b) r (q ++ [b]) :=
  (h.init.store hq).append (Function.update_self ..)

theorem Laid.head (h : Laid slots r (a :: q)) : slots (Fin.ofNat n r) = a := h 0 (Nat.zero_lt_succ _)

theorem Laid.tail (h : Laid slots r (a :: q)) : Laid slots (r + 1) q := by
  intro i hi
  have hs := h (i + 1) (by simpa using hi)
  rw [Nat.add_assoc,Nat.add_comm 1 i]
  simpa using hs

/-- Where a position lies is known by its rest. -/
theorem Laid.modEq {r' : Nat} (h : Laid slots r q) (hr : r' % n = r % n) : Laid slots r' q := by
  intro i hi
  have hpos : Fin.ofNat n (r' + i) = Fin.ofNat n (r + i) := Fin.ext (Nat.ModEq.add_right i hr)
  rw [hpos]
  exact h i hi

theorem Laid.cons (h : Laid slots (r + 1) q) (ha : slots (Fin.ofNat n r) = a) : Laid slots r (a :: q) := by
  intro i hi
  cases i with
  | zero => exact ha
  | succ i =>
    have hs := h i (by simpa using hi)
    rw [Nat.add_assoc,Nat.add_comm 1 i] at hs
    simpa using hs

/-- The slot in front of a queue that does not fill the ring is not one of its own. -/
theorem Laid.storeFront (h : Laid slots (r + 1) q) (hq : q.length < n) :
    Laid (Function.update slots (Fin.ofNat n r) a) r (a :: q) := by
  refine Laid.cons (fun i hi => ?_) (Function.update_self ..)
  have hne : Fin.ofNat n (r + 1 + i) ≠ Fin.ofNat n r := by
    intro he
    have hmod : (r + (1 + i)) % n = (r + 0) % n := by
      rw [← Nat.add_assoc]
      exact congrArg Fin.val he
    have hcancel : (1 + i) % n = 0 % n := Nat.ModEq.add_left_cancel' r hmod
    rw [Nat.mod_eq_of_lt (by omega),Nat.zero_mod] at hcancel
    omega
  rw [Function.update_of_ne hne]
  exact h i hi

end Ring
end MofuOS.Lib
