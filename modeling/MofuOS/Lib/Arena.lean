import MofuOS.Lib.Buffer
import Mathlib.Algebra.BigOperators.Group.List.Basic
import Mathlib.Logic.Function.Basic
import Mathlib.Algebra.GroupWithZero.Nat

/-! An arena: one block of cells shared by named regions that are placed at a rising
top, and packed to the front again when space runs out. -/
namespace MofuOS.Lib

structure Region where
  off : Nat
  len : Nat
  deriving DecidableEq, Repr

namespace Region

def stop (r : Region) : Nat := r.off + r.len

/-- No cell belongs to both regions. -/
def Apart (r r' : Region) : Prop := r.len = 0 ∨ r'.len = 0 ∨ r.stop ≤ r'.off ∨ r'.stop ≤ r.off

instance (r r' : Region) : Decidable (r.Apart r') := inferInstanceAs (Decidable (_ ∨ _))

/-- The region r ends before r' starts, unless one of them is empty. -/
def Before (r r' : Region) : Prop := r.len = 0 ∨ r'.len = 0 ∨ r.stop ≤ r'.off

theorem Apart.symm {r r' : Region} (h : r.Apart r') : r'.Apart r := by
  unfold Apart at *
  omega

/-- Two regions that share no cell lie in the order of their offsets. -/
theorem Apart.before {r r' : Region} (h : r.Apart r') (hle : r.off ≤ r'.off) : r.Before r' := by
  unfold Apart stop at h
  unfold Before stop
  omega

end Region

structure Arena (K α : Type) where
  cells : List α
  top : Nat
  region : K → Option Region

namespace Arena
variable {K α : Type} {A : Arena K α} {k k' : K} {r : Region}

/-- What a key holds: the cells of its region. -/
def content (A : Arena K α) (k : K) : Option (List α) := (A.region k).map fun r => slice A.cells r.off r.len

structure Bounded (A : Arena K α) : Prop where
  top_le : A.top ≤ A.cells.length
  stop_le : ∀ {k r}, A.region k = some r → r.stop ≤ A.top

def Apart (A : Arena K α) : Prop :=
  ∀ {k k' r r'}, k ≠ k' → A.region k = some r → A.region k' = some r' → r.Apart r'

theorem content_eq (h : A.region k = some r) : A.content k = some (slice A.cells r.off r.len) := by
  rw [content,h,Option.map_some]

theorem Bounded.length_slice (hb : A.Bounded) (h : A.region k = some r) :
    (slice A.cells r.off r.len).length = r.len :=
  MofuOS.Lib.length_slice (Nat.le_trans (hb.stop_le h) hb.top_le)

/-- Overwrite cells in place. -/
def store (A : Arena K α) (o : Nat) (d : List α) : Arena K α := { A with cells := overwrite A.cells o d }

def raise (A : Arena K α) (n : Nat) : Arena K α := { A with top := A.top + n }

@[simp] theorem store_top (o : Nat) (d : List α) : (A.store o d).top = A.top := rfl
@[simp] theorem store_region (o : Nat) (d : List α) : (A.store o d).region = A.region := rfl
@[simp] theorem store_cells (o : Nat) (d : List α) : (A.store o d).cells = overwrite A.cells o d := rfl
@[simp] theorem raise_top (n : Nat) : (A.raise n).top = A.top + n := rfl
@[simp] theorem raise_region (n : Nat) : (A.raise n).region = A.region := rfl
@[simp] theorem raise_cells (n : Nat) : (A.raise n).cells = A.cells := rfl

theorem Bounded.store (hb : A.Bounded) {o : Nat} {d : List α} (h : o + d.length ≤ A.cells.length) :
    (A.store o d).Bounded where
  top_le := by
    rw [store_cells,length_overwrite h]
    exact hb.top_le
  stop_le hr := hb.stop_le hr

theorem Bounded.raise (hb : A.Bounded) {n : Nat} (h : A.top + n ≤ A.cells.length) : (A.raise n).Bounded where
  top_le := h
  stop_le hr := Nat.le_add_right_of_le (hb.stop_le hr)

/-- A write that misses a region leaves its content alone. -/
theorem content_store_of_disjoint {o : Nat} {d : List α} (ho : o ≤ A.cells.length)
    (h : ∀ r, A.region k = some r → r.len = 0 ∨ r.stop ≤ o ∨ o + d.length ≤ r.off) :
    (A.store o d).content k = A.content k := by
  cases hr : A.region k with
  | none => simp [content,hr]
  | some r =>
    rw [content_eq hr,content_eq (A := A.store o d) hr,store_cells]
    obtain h0 | hd := h r hr
    · simp [h0,slice]
    · rw [slice_overwrite_of_disjoint ho hd]

/-- Writing above the top changes no content. -/
theorem Bounded.content_store (hb : A.Bounded) {o : Nat} {d : List α} (ho : A.top ≤ o) (hl : o ≤ A.cells.length) :
    (A.store o d).content k = A.content k :=
  content_store_of_disjoint hl fun _ hr => .inr (.inl (Nat.le_trans (hb.stop_le hr) ho))

/-- A region at or above the old top meets no other one. -/
theorem Bounded.apart_of_top_le (hb : A.Bounded) {r' : Region} (h : A.top ≤ r.off) (hr : A.region k' = some r') :
    r.Apart r' :=
  .inr (.inr (.inr (Nat.le_trans (hb.stop_le hr) h)))

section Update
variable [DecidableEq K]

def free (A : Arena K α) (k : K) : Arena K α := { A with region := Function.update A.region k none }

/-- Give a key a region, whatever it had. -/
def assign (A : Arena K α) (k : K) (r : Region) : Arena K α :=
  { A with region := Function.update A.region k (some r) }

@[simp] theorem free_top : (A.free k).top = A.top := rfl
@[simp] theorem free_cells : (A.free k).cells = A.cells := rfl
@[simp] theorem assign_top : (A.assign k r).top = A.top := rfl
@[simp] theorem assign_cells : (A.assign k r).cells = A.cells := rfl
@[simp] theorem assign_region_self : (A.assign k r).region k = some r := Function.update_self ..
@[simp] theorem free_region_self : (A.free k).region k = none := Function.update_self ..

theorem assign_region_of_ne (h : k' ≠ k) : (A.assign k r).region k' = A.region k' :=
  Function.update_of_ne h ..

theorem free_region_of_ne (h : k' ≠ k) : (A.free k).region k' = A.region k' := Function.update_of_ne h ..

theorem content_assign_of_ne (h : k' ≠ k) : (A.assign k r).content k' = A.content k' := by
  rw [content,assign_region_of_ne h]
  rfl

theorem content_free_of_ne (h : k' ≠ k) : (A.free k).content k' = A.content k' := by
  rw [content,free_region_of_ne h]
  rfl

theorem Bounded.free (hb : A.Bounded) : (A.free k).Bounded where
  top_le := hb.top_le
  stop_le {k' r'} hr := by
    by_cases hk : k' = k
    · rw [hk,free_region_self] at hr
      cases hr
    · exact hb.stop_le ((free_region_of_ne hk).symm.trans hr)

theorem Apart.free (ha : A.Apart) : (A.free k).Apart := by
  intro i j ri rj hij hi hj
  by_cases hik : i = k
  · rw [hik,free_region_self] at hi
    cases hi
  · by_cases hjk : j = k
    · rw [hjk,free_region_self] at hj
      cases hj
    · exact ha hij ((free_region_of_ne hik).symm.trans hi) ((free_region_of_ne hjk).symm.trans hj)

theorem Bounded.assign (hb : A.Bounded) (h : r.stop ≤ A.top) : (A.assign k r).Bounded where
  top_le := hb.top_le
  stop_le {k' r'} hr := by
    by_cases hk : k' = k
    · rw [hk,assign_region_self] at hr
      cases hr
      exact h
    · exact hb.stop_le ((assign_region_of_ne hk).symm.trans hr)

theorem Apart.assign (ha : A.Apart) (h : ∀ {k' r'}, k' ≠ k → A.region k' = some r' → r.Apart r') :
    (A.assign k r).Apart := by
  intro i j ri rj hij hi hj
  by_cases hik : i = k
  · subst hik
    rw [assign_region_self] at hi
    cases hi
    exact h hij.symm ((assign_region_of_ne hij.symm).symm.trans hj)
  · rw [assign_region_of_ne hik] at hi
    by_cases hjk : j = k
    · subst hjk
      rw [assign_region_self] at hj
      cases hj
      exact (h hik hi).symm
    · exact ha hij hi ((assign_region_of_ne hjk).symm.trans hj)

end Update
end Arena
end MofuOS.Lib
