import MofuOS.Usize
import Mathlib.Data.Int.Basic
import Mathlib.Algebra.Group.Int.Defs

/-! The operators of Rust on integers of a given width, from the exact result of an operation. A result
that does not fit panics where overflow is checked, and wraps around where it is not. -/
namespace MofuOS
open Lib
variable {p : Profile} {bits n m : Nat} {z : Int}

/-- An operation on unsigned words. -/
def unsigned (p : Profile) (bits : Nat) (z : Int) : Outcome Nat :=
  if 0 ≤ z ∧ z < 2^bits then .ok z.toNat
  else if p.checks then .error .panic
  else .ok (z % 2^bits).toNat

/-- An operation on i32. -/
def signed32 (p : Profile) (z : Int) : Outcome Int :=
  if -2^31 ≤ z ∧ z < 2^31 then .ok z
  else if p.checks then .error .panic
  else .ok (z.bmod (2^32))

/-- The cast of an integer to u32, and that of a word to i32. -/
def asU32 (z : Int) : Nat := (z % 2^32).toNat
def asI32 (n : Nat) : Int := (n : Int).bmod (2^32)

theorem unsigned_of_lt (h : n < 2^bits) : unsigned p bits n = .ok n := by
  rw [unsigned,if_pos ⟨Int.natCast_nonneg n,by exact_mod_cast h⟩,Int.toNat_natCast]

theorem unsigned_add (h : n + m < 2^bits) : unsigned p bits (n + m) = .ok (n + m) := by
  rw [← Int.natCast_add]
  exact unsigned_of_lt h

theorem unsigned_mul (h : n * m < 2^bits) : unsigned p bits (n * m) = .ok (n * m) := by
  rw [← Int.natCast_mul]
  exact unsigned_of_lt h

theorem unsigned_sub (hle : m ≤ n) (hn : n < 2^bits) : unsigned p bits (n - m) = .ok (n - m) := by
  rw [← Int.natCast_sub hle]
  exact unsigned_of_lt (Nat.lt_of_le_of_lt (Nat.sub_le n m) hn)

/-- A result that is not negative. -/
theorem unsigned_natCast : unsigned p bits n = if p.checks = true ∧ 2^bits ≤ n then .error .panic else .ok (n % 2^bits) := by
  obtain hlt | hge := Nat.lt_or_ge n (2^bits)
  · rw [unsigned_of_lt hlt,if_neg fun h => Nat.not_lt.mpr h.2 hlt,Nat.mod_eq_of_lt hlt]
  · have hout : ¬ (0 ≤ (n : Int) ∧ (n : Int) < 2^bits) := fun h => Nat.not_lt.mpr hge (by exact_mod_cast h.2)
    have hmod : ((n : Int) % 2^bits).toNat = n % 2^bits := by
      rw [← Int.toNat_natCast (n % 2^bits)]
      push_cast
      rfl
    rw [unsigned,if_neg hout,hmod]
    cases p.checks <;> simp [hge]

theorem unsigned_dev (h : unsigned .dev bits z = .ok n) : z = n ∧ n < 2^bits := by
  unfold unsigned at h
  split_ifs at h with hfit hchecks
  · cases h
    have hlt : (z.toNat : Int) < (2^bits : Nat) := by
      rw [Int.toNat_of_nonneg hfit.1]
      exact_mod_cast hfit.2
    exact ⟨(Int.toNat_of_nonneg hfit.1).symm,Int.ofNat_lt.mp hlt⟩
  · exact absurd rfl hchecks

theorem signed32_of_fits (h : -2^31 ≤ z ∧ z < 2^31) : signed32 p z = .ok z := if_pos h

theorem signed32_dev {y : Int} (h : signed32 .dev z = .ok y) : y = z ∧ -2^31 ≤ z ∧ z < 2^31 := by
  unfold signed32 at h
  split_ifs at h with hfit hchecks
  · cases h
    exact ⟨rfl,hfit⟩
  · exact absurd rfl hchecks

theorem asU32_of_lt (h : n < 2^32) : asU32 n = n := by
  rw [asU32,Int.emod_eq_of_lt (Int.natCast_nonneg n) (by exact_mod_cast h),Int.toNat_natCast]

theorem asI32_of_lt (h : n < 2^31) : asI32 n = n := by
  unfold asI32
  rw [Int.bmod_def]
  omega

end MofuOS
