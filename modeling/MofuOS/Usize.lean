import MofuOS.Lib.Prog
import Mathlib.Tactic.SplitIfs
import Mathlib.Algebra.Group.Nat.Defs
import Mathlib.Algebra.GroupWithZero.Nat

/-! Machine words of the kernel under the two Cargo profiles it is built with.
The dev profile checks integer overflow and debug assertions, release does neither. -/
namespace MofuOS
open Lib

inductive Profile where
  | dev
  | release
  deriving DecidableEq, Repr

def Profile.checks : Profile → Bool
  | .dev => true
  | .release => false

/-- One past the largest usize of the target. -/
def usizeBound : Nat := 2^64

def usizeMax : Nat := 2^64 - 1

/-- The unchecked addition operator on usize. -/
def usizeAdd (p : Profile) (a b : Nat) : Outcome Nat :=
  if a + b < usizeBound then .ok (a + b)
  else if p.checks then .error .panic
  else .ok ((a + b) % usizeBound)

/-- The unchecked subtraction operator on usize. -/
def usizeSub (p : Profile) (a b : Nat) : Outcome Nat :=
  if b ≤ a then .ok (a - b)
  else if p.checks then .error .panic
  else .ok ((a + usizeBound - b) % usizeBound)

theorem usizeAdd_of_lt (p : Profile) {a b : Nat} (h : a + b < usizeBound) : usizeAdd p a b = .ok (a + b) := if_pos h

theorem usizeAdd_runs {p : Profile} {a b : Nat} (h : p.checks = true → a + b < usizeBound) : ∃ c, usizeAdd p a b = .ok c := by
  unfold usizeAdd
  split_ifs with h1 h2
  · exact ⟨_,rfl⟩
  · exact absurd (h h2) h1
  · exact ⟨_,rfl⟩

/-- A sum that is not below its first operand did not wrap. -/
theorem usizeAdd_of_le {p : Profile} {a b c : Nat} (ha : a < usizeBound) (hb : b < usizeBound)
    (h : usizeAdd p a b = .ok c) (hle : a ≤ c) : c = a + b := by
  unfold usizeAdd at h
  split_ifs at h with h1 h2
  · cases h; rfl
  · cases h
    simp only [usizeBound] at *
    omega

theorem usizeAdd_lt {p : Profile} {a b c : Nat} (h : usizeAdd p a b = .ok c) : c < usizeBound := by
  unfold usizeAdd at h
  split_ifs at h with h1 h2
  · cases h; exact h1
  · cases h
    exact Nat.mod_lt _ (by decide)

theorem usizeAdd_eq_mod {p : Profile} {a b c : Nat} (h : usizeAdd p a b = .ok c) : c = (a + b) % usizeBound := by
  unfold usizeAdd at h
  split_ifs at h with h1 h2
  · cases h
    exact (Nat.mod_eq_of_lt h1).symm
  · cases h
    rfl

/-- A sum that wraps only gets smaller. -/
theorem usizeAdd_le {p : Profile} {a b c : Nat} (h : usizeAdd p a b = .ok c) : c ≤ a + b := by
  unfold usizeAdd at h
  split_ifs at h with h1 h2
  · cases h; exact Nat.le_refl _
  · cases h
    exact Nat.mod_le _ _

/-- With overflow checks a sum that returns has not wrapped. -/
theorem usizeAdd_checked {p : Profile} {a b c : Nat} (h : usizeAdd p a b = .ok c) (hp : p.checks = true) : a + b < usizeBound := by
  unfold usizeAdd at h
  split_ifs at h with h1
  exact h1

theorem usizeAdd_error {p : Profile} {a b : Nat} {f : Fault} (h : usizeAdd p a b = .error f) :
    usizeBound ≤ a + b ∧ p.checks = true := by
  unfold usizeAdd at h
  split_ifs at h with h1 hp
  exact ⟨Nat.not_lt.mp h1,hp⟩

theorem usizeSub_of_le (p : Profile) {a b : Nat} (h : b ≤ a) : usizeSub p a b = .ok (a - b) := if_pos h

/-- A debug assertion: a panic in dev, nothing in release. -/
def debugAssert (p : Profile) (c : Bool) : Outcome Unit :=
  if p.checks && !c then .error .panic else .ok ()

end MofuOS
