import Mathlib.Data.List.Basic
import Mathlib.Tactic.Ring

/-! Fixed-width little-endian numbers. -/
namespace MofuOS.Lib

/-- The w low bytes of n, the least significant one first. -/
def leBytes : Nat → Nat → List UInt8
  | 0, _ => []
  | w + 1, n => UInt8.ofNat n :: leBytes w (n / 256)

def leNat : List UInt8 → Nat
  | [] => 0
  | b :: bs => b.toNat + 256 * leNat bs

@[simp] theorem length_leBytes (w n : Nat) : (leBytes w n).length = w := by
  induction w generalizing n with
  | zero => rfl
  | succ w ih => exact congrArg (· + 1) (ih (n / 256))

theorem leNat_leBytes (w n : Nat) : leNat (leBytes w n) = n % 256^w := by
  induction w generalizing n with
  | zero => exact (Nat.mod_one n).symm
  | succ w ih =>
    have hb : (UInt8.ofNat n).toNat = n % 256 := UInt8.toNat_ofNat' ..
    calc leNat (leBytes (w + 1) n) = n % 256 + 256 * (n / 256 % 256^w) := by rw [leBytes,leNat,ih,hb]
      _ = n % 256^(w + 1) := by rw [pow_succ' 256 w,Nat.mod_mul]

theorem leNat_lt (l : List UInt8) : leNat l < 256^l.length := by
  induction l with
  | nil => exact Nat.one_pos
  | cons b l ih =>
    have hb := b.toNat_lt
    rw [leNat,List.length_cons,pow_succ']
    omega

theorem leNat_leBytes_of_lt {w n : Nat} (h : n < 256^w) : leNat (leBytes w n) = n := by
  rw [leNat_leBytes,Nat.mod_eq_of_lt h]

theorem leBytes_leNat (l : List UInt8) : leBytes l.length (leNat l) = l := by
  induction l with
  | nil => rfl
  | cons b l ih =>
    have hb := b.toNat_lt
    have hdiv : (b.toNat + 256 * leNat l) / 256 = leNat l := by omega
    have hlow : UInt8.ofNat (b.toNat + 256 * leNat l) = b := by
      rw [← UInt8.toNat_inj,UInt8.toNat_ofNat']
      omega
    rw [leNat,List.length_cons,leBytes,hdiv,ih,hlow]

end MofuOS.Lib
