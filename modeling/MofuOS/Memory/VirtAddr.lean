import MofuOS.Lib.Prog
import MofuOS.Memory.UserMem

/-! The virtual addresses of the x86_64 crate. Whatever makes one panics where it would not be canonical. -/
namespace MofuOS.Memory
open Lib

/-- The bits from 47 on are all equal. -/
def Canonical (a : Nat) : Prop := a < 0x0000_8000_0000_0000 ∨ 0xFFFF_8000_0000_0000 ≤ a ∧ a < 0x1_0000_0000_0000_0000

instance (a : Nat) : Decidable (Canonical a) := inferInstanceAs (Decidable (_ ∨ _))

namespace VirtAddr
variable {a n page : Nat}

def new (a : Nat) : Outcome Nat := if Canonical a then .ok a else .error .panic

/-- Neither of them jumps the gap between the halves. -/
def add (a n : Nat) : Outcome Nat := new (a + n)
def sub (a n : Nat) : Outcome Nat := if n ≤ a then new (a - n) else .error .panic

/-- A page range steps to the page behind the one that it yields, the last one of all apart. -/
def stepPage (page : Nat) : Outcome Unit := do
  if (page + 1) * pageSize = 0x1_0000_0000_0000_0000 then .ok ()
  else
    let _ ← add (page * pageSize) pageSize
    .ok ()

theorem new_of_lt (h : a < 0x0000_8000_0000_0000) : new a = .ok a := if_pos (.inl h)

theorem add_of_lt (h : a + n < 0x0000_8000_0000_0000) : add a n = .ok (a + n) := new_of_lt h

theorem sub_of_lt (hle : n ≤ a) (h : a < 0x0000_8000_0000_0000) : sub a n = .ok (a - n) := by
  rw [sub,if_pos hle]
  exact new_of_lt (Nat.lt_of_le_of_lt (Nat.sub_le a n) h)

theorem stepPage_of_lt (h : (page + 1) * pageSize < 0x0000_8000_0000_0000) : stepPage page = .ok () := by
  rw [Nat.add_mul,Nat.one_mul] at h
  rw [stepPage,if_neg (by rw [Nat.add_mul]; omega),add_of_lt h]
  rfl

end VirtAddr
end MofuOS.Memory
