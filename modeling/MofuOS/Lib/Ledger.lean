import MofuOS.Lib.Steps
import Mathlib.Algebra.Order.Group.Multiset
import Mathlib.Tactic.Abel

/-! Ownership as a ledger: whatever a store was given, it still holds it, has handed it back or has dropped it, once. -/
namespace MofuOS.Lib

/-- A store with all that it was given, has handed back and has dropped so far. -/
structure Ledger (σ T : Type) where
  store : σ
  given : Multiset T
  returned : Multiset T
  dropped : Multiset T

namespace Ledger
variable {σ T ι : Type} (held : σ → Multiset T)

def Balanced (l : Ledger σ T) : Prop := l.given = held l.store + l.returned + l.dropped

instance [DecidableEq T] (l : Ledger σ T) : Decidable (l.Balanced held) := inferInstanceAs (Decidable (_ = _))

def opening (s : σ) : Ledger σ T := ⟨s,0,0,0⟩

/-- The transfer m of one operation is added: its store replaces that of l. -/
def enter (l m : Ledger σ T) : Ledger σ T := ⟨m.store,l.given + m.given,l.returned + m.returned,l.dropped + m.dropped⟩

/-- The transfer m from the store s neither loses anything nor makes two of it. -/
def Conserves (s : σ) (m : Ledger σ T) : Prop := held s + m.given = held m.store + m.returned + m.dropped

def step (op : ι → σ → Option (Ledger σ T)) (a : ι) (l : Ledger σ T) : Option (Ledger σ T) := (op a l.store).map l.enter

/-- The ledger is balanced at every point of the run. -/
def Accounts (op : ι → σ → Option (Ledger σ T)) (as : List ι) (s : σ) : Prop :=
  ∀ bs l, bs <+: as → steps (step op) bs (opening s) = some l → l.Balanced held

variable {held} {l m : Ledger σ T} {s : σ}

theorem opening_balanced (h : held s = 0) : (opening s : Ledger σ T).Balanced held := by
  rw [Balanced,opening,h]
  rfl

/-- A balanced ledger stays so exactly by transfers that conserve. -/
theorem balanced_enter_iff (h : l.Balanced held) : (l.enter m).Balanced held ↔ Conserves held l.store m := by
  rw [Balanced] at h
  rw [Balanced,Conserves,enter,h]
  have hleft : held l.store + l.returned + l.dropped + m.given = (l.returned + l.dropped) + (held l.store + m.given) := by abel
  have hright : held m.store + (l.returned + m.returned) + (l.dropped + m.dropped) =
      (l.returned + l.dropped) + (held m.store + m.returned + m.dropped) := by abel
  rw [hleft,hright,add_right_inj]

/-- A store that was given something and holds nothing has lost it. -/
theorem not_conserves_of_empty {t : σ} {x : T} (h : held t = 0) : ¬ Conserves held s ⟨t,{x},0,0⟩ := by
  intro hcons
  have hcard := congrArg Multiset.card hcons
  rw [h,Multiset.card_add,Multiset.card_singleton] at hcard
  exact Nat.succ_ne_zero _ hcard

/-- A run of operations is balanced throughout exactly when each of them meets c, if those that do conserve, and any other
makes a transfer that does not. -/
theorem accounts_iff {op : ι → σ → Option (Ledger σ T)} {I : σ → Prop} {c : ι → σ → Prop}
    (hkeep : ∀ a s m, I s → c a s → op a s = some m → I m.store ∧ Conserves held s m)
    (hbad : ∀ a s, I s → ¬ c a s → ∃ m, op a s = some m ∧ ¬ Conserves held s m) (hs : I s) (hnone : held s = 0) (as : List ι) :
    Accounts held op as s ↔ stepsMeet (step op) (fun a l => c a l.store) as (opening s) := by
  refine steps_good_iff (I := fun l => I l.store ∧ l.Balanced held) (fun l h => h.2) (fun a l t h hc ht => ?_)
    (fun a l h hc => ?_) ⟨hs,opening_balanced hnone⟩
  · obtain ⟨m,hm,rfl⟩ := Option.map_eq_some_iff.mp ht
    obtain ⟨hI,hcons⟩ := hkeep a l.store m h.1 hc hm
    exact ⟨hI,(balanced_enter_iff h.2).mpr hcons⟩
  · obtain ⟨m,hm,hcons⟩ := hbad a l.store h.1 hc
    exact ⟨l.enter m,by rw [step,hm,Option.map_some],fun hb => hcons ((balanced_enter_iff h.2).mp hb)⟩

end Ledger
end MofuOS.Lib
