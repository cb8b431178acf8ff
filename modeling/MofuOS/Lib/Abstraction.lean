import MofuOS.Lib.Prog

/-! Programs seen through an abstraction of their state: what one returns and the view it
leaves depend only on the view it starts from. -/
namespace MofuOS.Lib

/-- A view of the states that are good. -/
structure Abstraction (σ β : Type) where
  good : σ → Prop
  view : σ → β

namespace Abstraction
variable {σ β ε α γ : Type} (A : Abstraction σ β)

/-- From every good state with view v, x returns r in a good state with view w. -/
def Runs (x : Prog σ ε α) (v : β) (r : Except ε α) (w : β) : Prop :=
  ∀ s, A.good s → A.view s = v → ∃ t, x s = .ok (r,t) ∧ A.good t ∧ A.view t = w

namespace Runs
variable {A} {x : Prog σ ε α} {f : α → Prog σ ε γ} {u v w : β} {a : α} {e : ε}

theorem pure (a : α) (v : β) : A.Runs (Pure.pure a : Prog σ ε α) v (.ok a) v :=
  fun s hs hv => ⟨s,rfl,hs,hv⟩

theorem fail (e : ε) (v : β) : A.Runs (Prog.fail e : Prog σ ε α) v (.error e) v :=
  fun s hs hv => ⟨s,rfl,hs,hv⟩

theorem liftO {y : Outcome α} (h : y = .ok a) (v : β) : A.Runs (Prog.liftO y : Prog σ ε α) v (.ok a) v :=
  fun s hs hv => ⟨s,by rw [h]; rfl,hs,hv⟩

theorem bind {r : Except ε γ} (hx : A.Runs x v (.ok a) w) (hf : A.Runs (f a) w r u) : A.Runs (x >>= f) v r u := by
  intro s hs hv
  obtain ⟨t,ht,hgood,hview⟩ := hx s hs hv
  obtain ⟨t',ht',hgood',hview'⟩ := hf t hgood hview
  exact ⟨t',by rw [Prog.run_bind_ok ht,ht'],hgood',hview'⟩

theorem bind_error (hx : A.Runs x v (.error e) w) : A.Runs (x >>= f) v (.error e) w := by
  intro s hs hv
  obtain ⟨t,ht,hgood,hview⟩ := hx s hs hv
  exact ⟨t,Prog.run_bind_error ht,hgood,hview⟩

/-- What a program that runs returned is what it runs to. -/
theorem returns {r r' : Except ε α} {s t : σ} (hx : A.Runs x (A.view s) r w) (hs : A.good s) (h : x s = .ok (r',t)) :
    r' = r ∧ A.good t ∧ A.view t = w := by
  obtain ⟨t',ht',hgood,hview⟩ := hx s hs rfl
  rw [h] at ht'
  cases ht'
  exact ⟨rfl,hgood,hview⟩

end Runs
end Abstraction
end MofuOS.Lib
