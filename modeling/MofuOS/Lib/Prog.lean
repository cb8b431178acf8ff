import Mathlib.Logic.Basic

/-! State-passing programs that may return an error, abort or fail to end.
An error keeps the state it was raised in; a fault leaves no state at all. -/
namespace MofuOS.Lib

/-- Why a call never returns: a panic aborts it, a divergence keeps it running. -/
inductive Fault where
  | panic
  | diverge
  deriving DecidableEq, Repr

abbrev Outcome := Except Fault

section Excepts
variable {ε α β : Type}

@[simp] theorem ok_bind (a : α) (f : α → Except ε β) : ((.ok a : Except ε α) >>= f) = f a := rfl
@[simp] theorem error_bind (e : ε) (f : α → Except ε β) : ((.error e : Except ε α) >>= f) = .error e := rfl

theorem bind_eq_ok {x : Except ε α} {f : α → Except ε β} {b : β} (h : (x >>= f) = .ok b) : ∃ a, x = .ok a ∧ f a = .ok b := by
  cases x with
  | ok a => exact ⟨a,rfl,h⟩
  | error e => cases h

theorem of_toOption {x : Except ε α} {a : α} (h : x.toOption = some a) : x = .ok a := by
  cases x with
  | error e => cases h
  | ok b =>
    cases h
    rfl

end Excepts

/-- A program over state σ that returns a value, returns an error, or faults. -/
def Prog (σ ε α : Type) := σ → Outcome (Except ε α × σ)

namespace Prog
variable {σ ε α β γ : Type}

protected def pure (a : α) : Prog σ ε α := fun s => .ok (.ok a, s)

/-- An error of the first program is returned from the state it left behind. -/
protected def bind (x : Prog σ ε α) (f : α → Prog σ ε β) : Prog σ ε β := fun s =>
  match x s with
  | .ok (.ok a, s') => f a s'
  | .ok (.error e, s') => .ok (.error e, s')
  | .error w => .error w

instance : Monad (Prog σ ε) where
  pure := Prog.pure
  bind := Prog.bind

def fail (e : ε) : Prog σ ε α := fun s => .ok (.error e, s)
def fault (w : Fault) : Prog σ ε α := fun _ => .error w
def get : Prog σ ε σ := fun s => .ok (.ok s, s)
def set (s : σ) : Prog σ ε Unit := fun _ => .ok (.ok (), s)
def modify (f : σ → σ) : Prog σ ε Unit := fun s => .ok (.ok (), f s)

/-- Run a program and hand its result to the caller, whether or not it is an error. -/
def attempt (x : Prog σ ε α) : Prog σ ε (Except ε α) := fun s =>
  match x s with
  | .ok (r, s') => .ok (.ok r, s')
  | .error w => .error w

/-- A computation that touches no state and returns no error. -/
def liftO (x : Outcome α) : Prog σ ε α := fun s =>
  match x with
  | .ok a => .ok (.ok a,s)
  | .error w => .error w

theorem bind_def (x : Prog σ ε α) (f : α → Prog σ ε β) : (x >>= f) = Prog.bind x f := rfl

@[simp] theorem run_pure (a : α) (s : σ) : (pure a : Prog σ ε α) s = .ok (.ok a, s) := rfl
@[simp] theorem run_fail (e : ε) (s : σ) : (fail e : Prog σ ε α) s = .ok (.error e, s) := rfl
@[simp] theorem run_fault (w : Fault) (s : σ) : (fault w : Prog σ ε α) s = .error w := rfl
@[simp] theorem run_get (s : σ) : (get : Prog σ ε σ) s = .ok (.ok s, s) := rfl
@[simp] theorem run_set (t s : σ) : (set t : Prog σ ε Unit) s = .ok (.ok (), t) := rfl
@[simp] theorem run_modify (f : σ → σ) (s : σ) : (modify f : Prog σ ε Unit) s = .ok (.ok (), f s) := rfl
@[simp] theorem run_liftO_ok (a : α) (s : σ) : (liftO (.ok a) : Prog σ ε α) s = .ok (.ok a, s) := rfl

@[simp] theorem run_pure_bind (a : α) (f : α → Prog σ ε β) (s : σ) :
    ((pure a : Prog σ ε α) >>= f) s = f a s := rfl
@[simp] theorem run_get_bind (f : σ → Prog σ ε β) (s : σ) : (get >>= f) s = f s s := rfl
@[simp] theorem run_set_bind (t : σ) (f : Unit → Prog σ ε β) (s : σ) : (set t >>= f) s = f () t := rfl
@[simp] theorem run_modify_bind (g : σ → σ) (f : Unit → Prog σ ε β) (s : σ) :
    (modify g >>= f) s = f () (g s) := rfl
@[simp] theorem run_liftO_ok_bind (a : α) (f : α → Prog σ ε β) (s : σ) :
    (liftO (.ok a) >>= f) s = f a s := rfl

theorem liftO_returns {x : Outcome α} {s t : σ} {r : Except ε α} (h : liftO x s = .ok (r,t)) :
    ∃ a, x = .ok a ∧ r = .ok a ∧ t = s := by
  cases x with
  | ok a => cases h; exact ⟨a,rfl,rfl,rfl⟩
  | error w => cases h

theorem liftO_bind_returns {x : Outcome α} {f : α → Prog σ ε β} {s t : σ} {r : Except ε β}
    (h : (liftO x >>= f) s = .ok (r,t)) : ∃ a, x = .ok a ∧ f a s = .ok (r,t) := by
  cases x with
  | ok a => exact ⟨a,rfl,h⟩
  | error w => cases h

/-- The first program returned a value: the second one runs from there. -/
theorem run_bind_ok {x : Prog σ ε α} {f : α → Prog σ ε β} {s s' : σ} {a : α}
    (h : x s = .ok (.ok a, s')) : (x >>= f) s = f a s' := by
  simp [bind_def, Prog.bind, h]

theorem run_bind_error {x : Prog σ ε α} {f : α → Prog σ ε β} {s s' : σ} {e : ε}
    (h : x s = .ok (.error e, s')) : (x >>= f) s = .ok (.error e, s') := by
  simp [bind_def, Prog.bind, h]

theorem run_bind_fault {x : Prog σ ε α} {f : α → Prog σ ε β} {s : σ} {w : Fault}
    (h : x s = .error w) : (x >>= f) s = .error w := by
  simp [bind_def, Prog.bind, h]

/-- Inversion of a sequence that returned: either its first part failed with
that very error, or both parts returned. -/
theorem bind_returns {x : Prog σ ε α} {f : α → Prog σ ε β} {s t : σ} {r : Except ε β}
    (h : (x >>= f) s = .ok (r, t)) :
    (∃ e, x s = .ok (.error e, t) ∧ r = .error e) ∨
      ∃ a s', x s = .ok (.ok a, s') ∧ f a s' = .ok (r, t) := by
  rw [bind_def, Prog.bind] at h
  split at h
  · exact .inr ⟨_,_,‹_›,h⟩
  · cases h
    exact .inl ⟨_,‹_›,rfl⟩
  · cases h

/-- A sequence returns a value only when both of its parts do. -/
theorem bind_returns_ok {x : Prog σ ε α} {f : α → Prog σ ε β} {s t : σ} {b : β}
    (h : (x >>= f) s = .ok (.ok b, t)) :
    ∃ a s', x s = .ok (.ok a, s') ∧ f a s' = .ok (.ok b, t) := by
  obtain ⟨e,_,he⟩ | hr := bind_returns h
  · cases he
  · exact hr

/-- A program whose result is only repackaged. -/
theorem map_returns {x : Prog σ ε α} {g : α → β} {s t : σ} {r : Except ε β}
    (h : (x >>= fun a => pure (g a)) s = .ok (r, t)) : ∃ r', x s = .ok (r', t) ∧ r = r'.map g := by
  obtain ⟨e,he,rfl⟩ | ⟨a,s',ha,h⟩ := bind_returns h
  · exact ⟨_,he,rfl⟩
  · cases h
    exact ⟨_,ha,rfl⟩

theorem attempt_returns {x : Prog σ ε α} {s t : σ} {r : Except ε (Except ε α)}
    (h : attempt x s = .ok (r, t)) : ∃ r', r = .ok r' ∧ x s = .ok (r', t) := by
  rw [attempt] at h
  split at h
  · cases h
    exact ⟨_,rfl,‹_›⟩
  · cases h

/-- The program leaves the state as it is, whatever it returns. -/
def ReadOnly (x : Prog σ ε α) : Prop := ∀ s t r, x s = .ok (r,t) → t = s

namespace ReadOnly
variable {x : Prog σ ε α} {f : α → Prog σ ε β}

theorem pure (a : α) : ReadOnly (Pure.pure a : Prog σ ε α) := by
  intro s t r h
  cases h
  rfl

theorem fail (e : ε) : ReadOnly (Prog.fail e : Prog σ ε α) := by
  intro s t r h
  cases h
  rfl

theorem fault (w : Fault) : ReadOnly (Prog.fault w : Prog σ ε α) := by
  intro s t r h
  cases h

theorem liftO (y : Outcome α) : ReadOnly (Prog.liftO y : Prog σ ε α) := by
  intro s t r h
  obtain ⟨a,-,-,rfl⟩ := liftO_returns h
  rfl

theorem bind (hx : ReadOnly x) (hf : ∀ a, ReadOnly (f a)) : ReadOnly (x >>= f) := by
  intro s t r h
  obtain ⟨e,he,-⟩ | ⟨a,s',ha,h⟩ := bind_returns h
  · exact hx _ _ _ he
  · exact (hf a _ _ _ h).trans (hx _ _ _ ha)

end ReadOnly

/-- The program returns from state s: it neither panics nor goes on for ever. -/
def Returns (x : Prog σ ε α) (s : σ) : Prop := ∃ r t, x s = .ok (r,t)

/-- The program returns from every state. -/
def Total (x : Prog σ ε α) : Prop := ∀ s, x.Returns s

theorem Returns.first {x : Prog σ ε α} {f : α → Prog σ ε β} {s : σ} (h : (x >>= f).Returns s) : x.Returns s := by
  obtain ⟨r,t,h⟩ := h
  obtain ⟨e,he,-⟩ | ⟨a,s',ha,-⟩ := bind_returns h
  · exact ⟨_,_,he⟩
  · exact ⟨_,_,ha⟩

theorem Returns.bind {x : Prog σ ε α} {f : α → Prog σ ε β} {s : σ} (hx : x.Returns s) (hf : ∀ a, (f a).Total) :
    (x >>= f).Returns s := by
  obtain ⟨r,t,h⟩ := hx
  cases r with
  | ok a =>
    obtain ⟨r',t',h'⟩ := hf a t
    exact ⟨r',t',by rw [run_bind_ok h,h']⟩
  | error e => exact ⟨_,t,run_bind_error h⟩

theorem not_returns_fault (w : Fault) (s : σ) : ¬ (fault w : Prog σ ε α).Returns s := by
  rintro ⟨r,t,h⟩
  cases h

namespace Total
variable {x : Prog σ ε α} {f : α → Prog σ ε β}

theorem pure (a : α) : Total (Pure.pure a : Prog σ ε α) := fun s => ⟨_,s,rfl⟩

theorem fail (e : ε) : Total (Prog.fail e : Prog σ ε α) := fun s => ⟨_,s,rfl⟩

theorem bind (hx : Total x) (hf : ∀ a, Total (f a)) : Total (x >>= f) := fun s => (hx s).bind hf

end Total

end Prog
end MofuOS.Lib
