import Mathlib.Logic.Basic

/-! State-passing programs that leave a trace of events and may end before their last statement. -/
namespace MofuOS.Lib

def Traced (σ ω ε α : Type) := σ → Except ε α × σ × List ω

namespace Traced
variable {σ ω ε α β : Type}

protected def pure (a : α) : Traced σ ω ε α := fun s => (.ok a,s,[])

protected def bind (x : Traced σ ω ε α) (f : α → Traced σ ω ε β) : Traced σ ω ε β := fun s =>
  match x s with
  | (.ok a,s,w) => ((f a s).1,(f a s).2.1,w ++ (f a s).2.2)
  | (.error e,s,w) => (.error e,s,w)

instance : Monad (Traced σ ω ε) where
  pure := Traced.pure
  bind := Traced.bind

/-- An early return. -/
def stop (e : ε) : Traced σ ω ε α := fun s => (.error e,s,[])
def emit (w : ω) : Traced σ ω ε Unit := fun s => (.ok (),s,[w])
def look (f : σ → α) : Traced σ ω ε α := fun s => (.ok (f s),s,[])
def call (f : σ → α × σ) : Traced σ ω ε α := fun s => (.ok (f s).1,(f s).2,[])
def act (f : σ → σ) : Traced σ ω ε Unit := fun s => (.ok (),f s,[])

def require (b : Bool) (e : ε) : Traced σ ω ε Unit := if b then pure () else stop e

def ofOption (e : ε) : Option α → Traced σ ω ε α
  | some a => pure a
  | none => stop e

/-- From every state the events satisfy P and the result Q. -/
def Gives (P : ω → Prop) (Q : Except ε α → Prop) (x : Traced σ ω ε α) : Prop := ∀ s, (∀ w ∈ (x s).2.2, P w) ∧ Q (x s).1

section Rules
variable {P : ω → Prop} {Q : Except ε α → Prop} {R : Except ε β → Prop} {x : Traced σ ω ε α} {f : α → Traced σ ω ε β} {a : α} {e : ε}

theorem gives_pure (h : Q (.ok a)) : Gives P Q (pure a : Traced σ ω ε α) := fun _ => ⟨nofun,h⟩

theorem gives_stop (h : Q (.error e)) : Gives P Q (stop e : Traced σ ω ε α) := fun _ => ⟨nofun,h⟩

theorem gives_bind (hx : Gives P Q x) (he : ∀ e, Q (.error e) → R (.error e)) (hf : ∀ a, Q (.ok a) → Gives P R (f a)) :
    Gives P R (x >>= f) := by
  intro s
  change (∀ w ∈ (Traced.bind x f s).2.2, P w) ∧ R (Traced.bind x f s).1
  obtain ⟨hw,hq⟩ := hx s
  rw [Traced.bind]
  rcases hxs : x s with ⟨_ | a,t,w⟩ <;> rw [hxs] at hw hq
  · exact ⟨hw,he _ hq⟩
  · obtain ⟨hw',hr⟩ := hf a hq t
    exact ⟨fun v hv => (List.mem_append.mp hv).elim (hw v) (hw' v),hr⟩

theorem gives_emit {w : ω} {Q : Except ε Unit → Prop} (hw : P w) (h : Q (.ok ())) : Gives P Q (emit w : Traced σ ω ε Unit) :=
  fun _ => ⟨fun _ hv => List.mem_singleton.mp hv ▸ hw,h⟩

theorem gives_look {g : σ → α} (h : ∀ a, Q (.ok a)) : Gives P Q (look g : Traced σ ω ε α) := fun _ => ⟨nofun,h _⟩

/-- What comes next, behind a statement that emits nothing and always goes on. -/
theorem gives_look_bind {g : σ → α} (h : ∀ a, Gives P R (f a)) : Gives P R (look g >>= f) :=
  gives_bind (Q := fun r => ∃ a, r = .ok a) (gives_look fun a => ⟨a,rfl⟩) (fun _ he => nomatch he) fun a _ => h a

theorem gives_call_bind {g : σ → α × σ} (h : ∀ a, Gives P R (f a)) : Gives P R (call g >>= f) :=
  gives_bind (Q := fun r => ∃ a, r = .ok a) (fun _ => ⟨nofun,_,rfl⟩) (fun _ he => nomatch he) fun a _ => h a

theorem gives_act_bind {g : σ → σ} {f : Unit → Traced σ ω ε β} (h : Gives P R (f ())) : Gives P R (act g >>= f) :=
  gives_bind (Q := fun r => ∃ a, r = .ok a) (fun _ => ⟨nofun,_,rfl⟩) (fun _ he => nomatch he) fun _ _ => h

theorem gives_emit_bind {w : ω} {f : Unit → Traced σ ω ε β} (hw : P w) (h : Gives P R (f ())) : Gives P R (emit w >>= f) :=
  gives_bind (Q := fun r => ∃ a, r = .ok a) (gives_emit hw ⟨(),rfl⟩) (fun _ he => nomatch he) fun _ _ => h

/-- Behind a check what it checks is known. -/
theorem gives_require_bind {b : Bool} {f : Unit → Traced σ ω ε β} (he : R (.error e)) (h : b = true → Gives P R (f ())) :
    Gives P R (require b e >>= f) := by
  cases b with
  | true => exact gives_bind (Q := fun r => ∃ a, r = .ok a) (gives_pure ⟨(),rfl⟩) (fun _ he => nomatch he) fun _ _ => h rfl
  | false => exact gives_bind (Q := fun r => r = .error e) (gives_stop rfl) (fun _ h => by cases h; exact he) fun _ h => nomatch h

theorem gives_ofOption_bind {o : Option α} (he : R (.error e)) (h : ∀ a, o = some a → Gives P R (f a)) :
    Gives P R (ofOption e o >>= f) := by
  cases o with
  | some a => exact gives_bind (Q := fun r => r = .ok a) (gives_pure rfl) (fun _ he => nomatch he) fun b hb => by cases hb; exact h a rfl
  | none => exact gives_bind (Q := fun r => r = .error e) (gives_stop rfl) (fun _ h => by cases h; exact he) fun _ h => nomatch h

end Rules

theorem require_true_bind (e : ε) (f : Unit → Traced σ ω ε α) : (require true e >>= f) = f () := rfl

/-- The first event is in the trace, whatever comes next. -/
theorem mem_emit_bind (w : ω) (f : Unit → Traced σ ω ε α) (s : σ) : w ∈ ((emit w >>= f) s).2.2 :=
  List.mem_append_left _ List.mem_cons_self

theorem mem_emit_bind_of_mem {v w : ω} {f : Unit → Traced σ ω ε α} {s : σ} (h : v ∈ (f () s).2.2) : v ∈ ((emit w >>= f) s).2.2 :=
  List.mem_append_right _ h

end Traced
end MofuOS.Lib
