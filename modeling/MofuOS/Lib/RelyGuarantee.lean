import MofuOS.Lib.Steps
import Mathlib.Logic.Function.Basic

/-! Agents that run side by side. Each has a state of its own, they share one, and any of them may move
next. What an agent knows of the shared state must be stable under what the others may do to it. -/
namespace MofuOS.Lib

structure Team {ι : Type} (π : ι → Type) (σ : Type) where
  agents : (a : ι) → π a
  shared : σ

namespace Team
variable {ι ν σ : Type} {π : ι → Type} [DecidableEq ι]

/-- One agent moves, with an input from outside. -/
def step (move : (a : ι) → ν → π a → σ → Option (π a × σ)) (act : ι × ν) (team : Team π σ) : Option (Team π σ) :=
  (move act.1 act.2 (team.agents act.1) team.shared).map fun next => ⟨Function.update team.agents act.1 next.1,next.2⟩

/-- The invariant of the shared state and the assertion of every agent. -/
structure Holds (invariant : σ → Prop) (assertion : (a : ι) → π a → σ → Prop) (team : Team π σ) : Prop where
  shared : invariant team.shared
  agents : ∀ a, assertion a (team.agents a) team.shared

variable {move : (a : ι) → ν → π a → σ → Option (π a × σ)} {invariant : σ → Prop} {assertion : (a : ι) → π a → σ → Prop}
  {rely : ι → σ → σ → Prop} {c : ι × ν → Team π σ → Prop} {team team' : Team π σ}

/-- The move of an agent keeps its own assertion, and the others can rely on it. -/
theorem step_holds (hstable : ∀ a p s s', assertion a p s → rely a s s' → assertion a p s')
    (hmove : ∀ a n team p' s', c (a,n) team → Holds invariant assertion team →
      move a n (team.agents a) team.shared = some (p',s') → invariant s' ∧ assertion a p' s' ∧ ∀ b, b ≠ a → rely b team.shared s')
    {act : ι × ν} (hc : c act team) (h : Holds invariant assertion team) (ht : step move act team = some team') :
    Holds invariant assertion team' := by
  obtain ⟨⟨p',s'⟩,hm,rfl⟩ := Option.map_eq_some_iff.mp ht
  obtain ⟨hinv,hself,hothers⟩ := hmove act.1 act.2 team p' s' hc h hm
  refine ⟨hinv,fun b => ?_⟩
  by_cases hb : b = act.1
  · subst hb
    dsimp only
    rw [Function.update_self]
    exact hself
  · dsimp only
    rw [Function.update_of_ne hb]
    exact hstable b _ _ _ (h.agents b) (hothers b hb)

theorem run_holds (hstable : ∀ a p s s', assertion a p s → rely a s s' → assertion a p s')
    (hmove : ∀ a n team p' s', c (a,n) team → Holds invariant assertion team →
      move a n (team.agents a) team.shared = some (p',s') → invariant s' ∧ assertion a p' s' ∧ ∀ b, b ≠ a → rely b team.shared s')
    {acts : List (ι × ν)} (hc : stepsMeet (step move) c acts team) (h : Holds invariant assertion team)
    (ht : steps (step move) acts team = some team') : Holds invariant assertion team' :=
  steps_invariant (fun _ _ _ hc h ht => step_holds hstable hmove hc h ht) hc h ht

end Team
end MofuOS.Lib
