import MofuOS.Lib.Prog

/-! Runs of a system that answers one operation after the other, and the rule that carries an
invariant through them. -/
namespace MofuOS.Lib
variable {σ ε ι α : Type}

/-- The answer to every operation, and the state they leave. A fault ends the run. -/
def runAll (exec : ι → Prog σ ε α) : List ι → σ → Outcome (List (Except ε α) × σ)
  | [], s => .ok ([],s)
  | op :: ops, s => do
    let (r,t) ← exec op s
    let (rs,u) ← runAll exec ops t
    .ok (r :: rs,u)

/-- Every operation of the run starts from a state that meets c. -/
def meets (exec : ι → Prog σ ε α) (c : ι → σ → Bool) : List ι → σ → Bool
  | [], _ => true
  | op :: ops, s => c op s && match exec op s with
    | .ok (_,t) => meets exec c ops t
    | .error _ => true

variable {exec : ι → Prog σ ε α} {c : ι → σ → Bool} {op : ι} {ops : List ι} {s t u : σ}

theorem runAll_cons {rs : List (Except ε α)} (h : runAll exec (op :: ops) s = .ok (rs,u)) :
    ∃ r t rs', exec op s = .ok (r,t) ∧ runAll exec ops t = .ok (rs',u) ∧ rs = r :: rs' := by
  obtain ⟨⟨r,t⟩,hop,h⟩ := bind_eq_ok h
  obtain ⟨⟨rs',u'⟩,hops,h⟩ := bind_eq_ok h
  cases h
  exact ⟨r,t,rs',hop,hops,rfl⟩

theorem meets_cons {r : Except ε α} (h : meets exec c (op :: ops) s = true) (hop : exec op s = .ok (r,t)) :
    c op s = true ∧ meets exec c ops t = true := by
  simpa only [meets,hop,Bool.and_eq_true] using h

theorem meets_of_forall (h : ∀ op ∈ ops, ∀ s, c op s = true) : meets exec c ops s = true := by
  induction ops generalizing s with
  | nil => rfl
  | cons op ops ih =>
    rw [meets,h op List.mem_cons_self s,Bool.true_and]
    cases exec op s with
    | error w => rfl
    | ok x => exact ih fun op hop => h op (List.mem_cons_of_mem _ hop)

/-- A run that was evaluated far enough to be seen did return. -/
theorem runAll_of_view {β : Type} {v : List (Except ε α) × σ → β} {b : β}
    (h : (runAll exec ops s).toOption.map v = some b) : ∃ rs t, runAll exec ops s = .ok (rs,t) ∧ v (rs,t) = b := by
  cases hrun : runAll exec ops s with
  | error w =>
    rw [hrun] at h
    cases h
  | ok x =>
    rw [hrun] at h
    exact ⟨x.1,x.2,rfl,Option.some.inj h⟩

/-- What every operation keeps, from states that meet c, a run keeps. -/
theorem runAll_invariant {I : σ → Prop} (step : ∀ {op s r t}, c op s = true → I s → exec op s = .ok (r,t) → I t)
    {rs : List (Except ε α)} (hc : meets exec c ops s = true) (hs : I s) (h : runAll exec ops s = .ok (rs,t)) : I t := by
  induction ops generalizing s rs with
  | nil =>
    cases h
    exact hs
  | cons op ops ih =>
    obtain ⟨r,s',rs',hop,hops,_⟩ := runAll_cons h
    obtain ⟨hcs,hct⟩ := meets_cons hc hop
    exact ih hct (step hcs hs hop) hops

/-- A run whose every operation returns and keeps I returns as well. -/
theorem runAll_total {I : σ → Prop} (step : ∀ {op s}, c op s = true → I s → ∃ r t, exec op s = .ok (r,t) ∧ I t)
    (hc : meets exec c ops s = true) (hs : I s) : ∃ rs t, runAll exec ops s = .ok (rs,t) ∧ I t := by
  induction ops generalizing s with
  | nil => exact ⟨[],s,rfl,hs⟩
  | cons op ops ih =>
    have hop : c op s = true := by
      rw [meets,Bool.and_eq_true] at hc
      exact hc.1
    obtain ⟨r,t,hx,ht⟩ := step hop hs
    obtain ⟨rs,u,hops,hu⟩ := ih (meets_cons hc hx).2 ht
    refine ⟨r :: rs,u,?_,hu⟩
    simp only [runAll,hx,ok_bind,hops]

end MofuOS.Lib
