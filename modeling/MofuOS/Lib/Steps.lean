import Mathlib.Logic.Basic

/-! Runs of a system of interleaved steps. A step that cannot be taken now has no successor state,
and a run may be asked to take its steps only from states that meet a condition. -/
namespace MofuOS.Lib
variable {σ ι : Type}

def steps (step : ι → σ → Option σ) : List ι → σ → Option σ
  | [], s => some s
  | a :: as, s => (step a s).bind (steps step as)

/-- Every step of the run starts from a state that meets c. -/
def stepsMeet (step : ι → σ → Option σ) (c : ι → σ → Prop) : List ι → σ → Prop
  | [], _ => True
  | a :: as, s => c a s ∧ ∀ t, step a s = some t → stepsMeet step c as t

variable {step : ι → σ → Option σ} {c : ι → σ → Prop} {a : ι} {as bs : List ι} {s t u : σ}

theorem steps_cons (h : steps step (a :: as) s = some u) : ∃ t, step a s = some t ∧ steps step as t = some u :=
  Option.bind_eq_some_iff.mp h

theorem steps_append (h : steps step as s = some t) : steps step (as ++ bs) s = steps step bs t := by
  induction as generalizing s with
  | nil =>
    cases h
    rfl
  | cons a as ih =>
    obtain ⟨s',ha,h⟩ := steps_cons h
    rw [List.cons_append,steps,ha,Option.bind_some,ih h]

theorem steps_append_cases (h : steps step (as ++ bs) s = some u) :
    ∃ t, steps step as s = some t ∧ steps step bs t = some u := by
  induction as generalizing s with
  | nil => exact ⟨s,rfl,h⟩
  | cons a as ih =>
    obtain ⟨s',ha,h⟩ := steps_cons h
    obtain ⟨t,ht,hu⟩ := ih h
    exact ⟨t,by rw [steps,ha,Option.bind_some,ht],hu⟩

theorem stepsMeet_of_forall (h : ∀ a ∈ as, ∀ s, c a s) : stepsMeet step c as s := by
  induction as generalizing s with
  | nil => trivial
  | cons a as ih => exact ⟨h a List.mem_cons_self s,fun _ _ => ih fun b hb => h b (List.mem_cons_of_mem _ hb)⟩

theorem stepsMeet_append (ha : stepsMeet step c as s) (hs : ∀ t, steps step as s = some t → stepsMeet step c bs t) :
    stepsMeet step c (as ++ bs) s := by
  induction as generalizing s with
  | nil => exact hs s rfl
  | cons a as ih =>
    refine ⟨ha.1,fun t ht => ih (ha.2 t ht) fun u hu => hs u ?_⟩
    rw [steps,ht,Option.bind_some,hu]

theorem stepsMeet_of_append (h : stepsMeet step c (as ++ bs) s) :
    stepsMeet step c as s ∧ ∀ t, steps step as s = some t → stepsMeet step c bs t := by
  induction as generalizing s with
  | nil =>
    refine ⟨trivial,fun t ht => ?_⟩
    cases ht
    exact h
  | cons a as ih =>
    refine ⟨⟨h.1,fun t ht => (ih (h.2 t ht)).1⟩,fun u hu => ?_⟩
    obtain ⟨t,ht,hu⟩ := steps_cons hu
    exact (ih (h.2 t ht)).2 u hu

/-- The condition evaluated along a run. -/
def stepsCheck (step : ι → σ → Option σ) (test : ι → σ → Bool) : List ι → σ → Bool
  | [], _ => true
  | a :: as, s => test a s && ((step a s).map (stepsCheck step test as)).getD true

theorem stepsMeet_of_check (test : ι → σ → Bool) (htest : ∀ a s, test a s = true → c a s)
    (h : stepsCheck step test as s = true) : stepsMeet step c as s := by
  induction as generalizing s with
  | nil => trivial
  | cons a as ih =>
    rw [stepsCheck,Bool.and_eq_true] at h
    refine ⟨htest a s h.1,fun t ht => ih ?_⟩
    simpa only [ht,Option.map_some,Option.getD_some] using h.2

/-- What every step keeps, from states that meet c, a run keeps. -/
theorem steps_invariant {I : σ → Prop} (hstep : ∀ a s t, c a s → I s → step a s = some t → I t)
    (hc : stepsMeet step c as s) (hs : I s) (h : steps step as s = some t) : I t := by
  induction as generalizing s with
  | nil =>
    cases h
    exact hs
  | cons a as ih =>
    obtain ⟨s',ha,h⟩ := steps_cons h
    exact ih (hc.2 s' ha) (hstep a s s' hc.1 hs ha) h

/-- A run without a condition on its steps. -/
theorem steps_keep {I : σ → Prop} (hstep : ∀ a s t, I s → step a s = some t → I t) (hs : I s)
    (h : steps step as s = some t) : I t :=
  steps_invariant (c := fun _ _ => True) (fun a s t _ => hstep a s t) (stepsMeet_of_forall fun _ _ _ => trivial) hs h

/-- A run goes through when every step does and keeps what the next one needs. -/
theorem steps_total {I : σ → Prop} (hstep : ∀ a s, I s → ∃ t, step a s = some t ∧ I t) (hs : I s) :
    ∃ t, steps step as s = some t ∧ I t := by
  induction as generalizing s with
  | nil => exact ⟨s,rfl,hs⟩
  | cons a as ih =>
    obtain ⟨s',ha,hs'⟩ := hstep a s hs
    obtain ⟨t,ht,hI⟩ := ih hs'
    exact ⟨t,by rw [steps,ha,Option.bind_some,ht],hI⟩

/-- A run shows good states only exactly when its steps meet c, if such steps keep I and any other ends in a state
that is not good. -/
theorem steps_good_iff {I good : σ → Prop} (hgood : ∀ s, I s → good s)
    (hkeep : ∀ a s t, I s → c a s → step a s = some t → I t) (hbad : ∀ a s, I s → ¬ c a s → ∃ t, step a s = some t ∧ ¬ good t)
    (hs : I s) : (∀ bs t, bs <+: as → steps step bs s = some t → good t) ↔ stepsMeet step c as s := by
  induction as generalizing s with
  | nil =>
    refine ⟨fun _ => trivial,fun _ bs t hbs ht => ?_⟩
    rw [List.prefix_nil.mp hbs] at ht
    cases ht
    exact hgood _ hs
  | cons a as ih =>
    constructor
    · intro h
      have hcs : c a s := by
        refine Classical.byContradiction fun hcs => ?_
        obtain ⟨t,ht,hnot⟩ := hbad a s hs hcs
        exact hnot (h [a] t ((List.prefix_cons_inj a).mpr List.nil_prefix) (by rw [steps,ht]; rfl))
      refine ⟨hcs,fun t ht => (ih (hkeep a s t hs hcs ht)).mp fun bs u hbs hu => ?_⟩
      refine h (a :: bs) u ((List.prefix_cons_inj a).mpr hbs) ?_
      rw [steps,ht,Option.bind_some,hu]
    · rintro ⟨hcs,hrest⟩ bs u hbs hu
      cases bs with
      | nil =>
        cases hu
        exact hgood _ hs
      | cons b bs =>
        obtain ⟨rfl,htail⟩ := List.cons_prefix_cons.mp hbs
        obtain ⟨t,ht,hu⟩ := steps_cons hu
        exact (ih (hkeep b s t hs hcs ht)).mpr (hrest t ht) bs u htail hu

/-- A run whose steps keep I exactly when they meet c shows good states only exactly when all of them do. -/
theorem steps_all_iff {I good : σ → Prop} (hgood : ∀ s, I s → good s)
    (hstep : ∀ a s, I s → ∃ t, step a s = some t ∧ (c a s → I t) ∧ (good t → c a s)) (hs : I s) :
    (∀ bs t, bs <+: as → steps step bs s = some t → good t) ↔ stepsMeet step c as s := by
  refine steps_good_iff hgood (fun a s t hs hcs ht => ?_) (fun a s hs hcs => ?_) hs
  · obtain ⟨t',ht',hI,_⟩ := hstep a s hs
    cases ht.symm.trans ht'
    exact hI hcs
  · obtain ⟨t,ht,_,hc⟩ := hstep a s hs
    exact ⟨t,ht,fun hgood => hcs (hc hgood)⟩

/-- A run goes through good states only, to its end, exactly when its steps meet c, if those that do keep I and no
other one is made to a good state. -/
theorem steps_run_iff {I good : σ → Prop} (hgood : ∀ s, I s → good s)
    (hkeep : ∀ a s, I s → c a s → ∃ t, step a s = some t ∧ I t) (hbad : ∀ a s t, I s → step a s = some t → good t → c a s)
    (hs : I s) : (∀ bs, bs <+: as → ∃ t, steps step bs s = some t ∧ good t) ↔ stepsMeet step c as s := by
  induction as generalizing s with
  | nil =>
    refine ⟨fun _ => trivial,fun _ bs hbs => ?_⟩
    rw [List.prefix_nil.mp hbs]
    exact ⟨s,rfl,hgood s hs⟩
  | cons a as ih =>
    constructor
    · intro h
      obtain ⟨t,ht,hgoodt⟩ := h [a] ((List.prefix_cons_inj a).mpr List.nil_prefix)
      obtain ⟨t',ht',hnil⟩ := steps_cons ht
      cases hnil
      have hcs := hbad a s t hs ht' hgoodt
      refine ⟨hcs,fun u hu => ?_⟩
      obtain ⟨u',hu',hI⟩ := hkeep a s hs hcs
      cases hu.symm.trans hu'
      refine (ih hI).mp fun bs hbs => ?_
      obtain ⟨v,hv,hgoodv⟩ := h (a :: bs) ((List.prefix_cons_inj a).mpr hbs)
      obtain ⟨u',hu'',hv⟩ := steps_cons hv
      cases hu.symm.trans hu''
      exact ⟨v,hv,hgoodv⟩
    · rintro ⟨hcs,hrest⟩ bs hbs
      cases bs with
      | nil => exact ⟨s,rfl,hgood s hs⟩
      | cons b bs =>
        obtain ⟨rfl,htail⟩ := List.cons_prefix_cons.mp hbs
        obtain ⟨t,ht,hI⟩ := hkeep b s hs hcs
        obtain ⟨u,hu,hgoodu⟩ := (ih hI).mpr (hrest t ht) bs htail
        exact ⟨u,by rw [steps,ht,Option.bind_some,hu],hgoodu⟩

/-- Every step of a run is fine exactly when all of them meet c, if the steps that do keep I, where being fine is
meeting c. -/
theorem steps_each_iff {I : σ → Prop} {fine : ι → σ → Prop} (hfine : ∀ a s, I s → (fine a s ↔ c a s))
    (hkeep : ∀ a s t, I s → c a s → step a s = some t → I t) (hs : I s) :
    (∀ bs a t, bs ++ [a] <+: as → steps step bs s = some t → fine a t) ↔ stepsMeet step c as s := by
  induction as generalizing s with
  | nil => exact ⟨fun _ => trivial,fun _ bs a t hbs => absurd (List.prefix_nil.mp hbs) (by simp)⟩
  | cons a as ih =>
    constructor
    · intro h
      have hcs : c a s := (hfine a s hs).mp (h [] a s ((List.prefix_cons_inj a).mpr List.nil_prefix) rfl)
      refine ⟨hcs,fun t ht => (ih (hkeep a s t hs hcs ht)).mp fun bs b u hbs hu => ?_⟩
      refine h (a :: bs) b u ((List.prefix_cons_inj a).mpr hbs) ?_
      rw [steps,ht,Option.bind_some,hu]
    · rintro ⟨hcs,hrest⟩ bs b u hbs hu
      cases bs with
      | nil =>
        cases hu
        obtain ⟨rfl,_⟩ := List.cons_prefix_cons.mp hbs
        exact (hfine b s hs).mpr hcs
      | cons a' bs =>
        obtain ⟨rfl,htail⟩ := List.cons_prefix_cons.mp hbs
        obtain ⟨t,ht,hu⟩ := steps_cons hu
        exact (ih (hkeep a' s t hs hcs ht)).mpr (hrest t ht) bs b u htail hu

/-- How many steps of the run start from a state that passes the test. -/
def stepsCount (step : ι → σ → Option σ) (test : ι → σ → Bool) : List ι → σ → Nat
  | [], _ => 0
  | a :: as, s => match step a s with
    | none => 0
    | some t => (test a s).toNat + stepsCount step test as t

theorem stepsCount_append (test : ι → σ → Bool) (h : steps step as s = some t) :
    stepsCount step test (as ++ bs) s = stepsCount step test as s + stepsCount step test bs t := by
  induction as generalizing s with
  | nil =>
    cases h
    exact (Nat.zero_add _).symm
  | cons a as ih =>
    obtain ⟨s',ha,h⟩ := steps_cons h
    simp only [List.cons_append,stepsCount,ha]
    rw [ih h,Nat.add_assoc]

/-- Steps that take from a budget, and steps that pay into it, from states that meet c. -/
theorem stepsCount_le {I : σ → Nat → Prop} {takes pays : ι → σ → Bool} {b : Nat}
    (hstep : ∀ a s t b, c a s → I s b → step a s = some t → ∃ b', I t b' ∧ (takes a s).toNat + b' ≤ b + (pays a s).toNat)
    (hc : stepsMeet step c as s) (hs : I s b) : stepsCount step takes as s ≤ b + stepsCount step pays as s := by
  induction as generalizing s b with
  | nil => exact Nat.zero_le _
  | cons a as ih =>
    rw [stepsCount,stepsCount]
    cases ha : step a s with
    | none => exact Nat.zero_le _
    | some t =>
      obtain ⟨b',ht,hle⟩ := hstep a s t b hc.1 hs ha
      have hrest := ih (hc.2 t ha) ht
      dsimp only
      omega

section Loop
variable (n : Nat) (hloop : steps step as s = some s)
include hloop

theorem stepsMeet_replicate (hc : stepsMeet step c as s) : stepsMeet step c (List.replicate n as).flatten s := by
  induction n with
  | zero => trivial
  | succ n ih =>
    rw [List.replicate_succ,List.flatten_cons]
    refine stepsMeet_append hc fun t ht => ?_
    rw [hloop] at ht
    cases ht
    exact ih

theorem stepsCount_replicate (test : ι → σ → Bool) :
    stepsCount step test (List.replicate n as).flatten s = n * stepsCount step test as s := by
  induction n with
  | zero => exact (Nat.zero_mul _).symm
  | succ n ih => rw [List.replicate_succ,List.flatten_cons,stepsCount_append test hloop,ih,Nat.succ_mul,Nat.add_comm]

end Loop
end MofuOS.Lib
