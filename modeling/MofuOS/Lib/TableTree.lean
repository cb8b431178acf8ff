import Mathlib.Data.List.Induction

/-! Tables in a store whose entries may point to tables of the next level. Where no table is reached on two ways they
form a tree. -/
namespace MofuOS.Lib
variable {A I : Type} {child child' : A → I → Option A} {a b c : A} {i j : I} {n : Nat} {path p q rest : List I}

def descend (child : A → I → Option A) : A → List I → Option A
  | a,[] => some a
  | a,i :: path => (child a i).bind (descend child · path)

/-- No table is reached on two ways of at most n steps. -/
def Unshared (child : A → I → Option A) (n : Nat) (a : A) : Prop :=
  ∀ p q b, p.length ≤ n → q.length ≤ n → descend child a p = some b → descend child a q = some b → p = q

theorem descend_cons (h : child a i = some b) : descend child a (i :: path) = descend child b path := by
  rw [descend,h]
  rfl

theorem descend_cons_eq_some (h : descend child a (i :: path) = some c) : ∃ b, child a i = some b ∧ descend child b path = some c :=
  Option.bind_eq_some_iff.mp h

theorem descend_append : descend child a (p ++ q) = (descend child a p).bind (descend child · q) := by
  induction p generalizing a with
  | nil => rfl
  | cons i p ih =>
    rw [List.cons_append,descend,descend]
    cases child a i with
    | none => rfl
    | some b => exact ih

theorem descend_concat (h : descend child a p = some b) : descend child a (p ++ [i]) = child b i := by
  rw [descend_append,h,Option.bind_some,descend]
  cases child b i <;> rfl

theorem descend_concat_eq_some (h : descend child a (p ++ [i]) = some c) :
    ∃ b, descend child a p = some b ∧ child b i = some c := by
  rw [descend_append] at h
  obtain ⟨b,hb,hc⟩ := Option.bind_eq_some_iff.mp h
  obtain ⟨d,hd,heq⟩ := descend_cons_eq_some hc
  cases heq
  exact ⟨b,hb,hd⟩

/-- Only the entries on the way matter. -/
theorem descend_congr (h : ∀ p i rest b, p ++ i :: rest = path → descend child a p = some b → child' b i = child b i) :
    descend child' a path = descend child a path := by
  induction path generalizing a with
  | nil => rfl
  | cons i path ih =>
    rw [descend,descend,h [] i path a rfl rfl]
    cases hb : child a i with
    | none => rfl
    | some b =>
      refine ih fun p j rest c hp hc => h (i :: p) j rest c (congrArg (i :: ·) hp) ?_
      rw [descend_cons hb]
      exact hc

namespace Unshared

/-- A table that knows the entry it is reached through is reached in one way. -/
theorem of_parent (parent : A → Option (A × I)) (hparent : ∀ d i b, child d i = some b → parent b = some (d,i))
    (hroot : parent a = none) : Unshared child n a := by
  intro p q b hp hq h₁ h₂
  clear hp hq
  induction p using List.reverseRecOn generalizing q b with
  | nil =>
    cases h₁
    induction q using List.reverseRecOn with
    | nil => rfl
    | append_singleton q j =>
      obtain ⟨d,-,hd⟩ := descend_concat_eq_some h₂
      exact absurd ((hparent d j a hd).symm.trans hroot) (Option.some_ne_none _)
  | append_singleton p i ih =>
    obtain ⟨d,hp,hd⟩ := descend_concat_eq_some h₁
    induction q using List.reverseRecOn with
    | nil =>
      cases h₂
      exact absurd ((hparent d i a hd).symm.trans hroot) (Option.some_ne_none _)
    | append_singleton q j =>
      obtain ⟨e,hq,he⟩ := descend_concat_eq_some h₂
      have hsame := (hparent d i b hd).symm.trans (hparent e j b he)
      obtain ⟨rfl,rfl⟩ := Prod.mk.inj (Option.some.inj hsame)
      rw [ih q d hp hq]

/-- Only the entries of tables above the last ones matter. -/
theorem congr (h : Unshared child n a)
    (hsame : ∀ p b i, p.length < n → descend child a p = some b → child' b i = child b i) :
    Unshared child' n a ∧ ∀ p, p.length ≤ n → descend child' a p = descend child a p := by
  have hdescend : ∀ p, p.length ≤ n → descend child' a p = descend child a p := by
    intro p hp
    refine descend_congr fun q i rest b hq hb => hsame q b i ?_ hb
    have hlen := congrArg List.length hq
    rw [List.length_append,List.length_cons] at hlen
    omega
  refine ⟨fun p q b hp hq h₁ h₂ => ?_,hdescend⟩
  rw [hdescend p hp] at h₁
  rw [hdescend q hq] at h₂
  exact h p q b hp hq h₁ h₂

/-- A last entry is made to point to a table that was not reached. -/
theorem extend (h : Unshared child n a) (hp : descend child a p = some b) (hlen : p.length + 1 = n) (hnew : child' b i = some c)
    (hfresh : ∀ q, q.length ≤ n → descend child a q ≠ some c)
    (hsame : ∀ q d j, q.length < n → descend child a q = some d → d ≠ b ∨ j ≠ i → child' d j = child d j) :
    Unshared child' n a ∧ descend child' a (p ++ [i]) = some c ∧
      ∀ q, q.length ≤ n → q ≠ p ++ [i] → descend child' a q = descend child a q := by
  have hother : ∀ q, q.length ≤ n → q ≠ p ++ [i] → descend child' a q = descend child a q := by
    intro q hq hne
    refine descend_congr fun r j rest d hr hd => ?_
    have hlen' := congrArg List.length hr
    rw [List.length_append,List.length_cons] at hlen'
    refine hsame r d j (by omega) hd ?_
    by_contra hno
    rw [not_or,not_not,not_not] at hno
    obtain ⟨rfl,rfl⟩ := hno
    obtain rfl := h r p d (by omega) (by omega) hd hp
    -- there is no room behind the changed entry
    have hempty : rest = [] := List.eq_nil_of_length_eq_zero (by omega)
    exact hne (by rw [← hr,hempty])
  have hplen : (p ++ [i]).length = n := by rw [List.length_append,List.length_singleton,hlen]
  have hpath : descend child' a (p ++ [i]) = some c := by
    have hsameP : descend child' a p = some b := by
      rw [hother p (by omega),hp]
      intro heq
      have hlen' := congrArg List.length heq
      omega
    rw [descend_concat hsameP,hnew]
  refine ⟨fun q r d hq hr h₁ h₂ => ?_,hpath,hother⟩
  by_cases hqp : q = p ++ [i]
  · by_cases hrp : r = p ++ [i]
    · rw [hqp,hrp]
    · rw [hqp,hpath] at h₁
      rw [hother r hr hrp] at h₂
      exact absurd (h₂.trans h₁.symm) (hfresh r hr)
  · by_cases hrp : r = p ++ [i]
    · rw [hrp,hpath] at h₂
      rw [hother q hq hqp] at h₁
      exact absurd (h₁.trans h₂.symm) (hfresh q hq)
    · rw [hother q hq hqp] at h₁
      rw [hother r hr hrp] at h₂
      exact h q r d hq hr h₁ h₂

end Unshared
end MofuOS.Lib
