import Mathlib.Data.List.Induction
import Mathlib.Logic.Function.Basic

/-! Nodes that hang from one another in levels. The entries of a node lead to nodes one level lower, and no node hangs from
two entries. -/
namespace MofuOS.Lib
variable {A I R : Type}

/-- Which root each node hangs from, and how many levels lie below it. The entries of a node with n + 1 levels below it are
those of `down n`. -/
structure Tiers (down : Nat → A → I → Option A) (top : Nat) (place : A → Option (R × Nat)) : Prop where
  typed : ∀ {a b i r n}, place a = some (r,n + 1) → down n a i = some b → place b = some (r,n)
  single : ∀ {a a' b i i' r r' n n'}, place a = some (r,n + 1) → place a' = some (r',n' + 1) →
    down n a i = some b → down n' a' i' = some b → a = a' ∧ i = i'
  linked : ∀ {b r n}, place b = some (r,n) → n < top → ∃ a i, place a = some (r,n + 1) ∧ down n a i = some b
  low : ∀ {b r n}, place b = some (r,n) → n ≤ top

/-- The node that a list of entries leads to. -/
def follow (down : Nat → A → I → Option A) : Nat → A → List I → Option A
  | _,a,[] => some a
  | n + 1,a,i :: path => (down n a i).bind (follow down n · path)
  | 0,_,_ :: _ => none

section Follow
variable {down : Nat → A → I → Option A} {a b c : A} {i : I} {n m : Nat} {path : List I}

@[simp] theorem follow_nil : follow down n a [] = some a := by
  cases n <;> rfl

theorem follow_cons (h : down n a i = some b) : follow down (n + 1) a (i :: path) = follow down n b path := by
  rw [follow,h,Option.bind_some]

theorem follow_cons_eq_some (h : follow down n a (i :: path) = some c) :
    ∃ m b, n = m + 1 ∧ down m a i = some b ∧ follow down m b path = some c := by
  cases n with
  | zero => cases h
  | succ m =>
    obtain ⟨b,hb,hc⟩ := Option.bind_eq_some_iff.mp h
    exact ⟨m,b,rfl,hb,hc⟩

theorem follow_concat (hn : n = m + 1 + path.length) (h : follow down n a path = some b) :
    follow down n a (path ++ [i]) = down m b i := by
  induction path generalizing n a with
  | nil =>
    rw [follow_nil] at h
    obtain rfl := Option.some.inj h
    obtain rfl : n = m + 1 := hn
    rw [List.nil_append,follow]
    cases down m a i <;> simp
  | cons j path ih =>
    obtain ⟨k,d,rfl,hd,hrest⟩ := follow_cons_eq_some h
    rw [List.length_cons] at hn
    rw [List.cons_append,follow_cons hd]
    exact ih (by omega) hrest

theorem follow_concat_eq_some (h : follow down n a (path ++ [i]) = some c) :
    ∃ m b, n = m + 1 + path.length ∧ follow down n a path = some b ∧ down m b i = some c := by
  induction path generalizing n a with
  | nil =>
    obtain ⟨m,b,rfl,hb,hc⟩ := follow_cons_eq_some h
    rw [follow_nil] at hc
    exact ⟨m,a,rfl,follow_nil,hb.trans hc⟩
  | cons j path ih =>
    obtain ⟨k,d,rfl,hd,hrest⟩ := follow_cons_eq_some h
    obtain ⟨m,b,rfl,hb,hc⟩ := ih hrest
    exact ⟨m,b,rfl,(follow_cons hd).trans hb,hc⟩

theorem follow_append {rest : List I} (hn : path.length ≤ n) :
    follow down n a (path ++ rest) = (follow down n a path).bind (follow down (n - path.length) · rest) := by
  induction path generalizing n a with
  | nil => rw [follow_nil,Option.bind_some,List.nil_append,List.length_nil,Nat.sub_zero]
  | cons i path ih =>
    obtain ⟨m,rfl⟩ := Nat.exists_eq_add_one_of_ne_zero (Nat.ne_zero_of_lt hn)
    rw [List.cons_append,follow,follow,List.length_cons,Nat.add_sub_add_right]
    cases down m a i with
    | none => rfl
    | some b => exact ih (Nat.le_of_succ_le_succ hn)

/-- Only the entries on the way matter. -/
theorem follow_congr {down' : Nat → A → I → Option A} (h : ∀ p i rest b, p ++ i :: rest = path → follow down n a p = some b →
    down' (n - (p.length + 1)) b i = down (n - (p.length + 1)) b i) : follow down' n a path = follow down n a path := by
  induction path generalizing n a with
  | nil => rw [follow_nil,follow_nil]
  | cons i path ih =>
    cases n with
    | zero => rfl
    | succ m =>
      have hhead : down' m a i = down m a i := h [] i path a rfl follow_nil
      rw [follow,follow,hhead]
      cases hd : down m a i with
      | none => rfl
      | some b =>
        refine ih fun p j rest c hp hc => ?_
        have hnext := h (i :: p) j rest c (congrArg (i :: ·) hp) ((follow_cons hd).trans hc)
        rwa [List.length_cons,Nat.add_sub_add_right] at hnext

end Follow

namespace Tiers
variable {down down' : Nat → A → I → Option A} {place : A → Option (R × Nat)} {a a' b c : A} {i : I} {r r' : R} {n m top : Nat}
  {path path' : List I}

theorem follow_place (h : Tiers down top place) (ha : place a = some (r,n)) (hpath : follow down n a path = some b) :
    ∃ m, n = m + path.length ∧ place b = some (r,m) := by
  induction path generalizing n a with
  | nil =>
    rw [follow_nil] at hpath
    exact ⟨n,rfl,Option.some.inj hpath ▸ ha⟩
  | cons i path ih =>
    obtain ⟨k,c,rfl,hc,hrest⟩ := follow_cons_eq_some hpath
    obtain ⟨m,rfl,hb⟩ := ih (h.typed ha hc) hrest
    exact ⟨m,rfl,hb⟩

private theorem follow_root (h : Tiers down top place) (ha : place a = some (r,top)) (ha' : place a' = some (r',top))
    (hpath : follow down top a path = some a') : path = [] ∧ a = a' := by
  obtain ⟨m,hm,hb⟩ := h.follow_place ha hpath
  obtain ⟨-,rfl⟩ := Prod.mk.inj (Option.some.inj (ha'.symm.trans hb))
  obtain rfl : path = [] := List.eq_nil_of_length_eq_zero (by omega)
  rw [follow_nil] at hpath
  exact ⟨rfl,Option.some.inj hpath⟩

/-- A node is reached from one root and in one way. -/
theorem follow_inj (h : Tiers down top place) (ha : place a = some (r,top)) (ha' : place a' = some (r',top))
    (hpath : follow down top a path = some b) (hpath' : follow down top a' path' = some b) : a = a' ∧ path = path' := by
  induction path using List.reverseRecOn generalizing path' b with
  | nil =>
    rw [follow_nil] at hpath
    obtain rfl := Option.some.inj hpath
    obtain ⟨rfl,rfl⟩ := h.follow_root ha' ha hpath'
    exact ⟨rfl,rfl⟩
  | append_singleton path i ih =>
    induction path' using List.reverseRecOn with
    | nil =>
      rw [follow_nil] at hpath'
      obtain rfl := Option.some.inj hpath'
      exact absurd (h.follow_root ha ha' hpath).1 (by simp)
    | append_singleton path' i' =>
      obtain ⟨m,c,hm,hc,hb⟩ := follow_concat_eq_some hpath
      obtain ⟨m',c',hm',hc',hb'⟩ := follow_concat_eq_some hpath'
      obtain ⟨k,hk,hplace⟩ := h.follow_place ha hc
      obtain ⟨k',hk',hplace'⟩ := h.follow_place ha' hc'
      obtain rfl : k = m + 1 := by omega
      obtain rfl : k' = m' + 1 := by omega
      obtain ⟨rfl,rfl⟩ := h.single hplace hplace' hb hb'
      obtain ⟨rfl,rfl⟩ := ih hc hc'
      exact ⟨rfl,rfl⟩

/-- Every node is reached from a root. -/
theorem exists_root (h : Tiers down top place) (hb : place b = some (r,n)) :
    ∃ a path, place a = some (r,top) ∧ top = n + path.length ∧ follow down top a path = some b := by
  obtain ⟨k,hk⟩ := Nat.exists_eq_add_of_le (h.low hb)
  induction k generalizing b n with
  | zero => exact ⟨b,[],hk ▸ hb,hk,follow_nil⟩
  | succ k ih =>
    obtain ⟨c,i,hc,hcb⟩ := h.linked hb (by omega)
    obtain ⟨a,path,ha,hlen,hpath⟩ := ih hc (by omega)
    exact ⟨a,path ++ [i],ha,by rw [List.length_append,List.length_singleton]; omega,(follow_concat hlen hpath).trans hcb⟩

theorem congr (h : Tiers down top place) (hsame : ∀ a i r n, place a = some (r,n + 1) → down' n a i = down n a i) :
    Tiers down' top place := by
  refine ⟨fun ha hb => h.typed ha (hsame _ _ _ _ ha ▸ hb),fun ha ha' hb hb' => h.single ha ha' (hsame _ _ _ _ ha ▸ hb)
    (hsame _ _ _ _ ha' ▸ hb'),fun hb hn => ?_,h.low⟩
  obtain ⟨a,i,ha,hab⟩ := h.linked hb hn
  exact ⟨a,i,ha,(hsame _ _ _ _ ha).trans hab⟩

section Change
variable [DecidableEq A]

/-- A new node without entries is hung from an entry that led nowhere. -/
theorem link (h : Tiers down top place) (ha : place a = some (r,n + 1)) (hnone : down n a i = none) (hb : place b = none)
    (hnew : down' n a i = some b) (hempty : ∀ m j, n = m + 1 → down' m b j = none)
    (hsame : ∀ c j q m, place c = some (q,m + 1) → c ≠ a ∨ j ≠ i → down' m c j = down m c j) :
    Tiers down' top (Function.update place b (some (r,n))) := by
  have hab : a ≠ b := fun heq => Option.some_ne_none _ (ha.symm.trans (heq ▸ hb))
  have hstep : ∀ {c d j q m}, Function.update place b (some (r,n)) c = some (q,m + 1) → down' m c j = some d →
      (c = a ∧ j = i ∧ d = b ∧ q = r ∧ m = n) ∨ (place c = some (q,m + 1) ∧ down m c j = some d ∧ d ≠ b) := by
    intro c d j q m hc hd
    by_cases hcb : c = b
    · rw [hcb,Function.update_self] at hc
      obtain ⟨-,hn⟩ := Prod.mk.inj (Option.some.inj hc)
      rw [hcb,hempty m j hn] at hd
      cases hd
    rw [Function.update_of_ne hcb] at hc
    by_cases hentry : c = a ∧ j = i
    · obtain ⟨rfl,rfl⟩ := hentry
      obtain ⟨rfl,hn⟩ := Prod.mk.inj (Option.some.inj (hc.symm.trans ha))
      obtain rfl := Nat.succ.inj hn
      exact .inl ⟨rfl,rfl,(Option.some.inj (hnew.symm.trans hd)).symm,rfl,rfl⟩
    · rw [hsame c j q m hc (not_and_or.mp hentry)] at hd
      exact .inr ⟨hc,hd,fun heq => Option.some_ne_none _ ((h.typed hc hd).symm.trans (heq ▸ hb))⟩
  refine ⟨fun hc hd => ?_,fun hc hc' hd hd' => ?_,fun {d q m} hd hm => ?_,fun {d q m} hd => ?_⟩
  · rcases hstep hc hd with ⟨-,-,rfl,rfl,rfl⟩ | ⟨hc,hd,hne⟩
    · exact Function.update_self ..
    · rw [Function.update_of_ne hne]
      exact h.typed hc hd
  · rcases hstep hc hd with ⟨rfl,rfl,rfl,-,-⟩ | ⟨hc,hd,hne⟩ <;> rcases hstep hc' hd' with ⟨rfl,rfl,heq,-,-⟩ | ⟨hc',hd',hne'⟩
    · exact ⟨rfl,rfl⟩
    · exact absurd rfl hne'
    · exact absurd heq hne
    · exact h.single hc hc' hd hd'
  · by_cases hdb : d = b
    · rw [hdb,Function.update_self] at hd
      obtain ⟨rfl,rfl⟩ := Prod.mk.inj (Option.some.inj hd)
      exact ⟨a,i,(Function.update_of_ne hab ..).trans ha,hdb ▸ hnew⟩
    · rw [Function.update_of_ne hdb] at hd
      obtain ⟨c,j,hc,hcd⟩ := h.linked hd hm
      have hcb : c ≠ b := fun heq => Option.some_ne_none _ (hc.symm.trans (heq ▸ hb))
      refine ⟨c,j,(Function.update_of_ne hcb ..).trans hc,(hsame c j q m hc ?_).trans hcd⟩
      by_contra hno
      rw [not_or,not_not,not_not] at hno
      obtain ⟨rfl,rfl⟩ := hno
      obtain ⟨-,hn⟩ := Prod.mk.inj (Option.some.inj (hc.symm.trans ha))
      obtain rfl := Nat.succ.inj hn
      exact Option.some_ne_none _ (hcd.symm.trans hnone)
  · by_cases hdb : d = b
    · rw [hdb,Function.update_self] at hd
      obtain ⟨-,rfl⟩ := Prod.mk.inj (Option.some.inj hd)
      exact Nat.le_of_succ_le (h.low ha)
    · rw [Function.update_of_ne hdb] at hd
      exact h.low hd

/-- A node without entries is taken off. -/
theorem unlink (h : Tiers down top place) (ha : place a = some (r,n + 1)) (hab : down n a i = some b)
    (hleaf : ∀ m j, n = m + 1 → down m b j = none) (hgone : down' n a i = none)
    (hsame : ∀ c j q m, place c = some (q,m + 1) → c ≠ a ∨ j ≠ i → down' m c j = down m c j) :
    Tiers down' top (Function.update place b none) := by
  have hold : ∀ {c q m}, Function.update place b none c = some (q,m) → c ≠ b ∧ place c = some (q,m) := by
    intro c q m hc
    by_cases hcb : c = b
    · rw [hcb,Function.update_self] at hc
      cases hc
    · rw [Function.update_of_ne hcb] at hc
      exact ⟨hcb,hc⟩
  have hstep : ∀ {c d j q m}, place c = some (q,m + 1) → down' m c j = some d → (c ≠ a ∨ j ≠ i) ∧ down m c j = some d := by
    intro c d j q m hc hd
    by_cases hentry : c = a ∧ j = i
    · obtain ⟨rfl,rfl⟩ := hentry
      obtain ⟨-,hn⟩ := Prod.mk.inj (Option.some.inj (hc.symm.trans ha))
      obtain rfl := Nat.succ.inj hn
      exact absurd (hd.symm.trans hgone) (Option.some_ne_none _)
    · exact ⟨not_and_or.mp hentry,(hsame c j q m hc (not_and_or.mp hentry)).symm.trans hd⟩
  refine ⟨fun hc hd => ?_,fun hc hc' hd hd' => ?_,fun {d q m} hd hm => ?_,fun hd => h.low (hold hd).2⟩
  · have hc := (hold hc).2
    obtain ⟨hne,hd⟩ := hstep hc hd
    refine (Function.update_of_ne (fun hdb => ?_) ..).trans (h.typed hc hd)
    obtain ⟨hca,hji⟩ := h.single hc ha hd (hdb ▸ hab)
    exact hne.elim (· hca) (· hji)
  · obtain ⟨-,hc⟩ := hold hc
    obtain ⟨-,hc'⟩ := hold hc'
    exact h.single hc hc' (hstep hc hd).2 (hstep hc' hd').2
  · obtain ⟨hdb,hd⟩ := hold hd
    obtain ⟨c,j,hc,hcd⟩ := h.linked hd hm
    have hcb : c ≠ b := by
      rintro rfl
      obtain ⟨-,hn⟩ := Prod.mk.inj (Option.some.inj ((h.typed ha hab).symm.trans hc))
      exact Option.some_ne_none _ (hcd.symm.trans (hleaf m j hn))
    refine ⟨c,j,(Function.update_of_ne hcb ..).trans hc,(hsame c j q m hc ?_).trans hcd⟩
    by_contra hno
    rw [not_or,not_not,not_not] at hno
    obtain ⟨rfl,rfl⟩ := hno
    obtain ⟨-,hn⟩ := Prod.mk.inj (Option.some.inj (hc.symm.trans ha))
    obtain rfl := Nat.succ.inj hn
    exact hdb (Option.some.inj (hcd.symm.trans hab))

/-- A new root without entries. -/
theorem plant (h : Tiers down top place) (r : R) (hb : place b = none) (hempty : ∀ m j, top = m + 1 → down' m b j = none)
    (hsame : ∀ c j q m, place c = some (q,m + 1) → down' m c j = down m c j) :
    Tiers down' top (Function.update place b (some (r,top))) := by
  have hold : ∀ {c q m}, Function.update place b (some (r,top)) c = some (q,m) → (c = b ∧ m = top) ∨ place c = some (q,m) := by
    intro c q m hc
    by_cases hcb : c = b
    · rw [hcb,Function.update_self] at hc
      exact .inl ⟨hcb,(Prod.mk.inj (Option.some.inj hc)).2.symm⟩
    · rw [Function.update_of_ne hcb] at hc
      exact .inr hc
  have hstep : ∀ {c d j q m}, Function.update place b (some (r,top)) c = some (q,m + 1) → down' m c j = some d →
      place c = some (q,m + 1) ∧ down m c j = some d := by
    intro c d j q m hc hd
    rcases hold hc with ⟨rfl,hm⟩ | hc
    · exact absurd (hd.symm.trans (hempty m j hm.symm)) (Option.some_ne_none _)
    · exact ⟨hc,(hsame c j q m hc).symm.trans hd⟩
  have hkept : ∀ {c q m}, place c = some (q,m) → Function.update place b (some (r,top)) c = some (q,m) := by
    intro c q m hc
    have hcb : c ≠ b := fun heq => Option.some_ne_none _ (hc.symm.trans (heq ▸ hb))
    exact (Function.update_of_ne hcb ..).trans hc
  refine ⟨fun hc hd => ?_,fun hc hc' hd hd' => ?_,fun {d q m} hd hm => ?_,fun hd => ?_⟩
  · obtain ⟨hc,hd⟩ := hstep hc hd
    exact hkept (h.typed hc hd)
  · exact h.single (hstep hc hd).1 (hstep hc' hd').1 (hstep hc hd).2 (hstep hc' hd').2
  · obtain ⟨c,j,hc,hcd⟩ := h.linked ((hold hd).resolve_left fun hroot => Nat.ne_of_lt hm hroot.2) hm
    exact ⟨c,j,hkept hc,(hsame c j q m hc).trans hcd⟩
  · exact (hold hd).elim (fun hroot => Nat.le_of_eq hroot.2) h.low

/-- A root without entries is taken away. -/
theorem fell (h : Tiers down top place) (hb : place b = some (r,top)) (hempty : ∀ m j, top = m + 1 → down m b j = none)
    (hsame : ∀ c j q m, place c = some (q,m + 1) → c ≠ b → down' m c j = down m c j) :
    Tiers down' top (Function.update place b none) := by
  have hold : ∀ {c q m}, Function.update place b none c = some (q,m) → c ≠ b ∧ place c = some (q,m) := by
    intro c q m hc
    by_cases hcb : c = b
    · rw [hcb,Function.update_self] at hc
      cases hc
    · rw [Function.update_of_ne hcb] at hc
      exact ⟨hcb,hc⟩
  have hstep : ∀ {c d j q m}, Function.update place b none c = some (q,m + 1) → down' m c j = some d →
      place c = some (q,m + 1) ∧ down m c j = some d := by
    intro c d j q m hc hd
    obtain ⟨hcb,hc⟩ := hold hc
    exact ⟨hc,(hsame c j q m hc hcb).symm.trans hd⟩
  refine ⟨fun hc hd => ?_,fun hc hc' hd hd' => ?_,fun {d q m} hd hm => ?_,fun hd => h.low (hold hd).2⟩
  · obtain ⟨hc,hd⟩ := hstep hc hd
    have hplace := h.typed hc hd
    refine (Function.update_of_ne (fun hdb => ?_) ..).trans hplace
    obtain ⟨-,hm⟩ := Prod.mk.inj (Option.some.inj (hb.symm.trans (hdb ▸ hplace)))
    have hlow := h.low hc
    omega
  · exact h.single (hstep hc hd).1 (hstep hc' hd').1 (hstep hc hd).2 (hstep hc' hd').2
  · obtain ⟨-,hd⟩ := hold hd
    obtain ⟨c,j,hc,hcd⟩ := h.linked hd hm
    have hcb : c ≠ b := by
      rintro rfl
      obtain ⟨-,hn⟩ := Prod.mk.inj (Option.some.inj (hb.symm.trans hc))
      exact Option.some_ne_none _ (hcd.symm.trans (hempty m j hn))
    exact ⟨c,j,(Function.update_of_ne hcb ..).trans hc,(hsame c j q m hc hcb).trans hcd⟩

end Change
end Tiers
end MofuOS.Lib
