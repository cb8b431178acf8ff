import Mathlib.Data.List.Basic
import Mathlib.Data.List.Nodup
import Mathlib.Data.List.Flatten
import Mathlib.Logic.Function.Basic

/-! Chains threaded through a successor table, and families of pairwise disjoint ones.
A table is a partial function: the cell without a successor ends its chain. -/
namespace MofuOS.Lib
variable {α : Type}

/-- The cells met from a on, up to and including the first one without a successor. -/
inductive LinkedChain (link : α → Option α) : α → List α → Prop where
  | last {a : α} (h : link a = none) : LinkedChain link a [a]
  | step {a b : α} {l : List α} (h : link a = some b) (hc : LinkedChain link b l) : LinkedChain link a (a :: l)

namespace LinkedChain
variable {link link' : α → Option α} {a b x : α} {l l' : List α}

theorem eq_cons (h : LinkedChain link a l) : ∃ r, l = a :: r := by
  cases h with
  | last h => exact ⟨[],rfl⟩
  | step h hc => exact ⟨_,rfl⟩

theorem start_mem (h : LinkedChain link a l) : a ∈ l := by
  obtain ⟨r,rfl⟩ := h.eq_cons
  exact List.mem_cons_self

theorem ne_nil (h : LinkedChain link a l) : l ≠ [] := List.ne_nil_of_mem h.start_mem

theorem unique (h : LinkedChain link a l) (h' : LinkedChain link a l') : l = l' := by
  induction h generalizing l' with
  | last h =>
    cases h' with
    | last => rfl
    | step hb => rw [h] at hb; cases hb
  | step h hc ih =>
    cases h' with
    | last hb => rw [h] at hb; cases hb
    | step hb hc' =>
      rw [h] at hb
      cases hb
      rw [ih hc']

theorem congr (h : LinkedChain link a l) (hl : ∀ x ∈ l, link' x = link x) : LinkedChain link' a l := by
  induction h with
  | last h => exact .last ((hl _ List.mem_cons_self).trans h)
  | step h hc ih =>
    exact .step ((hl _ List.mem_cons_self).trans h) (ih fun x hx => hl x (List.mem_cons_of_mem _ hx))

theorem next_mem (h : LinkedChain link a l) (hx : x ∈ l) : link x = none ∨ ∃ y ∈ l, link x = some y := by
  induction h with
  | last h =>
    rw [List.mem_singleton.mp hx]
    exact .inl h
  | step h hc ih =>
    rcases List.mem_cons.mp hx with rfl | hx
    · exact .inr ⟨_,List.mem_cons_of_mem _ hc.start_mem,h⟩
    · rcases ih hx with hn | ⟨y,hy,hs⟩
      · exact .inl hn
      · exact .inr ⟨y,List.mem_cons_of_mem _ hy,hs⟩

theorem getLast?_link (h : LinkedChain link a l) (hx : l.getLast? = some x) : link x = none := by
  induction h with
  | last h =>
    cases hx
    exact h
  | step h hc ih =>
    obtain ⟨r,rfl⟩ := hc.eq_cons
    exact ih (by rwa [List.getLast?_cons_cons] at hx)

theorem link_eq {p r : List α} (h : LinkedChain link a (p ++ x :: r)) : link x = r.head? := by
  induction p generalizing a with
  | nil =>
    cases h with
    | last h => exact h
    | step h hc =>
      obtain ⟨s,rfl⟩ := hc.eq_cons
      exact h
  | cons y p ih =>
    cases hl : p ++ x :: r with
    | nil => simp at hl
    | cons z s =>
      rw [List.cons_append,hl] at h
      cases h with
      | step h hc => exact ih (hl ▸ hc)

/-- From every cell of a chain, the rest of it is a chain. -/
theorem suffix (h : LinkedChain link a l) (hx : x ∈ l) : ∃ r s, l = r ++ s ∧ LinkedChain link x s := by
  induction h with
  | last h =>
    rw [List.mem_singleton.mp hx]
    exact ⟨[],_,rfl,.last h⟩
  | @step a b l h hc ih =>
    rcases List.mem_cons.mp hx with rfl | hx
    · exact ⟨[],_,rfl,.step h hc⟩
    · obtain ⟨r,s,rfl,hs⟩ := ih hx
      exact ⟨a :: r,s,rfl,hs⟩

theorem drop {n : Nat} {r : List α} (h : LinkedChain link a l) (hr : l.drop n = x :: r) : LinkedChain link x (x :: r) := by
  induction n generalizing a l with
  | zero =>
    obtain ⟨s,rfl⟩ := h.eq_cons
    cases hr
    exact h
  | succ n ih =>
    cases h with
    | last h => simp at hr
    | step h hc => exact ih hc hr

/-- A chain that ends meets no cell twice: from the second visit on it would be shorter. -/
theorem nodup (h : LinkedChain link a l) : l.Nodup := by
  induction h with
  | last h => exact List.nodup_singleton _
  | @step a b l h hc ih =>
    refine List.nodup_cons.mpr ⟨fun ha => ?_,ih⟩
    obtain ⟨r,s,rfl,hs⟩ := hc.suffix ha
    have hlen := congrArg List.length (hs.unique (.step h hc))
    simp only [List.length_cons,List.length_append] at hlen
    omega

/-- A new last cell behind a chain. -/
theorem append [DecidableEq α] (h : LinkedChain link a l) (hb : b ∉ l) (hx : l.getLast? = some x) :
    LinkedChain (Function.update (Function.update link b none) x (some b)) a (l ++ [b]) := by
  induction h with
  | @last a h =>
    obtain rfl : a = x := by simpa using hx
    have hne : b ≠ a := fun e => hb (List.mem_singleton.mpr e)
    exact .step (Function.update_self ..) (.last (by rw [Function.update_of_ne hne,Function.update_self]))
  | @step a c l h hc ih =>
    obtain ⟨r,rfl⟩ := hc.eq_cons
    have hx' : (c :: r).getLast? = some x := by rwa [List.getLast?_cons_cons] at hx
    have hax : a ≠ x := by
      rintro rfl
      exact (List.nodup_cons.mp (step h hc).nodup).1 (List.mem_of_getLast? hx')
    have hab : a ≠ b := fun e => hb (List.mem_cons.mpr (.inl e.symm))
    refine .step ?_ (ih (fun hm => hb (List.mem_cons_of_mem _ hm)) hx')
    rw [Function.update_of_ne hax,Function.update_of_ne hab,h]

/-- The cell behind x is left out. -/
theorem unlink [DecidableEq α] {p r : List α} (h : LinkedChain link a (p ++ x :: b :: r)) :
    LinkedChain (Function.update link x (link b)) a (p ++ x :: r) := by
  have hnodup := h.nodup
  induction p generalizing a with
  | nil =>
    rw [List.nil_append] at h hnodup ⊢
    obtain ⟨_,heq⟩ := h.eq_cons
    cases heq
    have hlink : link b = r.head? := link_eq (p := [x]) h
    cases r with
    | nil => exact .last ((Function.update_self ..).trans hlink)
    | cons c r =>
      refine .step ((Function.update_self ..).trans hlink) ?_
      have hrest : LinkedChain link c (c :: r) := h.drop (n := 2) rfl
      refine hrest.congr fun y hy => Function.update_of_ne ?_ ..
      rintro rfl
      exact (List.nodup_cons.mp hnodup).1 (List.mem_cons_of_mem _ hy)
  | cons y p ih =>
    cases hl : p ++ x :: b :: r with
    | nil => simp at hl
    | cons z s =>
      rw [List.cons_append,hl] at h hnodup
      cases h with
      | @step _ c _ hs hc =>
        have hne : y ≠ x := by
          rintro rfl
          refine (List.nodup_cons.mp hnodup).1 ?_
          rw [← hl]
          exact List.mem_append_right _ List.mem_cons_self
        refine .step ((Function.update_of_ne hne ..).trans hs) (ih (hl ▸ hc) (hl ▸ hnodup.tail))

end LinkedChain

/-- Every owner a with a non-empty list owns the chain from a, and no two owners share a cell. -/
structure Forest (link : α → Option α) (chain : α → List α) : Prop where
  linked : ∀ a, chain a ≠ [] → LinkedChain link a (chain a)
  disjoint : ∀ a b x, x ∈ chain a → x ∈ chain b → a = b

namespace Forest
variable {link link' : α → Option α} {chain : α → List α} {a b x : α}

theorem of_mem (h : Forest link chain) (hx : x ∈ chain a) : LinkedChain link a (chain a) :=
  h.linked a (List.ne_nil_of_mem hx)

theorem start_mem (h : Forest link chain) (ha : chain a ≠ []) : a ∈ chain a := (h.linked a ha).start_mem

theorem congr (h : Forest link chain) (hl : ∀ a, ∀ x ∈ chain a, link' x = link x) : Forest link' chain :=
  ⟨fun a ha => (h.linked a ha).congr (hl a),h.disjoint⟩

variable [DecidableEq α]

/-- A cell that no chain holds starts a chain of its own. -/
theorem add (h : Forest link chain) (hb : ∀ a, b ∉ chain a) :
    Forest (Function.update link b none) (Function.update chain b [b]) := by
  refine ⟨fun a ha => ?_,fun a c x hx hy => ?_⟩
  · by_cases hab : a = b
    · subst hab
      rw [Function.update_self]
      exact .last (Function.update_self ..)
    · rw [Function.update_of_ne hab] at ha ⊢
      refine (h.linked a ha).congr fun x hx => Function.update_of_ne ?_ ..
      rintro rfl
      exact hb a hx
  · by_cases hab : a = b <;> by_cases hcb : c = b
    · rw [hab,hcb]
    · rw [hab,Function.update_self,List.mem_singleton] at hx
      rw [Function.update_of_ne hcb,hx] at hy
      exact absurd hy (hb c)
    · rw [hcb,Function.update_self,List.mem_singleton] at hy
      rw [Function.update_of_ne hab,hy] at hx
      exact absurd hx (hb a)
    · rw [Function.update_of_ne hab] at hx
      rw [Function.update_of_ne hcb] at hy
      exact h.disjoint a c x hx hy

/-- A cell that no chain holds is linked behind the last cell of one. -/
theorem extend (h : Forest link chain) (hb : ∀ a, b ∉ chain a) (hx : (chain a).getLast? = some x) :
    Forest (Function.update (Function.update link b none) x (some b)) (Function.update chain a (chain a ++ [b])) := by
  have hxa : x ∈ chain a := List.mem_of_getLast? hx
  refine ⟨fun c hc => ?_,fun c d y hy hz => ?_⟩
  · by_cases hca : c = a
    · subst hca
      rw [Function.update_self]
      exact (h.of_mem hxa).append (hb c) hx
    · rw [Function.update_of_ne hca] at hc ⊢
      refine (h.linked c hc).congr fun y hy => ?_
      have hyx : y ≠ x := fun e => hca (h.disjoint c a y hy (e ▸ hxa))
      have hyb : y ≠ b := fun e => hb c (e ▸ hy)
      rw [Function.update_of_ne hyx,Function.update_of_ne hyb]
  · have key : ∀ c y, y ∈ Function.update chain a (chain a ++ [b]) c → y ∈ chain c ∨ (c = a ∧ y = b) := by
      intro c y hy
      by_cases hca : c = a
      · subst hca
        rw [Function.update_self,List.mem_append,List.mem_singleton] at hy
        exact hy.imp_right fun e => ⟨rfl,e⟩
      · rw [Function.update_of_ne hca] at hy
        exact .inl hy
    rcases key c y hy with hyc | ⟨hca,hyb⟩ <;> rcases key d y hz with hzd | ⟨hda,hzb⟩
    · exact h.disjoint c d y hyc hzd
    · exact absurd (hzb ▸ hyc) (hb c)
    · exact absurd (hyb ▸ hzd) (hb d)
    · rw [hca,hda]

/-- One chain is given up; the table keeps the links of the others. -/
theorem release (h : Forest link chain) (hl : ∀ c, c ≠ a → ∀ x ∈ chain c, link' x = link x) :
    Forest link' (Function.update chain a []) := by
  refine ⟨fun c hc => ?_,fun c d y hy hz => ?_⟩
  · by_cases hca : c = a
    · rw [hca,Function.update_self] at hc
      exact absurd rfl hc
    · rw [Function.update_of_ne hca] at hc ⊢
      exact (h.linked c hc).congr (hl c hca)
  · have key : ∀ c, y ∈ Function.update chain a [] c → y ∈ chain c := by
      intro c hy
      by_cases hca : c = a
      · rw [hca,Function.update_self] at hy
        cases hy
      · rwa [Function.update_of_ne hca] at hy
    exact h.disjoint c d y (key c hy) (key d hz)

end Forest
end MofuOS.Lib
