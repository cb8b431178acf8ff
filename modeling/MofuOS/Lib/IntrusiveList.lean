import MofuOS.Lib.LinkedChain

/-! Queues threaded through a link table that many of them share: a head, a tail, and the list they stand for. -/
namespace MofuOS.Lib
variable {α : Type}

/-- The links from head on run through the elements of l in order and stop at tail. -/
structure Threaded (link : α → Option α) (head tail : Option α) (l : List α) : Prop where
  head_eq : head = l.head?
  tail_eq : tail = l.getLast?
  linked : ∀ a, l.head? = some a → LinkedChain link a l

namespace Threaded
variable {link link' : α → Option α} {head tail : Option α} {l p r : List α} {a b x : α}

theorem nil (link : α → Option α) : Threaded link none none [] := ⟨rfl,rfl,fun _ h => nomatch h⟩

theorem nodup (h : Threaded link head tail l) : l.Nodup := by
  cases l with
  | nil => exact List.nodup_nil
  | cons a l => exact (h.linked a rfl).nodup

theorem head_none (h : Threaded link head tail l) : head = none ↔ l = [] := by
  rw [h.head_eq,List.head?_eq_none_iff]

theorem congr (h : Threaded link head tail l) (hl : ∀ x ∈ l, link' x = link x) : Threaded link' head tail l :=
  ⟨h.head_eq,h.tail_eq,fun a ha => (h.linked a ha).congr hl⟩

/-- The link of an element leads to the rest of the list. -/
theorem link_eq (h : Threaded link head tail (p ++ a :: r)) : link a = r.head? := by
  cases hhead : (p ++ a :: r).head? with
  | none => simp at hhead
  | some b => exact (h.linked b hhead).link_eq

/-- The first element is taken off. -/
theorem pop (h : Threaded link head tail (a :: r)) :
    Threaded link (link a) (if link a = none then none else tail) r := by
  have hlink : link a = r.head? := h.link_eq (p := [])
  cases r with
  | nil =>
    have hnone : link a = none := hlink
    rw [if_pos hnone,hnone]
    exact nil link
  | cons b r =>
    have hsome : link a = some b := hlink
    rw [if_neg (by rw [hsome]; simp),hsome]
    refine ⟨rfl,by rw [h.tail_eq,List.getLast?_cons_cons],fun c hc => ?_⟩
    cases h.linked a rfl with
    | step hs hc' =>
      rw [hsome] at hs
      cases hs
      cases hc
      exact hc'

variable [DecidableEq α]

/-- The first element is taken off, told apart by the tail. -/
theorem pop_tail (h : Threaded link head tail (a :: r)) :
    Threaded link (link a) (if tail = some a then none else tail) r := by
  have hiff : tail = some a ↔ link a = none := by
    rw [h.tail_eq,h.link_eq (p := [])]
    cases r with
    | nil => simp
    | cons b r =>
      rw [List.getLast?_cons_cons]
      refine ⟨fun hlast => ?_,fun hnone => nomatch hnone⟩
      exact absurd (List.mem_of_getLast? hlast) (List.nodup_cons.mp h.nodup).1
  simp only [hiff]
  exact h.pop

theorem push_empty (h : Threaded link head none l) (b : α) :
    Threaded (Function.update link b none) (some b) (some b) (l ++ [b]) := by
  obtain rfl : l = [] := List.getLast?_eq_none_iff.mp h.tail_eq.symm
  exact ⟨rfl,rfl,fun a ha => by cases ha; exact .last (Function.update_self ..)⟩

/-- A new element behind the tail. -/
theorem push (h : Threaded link head (some x) l) (hb : b ∉ l) :
    Threaded (Function.update (Function.update link b none) x (some b)) head (some b) (l ++ [b]) := by
  cases l with
  | nil => cases h.tail_eq
  | cons a l =>
    refine ⟨h.head_eq,(List.getLast?_concat ..).symm,fun c hc => ?_⟩
    cases hc
    exact (h.linked a rfl).append hb h.tail_eq.symm

/-- An element behind another one is unlinked. -/
theorem unlink (h : Threaded link head tail (p ++ x :: a :: r)) :
    Threaded (Function.update link x (link a)) head (if tail = some a then some x else tail) (p ++ x :: r) := by
  have htail : tail = (a :: r).getLast? := by
    rw [h.tail_eq,List.getLast?_append_of_ne_nil _ (List.cons_ne_nil _ _),List.getLast?_cons_cons]
  have hnodup : (a :: r).Nodup := (List.nodup_append.mp h.nodup).2.1.tail
  refine ⟨?_,?_,fun b hb => ?_⟩
  · rw [h.head_eq]
    cases p <;> rfl
  · rw [List.getLast?_append_of_ne_nil _ (List.cons_ne_nil _ _),htail]
    cases r with
    | nil => simp
    | cons c r =>
      rw [List.getLast?_cons_cons,List.getLast?_cons_cons,if_neg]
      intro hlast
      exact (List.nodup_cons.mp hnodup).1 (List.mem_of_getLast? hlast)
  · have hb' : (p ++ x :: a :: r).head? = some b := by
      rw [← hb]
      cases p <;> rfl
    exact (h.linked b hb').unlink

end Threaded

/-- A family of queues in one link table, no two of which share an element. -/
structure Threads {ι : Type} (link : α → Option α) (head tail : ι → Option α) (lists : ι → List α) : Prop where
  threaded : ∀ i, Threaded link (head i) (tail i) (lists i)
  disjoint : ∀ i j x, x ∈ lists i → x ∈ lists j → i = j

namespace Threads
variable {ι : Type} {link link' : α → Option α} {head tail head' tail' : ι → Option α} {lists : ι → List α} {l : List α} {i : ι}

/-- One queue is replaced: the links of the others stay, and it takes no element of theirs. -/
theorem set [DecidableEq ι] (h : Threads link head tail lists) (hi : Threaded link' (head' i) (tail' i) l)
    (hhead : ∀ j, j ≠ i → head' j = head j) (htail : ∀ j, j ≠ i → tail' j = tail j)
    (hlink : ∀ j, j ≠ i → ∀ x ∈ lists j, link' x = link x) (hl : ∀ j, j ≠ i → ∀ x ∈ lists j, x ∉ l) :
    Threads link' head' tail' (Function.update lists i l) := by
  refine ⟨fun j => ?_,fun j k x hj hk => ?_⟩
  · by_cases hji : j = i
    · subst hji
      rwa [Function.update_self]
    · rw [Function.update_of_ne hji,hhead j hji,htail j hji]
      exact (h.threaded j).congr (hlink j hji)
  · by_cases hji : j = i <;> by_cases hki : k = i
    · rw [hji,hki]
    · rw [hji,Function.update_self] at hj
      rw [Function.update_of_ne hki] at hk
      exact absurd hj (hl k hki x hk)
    · rw [hki,Function.update_self] at hk
      rw [Function.update_of_ne hji] at hj
      exact absurd hk (hl j hji x hj)
    · rw [Function.update_of_ne hji] at hj
      rw [Function.update_of_ne hki] at hk
      exact h.disjoint j k x hj hk

/-- The queues are named anew. -/
theorem comp {κ : Type} {f : κ → ι} (h : Threads link head tail lists) (hf : Function.Injective f) :
    Threads link (fun k => head (f k)) (fun k => tail (f k)) (fun k => lists (f k)) :=
  ⟨fun k => h.threaded (f k),fun _ _ x hj hk => hf (h.disjoint _ _ x hj hk)⟩

end Threads
end MofuOS.Lib
