import MofuOS.Memory.MappedPages
import Mathlib.Data.Nat.Find

/-! When a mapping that ran out of frames and was rolled back leaves the pages as they were. -/
namespace MofuOS.Memory.UserMemory
variable {F : Type} [DecidableEq F] [Mapper F] {s t u : UserMemory F} {page first startPage n m : Nat} {flags : PageTableFlags}

/-- The rounds for the n pages from page on succeed. -/
inductive Rounds (flags : PageTableFlags) : Nat → Nat → UserMemory F → UserMemory F → Prop
  | nil (page : Nat) (s : UserMemory F) : Rounds flags page 0 s s
  | cons {page n : Nat} {s t : UserMemory F} (first : (s.mapNewPage page flags).1 = true)
      (rest : Rounds flags (page + 1) n (s.mapNewPage page flags).2 t) : Rounds flags page (n + 1) s t

namespace Rounds

theorem leaves (h : Rounds flags page n s t) :
    (∀ p, p < page ∨ page + n ≤ p → t.leaves p = s.leaves p) ∧ ∀ p, page ≤ p → p < page + n → t.leaves p ≠ none := by
  induction h with
  | nil page s => exact ⟨fun _ _ => rfl,fun p hle hlt => by omega⟩
  | @cons page n s t hfirst rest ih =>
    obtain ⟨hother,-,hmapped⟩ := mapNewPage_leaves page flags s
    refine ⟨fun p hp => (ih.1 p (by omega)).trans (hother p (by omega)),fun p hle hlt => ?_⟩
    by_cases hp : p = page
    · rw [hp,ih.1 page (.inl (Nat.lt_succ_self page))]
      exact hmapped hfirst
    · exact ih.2 p (by omega) (by omega)

theorem keeps (h : Rounds flags page n s t) (hs : s.Intact) (hflags : flags.present) : t.Intact := by
  induction h with
  | nil => exact hs
  | cons _ _ ih => exact ih (mapNewPage_keeps _ hs hflags)

/-- The first rounds of a longer row. -/
theorem take (h : Rounds flags page n s t) (hm : m < n) :
    ∃ u, Rounds flags page m s u ∧ (u.mapNewPage (page + m) flags).1 = true := by
  induction h generalizing m with
  | nil => omega
  | @cons page n s t hfirst rest ih =>
    cases m with
    | zero => exact ⟨s,.nil page s,hfirst⟩
    | succ m =>
      obtain ⟨u,hu,hnext⟩ := ih (Nat.lt_of_succ_lt_succ hm)
      exact ⟨u,.cons hfirst hu,by rwa [Nat.add_right_comm,Nat.add_assoc] at hnext⟩

end Rounds

omit [DecidableEq F] in
theorem rollbackPartialMapping_eq (startPage n : Nat) (flags : PageTableFlags) (s : UserMemory F) :
    s.rollbackPartialMapping startPage (startPage + n) flags = s.unmapPages .owned startPage n := by
  have hsize : (startPage + n) * pageSize - startPage * pageSize = n * pageSize := by
    rw [Nat.add_mul,Nat.add_sub_cancel_left]
  rw [rollbackPartialMapping,hsize,unmapUserRegion]
  cases n with
  | zero => rw [if_pos (by simp)]; rfl
  | succ n =>
    rw [if_neg (by simp [pageSize])]
    congr 1
    · simp [pageSize]
    · simp only [pageCount,pageSize]
      omega

/-- Either all rounds succeed, or one fails and the pages before it are unmapped. -/
theorem mapPages_cases (startPage : Nat) (flags : PageTableFlags) (page n : Nat) (s : UserMemory F) :
    ∃ j t, Rounds flags page j s t ∧
      (j = n ∧ mapPages startPage flags page n s = (true,t) ∨
        j < n ∧ (t.mapNewPage (page + j) flags).1 = false ∧
          mapPages startPage flags page n s =
            (false,(t.mapNewPage (page + j) flags).2.rollbackPartialMapping startPage (page + j) flags)) := by
  induction n generalizing page s with
  | zero => exact ⟨0,s,.nil page s,.inl ⟨rfl,rfl⟩⟩
  | succ n ih =>
    cases hround : s.mapNewPage page flags with
    | mk ok t =>
      rw [mapPages,hround]
      cases ok with
      | false =>
        refine ⟨0,s,.nil page s,.inr ⟨Nat.succ_pos n,?_,?_⟩⟩
        · rw [Nat.add_zero,hround]
        · simp only [Nat.add_zero,hround]
      | true =>
        obtain ⟨j,u,hu,hcase⟩ := ih (page + 1) t
        have hcons : Rounds flags page (j + 1) s u := .cons (by rw [hround]) (by rw [hround]; exact hu)
        obtain ⟨hj,hres⟩ | ⟨hj,hno,hres⟩ := hcase
        · exact ⟨j + 1,u,hcons,.inl ⟨congrArg (· + 1) hj,hres⟩⟩
        · rw [Nat.add_right_comm,Nat.add_assoc] at hno hres
          exact ⟨j + 1,u,hcons,.inr ⟨Nat.succ_lt_succ hj,hno,hres⟩⟩

/-- What is mapped after a failure was mapped before. -/
theorem mapPages_failed (first n : Nat) (hs : s.Intact) (hflags : flags.present) (hfail : (mapPages first flags first n s).1 = false)
    (page : Nat) (hpage : (mapPages first flags first n s).2.leaves page ≠ none) : s.leaves page ≠ none := by
  obtain ⟨j,t,hrounds,⟨-,hres⟩ | ⟨-,hno,hres⟩⟩ := mapPages_cases first flags first n s
  · rw [hres] at hfail
    cases hfail
  rw [hres,rollbackPartialMapping_eq,
    (unmapPages_spec .owned (mapNewPage_keeps _ (hrounds.keeps hs hflags) hflags).present first j).1,
    (mapNewPage_leaves _ _ _).2.1 hno] at hpage
  dsimp only at hpage
  split_ifs at hpage with hrange
  · exact absurd rfl hpage
  · rwa [hrounds.leaves.1 page (by omega)] at hpage

omit [DecidableEq F] [Mapper F] in
/-- The frames that it takes to map n pages from first on none of which is mapped. -/
def framesNeeded (s : UserMemory F) (first n : Nat) : Nat :=
  n + (((List.range' first n).flatMap tablesAbove).toFinset \ s.tableKeys).card

omit [DecidableEq F] [Mapper F] in
theorem framesNeeded_succ (s : UserMemory F) (first n : Nat) :
    s.framesNeeded first (n + 1) =
      s.framesNeeded first n +
        (1 + ((tablesAbove (first + n)).toFinset \ (s.tableKeys ∪ ((List.range' first n).flatMap tablesAbove).toFinset)).card) := by
  have hsplit : ((List.range' first (n + 1)).flatMap tablesAbove).toFinset \ s.tableKeys =
      (((List.range' first n).flatMap tablesAbove).toFinset \ s.tableKeys) ∪
        ((tablesAbove (first + n)).toFinset \ (s.tableKeys ∪ ((List.range' first n).flatMap tablesAbove).toFinset)) := by
    rw [List.range'_1_concat,List.flatMap_append,List.flatMap_singleton,List.toFinset_append]
    ext key
    simp only [Finset.mem_sdiff,Finset.mem_union]
    tauto
  rw [framesNeeded,hsplit,Finset.card_union_of_disjoint,framesNeeded]
  · omega
  · rw [Finset.disjoint_left]
    simp only [Finset.mem_sdiff,Finset.mem_union,not_or]
    tauto

omit [DecidableEq F] [Mapper F] in
theorem framesNeeded_mono (s : UserMemory F) (first : Nat) (h : m ≤ n) : s.framesNeeded first m ≤ s.framesNeeded first n :=
  monotone_nat_of_le_succ (fun k => by rw [framesNeeded_succ]; exact Nat.le_add_right _ _) h

/-- Rounds over pages none of which was mapped: the frames behind the pages and those of the tables they
lacked are taken, and no others. -/
theorem Rounds.of_unmapped (h : Rounds flags page n s t) (hunmapped : ∀ k < n, s.leaves (page + k) = none) :
    ∃ new, Took s t new (framesOf t.leaves page n) ∧
      t.tableKeys = s.tableKeys ∪ ((List.range' page n).flatMap tablesAbove).toFinset := by
  induction h with
  | nil page s => exact ⟨[],.refl s,by simp⟩
  | @cons page n s t hfirst rest ih =>
    obtain ⟨new,frame,htook,hleaves,hkeys⟩ := mapNewPage_of_unmapped (hunmapped 0 (Nat.succ_pos n)) hfirst
    obtain ⟨new',htook',hkeys'⟩ := ih fun k hk => by
      rw [show (s.mapNewPage page flags).2.leaves = _ from hleaves,Nat.add_assoc,Nat.add_comm 1,
        Function.update_of_ne (by omega)]
      exact hunmapped (k + 1) (Nat.succ_lt_succ hk)
    have hframes : framesOf t.leaves page (n + 1) = {frame} + framesOf t.leaves (page + 1) n := by
      rw [framesOf_succ,rest.leaves.1 page (.inl (Nat.lt_succ_self page)),
        show (s.mapNewPage page flags).2.leaves = _ from hleaves,Nat.add_zero,Function.update_self]
      rfl
    refine ⟨new' ++ new,hframes ▸ htook.trans htook',?_⟩
    rw [hkeys',show (s.mapNewPage page flags).2.tableKeys = _ from hkeys,List.range'_succ,List.flatMap_cons,
      List.toFinset_append,Finset.union_assoc,Nat.add_zero]

theorem Rounds.card_available (h : Rounds flags page n s t) (hunmapped : ∀ k < n, s.leaves (page + k) = none) :
    s.available.card = s.framesNeeded page n + t.available.card := by
  obtain ⟨new,htook,hkeys⟩ := h.of_unmapped hunmapped
  have hcard := htook.card
  rw [hkeys,Finset.union_sdiff_left,card_framesOf h.leaves.2] at hcard
  unfold framesNeeded
  omega

omit [DecidableEq F] [Mapper F] in
/-- If a page of the range was mapped before, the frames that there are do not last to it. -/
def EndsBeforeMapped (s : UserMemory F) (first n : Nat) : Prop :=
  ∀ m < n, s.leaves (first + m) ≠ none → (∀ k < m, s.leaves (first + k) = none) → s.available.card ≤ s.framesNeeded first m

/-- The frames last exactly to the pages in front of the one that fails. -/
private theorem unmapped_iff {j : Nat} (hs : s.Intact) (hflags : flags.present) (h : Rounds flags first j s t) (hj : j < n)
    (hfail : (t.mapNewPage (first + j) flags).1 = false) :
    (∀ k < j, s.leaves (first + k) = none) ↔ s.EndsBeforeMapped first n := by
  have ht := h.keeps hs hflags
  have hshort : ¬ 1 + (t.missingTables (first + j)).card ≤ t.available.card := by
    rw [← mapNewPage_iff ht flags,hfail]
    exact Bool.false_ne_true
  constructor
  · intro hunmapped m hm hmapped hbefore
    have hle : j ≤ m := Nat.not_lt.mp fun hlt => hmapped (hunmapped m hlt)
    rw [h.card_available hunmapped]
    obtain hlt | rfl := Nat.lt_or_eq_of_le hle
    · obtain ⟨-,-,hkeys⟩ := h.of_unmapped hunmapped
      have hnext := framesNeeded_succ s first j
      have hmono := framesNeeded_mono s first (show j + 1 ≤ m from hlt)
      rw [missingTables,hkeys] at hshort
      omega
    · have hsame := h.leaves.1 (first + j) (.inr (Nat.le_refl _))
      rw [ht.missingTables_eq_empty (hsame ▸ hmapped),Finset.card_empty] at hshort
      omega
  · intro hends
    by_contra hmapped
    push Not at hmapped
    classical
    have hfirst := Nat.find_spec hmapped
    have hbefore : ∀ k < Nat.find hmapped, s.leaves (first + k) = none := by
      intro k hk
      by_contra hk'
      exact Nat.find_min hmapped hk ⟨by omega,hk'⟩
    obtain ⟨u,hu,hnext⟩ := h.take hfirst.1
    have hle := hends (Nat.find hmapped) (by omega) hfirst.2 hbefore
    rw [hu.card_available hbefore] at hle
    have := (mapNewPage_iff (hu.keeps hs hflags) flags).mp hnext
    omega

/-- A mapping that fails leaves the pages alone, and gives no frame of a mapped page back, exactly when the
frames run out before the first page that was mapped before. -/
theorem mapPages_restores_iff (first n : Nat) (hs : s.Intact) (hheld : ∀ page entry, s.leaves page = some entry → entry.frame ∉ s.available)
    (hflags : flags.present) (hfail : (mapPages first flags first n s).1 = false) :
    (mapPages first flags first n s).2.leaves = s.leaves ∧ (∀ page entry, s.leaves page = some entry →
        entry.frame ∉ (mapPages first flags first n s).2.allocator.freeList) ↔ s.EndsBeforeMapped first n := by
  obtain ⟨j,t,hrounds,⟨-,hres⟩ | ⟨hj,hno,hres⟩⟩ := mapPages_cases first flags first n s
  · rw [hres] at hfail
    cases hfail
  rw [← unmapped_iff hs hflags hrounds hj hno,hres]
  dsimp only
  obtain ⟨hother,hfailed,-⟩ := mapNewPage_leaves (first + j) flags t
  have hpresent := (mapNewPage_keeps (first + j) (hrounds.keeps hs hflags) hflags).present
  obtain ⟨hleaves,-,-,havail,-⟩ := unmapPages_spec .owned hpresent first j
  rw [rollbackPartialMapping_eq,hleaves,hfailed hno]
  constructor
  · rintro ⟨hsame,-⟩ k hk
    rw [← hsame]
    exact if_pos (by omega)
  · intro hunmapped
    refine ⟨funext fun page => ?_,fun page entry hpage hfree => hheld page entry hpage ?_⟩
    · split_ifs with hrange
      · obtain ⟨k,rfl⟩ := Nat.exists_eq_add_of_le hrange.1
        exact (hunmapped k (by omega)).symm
      · exact hrounds.leaves.1 page (by omega)
    · obtain ⟨new,htook,-⟩ := hrounds.of_unmapped hunmapped
      have hmem : entry.frame ∈ (((t.mapNewPage (first + j) flags).2.unmapPages .owned first j).available) :=
        List.mem_append_left _ hfree
      rw [havail,if_pos rfl,hfailed hno] at hmem
      refine Multiset.mem_of_le ?_ hmem
      rw [htook.available,add_assoc]
      exact (add_le_add_right (mapNewPage_available_le _ _ _) _).trans (Multiset.le_add_left _ _)

end MofuOS.Memory.UserMemory
