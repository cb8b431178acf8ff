import MofuOS.Memory.MappedPages

/-! How far a number of frames goes in an address space that was new. -/
namespace MofuOS.Memory.UserMemory
variable {F : Type} {s t : UserMemory F} {n page : Nat} {pages : List Nat} {flags : PageTableFlags}

/-- What the pages take once all of them are mapped. -/
def framesTaken (pages : List Nat) : Nat := pages.toFinset.card + (pages.flatMap tablesAbove).toFinset.card

/-- The tables that one more page takes. -/
def tablesAdded (pages : List Nat) (page : Nat) : Nat :=
  ((tablesAbove page).toFinset \ (pages.flatMap tablesAbove).toFinset).card

/-- n frames last while the pages are mapped one after the other behind those that are mapped. A page that
is mapped already takes a frame for a moment. -/
def framesLast (n : Nat) : List Nat → List Nat → Bool
  | _, [] => true
  | mapped, page :: pages => framesTaken mapped + tablesAdded mapped page < n && framesLast n (mapped ++ [page]) pages

theorem framesLast_append (n : Nat) (mapped front behind : List Nat) :
    framesLast n mapped (front ++ behind) = (framesLast n mapped front && framesLast n (mapped ++ front) behind) := by
  induction front generalizing mapped with
  | nil => simp only [List.nil_append,List.append_nil,framesLast,Bool.true_and]
  | cons page front ih => simp only [List.cons_append,framesLast,ih,Bool.and_assoc,List.append_assoc,List.nil_append]

theorem framesTaken_concat (pages : List Nat) (page : Nat) :
    framesTaken (pages ++ [page]) = framesTaken pages + tablesAdded pages page + if page ∈ pages then 0 else 1 := by
  have htables : ((pages ++ [page]).flatMap tablesAbove).toFinset =
      (pages.flatMap tablesAbove).toFinset ∪ ((tablesAbove page).toFinset \ (pages.flatMap tablesAbove).toFinset) := by
    rw [List.flatMap_append,List.flatMap_singleton,List.toFinset_append,Finset.union_sdiff_self_eq_union]
  have hpages : (pages ++ [page]).toFinset.card = pages.toFinset.card + if page ∈ pages then 0 else 1 := by
    rw [List.toFinset_append,show [page].toFinset = {page} from rfl,Finset.union_comm,← Finset.insert_eq]
    split_ifs with hpage
    · rw [Finset.insert_eq_of_mem (List.mem_toFinset.mpr hpage),add_zero]
    · rw [Finset.card_insert_of_notMem fun h => hpage (List.mem_toFinset.mp h)]
  rw [framesTaken,htables,Finset.card_union_of_disjoint Finset.disjoint_sdiff,hpages,framesTaken,tablesAdded]
  omega

/-- Exactly the pages were mapped since there were n frames. -/
structure Holding (n : Nat) (pages : List Nat) (s : UserMemory F) : Prop where
  intact : s.Intact
  mapped : ∀ page, s.leaves page ≠ none ↔ page ∈ pages
  tables : s.tableKeys = (pages.flatMap tablesAbove).toFinset
  free : framesTaken pages + s.available.card = n

namespace Holding

theorem missingTables (h : Holding n pages s) (page : Nat) : (s.missingTables page).card = tablesAdded pages page := by
  rw [UserMemory.missingTables,h.tables,tablesAdded]

variable [DecidableEq F] [Mapper F]

theorem mapNewPage_iff (h : Holding n pages s) (page : Nat) (flags : PageTableFlags) :
    (s.mapNewPage page flags).1 = true ↔ framesTaken pages + tablesAdded pages page < n := by
  rw [UserMemory.mapNewPage_iff h.intact,h.missingTables]
  have := h.free
  omega

theorem mapNewPage (h : Holding n pages s) (page : Nat) (hflags : flags.present) (hok : (s.mapNewPage page flags).1 = true) :
    Holding n (pages ++ [page]) (s.mapNewPage page flags).2 := by
  have htables : (s.mapNewPage page flags).2.tableKeys = ((pages ++ [page]).flatMap tablesAbove).toFinset := by
    rw [mapNewPage_tables hok,h.tables,List.flatMap_append,List.flatMap_singleton,List.toFinset_append]
  have hmissing := h.missingTables page
  obtain ⟨hother,-,hmapped⟩ := mapNewPage_leaves page flags s
  refine ⟨mapNewPage_keeps page h.intact hflags,fun p => ?_,htables,?_⟩
  · by_cases hp : p = page
    · rw [hp]
      exact iff_of_true (hmapped hok) (by simp)
    · rw [hother p hp,h.mapped,List.mem_append,List.mem_singleton,or_iff_left hp]
  · rw [framesTaken_concat]
    have hfree := h.free
    obtain ⟨new,hsub,⟨hr,-⟩ | ⟨existing,hex,-,htook,-,-,hall⟩ | ⟨frame,hnone,-,htook,-,-,hall⟩⟩ := mapNewPage_cases page flags s
    · rw [hok] at hr
      cases hr
    · have hcard := htook.card_of_all hsub hall
      rw [if_pos ((h.mapped page).mp (by rw [hex]; nofun))]
      rw [Multiset.card_zero] at hcard
      omega
    · have hcard := htook.card_of_all hsub hall
      rw [if_neg fun hp => (h.mapped page).mpr hp hnone]
      rw [Multiset.card_singleton] at hcard
      omega

/-- A row of pages is mapped exactly when the frames last. -/
theorem mapPages (h : Holding n pages s) (hflags : flags.present) (startPage first k : Nat) :
    (mapPages startPage flags first k s).1 = framesLast n pages (List.range' first k) ∧
      ((UserMemory.mapPages startPage flags first k s).1 = true →
        Holding n (pages ++ List.range' first k) (UserMemory.mapPages startPage flags first k s).2) := by
  induction k generalizing first pages s with
  | zero => exact ⟨rfl,fun _ => by rwa [List.range'_zero,List.append_nil]⟩
  | succ k ih =>
    have hiff := h.mapNewPage_iff first flags
    have hnext := h.mapNewPage first hflags
    rw [List.range'_succ,framesLast,UserMemory.mapPages]
    generalize UserMemory.mapNewPage first flags s = r at *
    obtain ⟨ok,t⟩ := r
    cases ok with
    | false =>
      rw [decide_eq_false fun hlt => Bool.false_ne_true (hiff.mpr hlt)]
      exact ⟨rfl,fun hok => absurd hok Bool.false_ne_true⟩
    | true =>
      rw [decide_eq_true (hiff.mp rfl)]
      have hrest := ih (hnext rfl) (first + 1)
      rw [List.append_assoc,List.singleton_append] at hrest
      exact hrest

end Holding
end MofuOS.Memory.UserMemory
