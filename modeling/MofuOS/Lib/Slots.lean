import Mathlib.Data.List.Basic
import Mathlib.Tactic.SplitIfs

/-! A table of slots that are used again. A new entry goes to the slot on top of the stack of free ones, or behind
the last one, and an entry that is not used any more leaves its slot on the stack. -/
namespace MofuOS.Lib.Slots
variable {α : Type}

/-- Where the next entry goes. -/
def newSlot (next : Nat) (free : List Nat) : Nat := free.headD next

def put (table : List α) (slot : Nat) (a : α) : List α := if slot ≥ table.length then table ++ [a] else table.set slot a

/-- Every entry knows its slot, and the free slots are those of entries out of use. -/
structure Numbered (id : α → Nat) (used : α → Bool) (next : Nat) (free : List Nat) (table : List α) : Prop where
  length : next = table.length
  ids : ∀ (i : Nat) (a : α), table[i]? = some a → id a = i
  unused : ∀ i ∈ free, ∃ a, table[i]? = some a ∧ used a = false
  nodup : free.Nodup

/-- No slot out of use is lost. -/
def Complete (used : α → Bool) (free : List Nat) (table : List α) : Prop :=
  ∀ (i : Nat) (a : α), table[i]? = some a → used a = false → i ∈ free

variable {id : α → Nat} {used : α → Bool} {next slot i : Nat} {free : List Nat} {table table' : List α} {a b : α}

theorem getElem?_put (h : slot ≤ table.length) : (put table slot a)[i]? = if i = slot then some a else table[i]? := by
  unfold put
  split_ifs with hend hi hi
  · rw [hi,Nat.le_antisymm h hend,List.getElem?_concat_length]
  · rw [List.getElem?_append]
    split_ifs with hlt
    · rfl
    · rw [List.getElem?_eq_none (by rw [List.length_singleton]; omega),List.getElem?_eq_none (by omega)]
  · rw [hi,List.getElem?_set_self (by omega)]
  · rw [List.getElem?_set_ne (Ne.symm hi)]

theorem length_put (h : slot ≤ table.length) : (put table slot a).length = max table.length (slot + 1) := by
  unfold put
  split_ifs with hend
  · rw [List.length_append,List.length_singleton]
    omega
  · rw [List.length_set]
    omega

/-- An entry that replaces one without the property. -/
theorem countP_put {q : α → Bool} (hold : ∀ b, table[slot]? = some b → q b = false) :
    (put table slot a).countP q = table.countP q + if q a then 1 else 0 := by
  unfold put
  by_cases hend : slot ≥ table.length
  · rw [if_pos hend,List.countP_append,List.countP_singleton]
  · have hlt := Nat.not_le.mp hend
    rw [if_neg hend,List.countP_set hlt,hold _ (List.getElem?_eq_getElem hlt)]
    rfl

namespace Numbered

theorem empty : Numbered id used 0 [] [] := ⟨rfl,nofun,nofun,List.nodup_nil⟩

theorem newSlot_le (h : Numbered id used next free table) : newSlot next free ≤ table.length := by
  unfold newSlot
  cases free with
  | nil => exact Nat.le_of_eq h.length
  | cons i rest =>
    obtain ⟨a,ha,_⟩ := h.unused i List.mem_cons_self
    exact Nat.le_of_lt (List.getElem?_eq_some_iff.mp ha).1

/-- The entry that a new one replaces is out of use. -/
theorem replaced (h : Numbered id used next free table) (ha : table[newSlot next free]? = some a) : used a = false := by
  unfold newSlot at ha
  cases free with
  | nil =>
    rw [List.headD_nil,h.length,List.getElem?_eq_none (Nat.le_refl _)] at ha
    cases ha
  | cons i rest =>
    obtain ⟨b,hb,hunused⟩ := h.unused i List.mem_cons_self
    cases hb.symm.trans ha
    exact hunused

theorem place (h : Numbered id used next free table) (hid : id a = newSlot next free) :
    Numbered id used (if free = [] then next + 1 else next) free.tail (put table (newSlot next free) a) := by
  have hle := h.newSlot_le
  have hids : ∀ (i : Nat) (b : α), (put table (newSlot next free) a)[i]? = some b → id b = i := by
    intro i b hb
    rw [getElem?_put hle] at hb
    split_ifs at hb with hi
    · rw [← Option.some.inj hb,hi]
      exact hid
    · exact h.ids i b hb
  cases free with
  | nil =>
    refine ⟨?_,hids,nofun,List.nodup_nil⟩
    rw [length_put hle,if_pos rfl,h.length]
    exact (Nat.max_eq_right (Nat.le_succ _)).symm
  | cons j rest =>
    obtain ⟨hj,hrest⟩ := List.nodup_cons.mp h.nodup
    obtain ⟨b,hb,_⟩ := h.unused j List.mem_cons_self
    refine ⟨?_,hids,fun i hi => ?_,hrest⟩
    · have hlt := (List.getElem?_eq_some_iff.mp hb).1
      rw [length_put hle,if_neg (List.cons_ne_nil _ _),h.length]
      exact (Nat.max_eq_left hlt).symm
    · obtain ⟨b',hb',hunused⟩ := h.unused i (List.mem_cons_of_mem _ hi)
      refine ⟨b',?_,hunused⟩
      have hne : i ≠ j := by
        rintro rfl
        exact hj hi
      rw [getElem?_put hle,newSlot,List.headD_cons,if_neg hne,hb']

/-- An entry that goes out of use leaves its slot free. -/
theorem hide (h : Numbered id used next free table) (ha : table[slot]? = some a) (hused : used a = true)
    (hid : id b = id a) (hunused : used b = false) : Numbered id used next (slot :: free) (table.set slot b) := by
  have hlt := (List.getElem?_eq_some_iff.mp ha).1
  have hnew : slot ∉ free := by
    intro hmem
    obtain ⟨a',ha',hunused'⟩ := h.unused slot hmem
    cases ha.symm.trans ha'
    rw [hused] at hunused'
    cases hunused'
  refine ⟨h.length.trans List.length_set.symm,fun i u hu => ?_,fun i hi => ?_,List.nodup_cons.mpr ⟨hnew,h.nodup⟩⟩
  · rw [List.getElem?_set] at hu
    split_ifs at hu with hi
    · rw [← Option.some.inj hu,hid,h.ids slot a ha,hi]
    · exact h.ids i u hu
  · obtain rfl | hi := List.mem_cons.mp hi
    · exact ⟨b,List.getElem?_set_self hlt,hunused⟩
    · obtain ⟨u,hu,hunused'⟩ := h.unused i hi
      have hne : slot ≠ i := by
        rintro rfl
        exact hnew hi
      exact ⟨u,(List.getElem?_set_ne hne).trans hu,hunused'⟩

/-- Entries may change as long as they keep their ids and stay in use or out of it. -/
theorem congr (h : Numbered id used next free table) (hlength : table'.length = table.length)
    (hsame : ∀ (i : Nat) (a : α), table[i]? = some a → ∃ b, table'[i]? = some b ∧ id b = id a ∧ used b = used a) :
    Numbered id used next free table' := by
  refine ⟨h.length.trans hlength.symm,fun i b hb => ?_,fun i hi => ?_,h.nodup⟩
  · have hlt := (List.getElem?_eq_some_iff.mp hb).1
    have ha := List.getElem?_eq_getElem (hlength ▸ hlt)
    obtain ⟨b',hb',hid,_⟩ := hsame i _ ha
    cases hb.symm.trans hb'
    rw [hid]
    exact h.ids i _ ha
  · obtain ⟨a,ha,hunused⟩ := h.unused i hi
    obtain ⟨b,hb,_,hused⟩ := hsame i a ha
    exact ⟨b,hb,hused.trans hunused⟩

end Numbered

namespace Complete

theorem place (h : Complete used free table) (hn : Numbered id used next free table) (hused : used a = true) :
    Complete used free.tail (put table (newSlot next free) a) := by
  intro i b hb hunused
  rw [getElem?_put hn.newSlot_le] at hb
  split_ifs at hb with hi
  · cases hb
    rw [hused] at hunused
    cases hunused
  · have hmem := h i b hb hunused
    cases free with
    | nil => cases hmem
    | cons j rest => exact (List.mem_cons.mp hmem).resolve_left hi

theorem hide (h : Complete used free table) : Complete used (slot :: free) (table.set slot b) := by
  intro i u hu hunused
  rw [List.getElem?_set] at hu
  split_ifs at hu with hi
  · exact hi ▸ List.mem_cons_self
  · exact List.mem_cons_of_mem _ (h i u hu hunused)

end Complete
end MofuOS.Lib.Slots
