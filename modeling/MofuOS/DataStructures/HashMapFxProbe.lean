import MofuOS.DataStructures.HashMapFx
import Mathlib.Data.Nat.ModEq

/-! Where probing ends. A well-formed table keeps every key reachable from its
home slot without crossing an empty slot; tombstones may stand in between. -/
namespace MofuOS.DataStructures.FxHashMap
open Lib
variable {K V : Type} [DecidableEq K] [IntoUsize K]

/-- The j-th slot that a probe from start visits. -/
def pos (cap start j : Nat) : Nat := (start + j) % cap

private theorem mask_eq_pos {cap : Nat} (hp : cap.isPowerOfTwo) (start j : Nat) :
    (start + j) &&& (cap - 1) = pos cap start j := by
  obtain ⟨n,rfl⟩ := hp
  exact Nat.and_two_pow_sub_one_eq_mod _ n

theorem pos_lt {cap : Nat} (h : 0 < cap) (start j : Nat) : pos cap start j < cap := Nat.mod_lt _ h

private theorem pos_inj {cap start i j : Nat} (hi : i < cap) (hj : j < cap)
    (h : pos cap start i = pos cap start j) : i = j := by
  have hm : i ≡ j [MOD cap] := Nat.ModEq.add_left_cancel' start h
  rwa [Nat.ModEq,Nat.mod_eq_of_lt hi,Nat.mod_eq_of_lt hj] at hm

private theorem pos_surj {cap i : Nat} (start : Nat) (hi : i < cap) : ∃ j < cap, pos cap start j = i := by
  have hc : 0 < cap := by omega
  refine ⟨(i + (cap - start % cap)) % cap,Nat.mod_lt _ hc,?_⟩
  have hs := Nat.mod_lt start hc
  have he : start + (i + (cap - start % cap)) = i + cap * (start / cap + 1) := by
    have := Nat.div_add_mod start cap
    rw [Nat.mul_add]
    omega
  rw [pos,Nat.add_mod_mod,he,Nat.add_mul_mod_self_left,Nat.mod_eq_of_lt hi]

/-- Key k with value v lies in slot i. -/
def Spot (slots : List (Slot K V)) (i : Nat) (k : K) (v : V) : Prop :=
  slots[i]? = some (.occupied k v)

def isOccupied (s : Slot K V) : Bool := (occupiedPair s).isSome

/-- What every operation preserves. Nothing here says that an empty slot is left. -/
structure WellFormed (m : FxHashMap K V) : Prop where
  pow : m.slots.length.isPowerOfTwo
  large : defaultCapacity ≤ m.slots.length
  counted : m.count = m.slots.countP isOccupied
  unique : ∀ {i j k v w}, Spot m.slots i k v → Spot m.slots j k w → i = j
  reach : ∀ {j k v}, j < m.slots.length → Spot m.slots (pos m.slots.length (m.getSlotIndex k) j) k v →
    ∀ j' < j, m.slots[pos m.slots.length (m.getSlotIndex k) j']? ≠ some .empty

omit [DecidableEq K] in
theorem WellFormed.cap_pos {m : FxHashMap K V} (h : WellFormed m) : 0 < m.slots.length := by
  have := h.large
  simp only [defaultCapacity] at this
  omega

omit [IntoUsize K] in
private theorem search_spot {slots : List (Slot K V)} {key : K} {start n pr i : Nat}
    (h : search slots key start n pr = some i) : ∃ v, Spot slots i key v := by
  induction n generalizing pr with
  | zero => cases h
  | succ n ih =>
    rw [search] at h
    split at h
    · cases h
    · exact ih h
    · split at h
      · cases h
        subst key
        exact ⟨_,‹_›⟩
      · exact ih h
    · cases h

omit [IntoUsize K] in
private theorem search_finds {slots : List (Slot K V)} {key : K} {start j : Nat} {v : V} (n pr : Nat)
    (hp : slots.length.isPowerOfTwo) (hl : pr ≤ j) (hu : j < pr + n)
    (hv : Spot slots (pos slots.length start j) key v)
    (he : ∀ j', pr ≤ j' → j' < j → slots[pos slots.length start j']? ≠ some .empty) :
    ∃ i, search slots key start n pr = some i := by
  induction n generalizing pr with
  | zero => omega
  | succ n ih =>
    rw [search]
    simp only [mask_eq_pos hp]
    by_cases hj : pr = j
    · subst pr
      rw [hv]
      simp
    · have rest := ih (pr + 1) (by omega) (by omega) (fun j' h1 h2 => he j' (by omega) h2)
      have hc := pos_lt (Nat.pos_of_isPowerOfTwo hp) start pr
      rw [List.getElem?_eq_getElem hc]
      cases hs : slots[pos slots.length start pr] with
      | empty => exact absurd (by rw [List.getElem?_eq_getElem hc,hs]) (he pr (le_refl _) (by omega))
      | dead => exact rest
      | occupied k w =>
        simp only
        split_ifs
        · exact ⟨_,rfl⟩
        · exact rest

/-- A search over the whole table finds a key exactly when some slot holds it. -/
theorem find_iff {m : FxHashMap K V} (h : WellFormed m) (key : K) (i : Nat) :
    m.find key = some i ↔ ∃ v, Spot m.slots i key v := by
  refine ⟨search_spot,fun ⟨v,hv⟩ => ?_⟩
  have hi : i < m.slots.length := (List.getElem?_eq_some_iff.mp hv).1
  obtain ⟨j,hj,rfl⟩ := pos_surj (m.getSlotIndex key) hi
  obtain ⟨i',hi'⟩ := search_finds m.slots.length 0 h.pow (Nat.zero_le _) (by omega) hv
    (fun j' _ hl => h.reach hj hv j' hl)
  obtain ⟨w,hw⟩ := search_spot hi'
  rw [find,hi',h.unique hv hw]

theorem get_iff {m : FxHashMap K V} (h : WellFormed m) (key : K) (v : V) :
    m.get key = some v ↔ ∃ i, Spot m.slots i key v := by
  rw [get,Option.bind_eq_some_iff]
  constructor
  · rintro ⟨i,hi,hv⟩
    obtain ⟨w,hw⟩ := (find_iff h key i).mp hi
    rw [valueAt,hw] at hv
    cases hv
    exact ⟨i,hw⟩
  · rintro ⟨i,hv⟩
    refine ⟨i,(find_iff h key i).mpr ⟨v,hv⟩,?_⟩
    rw [valueAt,hv]

omit [IntoUsize K] in
/-- What the loop of insert and entry learns by its end, with d the first
tombstone it has met in front of probe pr. -/
private theorem probe_spec {slots : List (Slot K V)} {key : K} {start : Nat} (n pr : Nat) (d : Option Nat)
    (hp : slots.length.isPowerOfTwo) (hn : pr + n = slots.length)
    (hd : ∀ i ∈ d, ∃ j < pr, i = pos slots.length start j ∧ slots[i]? = some .dead)
    (he : ∀ j < pr, slots[pos slots.length start j]? ≠ some .empty ∧
      ∀ v, ¬ Spot slots (pos slots.length start j) key v) :
    match probe slots key start n pr d with
    | .found i => ∃ v, Spot slots i key v
    | .vacant i => ∃ e < slots.length, slots[pos slots.length start e]? = some .empty ∧
        (∃ j ≤ e, i = pos slots.length start j ∧
          (slots[i]? = some .empty ∨ slots[i]? = some .dead)) ∧
        ∀ j < e, slots[pos slots.length start j]? ≠ some .empty ∧
          ∀ v, ¬ Spot slots (pos slots.length start j) key v
    | .full => ∀ j < slots.length, slots[pos slots.length start j]? ≠ some .empty ∧
          ∀ v, ¬ Spot slots (pos slots.length start j) key v := by
  induction n generalizing pr d with
  | zero =>
    obtain rfl : pr = slots.length := by omega
    simpa only [probe] using he
  | succ n ih =>
    have hc := pos_lt (Nat.pos_of_isPowerOfTwo hp) start pr
    rw [probe]
    simp only [mask_eq_pos hp]
    rw [List.getElem?_eq_getElem hc]
    cases hs : slots[pos slots.length start pr] with
    | empty =>
      have hv : slots[pos slots.length start pr]? = some .empty := by rw [List.getElem?_eq_getElem hc,hs]
      refine ⟨pr,by omega,hv,?_,he⟩
      cases d with
      | none => exact ⟨pr,le_refl _,rfl,.inl hv⟩
      | some i =>
        obtain ⟨j,hj,hi,hdead⟩ := hd i rfl
        exact ⟨j,by omega,hi,.inr hdead⟩
    | dead =>
      have hv : slots[pos slots.length start pr]? = some .dead := by rw [List.getElem?_eq_getElem hc,hs]
      refine ih (pr + 1) _ (by omega) ?_ ?_
      · intro i hi
        cases d with
        | none => cases hi; exact ⟨pr,by omega,rfl,hv⟩
        | some i' =>
          obtain ⟨j,hj,hrest⟩ := hd i hi
          exact ⟨j,by omega,hrest⟩
      · intro j hj
        obtain hj | rfl : j < pr ∨ j = pr := by omega
        · exact he j hj
        · simp [Spot,hv]
    | occupied k w =>
      have hv : slots[pos slots.length start pr]? = some (.occupied k w) := by
        rw [List.getElem?_eq_getElem hc,hs]
      simp only
      split_ifs with hk
      · subst key
        exact ⟨w,hv⟩
      · refine ih (pr + 1) _ (by omega) ?_ ?_
        · intro i hi
          obtain ⟨j,hj,hrest⟩ := hd i hi
          exact ⟨j,by omega,hrest⟩
        · intro j hj
          obtain hj | rfl : j < pr ∨ j = pr := by omega
          · exact he j hj
          · simp [Spot,hv,hk]

private theorem locate_spec {m : FxHashMap K V} (h : WellFormed m) (key : K) :
    match m.locate key with
    | .found i => ∃ v, Spot m.slots i key v
    | .vacant i => ∃ e < m.slots.length, m.slots[pos m.slots.length (m.getSlotIndex key) e]? = some .empty ∧
        (∃ j ≤ e, i = pos m.slots.length (m.getSlotIndex key) j ∧
          (m.slots[i]? = some .empty ∨ m.slots[i]? = some .dead)) ∧
        ∀ j < e, m.slots[pos m.slots.length (m.getSlotIndex key) j]? ≠ some .empty ∧
          ∀ v, ¬ Spot m.slots (pos m.slots.length (m.getSlotIndex key) j) key v
    | .full => ∀ j < m.slots.length, m.slots[pos m.slots.length (m.getSlotIndex key) j]? ≠ some .empty ∧
          ∀ v, ¬ Spot m.slots (pos m.slots.length (m.getSlotIndex key) j) key v :=
  probe_spec m.slots.length 0 none h.pow (by omega) (by simp) (by simp)

/-- The key is in slot i. -/
theorem locate_found {m : FxHashMap K V} (h : WellFormed m) {key : K} {i : Nat}
    (hl : m.locate key = .found i) : ∃ v, Spot m.slots i key v := by
  have := locate_spec h key
  rw [hl] at this
  exact this

/-- The key is absent, slot i is free, and the probe path to it has no gap. -/
theorem locate_vacant {m : FxHashMap K V} (h : WellFormed m) {key : K} {i : Nat}
    (hl : m.locate key = .vacant i) :
    m.get key = none ∧ (m.slots[i]? = some .empty ∨ m.slots[i]? = some .dead) ∧
      ∀ j < m.slots.length, pos m.slots.length (m.getSlotIndex key) j = i →
        ∀ j' < j, m.slots[pos m.slots.length (m.getSlotIndex key) j']? ≠ some .empty := by
  have hs := locate_spec h key
  rw [hl] at hs
  obtain ⟨e,he,hempty,⟨j,hj,rfl,hfree⟩,hpath⟩ := hs
  refine ⟨?_,hfree,?_⟩
  · rw [Option.eq_none_iff_forall_ne_some]
    intro v hv
    obtain ⟨i,hi⟩ := (get_iff h key v).mp hv
    obtain ⟨q,hq,rfl⟩ := pos_surj (m.getSlotIndex key) (List.getElem?_eq_some_iff.mp hi).1
    rcases Nat.lt_trichotomy q e with hqe | rfl | hqe
    · exact (hpath q hqe).2 v hi
    · rw [Spot,hempty] at hi
      cases hi
    · exact h.reach hq hi e hqe hempty
  · intro j' hj' heq q hq
    rw [pos_inj hj' (by omega) heq] at hq
    exact (hpath q (by omega)).1

/-- Probing for an absent key only ends at an empty slot. -/
theorem locate_vacant_empty {m : FxHashMap K V} (h : WellFormed m) {key : K} {i : Nat}
    (hl : m.locate key = .vacant i) : .empty ∈ m.slots := by
  have hs := locate_spec h key
  rw [hl] at hs
  obtain ⟨e,_,hempty,_⟩ := hs
  exact List.mem_iff_getElem?.mpr ⟨_,hempty⟩

/-- No empty slot is left anywhere. -/
theorem locate_full {m : FxHashMap K V} (h : WellFormed m) {key : K} (hl : m.locate key = .full) :
    m.get key = none ∧ ∀ i : Nat, m.slots[i]? ≠ some .empty := by
  have hs := locate_spec h key
  rw [hl] at hs
  constructor
  · rw [Option.eq_none_iff_forall_ne_some]
    intro v hv
    obtain ⟨i,hi⟩ := (get_iff h key v).mp hv
    obtain ⟨q,hq,rfl⟩ := pos_surj (m.getSlotIndex key) (List.getElem?_eq_some_iff.mp hi).1
    exact (hs q hq).2 v hi
  · intro i hi
    obtain ⟨q,hq,rfl⟩ := pos_surj (m.getSlotIndex key) (List.getElem?_eq_some_iff.mp hi).1
    exact (hs q hq).1 hi

end MofuOS.DataStructures.FxHashMap
