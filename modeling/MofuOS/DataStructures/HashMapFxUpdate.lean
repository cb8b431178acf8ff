import MofuOS.DataStructures.HashMapFxProbe

/-! Writing one slot, rehashing all of them. Each update keeps the table well
formed and changes the lookup of at most one key. -/
namespace MofuOS.DataStructures.FxHashMap
open Lib
variable {K V : Type} [DecidableEq K] [IntoUsize K]

omit [DecidableEq K] [IntoUsize K] in
private theorem spot_set {slots : List (Slot K V)} {i j : Nat} {s : Slot K V} {k : K} {v : V}
    (hi : i < slots.length) :
    Spot (slots.set i s) j k v ↔ (i = j ∧ s = .occupied k v) ∨ (i ≠ j ∧ Spot slots j k v) := by
  unfold Spot
  rw [List.getElem?_set]
  by_cases h : i = j
  · subst h
    simp [hi]
  · simp [h]

omit [DecidableEq K] [IntoUsize K] in
private theorem not_empty_set {slots : List (Slot K V)} {i j : Nat} {s : Slot K V} (hs : s ≠ .empty)
    (h : slots[j]? ≠ some .empty) : (slots.set i s)[j]? ≠ some .empty := by
  rw [List.getElem?_set]
  split_ifs <;> simp_all

omit [IntoUsize K] in
/-- The table's lookup is determined by which pairs its slots hold. -/
private theorem get_eq_of_spots [IntoUsize K] {m : FxHashMap K V} (h : WellFormed m) {g : K → Option V}
    (hg : ∀ k v, (∃ i, Spot m.slots i k v) ↔ g k = some v) (k : K) : m.get k = g k := by
  cases hk : g k with
  | some v => exact (get_iff h k v).mpr ((hg k v).mpr hk)
  | none =>
    rw [Option.eq_none_iff_forall_ne_some]
    intro v hv
    have := (hg k v).mp ((get_iff h k v).mp hv)
    rw [hk] at this
    cases this

omit [DecidableEq K] in
theorem blank_wellFormed {cap : Nat} (hp : cap.isPowerOfTwo) (hl : defaultCapacity ≤ cap) :
    WellFormed (blank cap : FxHashMap K V) := by
  have hs (i : Nat) (k : K) (v : V) : ¬ Spot (blank cap : FxHashMap K V).slots i k v := by
    simp [Spot,blank,List.getElem?_replicate]
  refine ⟨by simpa [blank] using hp,by simpa [blank] using hl,?_,?_,?_⟩
  · simp [blank,List.countP_replicate,isOccupied,occupiedPair]
  · intro i j k v w hi
    exact absurd hi (hs i k v)
  · intro j k v _ hv
    exact absurd hv (hs _ k v)

theorem get_blank {cap : Nat} (hp : cap.isPowerOfTwo) (hl : defaultCapacity ≤ cap) (k : K) :
    (blank cap : FxHashMap K V).get k = none :=
  get_eq_of_spots (g := fun _ => none) (blank_wellFormed hp hl)
    (by simp [Spot,blank,List.getElem?_replicate]) k

omit [DecidableEq K] in
/-- Overwriting slot i by a tombstone, or by a key that no other slot holds and
whose probe path to i has no gap. -/
private theorem WellFormed.set {m : FxHashMap K V} (h : WellFormed m) {i c : Nat} {s : Slot K V}
    (hi : i < m.slots.length) (hs : s ≠ .empty) (hc : c = (m.slots.set i s).countP isOccupied)
    (hk : ∀ k v, s = .occupied k v → (∀ j w, Spot m.slots j k w → j = i) ∧
      ∀ j < m.slots.length, pos m.slots.length (m.getSlotIndex k) j = i →
        ∀ j' < j, m.slots[pos m.slots.length (m.getSlotIndex k) j']? ≠ some .empty) :
    WellFormed (⟨m.slots.set i s,c⟩ : FxHashMap K V) := by
  refine ⟨by simpa using h.pow,by simpa using h.large,hc,?_,?_⟩
  · intro a b k v w ha hb
    rw [spot_set hi] at ha hb
    rcases ha with ⟨rfl,ha⟩ | ⟨_,ha⟩ <;> rcases hb with ⟨rfl,hb⟩ | ⟨_,hb⟩
    · rfl
    · exact ((hk k v ha).1 _ _ hb).symm
    · exact (hk k w hb).1 _ _ ha
    · exact h.unique ha hb
  · intro j k v hj hv j' hj'
    simp only [List.length_set,getSlotIndex] at hj hv ⊢
    apply not_empty_set hs
    rw [spot_set hi] at hv
    rcases hv with ⟨hij,hv⟩ | ⟨_,hv⟩
    · exact (hk k v hv).2 j hj hij.symm j' hj'
    · exact h.reach hj hv j' hj'

private theorem get_set {m : FxHashMap K V} (h : WellFormed m) {i c : Nat} {s : Slot K V}
    (hi : i < m.slots.length) (hw : WellFormed (⟨m.slots.set i s,c⟩ : FxHashMap K V)) {key : K}
    {new : Option V} (hnew : ∀ v, s = .occupied key v ↔ new = some v)
    (hother : ∀ k v, k ≠ key → s ≠ .occupied k v ∧ ¬ Spot m.slots i k v)
    (hkey : ∀ j v, Spot m.slots j key v → j = i) (k : K) :
    (⟨m.slots.set i s,c⟩ : FxHashMap K V).get k = if k = key then new else m.get k := by
  refine get_eq_of_spots hw (g := fun k => if k = key then new else m.get k) ?_ k
  intro k v
  simp only [spot_set hi]
  by_cases hk : k = key
  · subst hk
    rw [if_pos rfl,← hnew]
    constructor
    · rintro ⟨j,⟨_,he⟩ | ⟨hne,hj⟩⟩
      · exact he
      · exact absurd (hkey j v hj).symm hne
    · exact fun he => ⟨i,.inl ⟨rfl,he⟩⟩
  · rw [if_neg hk,get_iff h]
    constructor
    · rintro ⟨j,⟨_,he⟩ | ⟨_,hj⟩⟩
      · exact absurd he (hother k v hk).1
      · exact ⟨j,hj⟩
    · rintro ⟨j,hj⟩
      exact ⟨j,.inr ⟨fun he => (hother k v hk).2 (he ▸ hj),hj⟩⟩

omit [DecidableEq K] [IntoUsize K] in
private theorem countP_fill {slots : List (Slot K V)} {i : Nat} (k : K) (v : V)
    (h : slots[i]? = some .empty ∨ slots[i]? = some .dead) :
    slots.countP isOccupied + 1 = (slots.set i (.occupied k v)).countP isOccupied := by
  have hi : i < slots.length := by
    rcases h with hf | hf <;> exact (List.getElem?_eq_some_iff.mp hf).1
  have hs : isOccupied slots[i] = false := by
    rcases h with hf | hf <;> (obtain ⟨_,he⟩ := List.getElem?_eq_some_iff.mp hf; rw [he]; rfl)
  rw [List.countP_set hi,hs,show isOccupied (.occupied k v) = true from rfl]
  simp

omit [DecidableEq K] [IntoUsize K] in
private theorem countP_spot {slots : List (Slot K V)} {i : Nat} {k : K} {v : V}
    (h : Spot slots i k v) (s : Slot K V) :
    1 ≤ slots.countP isOccupied ∧
      (slots.set i s).countP isOccupied =
        slots.countP isOccupied - 1 + if isOccupied s then 1 else 0 := by
  obtain ⟨hi,hs⟩ := List.getElem?_eq_some_iff.mp h
  have ho : isOccupied slots[i] = true := by rw [hs]; rfl
  exact ⟨List.countP_pos_iff.mpr ⟨_,List.getElem_mem hi,ho⟩,by simp [List.countP_set hi,ho]⟩

/-- Filling the slot that the probe chose for an absent key. -/
theorem fill_vacant {m : FxHashMap K V} (h : WellFormed m) {key : K} {i : Nat} (value : V)
    (hl : m.locate key = .vacant i) :
    let m' : FxHashMap K V := ⟨m.slots.set i (.occupied key value),m.count + 1⟩
    WellFormed m' ∧ ∀ k, m'.get k = if k = key then some value else m.get k := by
  obtain ⟨habs,hfree,hpath⟩ := locate_vacant h hl
  have hi : i < m.slots.length := by
    rcases hfree with hf | hf <;> exact (List.getElem?_eq_some_iff.mp hf).1
  have hkey (j : Nat) (v : V) : ¬ Spot m.slots j key v := fun hj => by
    rw [(get_iff h key v).mpr ⟨j,hj⟩] at habs
    cases habs
  have hw : WellFormed (⟨m.slots.set i (.occupied key value),m.count + 1⟩ : FxHashMap K V) := by
    refine h.set hi (by simp) (by rw [h.counted,countP_fill key value hfree]) ?_
    intro k v he
    cases he
    exact ⟨fun j w hj => absurd hj (hkey j w),hpath⟩
  refine ⟨hw,get_set h hi hw (by simp) ?_ (fun j v hj => absurd hj (hkey j v))⟩
  intro k v hk
  refine ⟨by simp [Ne.symm hk],?_⟩
  rcases hfree with hf | hf <;> simp [Spot,hf]

omit [DecidableEq K] in
private theorem spot_path {m : FxHashMap K V} (h : WellFormed m) {key : K} {i : Nat} {old : V}
    (hi : Spot m.slots i key old) : ∀ j < m.slots.length, pos m.slots.length (m.getSlotIndex key) j = i →
      ∀ j' < j, m.slots[pos m.slots.length (m.getSlotIndex key) j']? ≠ some .empty :=
  fun _ hj he => h.reach hj (show Spot m.slots _ key old from he.symm ▸ hi)

/-- Replacing the value of a key that is present. -/
theorem replace_value {m : FxHashMap K V} (h : WellFormed m) {key : K} {i : Nat} {old : V} (value : V)
    (hi : Spot m.slots i key old) :
    let m' : FxHashMap K V := ⟨m.slots.set i (.occupied key value),m.count⟩
    WellFormed m' ∧ ∀ k, m'.get k = if k = key then some value else m.get k := by
  obtain ⟨hlt,hs⟩ := List.getElem?_eq_some_iff.mp hi
  have hw : WellFormed (⟨m.slots.set i (.occupied key value),m.count⟩ : FxHashMap K V) := by
    refine h.set hlt (by simp) ?_ ?_
    · obtain ⟨hp,hc⟩ := countP_spot hi (.occupied key value)
      rw [h.counted,hc,show isOccupied (.occupied key value) = true from rfl,if_pos rfl]
      omega
    · intro k v he
      cases he
      exact ⟨fun j w hj => h.unique hj hi,spot_path h hi⟩
  refine ⟨hw,get_set h hlt hw (by simp) ?_ (fun j v hj => h.unique hj hi)⟩
  intro k v hk
  simp only [Spot,ne_eq,Slot.occupied.injEq,show m.slots[i]? = _ from hi,Option.some.injEq]
  exact ⟨fun he => hk he.1.symm,fun he => hk he.1.symm⟩

/-- Leaving a tombstone where a key was. -/
theorem bury {m : FxHashMap K V} (h : WellFormed m) {key : K} {i : Nat} {old : V}
    (hi : Spot m.slots i key old) :
    let m' : FxHashMap K V := ⟨m.slots.set i .dead,m.count - 1⟩
    1 ≤ m.count ∧ WellFormed m' ∧ ∀ k, m'.get k = if k = key then none else m.get k := by
  obtain ⟨hlt,hs⟩ := List.getElem?_eq_some_iff.mp hi
  obtain ⟨hp,hc⟩ := countP_spot hi .dead
  have hw : WellFormed (⟨m.slots.set i .dead,m.count - 1⟩ : FxHashMap K V) := by
    refine h.set hlt (by simp) ?_ (by simp)
    rw [h.counted,hc]
    simp [isOccupied,occupiedPair]
  refine ⟨by rw [h.counted]; exact hp,hw,get_set h hlt hw (by simp) ?_ (fun j v hj => h.unique hj hi)⟩
  intro k v hk
  simp only [Spot,ne_eq,reduceCtorEq,not_false_eq_true,true_and,show m.slots[i]? = _ from hi,
    Option.some.injEq,Slot.occupied.injEq]
  exact fun he => hk he.1.symm

/-- Neither the key nor an empty slot is missing, so probing ends well. -/
def HasRoom (m : FxHashMap K V) (key : K) : Prop := m.containsKey key ∨ .empty ∈ m.slots

instance [DecidableEq V] (m : FxHashMap K V) (key : K) : Decidable (HasRoom m key) :=
  inferInstanceAs (Decidable (m.containsKey key = true ∨ Slot.empty ∈ m.slots))

theorem locate_cases {m : FxHashMap K V} (h : WellFormed m) {key : K} (hr : HasRoom m key) :
    (∃ i v, m.locate key = .found i ∧ Spot m.slots i key v ∧ m.get key = some v) ∨
      ∃ i, m.locate key = .vacant i ∧ m.get key = none := by
  cases hl : m.locate key with
  | found i =>
    obtain ⟨v,hv⟩ := locate_found h hl
    exact .inl ⟨i,v,rfl,hv,(get_iff h key v).mpr ⟨i,hv⟩⟩
  | vacant i => exact .inr ⟨i,rfl,(locate_vacant h hl).1⟩
  | full =>
    obtain ⟨habs,hfull⟩ := locate_full h hl
    rcases hr with hr | hr
    · simp [containsKey,habs] at hr
    · obtain ⟨i,hi⟩ := List.mem_iff_getElem?.mp hr
      exact absurd hi (hfull i)

/-- The body of insert agrees with a finite map and creates no tombstone. -/
theorem insertProbed_spec (p : Profile) {m : FxHashMap K V} (h : WellFormed m) {k : K} (value : V)
    (hr : HasRoom m k) :
    ∃ m', insertProbed p m k value = .ok (m.get k,m') ∧ WellFormed m' ∧
      m'.slots.length = m.slots.length ∧ (.dead ∈ m'.slots → .dead ∈ m.slots) ∧
      m'.count = m.count + (if m.get k = none then 1 else 0) ∧
      ∀ k', m'.get k' = if k' = k then some value else m.get k' := by
  have hdead (i : Nat) : .dead ∈ m.slots.set i (.occupied k value) → .dead ∈ m.slots := fun hd => by
    rcases List.mem_or_eq_of_mem_set hd with hd | hd
    · exact hd
    · cases hd
  rcases locate_cases h hr with ⟨i,v,hl,hv,hg⟩ | ⟨i,hl,hg⟩
  · obtain ⟨hw,hget⟩ := replace_value h value hv
    refine ⟨_,?_,hw,by simp,hdead i,by simp [hg],hget⟩
    rw [insertProbed,hl]
    simp only [show m.slots[i]? = _ from hv,hg]
    rfl
  · obtain ⟨hw,hget⟩ := fill_vacant h value hl
    refine ⟨_,?_,hw,by simp,hdead i,by simp [hg],hget⟩
    rw [insertProbed,hl,hg]
    rfl

omit [DecidableEq K] in
/-- A table without tombstones that is not all occupied has an empty slot. -/
private theorem empty_mem {m : FxHashMap K V} (h : WellFormed m) (hd : .dead ∉ m.slots)
    (hc : m.count < m.slots.length) : .empty ∈ m.slots := by
  by_contra hn
  have hall : m.slots.countP isOccupied = m.slots.length := by
    rw [List.countP_eq_length]
    intro s hs
    cases s with
    | empty => exact absurd hs hn
    | dead => exact absurd hs hd
    | occupied k v => rfl
  rw [h.counted] at hc
  omega

/-- While the slots of a table of length c are moved to one twice as long, the
load check of insert never holds. -/
theorem rehash_not_overloaded {m : FxHashMap K V} {c : Nat} (hc : m.count < c)
    (hl : c * 2 ≤ m.slots.length) (p : Profile) (key : K) (value : V) :
    insert p m key value = insertProbed p m key value := by
  have ho : m.overloaded = false := by
    simp only [overloaded,maxLoadFactorDen,maxLoadFactorNum,gt_iff_lt,decide_eq_false_iff_not]
    omega
  simp only [insert,makeRoom,ho]
  rfl

private theorem rehash_spec (p : Profile) {m : FxHashMap K V} (h : WellFormed m) (hd : .dead ∉ m.slots)
    (rest : List (Slot K V)) (hc : m.count + rest.length ≤ m.slots.length)
    (hn : ((rest.filterMap occupiedPair).map Prod.fst).Nodup)
    (hf : ∀ k v, (k,v) ∈ rest.filterMap occupiedPair → m.get k = none) :
    ∃ m', rehash p m rest = .ok m' ∧ WellFormed m' ∧ m'.slots.length = m.slots.length ∧
      .dead ∉ m'.slots ∧ m'.count ≤ m.count + rest.length ∧
      ∀ k v, m'.get k = some v ↔ m.get k = some v ∨ (k,v) ∈ rest.filterMap occupiedPair := by
  induction rest generalizing m with
  | nil => exact ⟨m,rfl,h,rfl,hd,by simp,by simp⟩
  | cons s rest ih =>
    simp only [List.length_cons] at hc ⊢
    cases s with
    | empty =>
      obtain ⟨m',he,hw,hl,hd',hcount,hg⟩ := ih h hd (by omega) hn hf
      exact ⟨m',he,hw,hl,hd',by omega,hg⟩
    | dead =>
      obtain ⟨m',he,hw,hl,hd',hcount,hg⟩ := ih h hd (by omega) hn hf
      exact ⟨m',he,hw,hl,hd',by omega,hg⟩
    | occupied k v =>
      simp only [List.filterMap_cons,occupiedPair,List.map_cons,List.nodup_cons] at hn
      simp only [List.filterMap_cons,occupiedPair,List.mem_cons] at hf ⊢
      have hk : m.get k = none := hf k v (.inl rfl)
      obtain ⟨m1,he1,hw1,hl1,hd1,hc1,hg1⟩ := insertProbed_spec p h (k := k) v
        (.inr (empty_mem h hd (by omega)))
      rw [if_pos hk] at hc1
      have hfresh (k' : K) (v' : V) (hmem : (k',v') ∈ rest.filterMap occupiedPair) : m1.get k' = none := by
        have hne : k' ≠ k := fun he => hn.1 (List.mem_map.mpr ⟨(k',v'),hmem,he⟩)
        rw [hg1,if_neg hne]
        exact hf k' v' (.inr hmem)
      obtain ⟨m2,he2,hw2,hl2,hd2,hc2,hg2⟩ := ih hw1 (fun hx => hd (hd1 hx)) (by omega) hn.2 hfresh
      refine ⟨m2,?_,hw2,by omega,hd2,by omega,?_⟩
      · simp only [rehash,he1]
        exact he2
      · intro k' v'
        rw [hg2,hg1]
        by_cases hkk : k' = k
        · subst hkk
          simp [hk,eq_comm]
        · simp [hkk]

omit [DecidableEq K] [IntoUsize K] in
theorem mem_iter {m : FxHashMap K V} {k : K} {v : V} :
    (k,v) ∈ m.iter ↔ ∃ i, Spot m.slots i k v := by
  rw [iter,List.mem_filterMap]
  constructor
  · rintro ⟨s,hmem,hs⟩
    obtain ⟨i,hi⟩ := List.mem_iff_getElem?.mp hmem
    cases s <;> cases hs
    exact ⟨i,hi⟩
  · rintro ⟨i,hi⟩
    exact ⟨_,List.mem_iff_getElem?.mpr ⟨i,hi⟩,rfl⟩

omit [DecidableEq K] in
theorem iter_nodup {m : FxHashMap K V} (h : WellFormed m) : (m.iter.map Prod.fst).Nodup := by
  rw [List.Nodup,List.pairwise_map,iter,List.pairwise_filterMap,List.pairwise_iff_getElem]
  intro i j hi hj hij a ha b hb hab
  have hs (x : Nat) (hx : x < m.slots.length) (c : K × V) (hc : occupiedPair m.slots[x] = some c) :
      Spot m.slots x c.1 c.2 := by
    rw [Spot,List.getElem?_eq_getElem hx]
    cases he : m.slots[x] <;> rw [he] at hc <;> cases hc
    rfl
  have hspot := hs j hj b hb
  rw [← hab] at hspot
  exact absurd (h.unique (hs i hi a ha) hspot) (by omega)

/-- Growth keeps the contents, drops every tombstone and leaves an empty slot. -/
theorem grow_spec (p : Profile) {m : FxHashMap K V} (h : WellFormed m) :
    ∃ m', grow p m = .ok m' ∧ WellFormed m' ∧ .empty ∈ m'.slots ∧ ∀ k, m'.get k = m.get k := by
  have hlarge := h.large
  have hcap : max (m.slots.length * 2) defaultCapacity = m.slots.length * 2 := by omega
  have hpow : (m.slots.length * 2).isPowerOfTwo := Nat.isPowerOfTwo_mul_two_of_isPowerOfTwo h.pow
  have hb := blank_wellFormed (K := K) (V := V) hpow (by omega)
  obtain ⟨m',he,hw,hl,hd,hc,hg⟩ := rehash_spec p hb (by simp [blank,List.mem_replicate]) m.slots
    (by simp [blank]; omega) (iter_nodup h)
    (fun k v _ => get_blank hpow (by omega) k)
  have hlen : m'.slots.length = m.slots.length * 2 := by simpa [blank] using hl
  have hpos := h.cap_pos
  refine ⟨m',by rw [grow,hcap]; exact he,hw,empty_mem hw hd (by simp only [blank] at hc; omega),?_⟩
  intro k
  refine Option.ext fun v => ?_
  rw [hg,get_blank hpow (by omega),get_iff h,← mem_iter]
  simp [iter]

theorem makeRoom_spec (p : Profile) {m : FxHashMap K V} (h : WellFormed m) {key : K}
    (hr : m.overloaded ∨ HasRoom m key) :
    ∃ m', makeRoom p m = .ok m' ∧ WellFormed m' ∧ HasRoom m' key ∧ ∀ k, m'.get k = m.get k := by
  rw [makeRoom]
  split_ifs with ho
  · obtain ⟨m',he,hw,hempty,hg⟩ := grow_spec p h
    exact ⟨m',he,hw,.inr hempty,hg⟩
  · exact ⟨m,rfl,h,hr.resolve_left ho,fun _ => rfl⟩

end MofuOS.DataStructures.FxHashMap
