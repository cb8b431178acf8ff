import MofuOS.DataStructures.Dequeue
import Mathlib.Data.List.InsertIdx

/-! The growable array of data_structures/vector.rs. Elements move by raw reads and writes of cells; a cell that was read
still has the bytes of what was moved out of it. -/
namespace MofuOS.DataStructures
open Lib

structure Vec (T : Type) where
  size : Nat
  capacity : Nat
  data : Nat → Option T

/-- ptr::copy of n cells, which may overlap with where they go. -/
def ptrCopy {T : Type} (data : Nat → Option T) (src dst n : Nat) : Nat → Option T :=
  fun i => if dst ≤ i ∧ i < dst + n then data (src + (i - dst)) else data i

/-- What n cells from the i-th on hold. -/
def readCells {T : Type} (data : Nat → Option T) : Nat → Nat → Except Halt (List T)
  | 0, _ => pure []
  | n + 1, i => do
    let value ← ptrRead data i
    let rest ← readCells data n (i + 1)
    pure (value :: rest)

namespace Vec
variable {T : Type} (p : Profile) (e : ElemLayout) (granted : Bool)

def withCapacity (capacity : Nat) : Except Halt (Vec T) :=
  if capacity = 0 then .error .panic
  else do
    e.allocate granted capacity
    pure { size := 0, capacity, data := fun _ => none }

/-- After 64 doublings a word has passed any other, or has become zero and stays so for ever. -/
def doubleUntil (newCapacity : Nat) : Nat → Nat → Except Halt Unit
  | 0, _ => .error .diverge
  | fuel + 1, capacity =>
    if capacity < newCapacity then do
      let capacity ← unsigned p 64 (capacity * 2 : Nat)
      doubleUntil newCapacity fuel capacity
    else pure ()

variable (v : Vec T)

/-- A null pointer of the allocator is not looked at: the first write through it ends the kernel. -/
def resize (newCapacity : Nat) : Except Halt (Vec T) :=
  if newCapacity ≤ v.capacity then pure v
  else do
    doubleUntil p newCapacity 65 (if v.capacity = 0 then 1 else v.capacity)
    e.allocate granted newCapacity
    if !e.fits v.capacity then .error .panic
    else pure { v with capacity := newCapacity, data := fun i => if i < v.size then v.data i else none }

/-- The array that a push or an insertion goes to. -/
def reserve : Except Halt (Vec T) :=
  if v.size = v.capacity then do
    let newCapacity ← unsigned p 64 (v.capacity * 2 : Nat)
    v.resize p e granted newCapacity
  else pure v

def push (value : T) : Except Halt (Vec T) := do
  let v ← v.reserve p e granted
  let data := Function.update v.data v.size (some value)
  let size ← usizeAdd p v.size 1
  pure { v with data, size }

def pop : Except Halt (Option T × Vec T) :=
  if v.size ≠ 0 then do
    let size ← usizeSub p v.size 1
    let value ← ptrRead v.data size
    pure (some value,{ v with size })
  else pure (none,v)

def insert (index : Nat) (item : T) : Except Halt (Vec T) :=
  if v.size < index then .error .panic
  else do
    let v ← v.reserve p e granted
    let data := Function.update (ptrCopy v.data index (index + 1) (v.size - index)) index (some item)
    let size ← usizeAdd p v.size 1
    pure { v with data, size }

def remove (index : Nat) : Except Halt (T × Vec T) :=
  if index < v.size then do
    let item ← ptrRead v.data index
    pure (item,{ v with size := v.size - 1, data := ptrCopy v.data (index + 1) index (v.size - index - 1) })
  else .error .panic

def asSlice : Except Halt (List T) := readCells v.data v.size 0

/-- What it drops, and the array after it. -/
def clear : Except Halt (List T × Vec T) := do
  let dropped ← v.asSlice
  pure (dropped,{ v with size := 0 })

/-- The rounds of retain. The predicate may answer differently on every call. -/
def retainFrom (keep : Nat → T → Bool) : Nat → Nat → Nat → (Nat → Option T) → Except Halt (Nat × (Nat → Option T))
  | 0, _, writePos, data => pure (writePos,data)
  | n + 1, readPos, writePos, data => do
    let item ← ptrRead data readPos
    if keep readPos item then do
      let data := if readPos ≠ writePos then Function.update data writePos (some item) else data
      let writePos ← usizeAdd p writePos 1
      retainFrom keep n (readPos + 1) writePos data
    else retainFrom keep n (readPos + 1) writePos data

def retain (keep : Nat → T → Bool) : Except Halt (Vec T) := do
  let (size,data) ← retainFrom p keep v.size 0 0 v.data
  pure { v with size, data }

/-- What it drops. The array is given back with the layout it was taken with. -/
def drop : Except Halt (List T) := do
  let dropped ← v.asSlice
  if v.capacity > 0 ∧ !e.fits v.capacity then .error .panic else pure dropped

/-- The array holds the elements of xs. -/
structure Shows (v : Vec T) (xs : List T) : Prop where
  size : v.size = xs.length
  cells : ∀ i < xs.length, v.data i = xs[i]?
  capacity : v.capacity < usizeBound
  lt : xs.length < usizeBound

variable {p e granted} {v w : Vec T} {i n : Nat} {x : T} {xs ys : List T} {data : Nat → Option T}

theorem readCells_eq (h : ∀ j, i ≤ j → j < xs.length → data j = xs[j]?) (hn : i + n = xs.length) :
    readCells data n i = .ok (xs.drop i) := by
  induction n generalizing i with
  | zero => rw [readCells,List.drop_eq_nil_of_le (by omega)]; rfl
  | succ n ih =>
    have hi : i < xs.length := by omega
    have hread : ptrRead data i = .ok xs[i] := by
      rw [ptrRead,h i (Nat.le_refl i) hi,List.getElem?_eq_getElem hi]
    rw [readCells,hread,ok_bind,ih (fun j hj => h j (by omega)) (by omega),ok_bind,List.drop_eq_getElem_cons hi]
    rfl

namespace Shows

theorem asSlice (h : v.Shows xs) : v.asSlice = .ok xs := by
  rw [Vec.asSlice,h.size,readCells_eq (fun j _ hj => h.cells j hj) (Nat.zero_add _),List.drop_zero]

theorem resize (h : v.Shows xs) (hn : n < usizeBound) (hw : v.resize p e granted n = .ok w) : w.Shows xs := by
  rw [Vec.resize] at hw
  by_cases hle : n ≤ v.capacity
  · rw [if_pos hle] at hw
    cases hw
    exact h
  · rw [if_neg hle] at hw
    obtain ⟨_,-,hw⟩ := bind_eq_ok hw
    obtain ⟨_,-,hw⟩ := bind_eq_ok hw
    split_ifs at hw
    cases hw
    refine ⟨h.size,fun i hi => ?_,hn,h.lt⟩
    rw [← h.cells i hi]
    exact if_pos (by rw [h.size]; exact hi)

theorem reserve (h : v.Shows xs) (hw : v.reserve p e granted = .ok w) : w.Shows xs := by
  rw [Vec.reserve] at hw
  split_ifs at hw
  · obtain ⟨m,hm,hw⟩ := liftM_bind_eq_ok hw
    refine h.resize ?_ hw
    rw [unsigned_natCast] at hm
    split_ifs at hm
    cases hm
    exact Nat.mod_lt _ (Nat.two_pow_pos 64)
  · cases hw
    exact h

theorem push (h : v.Shows xs) (hlt : xs.length + 1 < usizeBound) (hw : v.push p e granted x = .ok w) : w.Shows (xs ++ [x]) := by
  obtain ⟨u,hu,hw⟩ := bind_eq_ok hw
  have hs := h.reserve hu
  rw [hs.size,usizeAdd_of_lt p hlt,liftM_ok_bind] at hw
  cases hw
  refine ⟨by simp,fun i hi => ?_,hs.capacity,by simpa using hlt⟩
  rw [List.length_append,List.length_singleton] at hi
  by_cases hlast : i = xs.length
  · subst hlast
    rw [List.getElem?_concat_length]
    exact Function.update_self ..
  · rw [List.getElem?_append_left (by omega),← hs.cells i (by omega)]
    exact Function.update_of_ne hlast ..

theorem pop (h : v.Shows xs) : ∃ w, v.pop p = .ok (xs.getLast?,w) ∧ w.Shows xs.dropLast := by
  cases hlast : xs.getLast? with
  | none =>
    obtain rfl := List.getLast?_eq_none_iff.mp hlast
    exact ⟨v,by rw [Vec.pop,if_neg (by rw [h.size]; exact not_not_intro rfl)]; rfl,h⟩
  | some x =>
    obtain ⟨ys,rfl⟩ := List.getLast?_eq_some_iff.mp hlast
    have hlen : (ys ++ [x]).length = ys.length + 1 := by simp
    have hsub : usizeSub p v.size 1 = .ok ys.length := by
      rw [usizeSub_of_le p (by rw [h.size]; omega),h.size,hlen,Nat.add_sub_cancel]
    have hread : ptrRead v.data ys.length = .ok x := by
      rw [ptrRead,h.cells _ (by omega),List.getElem?_concat_length]
    refine ⟨{ v with size := ys.length },?_,?_⟩
    · rw [Vec.pop,if_pos (by rw [h.size]; omega),hsub,liftM_ok_bind,hread,ok_bind]
      rfl
    · rw [List.dropLast_concat]
      have hlt := h.lt
      refine ⟨rfl,fun i hi => ?_,h.capacity,by omega⟩
      have hfront : (ys ++ [x])[i]? = ys[i]? := List.getElem?_append_left hi
      rw [← hfront]
      exact h.cells i (by omega)

theorem insert (h : v.Shows xs) (hlt : xs.length + 1 < usizeBound) (hw : v.insert p e granted i x = .ok w) :
    i ≤ xs.length ∧ w.Shows (xs.insertIdx i x) := by
  rw [Vec.insert] at hw
  split_ifs at hw with hi
  obtain ⟨u,hu,hw⟩ := bind_eq_ok hw
  have hs := h.reserve hu
  rw [h.size,Nat.not_lt] at hi
  rw [hs.size,usizeAdd_of_lt p hlt,liftM_ok_bind] at hw
  cases hw
  have hlen := List.length_insertIdx_of_le_length hi x
  refine ⟨hi,by rw [hlen],fun j hj => ?_,hs.capacity,by rw [hlen]; exact hlt⟩
  rw [hlen] at hj
  rw [List.getElem?_insertIdx]
  obtain hlt' | rfl | hgt := Nat.lt_trichotomy j i
  · rw [if_pos hlt',← hs.cells j (by omega)]
    refine (Function.update_of_ne (Nat.ne_of_lt hlt') ..).trans (if_neg ?_)
    omega
  · rw [if_neg (Nat.lt_irrefl j),if_pos rfl,if_pos hi]
    exact Function.update_self ..
  · rw [if_neg (by omega),if_neg (by omega),← hs.cells (j - 1) (by omega)]
    refine (Function.update_of_ne (Nat.ne_of_gt hgt) ..).trans ((if_pos ⟨hgt,by omega⟩).trans ?_)
    congr 1
    omega

theorem remove (h : v.Shows xs) (hi : i < xs.length) : ∃ w, v.remove i = .ok (xs[i],w) ∧ w.Shows (xs.eraseIdx i) := by
  have hread : ptrRead v.data i = .ok xs[i] := by
    rw [ptrRead,h.cells i hi,List.getElem?_eq_getElem hi]
  have hlen := List.length_eraseIdx_of_lt hi
  refine ⟨{ v with size := v.size - 1, data := ptrCopy v.data (i + 1) i (v.size - i - 1) },?_,by rw [hlen,← h.size],
    fun j hj => ?_,h.capacity,?_⟩
  · rw [Vec.remove,if_pos (by rw [h.size]; exact hi),hread]
    rfl
  · rw [hlen] at hj
    rw [List.getElem?_eraseIdx]
    show ptrCopy v.data (i + 1) i (v.size - i - 1) j = _
    rw [ptrCopy,h.size]
    split_ifs with h1 h2 h2
    · omega
    · rw [← h.cells (j + 1) (by omega)]
      congr 1
      omega
    · exact h.cells j (by omega)
    · omega
  · rw [hlen]
    have := h.lt
    omega

theorem clear (h : v.Shows xs) : ∃ w, v.clear = .ok (xs,w) ∧ w.Shows [] :=
  ⟨{ v with size := 0 },by rw [Vec.clear,h.asSlice]; rfl,rfl,nofun,h.capacity,Nat.two_pow_pos 64⟩

end Shows

/-- The elements that a predicate keeps, its calls counted from i on. -/
def kept (keep : Nat → T → Bool) : Nat → List T → List T
  | _, [] => []
  | i, x :: xs => if keep i x then x :: kept keep (i + 1) xs else kept keep (i + 1) xs

section Retain
variable {keep : Nat → T → Bool}

theorem length_kept_le (keep : Nat → T → Bool) (i : Nat) (xs : List T) : (kept keep i xs).length ≤ xs.length := by
  induction xs generalizing i with
  | nil => exact Nat.le_refl _
  | cons x xs ih =>
    rw [kept]
    split_ifs
    · exact Nat.succ_le_succ (ih (i + 1))
    · exact Nat.le_succ_of_le (ih (i + 1))

theorem kept_eq_self (h : ∀ (j : Nat) (hj : j < xs.length), keep (i + j) xs[j] = true) : kept keep i xs = xs := by
  induction xs generalizing i with
  | nil => rfl
  | cons x xs ih =>
    have hx : keep i x = true := h 0 (Nat.zero_lt_succ _)
    rw [kept,if_pos hx,ih fun j hj => ?_]
    have hj' := h (j + 1) (Nat.succ_lt_succ hj)
    rwa [← Nat.add_assoc,Nat.add_right_comm] at hj'

theorem length_kept_lt {j : Nat} (hj : j < xs.length) (h : keep (i + j) xs[j] = false) : (kept keep i xs).length < xs.length := by
  induction xs generalizing i j with
  | nil => cases hj
  | cons x xs ih =>
    rw [kept]
    cases j with
    | zero =>
      rw [if_neg (by rw [show keep i x = false from h]; decide)]
      exact Nat.lt_succ_of_le (length_kept_le keep (i + 1) xs)
    | succ j =>
      have hlt := ih (i := i + 1) (Nat.lt_of_succ_lt_succ hj) (by rw [← h]; congr 1; omega)
      split_ifs
      · exact Nat.succ_lt_succ hlt
      · exact Nat.lt_succ_of_lt hlt

/-- The kept elements gather behind those kept so far, and what is still to be read stays in place. -/
private theorem retainFrom_eq (keep : Nat → T → Bool) (ys zs : List T) (hle : ys.length ≤ i) (hfront : ∀ j < ys.length, data j = ys[j]?)
    (hrest : ∀ j < zs.length, data (i + j) = zs[j]?) (hlt : i + zs.length < usizeBound) :
    ∃ data', retainFrom p keep zs.length i ys.length data = .ok ((ys ++ kept keep i zs).length,data') ∧
      ∀ j < (ys ++ kept keep i zs).length, data' j = (ys ++ kept keep i zs)[j]? := by
  induction zs generalizing i ys data with
  | nil => exact ⟨data,by rw [kept,List.append_nil]; rfl,by rwa [kept,List.append_nil]⟩
  | cons z zs ih =>
    rw [List.length_cons] at hlt
    have hz : data i = some z := hrest 0 (Nat.zero_lt_succ _)
    have hread : ptrRead data i = .ok z := by rw [ptrRead,hz]
    rw [List.length_cons,retainFrom,hread,ok_bind,kept]
    by_cases hkeep : keep i z = true
    · obtain ⟨moved,hmoved⟩ : ∃ d, (if i ≠ ys.length then Function.update data ys.length (some z) else data) = d := ⟨_,rfl⟩
      have hcell : ∀ j, moved j = if j = ys.length then some z else data j := by
        intro j
        rw [← hmoved]
        by_cases hi : i = ys.length
        · rw [if_neg (not_not_intro hi)]
          split_ifs with hj
          · rw [hj,← hi,hz]
          · rfl
        · rw [if_pos hi,Function.update_apply]
      have hadd : usizeAdd p ys.length 1 = .ok (ys ++ [z]).length := by
        rw [usizeAdd_of_lt p (by omega),List.length_append,List.length_singleton]
      have hfront' : ∀ j < (ys ++ [z]).length, moved j = (ys ++ [z])[j]? := by
        intro j hj
        rw [List.length_append,List.length_singleton] at hj
        rw [hcell]
        by_cases hlast : j = ys.length
        · rw [if_pos hlast,hlast,List.getElem?_concat_length]
        · rw [if_neg hlast,List.getElem?_append_left (by omega)]
          exact hfront j (by omega)
      have hrest' : ∀ j < zs.length, moved (i + 1 + j) = zs[j]? := by
        intro j hj
        rw [hcell,if_neg (by omega),Nat.add_assoc,Nat.add_comm 1 j]
        exact hrest (j + 1) (Nat.succ_lt_succ hj)
      obtain ⟨data',hrun,hdata⟩ := ih (ys ++ [z]) (by simpa using hle) hfront' hrest' (by omega)
      rw [List.append_assoc,List.singleton_append] at hrun hdata
      rw [if_pos hkeep,if_pos hkeep,hmoved,hadd,liftM_ok_bind]
      exact ⟨data',hrun,hdata⟩
    · rw [if_neg hkeep,if_neg hkeep]
      refine ih ys (by omega) hfront (fun j hj => ?_) (by omega)
      rw [Nat.add_assoc,Nat.add_comm 1 j]
      exact hrest (j + 1) (Nat.succ_lt_succ hj)

/-- Of the elements only those kept stay in the array; nothing is done about the others. -/
theorem Shows.retain (h : v.Shows xs) (keep : Nat → T → Bool) : ∃ w, v.retain p keep = .ok w ∧ w.Shows (kept keep 0 xs) := by
  have hcells : ∀ j < xs.length, v.data (0 + j) = xs[j]? := fun j hj => by rw [Nat.zero_add]; exact h.cells j hj
  obtain ⟨data',hrun,hdata⟩ := retainFrom_eq (p := p) keep [] xs (Nat.zero_le 0) nofun hcells (by rw [Nat.zero_add]; exact h.lt)
  refine ⟨{ v with size := (kept keep 0 xs).length, data := data' },?_,rfl,hdata,h.capacity,?_⟩
  · rw [Vec.retain,h.size]
    show (retainFrom p keep xs.length 0 ([] : List T).length v.data >>= _) = _
    rw [hrun]
    rfl
  · exact Nat.lt_of_le_of_lt (length_kept_le keep 0 xs) h.lt

end Retain
end Vec
end MofuOS.DataStructures
