import MofuOS.DataStructures.Dequeue
import MofuOS.Lib.Ring
import Mathlib.Algebra.NeZero

/-! The double-ended queue as a list. Its elements lie in the ring from the head on, at whatever position that is. -/
namespace MofuOS.DataStructures
open Lib

namespace Dequeue
variable {T : Type} {p : Profile} {e : ElemLayout} {granted : Bool} {q : Dequeue T} {k i : Nat} {v : T} {xs : List T}

/-- The cells of a ring of 2^k of them. -/
def ring (q : Dequeue T) (k : Nat) : Fin (2^k) → Option T := fun i => q.data i

/-- The queue holds the elements of xs in a ring of 2^k cells. A ring of 2^64 of them has capacity 0: it comes about in
release, and of elements without a size. -/
structure Shows (p : Profile) (e : ElemLayout) (q : Dequeue T) (k : Nat) (xs : List T) : Prop where
  capacity : q.capacity = 2^k % usizeBound
  word : k ≤ 64
  proper : p.checks = true ∨ 0 < e.size → k < 64
  fits : e.fits q.capacity = true
  size : q.size = xs.length
  le : xs.length ≤ 2^k
  lt : xs.length < usizeBound
  head : q.head < 2^k
  tail : q.tail = (q.head + xs.length) % 2^k
  laid : Ring.Laid (q.ring k) q.head (xs.map some)

namespace Shows

theorem wrapIndex (h : q.Shows p e k xs) (n : Nat) : q.wrapIndex p n = .ok (n % 2^k) := by
  rw [Dequeue.wrapIndex,h.capacity]
  obtain hlt | rfl := Nat.lt_or_eq_of_le h.word
  · have hpow : 2^k < usizeBound := Nat.pow_lt_pow_right (by decide) hlt
    rw [Nat.mod_eq_of_lt hpow,usizeSub_of_le p Nat.one_le_two_pow,liftM_ok_bind,Nat.and_two_pow_sub_one_eq_mod]
    rfl
  · cases p with
    | dev => exact absurd (h.proper (.inl rfl)) (Nat.lt_irrefl 64)
    | release =>
      have hmask : usizeSub .release (2^64 % usizeBound) 1 = .ok (2^64 - 1) := by decide
      rw [hmask,liftM_ok_bind,Nat.and_two_pow_sub_one_eq_mod]
      rfl

/-- A word that wraps where it may lies in the ring where the sum lies. -/
theorem add (h : q.Shows p e k xs) {a b : Nat} (ha : a < 2^k) (hb : b ≤ 2^k) :
    ∃ n, usizeAdd p a b = .ok n ∧ n % 2^k = (a + b) % 2^k := by
  by_cases hlt : a + b < usizeBound
  · exact ⟨_,usizeAdd_of_lt p hlt,rfl⟩
  · have hk : k = 64 := by
      refine Nat.le_antisymm h.word (Nat.not_lt.mp fun hk => hlt ?_)
      have hpow : 2^(k + 1) ≤ usizeBound := Nat.pow_le_pow_right (by decide) hk
      rw [Nat.pow_succ] at hpow
      omega
    subst hk
    have hc : ¬ p.checks = true := fun hc => absurd (h.proper (.inl hc)) (Nat.lt_irrefl 64)
    refine ⟨(a + b) % usizeBound,by rw [usizeAdd,if_neg hlt,if_neg hc],Nat.mod_mod ..⟩

theorem wrappingSubOne (h : q.Shows p e k xs) (n : Nat) : Dequeue.wrappingSubOne n % 2^k = (n + (2^k - 1)) % 2^k := by
  have hdvd : 2^k ∣ usizeBound := Nat.pow_dvd_pow 2 h.word
  have hpos : 0 < 2^k := Nat.two_pow_pos k
  obtain ⟨m,hm⟩ := hdvd
  have hmpos : 0 < m := Nat.pos_of_ne_zero fun h0 => by
    rw [h0,Nat.mul_zero] at hm
    exact absurd hm (by decide)
  have hsplit : usizeBound - 1 = 2^k - 1 + 2^k * (m - 1) := by
    obtain ⟨m,rfl⟩ := Nat.exists_eq_succ_of_ne_zero hmpos.ne'
    rw [Nat.succ_sub_one,hm,Nat.mul_succ]
    omega
  rw [Dequeue.wrappingSubOne,Nat.mod_mod_of_dvd _ ⟨m,hm⟩,hsplit,← Nat.add_assoc,Nat.add_mul_mod_self_left]

/-- An element is found from the head on. -/
theorem cell (h : q.Shows p e k xs) (hi : i < xs.length) : q.data ((q.head + i) % 2^k) = some xs[i] := by
  have hlaid := h.laid i (by rw [List.length_map]; exact hi)
  rw [List.getElem_map] at hlaid
  exact hlaid

theorem readCell (h : q.Shows p e k xs) (hi : i < xs.length) : ptrRead q.data ((q.head + i) % 2^k) = .ok xs[i] := by
  rw [ptrRead,h.cell hi]

theorem getPtrAt (h : q.Shows p e k xs) (hi : i < xs.length) : q.getPtrAt p i = .ok ((q.head + i) % 2^k) := by
  obtain ⟨n,hn,hmod⟩ := h.add h.head (Nat.le_trans (Nat.le_of_lt hi) h.le)
  have hassert : debugAssert p (decide (i < q.size)) = .ok () := by
    rw [debugAssert,h.size,decide_eq_true hi,Bool.not_true,Bool.and_false]
    rfl
  rw [Dequeue.getPtrAt,hassert,liftM_ok_bind,hn,liftM_ok_bind,h.wrapIndex,hmod]

theorem get (h : q.Shows p e k xs) (hi : i < xs.length) : q.get p i = .ok xs[i] := by
  rw [Dequeue.get,if_pos (by rw [h.size]; exact hi),h.getPtrAt hi,ok_bind,h.readCell hi]

private theorem iterFrom (h : q.Shows p e k xs) {n : Nat} (hn : i + n = xs.length + 1) : q.iterFrom p n i = .ok (xs.drop i) := by
  induction n generalizing i with
  | zero => rw [Dequeue.iterFrom,List.drop_eq_nil_of_le (by omega)]; rfl
  | succ n ih =>
    rw [Dequeue.iterFrom,Dequeue.len,h.size]
    split_ifs with hi
    · have hlt := h.lt
      rw [h.get hi,ok_bind,usizeAdd_of_lt p (by omega),liftM_ok_bind,ih (by omega),ok_bind,
        List.drop_eq_getElem_cons hi]
      rfl
    · rw [List.drop_eq_nil_of_le (Nat.not_lt.mp hi)]
      rfl

theorem iter (h : q.Shows p e k xs) : q.iter p = .ok xs := h.iterFrom (by rw [Dequeue.len,h.size,Nat.zero_add])

private theorem dropElements (h : q.Shows p e k xs) {n : Nat} (hn : i + n = xs.length) : q.dropElements p n i = .ok (xs.drop i) := by
  induction n generalizing i with
  | zero => rw [Dequeue.dropElements,List.drop_eq_nil_of_le (by omega)]; rfl
  | succ n ih =>
    have hi : i < xs.length := by omega
    rw [Dequeue.dropElements,h.getPtrAt hi,ok_bind,h.readCell hi,ok_bind,ih (by omega),ok_bind,
      List.drop_eq_getElem_cons hi]
    rfl

/-- Every element is dropped, and the queue is empty. -/
theorem clear (h : q.Shows p e k xs) : ∃ q', q.clear p = .ok (xs,q') ∧ q'.Shows p e k [] := by
  refine ⟨{ q with head := 0, tail := 0, size := 0 },?_,?_⟩
  · rw [Dequeue.clear,h.size,h.dropElements (Nat.zero_add _)]
    rfl
  · exact
      { capacity := h.capacity
        word := h.word
        proper := h.proper
        fits := h.fits
        size := rfl
        le := Nat.zero_le _
        lt := Nat.two_pow_pos 64
        head := Nat.two_pow_pos k
        tail := (Nat.zero_mod _).symm
        laid := fun i hi => absurd hi (Nat.not_lt_zero i) }

end Shows

section Pop
variable {ys : List T}

theorem Shows.popFront (h : q.Shows p e k (v :: ys)) : ∃ q', q.popFront p = .ok (v,q') ∧ q'.Shows p e k ys := by
  have hlen : (v :: ys).length = ys.length + 1 := List.length_cons
  have hle := h.le
  have hlt := h.lt
  obtain ⟨n,hn,hmod⟩ := h.add h.head Nat.one_le_two_pow
  have hread : ptrRead q.data q.head = .ok v := by
    have hzero := h.readCell (i := 0) (by omega)
    rwa [Nat.add_zero,Nat.mod_eq_of_lt h.head] at hzero
  have hsize : usizeSub p q.size 1 = .ok ys.length := by
    rw [usizeSub_of_le p (by rw [h.size]; omega),h.size,hlen,Nat.add_sub_cancel]
  refine ⟨{ q with head := (q.head + 1) % 2^k, size := ys.length },?_,?_⟩
  · rw [Dequeue.popFront,if_neg (by rw [h.size]; omega),hread,ok_bind,hn,liftM_ok_bind,h.wrapIndex,ok_bind,hsize,hmod]
    rfl
  · exact
      { capacity := h.capacity
        word := h.word
        proper := h.proper
        fits := h.fits
        size := rfl
        le := by omega
        lt := by omega
        head := Nat.mod_lt _ (Nat.two_pow_pos k)
        tail := by
          rw [h.tail,Nat.mod_add_mod,hlen,Nat.add_right_comm,Nat.add_assoc]
        laid := h.laid.tail.modEq (Nat.mod_mod ..) }

/-- The cell in front of the tail is that of the last element. -/
theorem Shows.last_cell (h : q.Shows p e k (ys ++ [v])) :
    Dequeue.wrappingSubOne q.tail % 2^k = (q.head + ys.length) % 2^k ∧ ptrRead q.data ((q.head + ys.length) % 2^k) = .ok v := by
  have hpos := Nat.two_pow_pos k
  have hlen : (ys ++ [v]).length = ys.length + 1 := by simp
  refine ⟨?_,?_⟩
  · rw [h.wrappingSubOne,h.tail,Nat.mod_add_mod,hlen,show q.head + (ys.length + 1) + (2^k - 1) = q.head + ys.length + 2^k by omega,
      Nat.add_mod_right]
  · rw [h.readCell (by omega),List.getElem_concat_length rfl]

theorem Shows.popBack (h : q.Shows p e k (ys ++ [v])) : ∃ q', q.popBack p = .ok (v,q') ∧ q'.Shows p e k ys := by
  have hlen : (ys ++ [v]).length = ys.length + 1 := by simp
  have hle := h.le
  have hlt := h.lt
  obtain ⟨htail,hread⟩ := h.last_cell
  have hsize : usizeSub p q.size 1 = .ok ys.length := by
    rw [usizeSub_of_le p (by rw [h.size]; omega),h.size,hlen,Nat.add_sub_cancel]
  refine ⟨{ q with tail := (q.head + ys.length) % 2^k, size := ys.length },?_,?_⟩
  · rw [Dequeue.popBack,if_neg (by rw [h.size]; omega),h.wrapIndex,htail,ok_bind,hread,ok_bind,hsize]
    rfl
  · exact
      { capacity := h.capacity
        word := h.word
        proper := h.proper
        fits := h.fits
        size := rfl
        le := by omega
        lt := by omega
        head := h.head
        tail := rfl
        laid := by
          have hlaid := h.laid
          rw [List.map_append] at hlaid
          exact hlaid.init }

end Pop

section Drain
variable {n : Nat}

private theorem Shows.drainNext (h : q.Shows p e k xs) (hi : i ≤ xs.length) :
    q.drainNext p n i = .ok ((xs.drop i).take n,min (i + n) xs.length) := by
  induction n generalizing i with
  | zero => rw [Dequeue.drainNext,List.take_zero,Nat.add_zero,Nat.min_eq_left hi]; rfl
  | succ n ih =>
    rw [Dequeue.drainNext,Dequeue.len,h.size]
    split_ifs with hlt
    · have hword := h.lt
      rw [h.getPtrAt hlt,ok_bind,h.readCell hlt,ok_bind,usizeAdd_of_lt p (by omega),liftM_ok_bind,ih hlt,ok_bind,
        List.drop_eq_getElem_cons hlt,List.take_succ_cons,Nat.add_comm n 1,← Nat.add_assoc]
      rfl
    · rw [List.drop_eq_nil_of_le (Nat.not_lt.mp hlt),List.take_nil,Nat.min_eq_right (by omega),Nat.le_antisymm hi (Nat.not_lt.mp hlt)]
      rfl

private theorem Shows.dropDrain (h : q.Shows p e k xs) (hn : n ≤ xs.length) :
    ∃ q', dropDrain p n q = .ok (xs.take n,q') ∧ q'.Shows p e k (xs.drop n) := by
  induction n generalizing q xs with
  | zero => exact ⟨q,rfl,h⟩
  | succ n ih =>
    cases xs with
    | nil => cases hn
    | cons x xs =>
      obtain ⟨q₁,hpop,h₁⟩ := h.popFront
      obtain ⟨q',hrest,h'⟩ := ih h₁ (Nat.le_of_succ_le_succ hn)
      refine ⟨q',?_,h'⟩
      rw [Dequeue.dropDrain,hpop,ok_bind]
      dsimp only
      rw [hrest]
      rfl

/-- A Drain drops what it has handed out. -/
theorem Shows.drain (h : q.Shows p e k xs) (n : Nat) :
    ∃ q', q.drain p n = .ok (xs.take n,xs.take n,q') ∧ q'.Shows p e k (xs.drop n) := by
  obtain ⟨q',hdrop,h'⟩ := h.dropDrain (Nat.min_le_right n xs.length)
  rw [← List.take_eq_take_min] at hdrop
  rw [← List.drop_eq_drop_min] at h'
  refine ⟨q',?_,h'⟩
  rw [Dequeue.drain,h.drainNext (Nat.zero_le _),ok_bind,Nat.zero_add,List.drop_zero]
  dsimp only
  rw [hdrop]
  rfl

end Drain

theorem Shows.drop (h : q.Shows p e k xs) : q.drop p e = .ok xs := by
  obtain ⟨q',hclear,h'⟩ := h.clear
  rw [Dequeue.drop,hclear,ok_bind]
  refine if_neg fun hc => ?_
  rw [h'.fits] at hc
  cases hc.2

/-- A push finds the array full, and one of twice the size is not to be had. -/
def NoRoom (p : Profile) (e : ElemLayout) (granted : Bool) (q : Dequeue T) : Prop :=
  q.size = q.capacity ∧
    (p.checks = true ∧ usizeBound ≤ q.capacity * 2 ∨ e.fits (q.capacity * 2 % usizeBound) = false ∨ granted = false)

section Grow

/-- The loop of the growth fills the front of the new array in the order of the elements. -/
private theorem Shows.copyCells (h : q.Shows p e k xs) {n : Nat} (hn : i + n = xs.length) {newData : Nat → Option T}
    (hnew : ∀ (j : Nat) (hj : j < xs.length), j < i → newData j = some xs[j]) :
    ∃ data, q.copyCells p n i newData = .ok data ∧ ∀ (j : Nat) (hj : j < xs.length), data j = some xs[j] := by
  induction n generalizing i newData with
  | zero => exact ⟨newData,rfl,fun j hj => hnew j hj (by omega)⟩
  | succ n ih =>
    have hi : i < xs.length := by omega
    obtain ⟨m,hm,hmod⟩ := h.add h.head (Nat.le_trans (Nat.le_of_lt hi) h.le)
    have hnew' : ∀ (j : Nat) (hj : j < xs.length), j < i + 1 → Function.update newData i (some xs[i]) j = some xs[j] := by
      intro j hj hji
      by_cases hlast : j = i
      · subst hlast
        exact Function.update_self ..
      · rw [Function.update_of_ne hlast]
        exact hnew j hj (by omega)
    obtain ⟨data,hdata,hall⟩ := ih (by omega) hnew'
    refine ⟨data,?_,hall⟩
    rw [Dequeue.copyCells,hm,liftM_ok_bind,h.wrapIndex,ok_bind,hmod,h.cell hi,hdata]

/-- The ring that a full one grows into. -/
private theorem Shows.doubled (h : q.Shows p e k xs) (hfull : q.size = q.capacity)
    (hover : ¬ (p.checks = true ∧ usizeBound ≤ q.capacity * 2)) :
    ∃ k', q.capacity * 2 % usizeBound = 2^k' % usizeBound ∧ k' ≤ 64 ∧ (p.checks = true ∨ 0 < e.size → k' < 64) ∧ xs.length < 2^k' := by
  have hcap := h.capacity
  have hfits := h.fits
  rw [h.size] at hfull
  obtain hlt | rfl := Nat.lt_or_eq_of_le h.word
  · have hpow : 2^k < usizeBound := Nat.pow_lt_pow_right (by decide) hlt
    rw [Nat.mod_eq_of_lt hpow] at hcap
    rw [hcap] at hover hfits
    refine ⟨k + 1,by rw [hcap,Nat.pow_succ],hlt,fun hp => ?_,?_⟩
    · refine (Nat.pow_lt_pow_iff_right (a := 2) (by decide)).mp ?_
      rw [Nat.pow_succ]
      rcases hp with hp | hp
      · exact Nat.not_le.mp fun hle => hover ⟨hp,hle⟩
      · have hle : e.size * 2^k ≤ 2^63 - e.align := of_decide_eq_true hfits
        have hmul : 2^k ≤ e.size * 2^k := Nat.le_mul_of_pos_left _ hp
        have halign := e.align_pos
        omega
    · rw [hfull,hcap,Nat.pow_succ]
      have := Nat.two_pow_pos k
      omega
  · have hzero : q.capacity = 0 := hcap.trans (Nat.mod_self _)
    refine ⟨64,by rw [hzero]; decide,Nat.le_refl _,h.proper,?_⟩
    rw [hfull,hzero]
    exact Nat.two_pow_pos 64

/-- The array of the new capacity is laid out and granted, or the growth stops at it. -/
private theorem allocate_cases (e : ElemLayout) (granted : Bool) (n : Nat) :
    (e.fits n = true ∧ e.allocate granted n = .ok ()) ∨
      ((e.fits n = false ∨ granted = false) ∧ e.allocate granted n = .error .noStorage) := by
  rw [ElemLayout.allocate]
  cases e.fits n <;> cases granted <;> simp

theorem Shows.expand (h : q.Shows p e k xs) (granted : Bool) (hfull : q.size = q.capacity) :
    (∃ q' k', q.expand p e granted = .ok q' ∧ q'.Shows p e k' xs ∧ xs.length < 2^k') ∨
      (q.expand p e granted = .error .noStorage ∧ q.NoRoom p e granted) := by
  rw [Dequeue.expand,unsigned_natCast]
  by_cases hover : p.checks = true ∧ 2^64 ≤ q.capacity * 2
  · rw [if_pos hover]
    exact .inr ⟨rfl,hfull,.inl hover⟩
  · rw [if_neg hover]
    show (∃ q' k', (e.allocate granted (q.capacity * 2 % usizeBound) >>= _) = .ok q' ∧ _) ∨
      ((e.allocate granted (q.capacity * 2 % usizeBound) >>= _) = .error .noStorage ∧ _)
    obtain ⟨hroom,halloc⟩ | ⟨hroom,halloc⟩ := allocate_cases e granted (q.capacity * 2 % usizeBound)
    · obtain ⟨k',hk,hword,hproper,hlt⟩ := h.doubled hfull hover
      have hnew : ∀ (j : Nat) (hj : j < xs.length), j < 0 → (none : Option T) = some xs[j] := nofun
      obtain ⟨data,hdata,hall⟩ := h.copyCells (Nat.zero_add _) hnew
      refine .inl ⟨{ head := 0, tail := q.size, size := q.size, capacity := q.capacity * 2 % usizeBound, data },k',?_,?_,hlt⟩
      · rw [halloc,ok_bind,h.size,hdata,ok_bind,h.fits]
        rfl
      · exact
          { capacity := hk
            word := hword
            proper := hproper
            fits := hroom
            size := h.size
            le := Nat.le_of_lt hlt
            lt := h.lt
            head := Nat.two_pow_pos k'
            tail := by
              rw [Nat.zero_add,Nat.mod_eq_of_lt hlt]
              exact h.size
            laid := by
              intro i hi
              rw [List.length_map] at hi
              rw [List.getElem_map]
              show data ((0 + i) % 2^k') = _
              rw [Nat.zero_add,Nat.mod_eq_of_lt (Nat.lt_trans hi hlt),hall i hi] }
    · rw [halloc]
      exact .inr ⟨rfl,hfull,.inr hroom⟩

theorem Shows.reserve (h : q.Shows p e k xs) (granted : Bool) :
    (∃ q' k', q.reserve p e granted = .ok q' ∧ q'.Shows p e k' xs ∧ xs.length < 2^k') ∨
      (q.reserve p e granted = .error .noStorage ∧ q.NoRoom p e granted) := by
  rw [Dequeue.reserve]
  by_cases hfull : q.size = q.capacity
  · rw [if_pos hfull]
    exact h.expand granted hfull
  · rw [if_neg hfull]
    refine .inl ⟨q,k,rfl,h,?_⟩
    rw [h.size,h.capacity] at hfull
    obtain hk | rfl := Nat.lt_or_eq_of_le h.word
    · have hpow : 2^k < usizeBound := Nat.pow_lt_pow_right (by decide) hk
      rw [Nat.mod_eq_of_lt hpow] at hfull
      exact Nat.lt_of_le_of_ne h.le hfull
    · exact h.lt

/-- The number of elements leaves the words only in release, and only if an element has no size. -/
private theorem Shows.count_fits (h : q.Shows p e k xs) (hroom : xs.length < 2^k)
    (hcount : p = .release → e.size = 0 → xs.length + 1 < usizeBound) : xs.length + 1 < usizeBound := by
  have hword : (p.checks = true ∨ 0 < e.size) → xs.length + 1 < usizeBound := by
    intro hp
    have hpow : 2^(k + 1) ≤ usizeBound := Nat.pow_le_pow_right (by decide) (h.proper hp)
    rw [Nat.pow_succ] at hpow
    omega
  cases p with
  | dev => exact hword (.inl rfl)
  | release =>
    obtain hsize | hsize := Nat.eq_zero_or_pos e.size
    · exact hcount rfl hsize
    · exact hword (.inr hsize)

end Grow

section Push

private theorem ring_store (q : Dequeue T) (k n : Nat) (c : Option T) :
    (fun i : Fin (2^k) => Function.update q.data (n % 2^k) c i) = Function.update (q.ring k) (Fin.ofNat (2^k) n) c := by
  funext i
  by_cases hi : i = Fin.ofNat (2^k) n
  · subst hi
    rw [Function.update_self]
    exact Function.update_self ..
  · rw [Function.update_of_ne hi]
    exact Function.update_of_ne (fun he : i.val = n % 2^k => hi (Fin.ext he)) ..

/-- The cell behind the last element is written. -/
private theorem Shows.storeBack (h : q.Shows p e k xs) (hroom : xs.length < 2^k) (hlt : xs.length + 1 < usizeBound) (v : T) :
    Shows p e { q with data := Function.update q.data q.tail (some v), tail := (q.tail + 1) % 2^k, size := xs.length + 1 } k
      (xs ++ [v]) where
  capacity := h.capacity
  word := h.word
  proper := h.proper
  fits := h.fits
  size := by simp
  le := by simpa using Nat.succ_le_of_lt hroom
  lt := by simpa using hlt
  head := h.head
  tail := by
    rw [h.tail,Nat.mod_add_mod,List.length_append,List.length_singleton,Nat.add_assoc]
  laid := by
    rw [List.map_append,h.tail]
    show Ring.Laid (fun i : Fin (2^k) => Function.update q.data ((q.head + xs.length) % 2^k) (some v) i) q.head _
    rw [ring_store,← List.length_map (f := some)]
    exact (h.laid.store (by rwa [List.length_map])).append (Function.update_self ..)

/-- The cell in front of the first element is written. -/
private theorem Shows.storeFront (h : q.Shows p e k xs) (hroom : xs.length < 2^k) (hlt : xs.length + 1 < usizeBound) (v : T) :
    Shows p e { q with head := (q.head + (2^k - 1)) % 2^k, data := Function.update q.data ((q.head + (2^k - 1)) % 2^k) (some v),
                       size := xs.length + 1 } k (v :: xs) where
  capacity := h.capacity
  word := h.word
  proper := h.proper
  fits := h.fits
  size := by simp
  le := by simpa using Nat.succ_le_of_lt hroom
  lt := by simpa using hlt
  head := Nat.mod_lt _ (Nat.two_pow_pos k)
  tail := by
    have hpos := Nat.two_pow_pos k
    rw [h.tail,Nat.mod_add_mod,List.length_cons,show q.head + (2^k - 1) + (xs.length + 1) = q.head + xs.length + 2^k by omega,
      Nat.add_mod_right]
  laid := by
    have hpos := Nat.two_pow_pos k
    have hback : (q.head + (2^k - 1) + 1) % 2^k = q.head % 2^k := by
      rw [show q.head + (2^k - 1) + 1 = q.head + 2^k by omega,Nat.add_mod_right]
    show Ring.Laid (fun i : Fin (2^k) => Function.update q.data ((q.head + (2^k - 1)) % 2^k) (some v) i) _ _
    rw [ring_store]
    exact ((h.laid.modEq hback).storeFront (by rwa [List.length_map])).modEq (Nat.mod_mod ..)

theorem Shows.pushBack (h : q.Shows p e k xs) (granted : Bool)
    (hcount : p = .release → e.size = 0 → xs.length + 1 < usizeBound) (v : T) :
    (∃ q' k', q.pushBack p e granted v = .ok q' ∧ q'.Shows p e k' (xs ++ [v])) ∨
      (q.pushBack p e granted v = .error .noStorage ∧ q.NoRoom p e granted) := by
  rw [Dequeue.pushBack]
  obtain ⟨q',k',hres,h',hroom⟩ | ⟨hres,hno⟩ := h.reserve granted
  · have hlt := h'.count_fits hroom hcount
    obtain ⟨n,hn,hmod⟩ := h'.add (show q'.tail < 2^k' by rw [h'.tail]; exact Nat.mod_lt _ (Nat.two_pow_pos k')) Nat.one_le_two_pow
    refine .inl ⟨_,k',?_,h'.storeBack hroom hlt v⟩
    rw [hres,ok_bind,hn,liftM_ok_bind,h'.wrapIndex,ok_bind,hmod,h'.size,usizeAdd_of_lt p hlt]
    rfl
  · rw [hres]
    exact .inr ⟨rfl,hno⟩

theorem Shows.pushFront (h : q.Shows p e k xs) (granted : Bool)
    (hcount : p = .release → e.size = 0 → xs.length + 1 < usizeBound) (v : T) :
    (∃ q' k', q.pushFront p e granted v = .ok q' ∧ q'.Shows p e k' (v :: xs)) ∨
      (q.pushFront p e granted v = .error .noStorage ∧ q.NoRoom p e granted) := by
  rw [Dequeue.pushFront]
  obtain ⟨q',k',hres,h',hroom⟩ | ⟨hres,hno⟩ := h.reserve granted
  · have hlt := h'.count_fits hroom hcount
    refine .inl ⟨_,k',?_,h'.storeFront hroom hlt v⟩
    rw [hres,ok_bind,h'.wrapIndex,ok_bind,h'.wrappingSubOne,h'.size,usizeAdd_of_lt p hlt]
    rfl
  · rw [hres]
    exact .inr ⟨rfl,hno⟩

/-- With one element less than 2^64 the ring has as many cells, and never grows. -/
private theorem Shows.reserve_last (h : q.Shows .release e k xs) (hlast : xs.length + 1 = usizeBound) (granted : Bool) :
    q.reserve .release e granted = .ok q ∧ usizeAdd .release q.size 1 = .ok 0 := by
  have hk : k = 64 := by
    refine Nat.le_antisymm h.word (Nat.not_lt.mp fun hk => ?_)
    have hpow : 2^(k + 1) ≤ usizeBound := Nat.pow_le_pow_right (by decide) hk
    have hle := h.le
    rw [Nat.pow_succ] at hpow
    rw [usizeBound] at hlast hpow
    omega
  refine ⟨?_,by rw [h.size,usizeAdd_last hlast]⟩
  refine if_neg fun hzero => ?_
  rw [h.size,h.capacity,hk] at hzero
  rw [hzero] at hlast
  exact absurd hlast (by decide)

/-- The push that makes 2^64 elements of them leaves a queue that counts none. -/
theorem Shows.pushBack_last (h : q.Shows .release e k xs) (hlast : xs.length + 1 = usizeBound) (granted : Bool) (v : T) :
    ∃ q', q.pushBack .release e granted v = .ok q' ∧ q'.size = 0 := by
  obtain ⟨hres,hsize⟩ := h.reserve_last hlast granted
  obtain ⟨n,hn,-⟩ := h.add (show q.tail < 2^k by rw [h.tail]; exact Nat.mod_lt _ (Nat.two_pow_pos k)) Nat.one_le_two_pow
  refine ⟨{ q with data := Function.update q.data q.tail (some v), tail := n % 2^k, size := 0 },?_,rfl⟩
  rw [Dequeue.pushBack,hres,ok_bind,hn,liftM_ok_bind,h.wrapIndex,ok_bind,hsize]
  rfl

theorem Shows.pushFront_last (h : q.Shows .release e k xs) (hlast : xs.length + 1 = usizeBound) (granted : Bool) (v : T) :
    ∃ q', q.pushFront .release e granted v = .ok q' ∧ q'.size = 0 := by
  obtain ⟨hres,hsize⟩ := h.reserve_last hlast granted
  let cell := Dequeue.wrappingSubOne q.head % 2^k
  refine ⟨{ q with head := cell, data := Function.update q.data cell (some v), size := 0 },?_,rfl⟩
  rw [Dequeue.pushFront,hres,ok_bind,h.wrapIndex,ok_bind,hsize]
  rfl

end Push

section Create
variable {capacity n : Nat}

private theorem allocated_shows (hk : k < 64)
    (hq : (e.allocate granted (2^k) >>= fun _ => pure ⟨0,0,0,2^k,fun _ => none⟩) = .ok q) : q.Shows p e k [] := by
  obtain ⟨hfits,halloc⟩ | ⟨-,halloc⟩ := allocate_cases e granted (2^k)
  · rw [halloc] at hq
    cases hq
    exact
      { capacity := (Nat.mod_eq_of_lt (show 2^k < 2^64 from Nat.pow_lt_pow_right (by decide) hk)).symm
        word := Nat.le_of_lt hk
        proper := fun _ => hk
        fits := hfits
        size := rfl
        le := Nat.zero_le _
        lt := Nat.two_pow_pos 64
        head := Nat.two_pow_pos k
        tail := (Nat.zero_mod _).symm
        laid := fun i hi => absurd hi (Nat.not_lt_zero i) }
  · rw [halloc] at hq
    cases hq

/-- A power of two that does not fit a word is none that a capacity could be. -/
private theorem nextPowerOfTwo_cases (p : Profile) (n : Nat) : ∃ k, nextPowerOfTwo p n = .ok (2^k) ∧ k < 64 ∨
    nextPowerOfTwo p n = .error .panic ∨ nextPowerOfTwo p n = .ok 0 := by
  have hpow : ∃ k, (if n ≤ 1 then 1 else 2^((n - 1).log2 + 1) : Nat) = 2^k := by
    split_ifs
    · exact ⟨0,rfl⟩
    · exact ⟨_,rfl⟩
  obtain ⟨k,hk⟩ := hpow
  refine ⟨k,?_⟩
  rw [nextPowerOfTwo,hk,unsigned_natCast]
  obtain hlt | hge := Nat.lt_or_ge k 64
  · have hword : 2^k < 2^64 := Nat.pow_lt_pow_right (by decide) hlt
    rw [if_neg fun h => Nat.not_le.mpr hword h.2,Nat.mod_eq_of_lt hword]
    exact .inl ⟨rfl,hlt⟩
  · rw [Nat.mod_eq_zero_of_dvd (Nat.pow_dvd_pow 2 hge)]
    right
    split_ifs
    · exact .inl rfl
    · exact .inr rfl

theorem withCapacity_shows (hcap : capacity < usizeBound) (hq : withCapacity p e granted capacity = .ok q) :
    ∃ k, q.Shows p e k [] := by
  rw [withCapacity] at hq
  by_cases hpow : 2^capacity.log2 = capacity
  · rw [if_pos hpow] at hq
    have hk : capacity.log2 < 64 := by
      rwa [← hpow,usizeBound,Nat.pow_lt_pow_iff_right (by decide)] at hcap
    have hne : ¬ capacity = 0 := fun h0 => absurd (h0 ▸ hpow) (by decide)
    simp only [pure_bind,if_neg hne] at hq
    rw [← hpow] at hq
    exact ⟨_,allocated_shows hk hq⟩
  · rw [if_neg hpow] at hq
    obtain ⟨k,⟨hnext,hk⟩ | hnext | hnext⟩ := nextPowerOfTwo_cases p capacity
    · simp only [hnext,liftM_ok_bind,if_neg (Nat.two_pow_pos k).ne'] at hq
      exact ⟨k,allocated_shows hk hq⟩
    · rw [hnext] at hq
      cases hq
    · rw [hnext] at hq
      cases hq

end Create
end Dequeue

inductive DequeueOp (T : Type) where
  | pushBack (value : T)
  | pushFront (value : T)
  | popBack
  | popFront
  | get (index : Nat)
  | front
  | back
  | clear
  deriving DecidableEq, Repr

namespace DequeueOp
variable {T : Type}

/-- What the operation returns and leaves of a list, if the list has the element it asks for. -/
def onList : DequeueOp T → List T → Option (Option T × List T)
  | .pushBack v, xs => some (none,xs ++ [v])
  | .pushFront v, xs => some (none,v :: xs)
  | .popBack, xs => xs.getLast?.map fun v => (some v,xs.dropLast)
  | .popFront, xs => xs.head?.map fun v => (some v,xs.tail)
  | .get i, xs => xs[i]?.map fun v => (some v,xs)
  | .front, xs => xs.head?.map fun v => (some v,xs)
  | .back, xs => xs.getLast?.map fun v => (some v,xs)
  | .clear, _ => some (none,[])

/-- The same of a queue; granted is the allocator's answer should the queue grow. -/
def onDequeue (p : Profile) (e : ElemLayout) (granted : Bool) : DequeueOp T → Dequeue T → Except Halt (Option T × Dequeue T)
  | .pushBack v, q => do
    let q ← q.pushBack p e granted v
    pure (none,q)
  | .pushFront v, q => do
    let q ← q.pushFront p e granted v
    pure (none,q)
  | .popBack, q => do
    let (v,q) ← q.popBack p
    pure (some v,q)
  | .popFront, q => do
    let (v,q) ← q.popFront p
    pure (some v,q)
  | .get i, q => do
    let v ← q.get p i
    pure (some v,q)
  | .front, q => do
    let v ← q.front
    pure (some v,q)
  | .back, q => do
    let v ← q.back p
    pure (some v,q)
  | .clear, q => do
    let (_,q) ← q.clear p
    pure (none,q)

def listRun : List (DequeueOp T) → List T → Option (List (Option T) × List T)
  | [], xs => some ([],xs)
  | op :: ops, xs => do
    let (r,xs) ← op.onList xs
    let (rs,xs) ← listRun ops xs
    pure (r :: rs,xs)

/-- Each operation comes with the answer the allocator would give it. -/
def dequeueRun (p : Profile) (e : ElemLayout) : List (DequeueOp T × Bool) → Dequeue T → Except Halt (List (Option T) × Dequeue T)
  | [], q => pure ([],q)
  | (op,granted) :: ops, q => do
    let (r,q) ← op.onDequeue p e granted q
    let (rs,q) ← dequeueRun p e ops q
    pure (r :: rs,q)

variable {p : Profile} {e : ElemLayout} {granted : Bool} {op : DequeueOp T} {ops : List (DequeueOp T)} {xs ys : List T}
  {r : Option T} {q q' : Dequeue T}

theorem listRun_cons (h : op.onList xs = some (r,ys)) :
    listRun (op :: ops) xs = (listRun ops ys).map fun x => (r :: x.1,x.2) := by
  rw [listRun,h]
  show ((listRun ops ys).bind _) = _
  cases listRun ops ys <;> rfl

theorem dequeueRun_cons {ops : List (DequeueOp T × Bool)} (h : op.onDequeue p e granted q = .ok (r,q')) :
    dequeueRun p e ((op,granted) :: ops) q = (dequeueRun p e ops q').map fun x => (r :: x.1,x.2) := by
  rw [dequeueRun,h]
  show (dequeueRun p e ops q' >>= _) = _
  cases dequeueRun p e ops q' <;> rfl

end DequeueOp

namespace Dequeue
open DequeueOp
variable {T : Type} {p : Profile} {e : ElemLayout} {granted : Bool} {q : Dequeue T} {k : Nat} {xs ys : List T} {r : Option T}

private theorem Shows.front (h : q.Shows p e k xs) {v : T} (hv : xs.head? = some v) : q.front = .ok v := by
  obtain ⟨ys,rfl⟩ := List.head?_eq_some_iff.mp hv
  have hread := h.readCell (i := 0) (Nat.zero_lt_succ _)
  rw [Nat.add_zero,Nat.mod_eq_of_lt h.head] at hread
  rw [Dequeue.front,if_neg (by rw [h.size]; exact Nat.succ_ne_zero _),hread]
  rfl

private theorem Shows.back (h : q.Shows p e k xs) {v : T} (hv : xs.getLast? = some v) : q.back p = .ok v := by
  obtain ⟨ys,rfl⟩ := List.getLast?_eq_some_iff.mp hv
  obtain ⟨htail,hread⟩ := h.last_cell
  rw [Dequeue.back,if_neg (by rw [h.size]; simp),h.wrapIndex,ok_bind,htail,hread]

/-- Where the list has an answer the queue gives it, unless a growth finds no room. -/
theorem Shows.step (h : q.Shows p e k xs) (op : DequeueOp T) (granted : Bool) (hl : op.onList xs = some (r,ys))
    (hcount : p = .release → e.size = 0 → ys.length < usizeBound) :
    (∃ q' k', op.onDequeue p e granted q = .ok (r,q') ∧ q'.Shows p e k' ys) ∨
      (op.onDequeue p e granted q = .error .noStorage ∧ q.NoRoom p e granted) := by
  cases op with
  | pushBack v =>
    cases hl
    rw [List.length_append,List.length_singleton] at hcount
    rw [onDequeue]
    obtain ⟨q',k',hq,h'⟩ | ⟨hq,hno⟩ := h.pushBack granted hcount v <;> rw [hq]
    · exact .inl ⟨q',k',rfl,h'⟩
    · exact .inr ⟨rfl,hno⟩
  | pushFront v =>
    cases hl
    rw [onDequeue]
    obtain ⟨q',k',hq,h'⟩ | ⟨hq,hno⟩ := h.pushFront granted hcount v <;> rw [hq]
    · exact .inl ⟨q',k',rfl,h'⟩
    · exact .inr ⟨rfl,hno⟩
  | popBack =>
    obtain ⟨v,hv,heq⟩ := Option.map_eq_some_iff.mp hl
    cases heq
    obtain ⟨ys,rfl⟩ := List.getLast?_eq_some_iff.mp hv
    rw [List.dropLast_concat]
    obtain ⟨q',hq,h'⟩ := h.popBack
    exact .inl ⟨q',k,by rw [onDequeue,hq]; rfl,h'⟩
  | popFront =>
    obtain ⟨v,hv,heq⟩ := Option.map_eq_some_iff.mp hl
    cases heq
    obtain ⟨ys,rfl⟩ := List.head?_eq_some_iff.mp hv
    obtain ⟨q',hq,h'⟩ := h.popFront
    exact .inl ⟨q',k,by rw [onDequeue,hq]; rfl,h'⟩
  | get i =>
    obtain ⟨v,hv,heq⟩ := Option.map_eq_some_iff.mp hl
    cases heq
    obtain ⟨hi,rfl⟩ := List.getElem?_eq_some_iff.mp hv
    exact .inl ⟨q,k,by rw [onDequeue,h.get hi]; rfl,h⟩
  | front =>
    obtain ⟨v,hv,heq⟩ := Option.map_eq_some_iff.mp hl
    cases heq
    exact .inl ⟨q,k,by rw [onDequeue,h.front hv]; rfl,h⟩
  | back =>
    obtain ⟨v,hv,heq⟩ := Option.map_eq_some_iff.mp hl
    cases heq
    exact .inl ⟨q,k,by rw [onDequeue,h.back hv]; rfl,h⟩
  | clear =>
    cases hl
    obtain ⟨q',hq,h'⟩ := h.clear
    exact .inl ⟨q',k,by rw [onDequeue,hq]; rfl,h'⟩

/-- The lists of a run whose lengths a word can hold. -/
def Countable (p : Profile) (e : ElemLayout) (ops : List (DequeueOp T)) (xs : List T) : Prop :=
  p = .release → e.size = 0 → ∀ pre rs ys, pre <+: ops → listRun pre xs = some (rs,ys) → ys.length < usizeBound

/-- The run stops at an operation that would have to grow the queue and finds no room. -/
def StopsAtGrowth (p : Profile) (e : ElemLayout) (ops : List (DequeueOp T × Bool)) (q : Dequeue T) : Prop :=
  ∃ pre a post rs q', ops = pre ++ a :: post ∧ dequeueRun p e pre q = .ok (rs,q') ∧ q'.NoRoom p e a.2 ∧
    dequeueRun p e ops q = .error .noStorage

theorem Shows.run (h : q.Shows p e k xs) (ops : List (DequeueOp T × Bool)) {rs : List (Option T)}
    (hl : listRun (ops.map (·.1)) xs = some (rs,ys)) (hcount : Countable p e (ops.map (·.1)) xs) :
    (∃ q' k', dequeueRun p e ops q = .ok (rs,q') ∧ q'.Shows p e k' ys) ∨ StopsAtGrowth p e ops q := by
  induction ops generalizing q k xs rs with
  | nil =>
    cases hl
    exact .inl ⟨q,k,rfl,h⟩
  | cons a ops ih =>
    obtain ⟨op,granted⟩ := a
    obtain ⟨⟨r,zs⟩,hop,-⟩ := Option.bind_eq_some_iff.mp hl
    rw [List.map_cons,listRun_cons hop] at hl
    obtain ⟨⟨rs',us⟩,hrest,heq⟩ := Option.map_eq_some_iff.mp hl
    cases heq
    have hzs : p = .release → e.size = 0 → zs.length < usizeBound := fun hp he =>
      hcount hp he [op] [r] zs ((List.prefix_cons_inj op).mpr List.nil_prefix) (listRun_cons hop)
    obtain ⟨q₁,k₁,hq,h₁⟩ | ⟨hq,hno⟩ := h.step op granted hop hzs
    · have hcount' : Countable p e (ops.map (·.1)) zs := by
        intro hp he pre ps vs hpre hrun
        refine hcount hp he (op :: pre) (r :: ps) vs ((List.prefix_cons_inj op).mpr hpre) ?_
        rw [listRun_cons hop,hrun,Option.map_some]
      obtain ⟨q',k',hrun,h'⟩ | ⟨pre,a,post,ps,q',rfl,hpre,hno,hrun⟩ := ih h₁ hrest hcount'
      · exact .inl ⟨q',k',by rw [dequeueRun_cons hq,hrun]; rfl,h'⟩
      · refine .inr ⟨(op,granted) :: pre,a,post,r :: ps,q',rfl,?_,hno,?_⟩
        · rw [dequeueRun_cons hq,hpre]
          rfl
        · rw [dequeueRun_cons hq,hrun]
          rfl
    · exact .inr ⟨[],(op,granted),ops,[],q,rfl,rfl,hno,by rw [dequeueRun,hq]; rfl⟩

/-- From any capacity on, the operations answer as those of a list do, len and iter tell the length and the elements of
that list, and nothing but a growth without room stops a run. -/
theorem dequeue_refines_list {capacity : Nat} (hcap : capacity < usizeBound) (hq : withCapacity p e granted capacity = .ok q)
    (ops : List (DequeueOp T × Bool)) {rs : List (Option T)} (hl : listRun (ops.map (·.1)) [] = some (rs,xs))
    (hcount : Countable p e (ops.map (·.1)) []) :
    (∃ q', dequeueRun p e ops q = .ok (rs,q') ∧ q'.len = xs.length ∧ q'.iter p = .ok xs) ∨ StopsAtGrowth p e ops q := by
  obtain ⟨k,h⟩ := withCapacity_shows hcap hq
  obtain ⟨q',k',hrun,h'⟩ | hstop := h.run ops hl hcount
  · exact .inl ⟨q',hrun,h'.size,h'.iter⟩
  · exact .inr hstop

theorem dequeue_refines_list_small : (∃ q' : Dequeue Nat,
    dequeueRun .dev ⟨8,8,by decide⟩ [(.pushBack 1,true),(.pushFront 2,true),(.pushBack 3,true),(.popFront,true),(.back,true)]
        ⟨0,0,0,1,fun _ => none⟩ = .ok ([none,none,none,some 2,some 3],q') ∧ q'.len = [1,3].length ∧ q'.iter .dev = .ok [1,3]) ∨
    StopsAtGrowth .dev ⟨8,8,by decide⟩
      [(.pushBack 1,true),(.pushFront 2,true),(.pushBack 3,true),(.popFront,true),(.back,true)] (⟨0,0,0,1,fun _ => none⟩ : Dequeue Nat) :=
  have hq : withCapacity .dev ⟨8,8,by decide⟩ true 1 = .ok (⟨0,0,0,1,fun _ => none⟩ : Dequeue Nat) := rfl
  dequeue_refines_list (by decide) hq _ rfl fun hp => nomatch hp

theorem listRun_pushes (v : T) (m : Nat) (xs : List T) :
    listRun (List.replicate m (.pushBack v)) xs = some (List.replicate m none,xs ++ List.replicate m v) := by
  induction m generalizing xs with
  | zero => rw [List.replicate_zero,List.replicate_zero,List.replicate_zero,List.append_nil]; rfl
  | succ m ih =>
    have hpush : onList (.pushBack v) xs = some (none,xs ++ [v]) := rfl
    rw [List.replicate_succ,listRun_cons hpush,ih,Option.map_some,List.append_assoc,List.singleton_append]
    rfl

/-- Elements without a size are never out of room, and 2^64 of them are none. -/
private theorem Shows.pushes_wrap (h : q.Shows .release e k xs) (he : e.size = 0) (v : T) (m : Nat)
    (hm : xs.length + (m + 1) = usizeBound) :
    ∃ x, dequeueRun .release e (List.replicate (m + 1) (.pushBack v,true)) q = .ok x ∧ x.2.len = 0 := by
  induction m generalizing q k xs with
  | zero =>
    obtain ⟨q',hq,hsize⟩ := h.pushBack_last hm true v
    have hop : onDequeue .release e true (.pushBack v) q = .ok (none,q') := by rw [onDequeue,hq]; rfl
    exact ⟨_,dequeueRun_cons hop,hsize⟩
  | succ m ih =>
    obtain ⟨q',k',hq,h'⟩ | ⟨-,-,hno⟩ := h.pushBack true (fun _ _ => by omega) v
    · have hop : onDequeue .release e true (.pushBack v) q = .ok (none,q') := by rw [onDequeue,hq]; rfl
      obtain ⟨x,hx,hlen⟩ := ih h' (by rw [List.length_append,List.length_singleton]; omega)
      exact ⟨(none :: x.1,x.2),by rw [List.replicate_succ,dequeueRun_cons hop,hx]; rfl,hlen⟩
    · rw [ElemLayout.fits,he,Nat.zero_mul] at hno
      simp [Profile.checks] at hno

/-- In release a queue loses count of elements without a size at 2^64 of them. -/
theorem empty_elements_miscounted : ∃ (q : Dequeue Unit) (rs : List (Option Unit)) (xs : List Unit)
    (x : List (Option Unit) × Dequeue Unit), withCapacity .release ⟨0,1,by decide⟩ true 1 = .ok q ∧
      listRun (List.replicate usizeBound (.pushBack ())) [] = some (rs,xs) ∧
      dequeueRun .release ⟨0,1,by decide⟩ (List.replicate usizeBound (.pushBack (),true)) q = .ok x ∧ x.2.len ≠ xs.length := by
  obtain ⟨q,hq⟩ : ∃ q : Dequeue Unit, withCapacity .release ⟨0,1,by decide⟩ true 1 = .ok q := ⟨_,rfl⟩
  obtain ⟨k,h⟩ := withCapacity_shows (by decide) hq
  obtain ⟨m,hm⟩ : ∃ m, usizeBound = m + 1 := ⟨usizeBound - 1,by decide⟩
  obtain ⟨x,hx,hlen⟩ := h.pushes_wrap rfl () m (by rw [hm]; exact Nat.zero_add _)
  rw [hm]
  refine ⟨q,_,_,x,hq,listRun_pushes () (m + 1) [],hx,?_⟩
  rw [hlen,List.nil_append,List.length_replicate]
  exact (Nat.succ_ne_zero m).symm

end Dequeue
end MofuOS.DataStructures
