import MofuOS.DataStructures.DequeueList
import MofuOS.DataStructures.Vector
import MofuOS.Lib.Ledger

/-! Who owns the elements of the containers. Raw reads make copies of an element, and whoever makes one has to see to it
that the original is forgotten. -/
namespace MofuOS.DataStructures
open Lib

inductive VecOp (T : Type) where
  | push (value : T)
  | pop
  | insert (index : Nat) (item : T)
  | remove (index : Nat)
  | retain (keep : Nat → T → Bool)
  | clear
  | drop

namespace VecOp
variable {T : Type}

/-- What an operation is given, hands back and drops, and the array it leaves; none is left of a dropped one. Each comes
with the answer the allocator would give it. -/
def transfer (p : Profile) (e : ElemLayout) : VecOp T × Bool → Option (Vec T) → Option (Ledger (Option (Vec T)) T)
  | _, none => none
  | (.push x,granted), some v => (v.push p e granted x).toOption.map fun v => ⟨some v,{x},0,0⟩
  | (.pop,_), some v => (v.pop p).toOption.map fun r => ⟨some r.2,0,(r.1.toList : Multiset T),0⟩
  | (.insert i x,granted), some v => (v.insert p e granted i x).toOption.map fun v => ⟨some v,{x},0,0⟩
  | (.remove i,_), some v => (v.remove i).toOption.map fun r => ⟨some r.2,0,{r.1},0⟩
  | (.retain keep,_), some v => (v.retain p keep).toOption.map fun v => ⟨some v,0,0,0⟩
  | (.clear,_), some v => v.clear.toOption.map fun r => ⟨some r.2,0,0,(r.1 : Multiset T)⟩
  | (.drop,_), some v => (v.drop e).toOption.map fun xs : List T => ⟨none,0,0,(xs : Multiset T)⟩

/-- No element is rejected, and in release the size does not wrap. -/
def Careful (p : Profile) : VecOp T × Bool → Option (Vec T) → Prop
  | _, none => True
  | (.retain keep,_), some v => ∀ i < v.size, (v.data i).all (keep i) = true
  | (.push _,_), some v => p = .release → v.size + 1 < usizeBound
  | (.insert i _,_), some v => p = .release → i ≤ v.size → v.size + 1 < usizeBound
  | _, _ => True

instance (p : Profile) (a : VecOp T × Bool) (s : Option (Vec T)) : Decidable (Careful p a s) :=
  match a, s with
  | _, none => isTrue trivial
  | (.retain keep,_), some v => inferInstanceAs (Decidable (∀ i < v.size, (v.data i).all (keep i) = true))
  | (.push _,_), some v => inferInstanceAs (Decidable (p = .release → v.size + 1 < usizeBound))
  | (.insert i _,_), some v => inferInstanceAs (Decidable (p = .release → i ≤ v.size → v.size + 1 < usizeBound))
  | (.pop,_), some _ | (.remove _,_), some _ | (.clear,_), some _ | (.drop,_), some _ => isTrue trivial

end VecOp

namespace Vec
variable {T : Type} {p : Profile} {e : ElemLayout} {granted : Bool} {v w : Vec T} {xs : List T} {x : T} {i : Nat}

/-- The elements that are stored. -/
def held : Option (Vec T) → Multiset T
  | none => 0
  | some v => ↑(v.asSlice.toOption.getD [])

def Stored (s : Option (Vec T)) : Prop := ∀ v, s = some v → ∃ xs, v.Shows xs

theorem Shows.held (h : v.Shows xs) : held (some v) = ↑xs := by
  rw [Vec.held,h.asSlice]
  rfl

theorem Shows.stored (h : v.Shows xs) : Stored (some v) := by
  intro w hw
  cases hw
  exact ⟨xs,h⟩

theorem withCapacity_shows {capacity : Nat} (hcap : capacity < usizeBound) (hv : withCapacity e granted capacity = .ok v) :
    v.Shows [] := by
  rw [withCapacity] at hv
  split_ifs at hv
  obtain ⟨_,-,hv⟩ := bind_eq_ok hv
  cases hv
  exact ⟨rfl,nofun,hcap,Nat.two_pow_pos 64⟩

/-- Only where overflow is not checked can the size of an array wrap. -/
theorem count_fits {n m : Nat} (hadd : usizeAdd p n 1 = .ok m) (hc : p = .release → n + 1 < usizeBound) :
    n + 1 < usizeBound := by
  cases p with
  | dev => exact usizeAdd_checked hadd rfl
  | release => exact hc rfl

/-- The last size before the wrap is reached without a growth. -/
theorem Shows.reserve_last (h : v.Shows xs) (hlast : xs.length + 1 = usizeBound) : v.reserve .release e granted = .ok v := by
  rw [Vec.reserve]
  split_ifs with hfull
  · have hcap : v.capacity = 2^64 - 1 := by
      rw [← hfull,h.size]
      rw [usizeBound] at hlast
      omega
    have hdouble : unsigned .release 64 ((2^64 - 1) * 2 : Nat) = .ok (2^64 - 2) := by decide
    rw [hcap,hdouble,liftM_ok_bind,Vec.resize,if_pos (by rw [hcap]; decide)]
    rfl
  · rfl

end Vec

namespace VecOp
variable {T : Type} {p : Profile} {e : ElemLayout} {granted : Bool} {v w : Vec T} {xs : List T} {x : T} {i : Nat}
  {a : VecOp T × Bool} {s : Option (Vec T)} {m : Ledger (Option (Vec T)) T}

private theorem push_count (h : v.Shows xs) (hw : v.push p e granted x = .ok w) (hc : p = .release → v.size + 1 < usizeBound) :
    xs.length + 1 < usizeBound := by
  obtain ⟨u,hu,hw⟩ := bind_eq_ok hw
  obtain ⟨n,hn,-⟩ := liftM_bind_eq_ok hw
  rw [(h.reserve hu).size] at hn
  rw [h.size] at hc
  exact Vec.count_fits hn hc

private theorem insert_count (h : v.Shows xs) (hw : v.insert p e granted i x = .ok w)
    (hc : p = .release → i ≤ v.size → v.size + 1 < usizeBound) : xs.length + 1 < usizeBound := by
  rw [Vec.insert] at hw
  split_ifs at hw with hi
  obtain ⟨u,hu,hw⟩ := bind_eq_ok hw
  obtain ⟨n,hn,-⟩ := liftM_bind_eq_ok hw
  rw [(h.reserve hu).size] at hn
  rw [h.size] at hc hi
  exact Vec.count_fits hn fun hp => hc hp (Nat.not_lt.mp hi)

/-- In release the size of a full array wraps to zero. -/
private theorem push_last (e : ElemLayout) (granted : Bool) (x : T) (h : v.Shows xs) (hlast : usizeBound ≤ v.size + 1) :
    ∃ w, v.push .release e granted x = .ok w ∧ Vec.held (some w) = 0 := by
  have hlen : xs.length + 1 = usizeBound := by
    have := h.lt
    rw [h.size] at hlast
    omega
  refine ⟨{ v with size := 0, data := Function.update v.data v.size (some x) },?_,rfl⟩
  rw [Vec.push,h.reserve_last hlen,ok_bind,h.size,usizeAdd_last hlen]
  rfl

private theorem insert_last (e : ElemLayout) (granted : Bool) (x : T) (h : v.Shows xs) (hi : i ≤ v.size) (hlast : usizeBound ≤ v.size + 1) :
    ∃ w, v.insert .release e granted i x = .ok w ∧ Vec.held (some w) = 0 := by
  have hlen : xs.length + 1 = usizeBound := by
    have := h.lt
    rw [h.size] at hlast
    omega
  refine ⟨{ v with size := 0, data := Function.update (ptrCopy v.data i (i + 1) (v.size - i)) i (some x) },?_,rfl⟩
  rw [Vec.insert,if_neg (Nat.not_lt.mpr hi),h.reserve_last hlen,ok_bind,h.size,usizeAdd_last hlen]
  rfl

/-- A careful operation passes every element on once. -/
theorem transfer_conserves (hs : Vec.Stored s) (hc : Careful p a s) (hm : transfer p e a s = some m) :
    Vec.Stored m.store ∧ Ledger.Conserves Vec.held s m := by
  cases s with
  | none => cases hm
  | some v =>
    obtain ⟨xs,h⟩ := hs v rfl
    obtain ⟨op,granted⟩ := a
    rw [Ledger.Conserves,h.held]
    cases op with
    | push x =>
      obtain ⟨w,hw,rfl⟩ := Option.map_eq_some_iff.mp hm
      have hw := of_toOption hw
      have h' := h.push (push_count h hw hc) hw
      refine ⟨h'.stored,?_⟩
      rw [h'.held,add_zero,add_zero,← Multiset.coe_singleton,Multiset.coe_add]
    | pop =>
      obtain ⟨r,hr,rfl⟩ := Option.map_eq_some_iff.mp hm
      obtain ⟨w,hw,h'⟩ := h.pop (p := p)
      cases (of_toOption hr).symm.trans hw
      refine ⟨h'.stored,?_⟩
      rw [h'.held,add_zero,add_zero,Multiset.coe_add]
      cases hlast : xs.getLast? with
      | none =>
        rw [List.getLast?_eq_none_iff.mp hlast]
        rfl
      | some x =>
        obtain ⟨ys,rfl⟩ := List.getLast?_eq_some_iff.mp hlast
        rw [List.dropLast_concat]
        rfl
    | insert i x =>
      obtain ⟨w,hw,rfl⟩ := Option.map_eq_some_iff.mp hm
      have hw := of_toOption hw
      obtain ⟨hi,h'⟩ := h.insert (insert_count h hw hc) hw
      refine ⟨h'.stored,?_⟩
      rw [h'.held,add_zero,add_zero,add_comm,← Multiset.coe_singleton,Multiset.coe_add,Multiset.coe_eq_coe]
      exact (List.perm_insertIdx x xs hi).symm
    | remove i =>
      obtain ⟨r,hr,rfl⟩ := Option.map_eq_some_iff.mp hm
      have hr := of_toOption hr
      have hi : i < xs.length := by
        rw [Vec.remove] at hr
        split_ifs at hr with hi
        rwa [h.size] at hi
      obtain ⟨w,hw,h'⟩ := h.remove hi
      cases hr.symm.trans hw
      refine ⟨h'.stored,?_⟩
      rw [h'.held,add_zero,add_zero,add_comm,← Multiset.coe_singleton,Multiset.coe_add,Multiset.coe_eq_coe]
      exact (List.getElem_cons_eraseIdx_perm hi).symm
    | retain keep =>
      obtain ⟨w,hw,rfl⟩ := Option.map_eq_some_iff.mp hm
      obtain ⟨w',hw',h'⟩ := h.retain (p := p) keep
      cases (of_toOption hw).symm.trans hw'
      rw [Vec.kept_eq_self fun j hj => ?_] at h'
      · refine ⟨h'.stored,?_⟩
        rw [h'.held,add_zero,add_zero]
      · rw [Nat.zero_add]
        have hkeep := hc j (by rw [h.size]; exact hj)
        rwa [h.cells j hj,List.getElem?_eq_getElem hj] at hkeep
    | clear =>
      obtain ⟨r,hr,rfl⟩ := Option.map_eq_some_iff.mp hm
      obtain ⟨w,hw,h'⟩ := h.clear
      cases (of_toOption hr).symm.trans hw
      refine ⟨h'.stored,?_⟩
      rw [h'.held,add_zero,add_zero]
      exact (zero_add _).symm
    | drop =>
      obtain ⟨r,hr,rfl⟩ := Option.map_eq_some_iff.mp hm
      have hr := of_toOption hr
      rw [Vec.drop,h.asSlice,ok_bind] at hr
      split_ifs at hr
      cases hr
      refine ⟨(fun _ hs' => by cases hs'),?_⟩
      rw [add_zero,add_zero]
      exact (zero_add _).symm

/-- Any other operation returns, and loses an element at the least. -/
theorem transfer_loses (hs : Vec.Stored s) (hc : ¬ Careful p a s) :
    ∃ m, transfer p e a s = some m ∧ ¬ Ledger.Conserves Vec.held s m := by
  obtain ⟨op,granted⟩ := a
  cases s with
  | none => exact absurd trivial hc
  | some v =>
    obtain ⟨xs,h⟩ := hs v rfl
    cases op with
    | push x =>
      obtain ⟨rfl,hlast⟩ := Classical.not_imp.mp hc
      obtain ⟨w,hw,hheld⟩ := push_last e granted x h (Nat.not_lt.mp hlast)
      exact ⟨⟨some w,{x},0,0⟩,by rw [transfer,hw]; rfl,Ledger.not_conserves_of_empty hheld⟩
    | insert i x =>
      obtain ⟨rfl,hwrap⟩ := Classical.not_imp.mp hc
      obtain ⟨hi,hlast⟩ := Classical.not_imp.mp hwrap
      obtain ⟨w,hw,hheld⟩ := insert_last e granted x h hi (Nat.not_lt.mp hlast)
      exact ⟨⟨some w,{x},0,0⟩,by rw [transfer,hw]; rfl,Ledger.not_conserves_of_empty hheld⟩
    | retain keep =>
      obtain ⟨w,hw,h'⟩ := h.retain (p := p) keep
      refine ⟨⟨some w,0,0,0⟩,by rw [transfer,hw]; rfl,fun hcons => ?_⟩
      rw [Ledger.Conserves,h.held,h'.held,add_zero,add_zero,add_zero] at hcons
      have hcard := congrArg Multiset.card hcons
      rw [Multiset.coe_card,Multiset.coe_card] at hcard
      refine hc fun i hi => ?_
      rw [h.size] at hi
      rw [h.cells i hi,List.getElem?_eq_getElem hi]
      refine Bool.of_not_eq_false fun hreject => ?_
      rw [Option.all_some] at hreject
      have hreject' : keep (0 + i) xs[i] = false := by rwa [Nat.zero_add]
      have hlt := Vec.length_kept_lt hi hreject'
      omega
    | pop => exact absurd trivial hc
    | remove i => exact absurd trivial hc
    | clear => exact absurd trivial hc
    | drop => exact absurd trivial hc

end VecOp

inductive QueueOp (T : Type) where
  | pushBack (value : T)
  | pushFront (value : T)
  | popBack
  | popFront
  | drain (depth : Nat)
  | clear
  | drop

namespace QueueOp
variable {T : Type}

/-- The same of a queue. A drain hands out what its owner takes of it, and drops what it drops. -/
def transfer (p : Profile) (e : ElemLayout) :
    QueueOp T × Bool → Option (Dequeue T) → Option (Ledger (Option (Dequeue T)) T)
  | _, none => none
  | (.pushBack x,granted), some q => (q.pushBack p e granted x).toOption.map fun q => ⟨some q,{x},0,0⟩
  | (.pushFront x,granted), some q => (q.pushFront p e granted x).toOption.map fun q => ⟨some q,{x},0,0⟩
  | (.popBack,_), some q => (q.popBack p).toOption.map fun r => ⟨some r.2,0,{r.1},0⟩
  | (.popFront,_), some q => (q.popFront p).toOption.map fun r => ⟨some r.2,0,{r.1},0⟩
  | (.drain n,_), some q => (q.drain p n).toOption.map fun r => ⟨some r.2.2,0,(r.1 : Multiset T),(r.2.1 : Multiset T)⟩
  | (.clear,_), some q => (q.clear p).toOption.map fun r => ⟨some r.2,0,0,(r.1 : Multiset T)⟩
  | (.drop,_), some q => (q.drop p e).toOption.map fun xs : List T => ⟨none,0,0,(xs : Multiset T)⟩

/-- No element is drained, and in release the size does not wrap. -/
def Careful (p : Profile) : QueueOp T × Bool → Option (Dequeue T) → Prop
  | _, none => True
  | (.drain n,_), some q => n = 0 ∨ q.size = 0
  | (.pushBack _,_), some q => p = .release → q.size + 1 < usizeBound
  | (.pushFront _,_), some q => p = .release → q.size + 1 < usizeBound
  | _, _ => True

instance (p : Profile) (a : QueueOp T × Bool) (s : Option (Dequeue T)) : Decidable (Careful p a s) :=
  match a, s with
  | _, none => isTrue trivial
  | (.drain n,_), some q => inferInstanceAs (Decidable (n = 0 ∨ q.size = 0))
  | (.pushBack _,_), some q => inferInstanceAs (Decidable (p = .release → q.size + 1 < usizeBound))
  | (.pushFront _,_), some q => inferInstanceAs (Decidable (p = .release → q.size + 1 < usizeBound))
  | (.popBack,_), some _ | (.popFront,_), some _ | (.clear,_), some _ | (.drop,_), some _ => isTrue trivial

end QueueOp

namespace Dequeue
variable {T : Type} {p : Profile} {e : ElemLayout} {q : Dequeue T} {k : Nat} {xs : List T}

/-- The elements that are stored. -/
def held (p : Profile) : Option (Dequeue T) → Multiset T
  | none => 0
  | some q => ↑((q.iter p).toOption.getD [])

def Stored (p : Profile) (e : ElemLayout) (s : Option (Dequeue T)) : Prop := ∀ q, s = some q → ∃ k xs, q.Shows p e k xs

theorem Shows.held (h : q.Shows p e k xs) : held p (some q) = ↑xs := by
  rw [Dequeue.held,h.iter]
  rfl

theorem Shows.stored (h : q.Shows p e k xs) : Stored p e (some q) := by
  intro w hw
  cases hw
  exact ⟨k,xs,h⟩

theorem Shows.count_last (h : q.Shows p e k xs) (hlast : ¬ q.size + 1 < usizeBound) : xs.length + 1 = usizeBound := by
  have hlt := h.lt
  rw [h.size] at hlast
  omega

theorem held_empty (h : q.size = 0) : Dequeue.held p (some q) = 0 := by
  rw [Dequeue.held,Dequeue.iter,Dequeue.len,h,Dequeue.iterFrom,Dequeue.len,h]
  rfl

end Dequeue

namespace QueueOp
variable {T : Type} {p : Profile} {e : ElemLayout} {granted : Bool} {q q' : Dequeue T} {k : Nat} {xs : List T} {x : T}
  {a : QueueOp T × Bool} {s : Option (Dequeue T)} {m : Ledger (Option (Dequeue T)) T}

private theorem pushBack_careful (h : q.Shows p e k xs) (hc : p = .release → q.size + 1 < usizeBound)
    (hq : q.pushBack p e granted x = .ok q') : ∃ k', q'.Shows p e k' (xs ++ [x]) := by
  rw [h.size] at hc
  obtain ⟨u,k',hu,h'⟩ | ⟨hno,-⟩ := h.pushBack granted (fun hp _ => hc hp) x
  · cases hq.symm.trans hu
    exact ⟨k',h'⟩
  · cases hq.symm.trans hno

private theorem pushFront_careful (h : q.Shows p e k xs) (hc : p = .release → q.size + 1 < usizeBound)
    (hq : q.pushFront p e granted x = .ok q') : ∃ k', q'.Shows p e k' (x :: xs) := by
  rw [h.size] at hc
  obtain ⟨u,k',hu,h'⟩ | ⟨hno,-⟩ := h.pushFront granted (fun hp _ => hc hp) x
  · cases hq.symm.trans hu
    exact ⟨k',h'⟩
  · cases hq.symm.trans hno

private theorem popBack_shows {r : T × Dequeue T} (h : q.Shows p e k xs) (hr : q.popBack p = .ok r) :
    ∃ ys, xs = ys ++ [r.1] ∧ r.2.Shows p e k ys := by
  cases hlast : xs.getLast? with
  | none =>
    rw [List.getLast?_eq_none_iff] at hlast
    subst hlast
    have hempty : q.size = 0 := h.size
    rw [Dequeue.popBack,if_pos hempty] at hr
    cases hr
  | some x =>
    obtain ⟨ys,rfl⟩ := List.getLast?_eq_some_iff.mp hlast
    obtain ⟨q',hq,h'⟩ := h.popBack
    cases hr.symm.trans hq
    exact ⟨ys,rfl,h'⟩

private theorem popFront_shows {r : T × Dequeue T} (h : q.Shows p e k xs) (hr : q.popFront p = .ok r) :
    ∃ ys, xs = r.1 :: ys ∧ r.2.Shows p e k ys := by
  cases xs with
  | nil =>
    have hempty : q.size = 0 := h.size
    rw [Dequeue.popFront,if_pos hempty] at hr
    cases hr
  | cons x ys =>
    obtain ⟨q',hq,h'⟩ := h.popFront
    cases hr.symm.trans hq
    exact ⟨ys,rfl,h'⟩

theorem transfer_conserves (hs : Dequeue.Stored p e s) (hc : Careful p a s) (hm : transfer p e a s = some m) :
    Dequeue.Stored p e m.store ∧ Ledger.Conserves (Dequeue.held p) s m := by
  cases s with
  | none => cases hm
  | some q =>
    obtain ⟨k,xs,h⟩ := hs q rfl
    obtain ⟨op,granted⟩ := a
    rw [Ledger.Conserves,h.held]
    cases op with
    | pushBack x =>
      obtain ⟨q',hq,rfl⟩ := Option.map_eq_some_iff.mp hm
      obtain ⟨k',h'⟩ := pushBack_careful h hc (of_toOption hq)
      refine ⟨h'.stored,?_⟩
      rw [h'.held,add_zero,add_zero,← Multiset.coe_singleton,Multiset.coe_add]
    | pushFront x =>
      obtain ⟨q',hq,rfl⟩ := Option.map_eq_some_iff.mp hm
      obtain ⟨k',h'⟩ := pushFront_careful h hc (of_toOption hq)
      refine ⟨h'.stored,?_⟩
      rw [h'.held,add_zero,add_zero,add_comm,← Multiset.coe_singleton,Multiset.coe_add,List.singleton_append]
    | popBack =>
      obtain ⟨r,hr,rfl⟩ := Option.map_eq_some_iff.mp hm
      obtain ⟨ys,rfl,h'⟩ := popBack_shows h (of_toOption hr)
      refine ⟨h'.stored,?_⟩
      rw [h'.held,add_zero,add_zero,← Multiset.coe_singleton,Multiset.coe_add]
    | popFront =>
      obtain ⟨r,hr,rfl⟩ := Option.map_eq_some_iff.mp hm
      obtain ⟨ys,rfl,h'⟩ := popFront_shows h (of_toOption hr)
      refine ⟨h'.stored,?_⟩
      rw [h'.held,add_zero,add_zero,add_comm,← Multiset.coe_singleton,Multiset.coe_add,List.singleton_append]
    | drain n =>
      obtain ⟨r,hr,rfl⟩ := Option.map_eq_some_iff.mp hm
      obtain ⟨q',hq,h'⟩ := h.drain n
      cases (of_toOption hr).symm.trans hq
      have hnone : xs.take n = [] := by
        rw [List.take_eq_nil_iff,← List.length_eq_zero_iff,← h.size]
        exact hc
      refine ⟨h'.stored,?_⟩
      have hall := List.take_append_drop n xs
      rw [hnone,List.nil_append] at hall
      rw [h'.held,hnone,hall]
      show (xs : Multiset T) + 0 = ↑xs + 0 + 0
      rw [add_zero,add_zero]
    | clear =>
      obtain ⟨r,hr,rfl⟩ := Option.map_eq_some_iff.mp hm
      obtain ⟨q',hq,h'⟩ := h.clear
      cases (of_toOption hr).symm.trans hq
      refine ⟨h'.stored,?_⟩
      rw [h'.held,add_zero,add_zero]
      exact (zero_add _).symm
    | drop =>
      obtain ⟨r,hr,rfl⟩ := Option.map_eq_some_iff.mp hm
      cases (of_toOption hr).symm.trans h.drop
      refine ⟨(fun _ hs' => by cases hs'),?_⟩
      rw [add_zero,add_zero]
      exact (zero_add _).symm

/-- A drain of an element hands out and drops the same one. -/
theorem transfer_loses (hs : Dequeue.Stored p e s) (hc : ¬ Careful p a s) :
    ∃ m, transfer p e a s = some m ∧ ¬ Ledger.Conserves (Dequeue.held p) s m := by
  obtain ⟨op,granted⟩ := a
  cases s with
  | none => exact absurd trivial hc
  | some q =>
    obtain ⟨k,xs,h⟩ := hs q rfl
    cases op with
    | pushBack x =>
      obtain ⟨rfl,hlast⟩ := Classical.not_imp.mp hc
      obtain ⟨q',hq,hsize⟩ := h.pushBack_last (h.count_last hlast) granted x
      exact ⟨⟨some q',{x},0,0⟩,by rw [transfer,hq]; rfl,Ledger.not_conserves_of_empty (Dequeue.held_empty hsize)⟩
    | pushFront x =>
      obtain ⟨rfl,hlast⟩ := Classical.not_imp.mp hc
      obtain ⟨q',hq,hsize⟩ := h.pushFront_last (h.count_last hlast) granted x
      exact ⟨⟨some q',{x},0,0⟩,by rw [transfer,hq]; rfl,Ledger.not_conserves_of_empty (Dequeue.held_empty hsize)⟩
    | drain n =>
      obtain ⟨q',hq,h'⟩ := h.drain n
      refine ⟨⟨some q',0,(xs.take n : Multiset T),(xs.take n : Multiset T)⟩,by rw [transfer,hq]; rfl,fun hcons => hc ?_⟩
      rw [Ledger.Conserves,h.held,h'.held] at hcons
      have hcard := congrArg Multiset.card hcons
      rw [Multiset.card_add,Multiset.card_add,Multiset.card_add,Multiset.card_zero,Multiset.coe_card,Multiset.coe_card,
        Multiset.coe_card,List.length_drop,List.length_take] at hcard
      show n = 0 ∨ q.size = 0
      rw [h.size]
      omega
    | popBack => exact absurd trivial hc
    | popFront => exact absurd trivial hc
    | clear => exact absurd trivial hc
    | drop => exact absurd trivial hc

end QueueOp

/-- From their creation on, a run of operations on an array and one on a queue account for every element exactly when
retain keeps all it looks at, no drain gets to an element, and the size does not wrap. -/
theorem tokens_accounted_iff {T U : Type} {p : Profile} {e d : ElemLayout} {a b : Bool} {n m : Nat} {v : Vec T} {q : Dequeue U}
    (hn : n < usizeBound) (hv : Vec.withCapacity e a n = .ok v) (hm : m < usizeBound) (hq : Dequeue.withCapacity p d b m = .ok q)
    (vs : List (VecOp T × Bool)) (qs : List (QueueOp U × Bool)) :
    (Ledger.Accounts Vec.held (VecOp.transfer p e) vs (some v) ↔
        stepsMeet (Ledger.step (VecOp.transfer p e)) (fun x l => VecOp.Careful p x l.store) vs (Ledger.opening (some v))) ∧
      (Ledger.Accounts (Dequeue.held p) (QueueOp.transfer p d) qs (some q) ↔
        stepsMeet (Ledger.step (QueueOp.transfer p d)) (fun x l => QueueOp.Careful p x l.store) qs (Ledger.opening (some q))) := by
  have hvs := Vec.withCapacity_shows hn hv
  obtain ⟨k,hqs⟩ := Dequeue.withCapacity_shows hm hq
  exact ⟨Ledger.accounts_iff (fun _ _ _ => VecOp.transfer_conserves) (fun _ _ => VecOp.transfer_loses) hvs.stored hvs.held vs,
    Ledger.accounts_iff (fun _ _ _ => QueueOp.transfer_conserves) (fun _ _ => QueueOp.transfer_loses) hqs.stored hqs.held qs⟩

/-- A run that only keeps, drains nothing and drops the rest is accounted for. -/
theorem tokens_accounted_iff_small :
    Ledger.Accounts Vec.held (VecOp.transfer .dev ⟨8,8,by decide⟩)
        [(.push 1,true),(.push 2,true),(.retain fun _ _ => true,true),(.remove 0,true),(.drop,true)]
        (some (⟨0,4,fun _ => none⟩ : Vec Nat)) ∧
      Ledger.Accounts (Dequeue.held .dev) (QueueOp.transfer .dev ⟨8,8,by decide⟩)
        [(.pushBack 1,true),(.pushFront 2,true),(.drain 0,true),(.popFront,true),(.clear,true)]
        (some (⟨0,0,0,4,fun _ => none⟩ : Dequeue Nat)) := by
  have hv : Vec.withCapacity ⟨8,8,by decide⟩ true 4 = .ok (⟨0,4,fun _ => none⟩ : Vec Nat) := rfl
  have hq : Dequeue.withCapacity .dev ⟨8,8,by decide⟩ true 4 = .ok (⟨0,0,0,4,fun _ => none⟩ : Dequeue Nat) := rfl
  obtain ⟨hvec,hdeq⟩ := tokens_accounted_iff (by decide) hv (by decide) hq
    [(.push 1,true),(.push 2,true),(.retain fun _ _ => true,true),(.remove 0,true),(.drop,true)]
    [(.pushBack 1,true),(.pushFront 2,true),(.drain 0,true),(.popFront,true),(.clear,true)]
  exact ⟨hvec.mpr (stepsMeet_of_check (fun x l => decide (VecOp.Careful .dev x l.store)) (fun _ _ => of_decide_eq_true) (by decide)),
    hdeq.mpr (stepsMeet_of_check (fun x l => decide (QueueOp.Careful .dev x l.store)) (fun _ _ => of_decide_eq_true) (by decide))⟩

/-- A process that retain rejects is never dropped, and one that a drain hands out is dropped as well. -/
theorem retain_leaks_and_drain_drops_twice :
    ¬ Ledger.Accounts Vec.held (VecOp.transfer .dev ⟨8,8,by decide⟩)
        [(.push 1,true),(.push 2,true),(.retain fun _ x => x == 1,true)] (some (⟨0,4,fun _ => none⟩ : Vec Nat)) ∧
      ¬ Ledger.Accounts (Dequeue.held .dev) (QueueOp.transfer .dev ⟨8,8,by decide⟩)
        [(.pushBack 1,true),(.pushBack 2,true),(.drain 1,true)] (some (⟨0,0,0,4,fun _ => none⟩ : Dequeue Nat)) := by
  refine ⟨fun h => ?_,fun h => ?_⟩
  · exact absurd (h _ _ (List.prefix_refl _) rfl) (by decide)
  · exact absurd (h _ _ (List.prefix_refl _) rfl) (by decide)

end MofuOS.DataStructures
