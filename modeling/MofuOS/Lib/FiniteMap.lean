import Mathlib.Algebra.BigOperators.Group.List.Basic
import Mathlib.Algebra.GroupWithZero.Nat
import Mathlib.Data.List.Nodup

/-! Finite maps as an interface. Lookups are specified, the order of iteration is not. -/
namespace MofuOS.Lib

/-- A finite map keyed by K whose iteration order is its own business. The map is generic in its
values, so what it does with its keys does not depend on them: the laws of map say so. -/
class FiniteMap (K : outParam Type) [DecidableEq K] (M : Type → Type) where
  empty {V : Type} : M V
  get {V : Type} : M V → K → Option V
  insert {V : Type} : M V → K → V → M V
  remove {V : Type} : M V → K → M V
  /-- Apply a function to the value of a key, as through a mutable reference. -/
  modify {V : Type} : M V → K → (V → V) → M V
  /-- The map with every value read through a function. -/
  map {V W : Type} : (V → W) → M V → M W
  iter {V : Type} : M V → List (K × V)
  get_empty {V : Type} (k : K) : get (empty : M V) k = none
  get_insert {V : Type} (m : M V) (k k' : K) (v : V) :
    get (insert m k v) k' = if k' = k then some v else get m k'
  get_remove {V : Type} (m : M V) (k k' : K) : get (remove m k) k' = if k' = k then none else get m k'
  get_modify {V : Type} (m : M V) (k k' : K) (f : V → V) :
    get (modify m k f) k' = if k' = k then (get m k').map f else get m k'
  map_insert {V W : Type} (f : V → W) (m : M V) (k : K) (v : V) : map f (insert m k v) = insert (map f m) k (f v)
  map_remove {V W : Type} (f : V → W) (m : M V) (k : K) : map f (remove m k) = remove (map f m) k
  map_modify {V W : Type} (f : V → W) (m : M V) (k : K) {g : V → V} (h : ∀ v, f (g v) = f v) :
    map f (modify m k g) = map f m
  iter_map {V W : Type} (f : V → W) (m : M V) : iter (map f m) = (iter m).map fun e => (e.1,f e.2)
  mem_iter {V : Type} (m : M V) (k : K) (v : V) : (k,v) ∈ iter m ↔ get m k = some v
  iter_nodup {V : Type} (m : M V) : ((iter m).map Prod.fst).Nodup

namespace FiniteMap
variable {K : Type} [DecidableEq K] {M : Type → Type} [FiniteMap K M] {V : Type}

attribute [simp] get_empty

@[simp] theorem get_insert_self (m : M V) (k : K) (v : V) : get (insert m k v) k = some v := by
  rw [get_insert,if_pos rfl]

theorem get_insert_of_ne (m : M V) {k k' : K} (v : V) (h : k' ≠ k) : get (insert m k v) k' = get m k' := by
  rw [get_insert,if_neg h]

/-- A map read through v. -/
def view {W : Type} (v : V → W) (m : M V) : K → Option W := fun k => (get m k).map v

section View
variable {W : Type} (v : V → W) (m : M V) (k : K)

theorem view_insert (x : V) : view v (insert m k x) = Function.update (view v m) k (some (v x)) := by
  funext k'
  by_cases h : k' = k
  · subst h
    rw [Function.update_self,view,get_insert_self,Option.map_some]
  · rw [Function.update_of_ne h,view,get_insert_of_ne m x h,view]

theorem view_remove : view v (remove m k) = Function.update (view v m) k none := by
  funext k'
  by_cases h : k' = k
  · subst h
    rw [Function.update_self,view,get_remove,if_pos rfl,Option.map_none]
  · rw [Function.update_of_ne h,view,get_remove,if_neg h,view]

variable {v m k}

theorem view_modify {x : V} (f : V → V) (h : get m k = some x) :
    view v (modify m k f) = Function.update (view v m) k (some (v (f x))) := by
  funext k'
  rw [view,get_modify]
  by_cases hk : k' = k
  · subst hk
    rw [if_pos rfl,h,Function.update_self,Option.map_some,Option.map_some]
  · rw [if_neg hk,Function.update_of_ne hk,view]

/-- A change that v does not see. -/
theorem view_modify_same {f : V → V} (h : ∀ x, v (f x) = v x) : view v (modify m k f) = view v m := by
  funext k'
  rw [view,get_modify]
  split_ifs
  · rw [Option.map_map,view]
    congr 1
    funext x
    exact h x
  · rfl

/-- What v sees is what the map read through v holds. -/
theorem view_of_map {m' : M V} (h : map v m = map v m') : view v m = view v m' := by
  have hiter := congrArg iter h
  rw [iter_map,iter_map] at hiter
  have hmem (m : M V) (w : W) (k : K) : view v m k = some w ↔ (k,w) ∈ (iter m).map fun e => (e.1,v e.2) := by
    rw [view,Option.map_eq_some_iff,List.mem_map]
    constructor
    · rintro ⟨x,hx,rfl⟩
      exact ⟨(k,x),(mem_iter ..).mpr hx,rfl⟩
    · rintro ⟨⟨k',x⟩,hm,he⟩
      cases he
      exact ⟨x,(mem_iter ..).mp hm,rfl⟩
  funext k
  apply Option.ext
  intro w
  rw [hmem,hmem,hiter]

end View

/-- Removing a key that is present shortens the iteration. -/
theorem length_remove_lt {m : M V} {k : K} (h : get m k ≠ none) :
    (iter (remove m k)).length < (iter m).length := by
  have hk (m : M V) (k : K) : k ∈ (iter m).map Prod.fst ↔ get m k ≠ none := by
    rw [List.mem_map,Option.ne_none_iff_exists']
    constructor
    · rintro ⟨⟨_,v⟩,hm,rfl⟩
      exact ⟨v,(mem_iter m _ v).mp hm⟩
    · rintro ⟨v,hv⟩
      exact ⟨(k,v),(mem_iter m k v).mpr hv,rfl⟩
  have hsub : ((iter (remove m k)).map Prod.fst).Subperm (((iter m).map Prod.fst).erase k) := by
    apply List.subperm_of_subset (iter_nodup _)
    intro k' hk'
    rw [hk,get_remove] at hk'
    have hne : k' ≠ k := by
      rintro rfl
      simp at hk'
    rw [if_neg hne] at hk'
    exact (List.mem_erase_of_ne hne).mpr ((hk m k').mpr hk')
  have hle := hsub.length_le
  rw [List.length_erase_of_mem ((hk m k).mpr h)] at hle
  have hpos : 0 < ((iter m).map Prod.fst).length := List.length_pos_of_mem ((hk m k).mpr h)
  simp only [List.length_map] at hle hpos
  omega

theorem iter_nodup_pairs (m : M V) : (iter m).Nodup := (iter_nodup m).of_map

/-- Maps that agree on f of every value iterate over the same f, up to order. -/
theorem iter_map_perm {W : Type} {m m' : M V} (f : V → W) (h : view f m = view f m') :
    ((iter m).map fun e => (e.1,f e.2)).Perm ((iter m').map fun e => (e.1,f e.2)) := by
  have hn (m : M V) : ((iter m).map fun e => (e.1,f e.2)).Nodup := by
    apply List.Nodup.of_map (f := Prod.fst)
    rw [List.map_map]
    exact iter_nodup m
  have hmem (m : M V) (k : K) (w : W) : (k,w) ∈ (iter m).map (fun e => (e.1,f e.2)) ↔ (get m k).map f = some w := by
    rw [List.mem_map,Option.map_eq_some_iff]
    constructor
    · rintro ⟨⟨k',v⟩,hm,he⟩
      cases he
      exact ⟨v,(mem_iter m k' v).mp hm,rfl⟩
    · rintro ⟨v,hv,rfl⟩
      exact ⟨(k,v),(mem_iter m k v).mpr hv,rfl⟩
  apply (List.perm_ext_iff_of_nodup (hn m) (hn m')).mpr
  rintro ⟨k,w⟩
  rw [hmem,hmem]
  exact Eq.congr_left (congrFun h k)

theorem iter_remove_subperm (m : M V) (k : K) : (iter (remove m k)).Subperm (iter m) := by
  apply List.subperm_of_subset (iter_nodup_pairs _)
  rintro ⟨k',v⟩ hm
  rw [mem_iter,get_remove] at hm
  split_ifs at hm
  exact (mem_iter m k' v).mpr hm

/-- An entry and the rest of the map. -/
theorem iter_perm_cons {m : M V} {k : K} {x : V} (h : get m k = some x) :
    (iter m).Perm ((k,x) :: iter (remove m k)) := by
  have hnot : (k,x) ∉ iter (remove m k) := by
    rw [mem_iter,get_remove,if_pos rfl]
    exact nofun
  apply (List.perm_ext_iff_of_nodup (iter_nodup_pairs m) (List.nodup_cons.mpr ⟨hnot,iter_nodup_pairs _⟩)).mpr
  rintro ⟨k',y⟩
  rw [List.mem_cons,mem_iter,mem_iter,get_remove,Prod.mk.injEq]
  by_cases hk : k' = k
  · subst hk
    simp [h,eq_comm]
  · simp [hk]

section Sum
variable (v : V → Nat) {m m' : M V} {k : K} {x : V}

/-- The sum of v over the values of a map. -/
def sumOf (m : M V) : Nat := ((iter m).map fun e => v e.2).sum

variable {v}

theorem sumOf_of_view (h : view v m' = view v m) : sumOf v m' = sumOf v m := by
  have hp := (iter_map_perm v h).map Prod.snd
  rw [List.map_map,List.map_map] at hp
  exact hp.sum_eq

theorem sumOf_remove (h : get m k = some x) : sumOf v (remove m k) + v x = sumOf v m := by
  have hp := ((iter_perm_cons h).map fun e => v e.2).sum_eq
  rw [List.map_cons,List.sum_cons] at hp
  rw [sumOf,sumOf,hp,Nat.add_comm]

theorem sumOf_empty : sumOf v (empty : M V) = 0 := by
  have hnil : iter (empty : M V) = [] := by
    apply List.eq_nil_iff_forall_not_mem.mpr
    rintro ⟨k,x⟩ hm
    rw [mem_iter,get_empty] at hm
    cases hm
  rw [sumOf,hnil]
  rfl

theorem le_sumOf (h : get m k = some x) : v x ≤ sumOf v m := by
  have := sumOf_remove (v := v) h
  omega

/-- One key is given the value n, and the sum changes by what it had and now has. -/
theorem sumOf_update {n : Nat} (h : view v m' = Function.update (view v m) k (some n)) :
    sumOf v m' + (view v m k).getD 0 = sumOf v m + n := by
  have hrest : sumOf v (remove m' k) = sumOf v (remove m k) := by
    apply sumOf_of_view
    rw [view_remove,view_remove,h,Function.update_idem]
  have hk := congrFun h k
  rw [Function.update_self,view,Option.map_eq_some_iff] at hk
  obtain ⟨x',hx',rfl⟩ := hk
  have hnew := sumOf_remove (v := v) hx'
  cases hx : get m k with
  | some x =>
    have hold := sumOf_remove (v := v) hx
    rw [view,hx,Option.map_some,Option.getD_some]
    omega
  | none =>
    have hsame : sumOf v (remove m k) = sumOf v m := by
      apply sumOf_of_view
      rw [view_remove]
      apply Function.update_eq_self_iff.mpr
      rw [view,hx]
      rfl
    rw [view,hx,Option.map_none,Option.getD_none]
    omega

end Sum
end FiniteMap

end MofuOS.Lib
