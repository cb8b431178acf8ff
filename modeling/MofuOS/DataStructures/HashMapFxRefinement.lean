import MofuOS.DataStructures.HashMapFxUpdate
import MofuOS.Lib.FiniteMap

/-! The table against a mathematical finite map. Every operation agrees with the
map's as long as an absent key is never inserted into a table without an empty slot. -/
namespace MofuOS.DataStructures.FxHashMap
open Lib
variable {K V : Type} [DecidableEq K] [IntoUsize K]

/-- One call on the table. A mutable reference is used once, to replace the
value v it points to by f v. -/
inductive Op (K V : Type) where
  | insert (k : K) (v : V)
  | remove (k : K)
  | get (k : K)
  | getMut (k : K) (f : V → V)
  | entryOrInsertWith (k : K) (dflt : V) (f : V → V)
  | containsKey (k : K)
  | clear

inductive Reply (V : Type) where
  | option (o : Option V)
  | value (v : V)
  | bool (b : Bool)
  | unit
  deriving DecidableEq, Repr

def exec (p : Profile) (m : FxHashMap K V) : Op K V → Outcome (Reply V × FxHashMap K V)
  | .insert k v => do let out ← m.insert p k v; pure (.option out.1,out.2)
  | .remove k => do let out ← m.remove p k; pure (.option out.1,out.2)
  | .get k => pure (.option (m.get k),m)
  | .getMut k f => pure (.option (m.getMut k f).1,(m.getMut k f).2)
  | .entryOrInsertWith k dflt f => do
    let out ← m.entryOrInsertWith p k dflt f
    pure (.value out.1,out.2)
  | .containsKey k => pure (.bool (m.containsKey k),m)
  | .clear => pure (.unit,m.clear)

def execAll (p : Profile) (m : FxHashMap K V) : List (Op K V) → Outcome (List (Reply V) × FxHashMap K V)
  | [] => pure ([],m)
  | op :: ops => do
    let out ← m.exec p op
    let rest ← execAll p out.2 ops
    pure (out.1 :: rest.1,rest.2)

/-- The same calls on a mathematical finite map. -/
def mapExec (f : Finmap fun _ : K => V) : Op K V → Reply V × Finmap fun _ : K => V
  | .insert k v => (.option (f.lookup k),f.insert k v)
  | .remove k => (.option (f.lookup k),f.erase k)
  | .get k => (.option (f.lookup k),f)
  | .getMut k g => (.option (f.lookup k),((f.lookup k).map fun v => f.insert k (g v)).getD f)
  | .entryOrInsertWith k dflt g => (.value ((f.lookup k).getD dflt),f.insert k (g ((f.lookup k).getD dflt)))
  | .containsKey k => (.bool (f.lookup k).isSome,f)
  | .clear => (.unit,∅)

def mapExecAll (f : Finmap fun _ : K => V) : List (Op K V) → List (Reply V) × Finmap fun _ : K => V
  | [] => ([],f)
  | op :: ops =>
    let rest := mapExecAll (mapExec f op).2 ops
    ((mapExec f op).1 :: rest.1,rest.2)

/-- An insertion finds the table about to grow, the key present, or an empty slot. -/
def Roomy (m : FxHashMap K V) : Op K V → Prop
  | .insert k _ => m.overloaded ∨ HasRoom m k
  | .entryOrInsertWith k _ _ => m.overloaded ∨ HasRoom m k
  | _ => True

/-- Every call of the run starts from a table that is roomy for it. -/
def RoomyRun (p : Profile) (m : FxHashMap K V) : List (Op K V) → Prop
  | [] => True
  | op :: ops => Roomy m op ∧
    match m.exec p op with
    | .ok out => RoomyRun p out.2 ops
    | .error _ => True

instance [DecidableEq V] (m : FxHashMap K V) (op : Op K V) : Decidable (Roomy m op) :=
  match op with
  | .insert k _ => inferInstanceAs (Decidable (m.overloaded = true ∨ HasRoom m k))
  | .entryOrInsertWith k _ _ => inferInstanceAs (Decidable (m.overloaded = true ∨ HasRoom m k))
  | .remove _ | .get _ | .getMut _ _ | .containsKey _ | .clear => .isTrue trivial

def decideRoomyRun [DecidableEq V] (p : Profile) (m : FxHashMap K V) :
    (ops : List (Op K V)) → Decidable (RoomyRun p m ops)
  | [] => .isTrue trivial
  | op :: ops =>
    have : Decidable (match m.exec p op with
        | .ok out => RoomyRun p out.2 ops
        | .error _ => True) :=
      match m.exec p op with
      | .ok out => decideRoomyRun p out.2 ops
      | .error _ => .isTrue trivial
    inferInstanceAs (Decidable (_ ∧ _))

instance [DecidableEq V] (p : Profile) (m : FxHashMap K V) (ops : List (Op K V)) :
    Decidable (RoomyRun p m ops) := decideRoomyRun p m ops

/-- The table holds exactly the pairs of the finite map. -/
structure Refines (m : FxHashMap K V) (f : Finmap fun _ : K => V) : Prop where
  wellFormed : WellFormed m
  get_eq : ∀ k, m.get k = f.lookup k

theorem Refines.len_eq {m : FxHashMap K V} {f : Finmap fun _ : K => V} (h : Refines m f) :
    m.len = f.keys.card := by
  have hk : f.keys = (m.iter.map Prod.fst).toFinset := by
    ext k
    rw [Finmap.mem_keys,← Finmap.lookup_isSome,← h.get_eq,Option.isSome_iff_exists]
    simp only [get_iff h.wellFormed,← mem_iter,List.mem_toFinset,List.mem_map,Prod.exists,
      exists_and_right,exists_eq_right]
  rw [hk,List.toFinset_card_of_nodup (iter_nodup h.wellFormed),List.length_map,len,h.wellFormed.counted,
    iter,List.length_filterMap_eq_countP]
  rfl

theorem Refines.mem_iter_iff {m : FxHashMap K V} {f : Finmap fun _ : K => V} (h : Refines m f)
    (k : K) (v : V) : (k,v) ∈ m.iter ↔ f.lookup k = some v := by
  rw [mem_iter,← get_iff h.wellFormed,h.get_eq]

theorem insert_spec (p : Profile) {m : FxHashMap K V} (h : WellFormed m) {k : K} (v : V) (hr : m.overloaded ∨ HasRoom m k) :
    ∃ m', m.insert p k v = .ok (m.get k,m') ∧ WellFormed m' ∧ ∀ k', m'.get k' = if k' = k then some v else m.get k' := by
  obtain ⟨m1,he1,hw1,hr1,hg1⟩ := makeRoom_spec p h hr
  obtain ⟨m2,he2,hw2,_,_,_,hg2⟩ := insertProbed_spec p hw1 v hr1
  refine ⟨m2,?_,hw2,fun k' => by rw [hg2,hg1]⟩
  rw [insert,he1,← hg1]
  exact he2

private theorem exec_insert (p : Profile) {m : FxHashMap K V} {f : Finmap fun _ : K => V} (h : Refines m f)
    {k : K} (v : V) (hr : m.overloaded ∨ HasRoom m k) :
    ∃ m', m.insert p k v = .ok (f.lookup k,m') ∧ Refines m' (f.insert k v) := by
  obtain ⟨m',he,hw,hg⟩ := insert_spec p h.wellFormed v hr
  refine ⟨m',by rw [he,h.get_eq],hw,fun k' => ?_⟩
  rw [hg,h.get_eq]
  split_ifs with hk
  · rw [hk,Finmap.lookup_insert]
  · rw [Finmap.lookup_insert_of_ne _ hk]

theorem remove_spec (p : Profile) {m : FxHashMap K V} (h : WellFormed m) (k : K) :
    ∃ m', m.remove p k = .ok (m.get k,m') ∧ WellFormed m' ∧ ∀ k', m'.get k' = if k' = k then none else m.get k' := by
  rw [remove]
  cases hf : m.find k with
  | none =>
    have hn : m.get k = none := by rw [get,hf]; rfl
    refine ⟨m,by rw [hn]; rfl,h,fun k' => ?_⟩
    split_ifs with hk
    · rw [hk,hn]
    · rfl
  | some i =>
    obtain ⟨v,hv⟩ := (find_iff h k i).mp hf
    obtain ⟨hpos,hw,hg⟩ := bury h hv
    refine ⟨_,?_,hw,hg⟩
    simp only [show m.slots[i]? = _ from hv,usizeSub,if_pos hpos,(get_iff h k v).mpr ⟨i,hv⟩]
    rfl

theorem getMut_spec {m : FxHashMap K V} (h : WellFormed m) (k : K) (g : V → V) :
    (m.getMut k g).1 = m.get k ∧ WellFormed (m.getMut k g).2 ∧
      ∀ k', (m.getMut k g).2.get k' = if k' = k then (m.get k').map g else m.get k' := by
  rw [getMut]
  cases hf : m.find k with
  | none =>
    have hn : m.get k = none := by rw [get,hf]; rfl
    refine ⟨hn.symm,h,fun k' => ?_⟩
    split_ifs with hk
    · rw [hk,hn]; rfl
    · rfl
  | some i =>
    obtain ⟨v,hv⟩ := (find_iff h k i).mp hf
    obtain ⟨hw,hg⟩ := replace_value h (g v) hv
    have hk := (get_iff h k v).mpr ⟨i,hv⟩
    simp only [show m.slots[i]? = _ from hv]
    refine ⟨hk.symm,hw,fun k' => ?_⟩
    rw [hg]
    split_ifs with heq
    · rw [heq,hk]; rfl
    · rfl

private theorem exec_remove (p : Profile) {m : FxHashMap K V} {f : Finmap fun _ : K => V} (h : Refines m f)
    (k : K) : ∃ m', m.remove p k = .ok (f.lookup k,m') ∧ Refines m' (f.erase k) := by
  obtain ⟨m',he,hw,hg⟩ := remove_spec p h.wellFormed k
  refine ⟨m',by rw [he,h.get_eq],hw,fun k' => ?_⟩
  rw [hg,h.get_eq]
  split_ifs with hk
  · rw [hk,Finmap.lookup_erase]
  · rw [Finmap.lookup_erase_ne hk]

private theorem exec_getMut {m : FxHashMap K V} {f : Finmap fun _ : K => V} (h : Refines m f)
    (k : K) (g : V → V) :
    (m.getMut k g).1 = f.lookup k ∧
      Refines (m.getMut k g).2 (((f.lookup k).map fun v => f.insert k (g v)).getD f) := by
  obtain ⟨hv,hw,hg⟩ := getMut_spec h.wellFormed k g
  refine ⟨hv.trans (h.get_eq k),hw,fun k' => ?_⟩
  rw [hg,h.get_eq]
  split_ifs with hk
  · rw [hk]
    cases hf : f.lookup k with
    | none => exact hf.symm
    | some v => exact (Finmap.lookup_insert f).symm
  · cases f.lookup k with
    | none => rfl
    | some v => exact (Finmap.lookup_insert_of_ne f hk).symm

private theorem exec_entry (p : Profile) {m : FxHashMap K V} {f : Finmap fun _ : K => V} (h : Refines m f)
    {k : K} (dflt : V) (g : V → V) (hr : m.overloaded ∨ HasRoom m k) :
    ∃ m', m.entryOrInsertWith p k dflt g = .ok ((f.lookup k).getD dflt,m') ∧
      Refines m' (f.insert k (g ((f.lookup k).getD dflt))) := by
  obtain ⟨m1,he1,hw1,hr1,hg1⟩ := makeRoom_spec p h.wellFormed hr
  have hlook (v : V) (m2 : FxHashMap K V) (hw2 : WellFormed m2)
      (hg2 : ∀ k', m2.get k' = if k' = k then some v else m1.get k') : Refines m2 (f.insert k v) := by
    refine ⟨hw2,fun k' => ?_⟩
    rw [hg2,hg1,h.get_eq]
    split_ifs with hk
    · rw [hk,Finmap.lookup_insert]
    · rw [Finmap.lookup_insert_of_ne _ hk]
  rw [entryOrInsertWith,he1,← h.get_eq,← hg1]
  rcases locate_cases hw1 hr1 with ⟨i,v,hl,hv,hget⟩ | ⟨i,hl,hget⟩
  · obtain ⟨hw2,hg2⟩ := replace_value hw1 (g v) hv
    refine ⟨_,?_,hlook _ _ hw2 (by simpa [hget] using hg2)⟩
    simp only [ok_bind,hl,show m1.slots[i]? = _ from hv,hget]
    rfl
  · obtain ⟨hw2,hg2⟩ := fill_vacant hw1 (g dflt) hl
    refine ⟨_,?_,hlook _ _ hw2 (by simpa [hget] using hg2)⟩
    simp only [ok_bind,hl,hget]
    rfl

private theorem clear_refines {m : FxHashMap K V} (h : WellFormed m) :
    Refines m.clear (∅ : Finmap fun _ : K => V) := by
  have he : m.clear = blank m.slots.length := by
    simp [clear,blank,List.map_const']
  rw [he]
  exact ⟨blank_wellFormed h.pow h.large,fun k => by rw [get_blank h.pow h.large]; rfl⟩

/-- One roomy call returns what the finite map returns and keeps the refinement. -/
theorem exec_refines (p : Profile) {m : FxHashMap K V} {f : Finmap fun _ : K => V} (h : Refines m f)
    (op : Op K V) (hr : Roomy m op) :
    ∃ m', m.exec p op = .ok ((mapExec f op).1,m') ∧ Refines m' (mapExec f op).2 := by
  cases op with
  | insert k v =>
    obtain ⟨m',he,hm⟩ := exec_insert p h v hr
    exact ⟨m',by rw [exec,he]; rfl,hm⟩
  | remove k =>
    obtain ⟨m',he,hm⟩ := exec_remove p h k
    exact ⟨m',by rw [exec,he]; rfl,hm⟩
  | get k => exact ⟨m,by rw [exec,h.get_eq]; rfl,h⟩
  | getMut k g =>
    obtain ⟨he,hm⟩ := exec_getMut h k g
    exact ⟨_,by rw [exec,he]; rfl,hm⟩
  | entryOrInsertWith k dflt g =>
    obtain ⟨m',he,hm⟩ := exec_entry p h dflt g hr
    exact ⟨m',by rw [exec,he]; rfl,hm⟩
  | containsKey k => exact ⟨m,by rw [exec,containsKey,h.get_eq]; rfl,h⟩
  | clear => exact ⟨_,rfl,clear_refines h.wellFormed⟩

private theorem execAll_refines (p : Profile) {m : FxHashMap K V} {f : Finmap fun _ : K => V}
    (h : Refines m f) (ops : List (Op K V)) (hr : RoomyRun p m ops) :
    ∃ m', m.execAll p ops = .ok ((mapExecAll f ops).1,m') ∧ Refines m' (mapExecAll f ops).2 := by
  induction ops generalizing m f with
  | nil => exact ⟨m,rfl,h⟩
  | cons op ops ih =>
    obtain ⟨m1,he1,hm1⟩ := exec_refines p h op hr.1
    have hrest := hr.2
    rw [he1] at hrest
    obtain ⟨m2,he2,hm2⟩ := ih hm1 hrest
    refine ⟨m2,?_,hm2⟩
    simp only [execAll,he1,ok_bind,he2]
    rfl

theorem withCapacity_refines {p : Profile} {capacity : Nat} {m : FxHashMap K V}
    (h : withCapacity p capacity = .ok m) : Refines m (∅ : Finmap fun _ : K => V) := by
  have hb (n : Nat) (hn : n.isPowerOfTwo) : Refines (blank (max n defaultCapacity)) (∅ : Finmap fun _ : K => V) := by
    have hp : (max n defaultCapacity).isPowerOfTwo := by
      rcases max_choice n defaultCapacity with he | he <;> rw [he]
      · exact hn
      · exact ⟨4,rfl⟩
    exact ⟨blank_wellFormed hp (le_max_right _ _),fun k => by rw [get_blank hp (le_max_right _ _)]; rfl⟩
  rw [withCapacity,nextPowerOfTwo] at h
  split_ifs at h
  · cases h
    exact hb _ (Nat.isPowerOfTwo_nextPowerOfTwo _)
  · cases h
  · cases h
    exact hb 1 ⟨0,rfl⟩

/-- A roomy run from a fresh table of any capacity returns what a finite map
returns, and its final table has the map's size and exactly its pairs. -/
theorem execAll_eq_mapExecAll (p : Profile) (capacity : Nat) (m : FxHashMap K V)
    (hm : withCapacity p capacity = .ok m) (ops : List (Op K V)) (hr : RoomyRun p m ops) :
    ∃ m', m.execAll p ops = .ok ((mapExecAll ∅ ops).1,m') ∧
      m'.len = (mapExecAll (∅ : Finmap fun _ : K => V) ops).2.keys.card ∧
      (m'.iter.map Prod.fst).Nodup ∧
      ∀ k v, (k,v) ∈ m'.iter ↔ (mapExecAll ∅ ops).2.lookup k = some v := by
  obtain ⟨m',he,hm'⟩ := execAll_refines p (withCapacity_refines hm) ops hr
  exact ⟨m',he,hm'.len_eq,iter_nodup hm'.wellFormed,hm'.mem_iter_iff⟩

omit [DecidableEq K] [IntoUsize K] in
theorem withCapacity_zero (p : Profile) : withCapacity p 0 = .ok (blank 16 : FxHashMap K V) := by
  have h : Nat.nextPowerOfTwo 0 = 1 := by decide +kernel
  simp [withCapacity,nextPowerOfTwo,h,defaultCapacity]

/-- A run through every operation meets the premise. -/
theorem execAll_eq_mapExecAll_mixed :
    RoomyRun .dev (blank 16 : FxHashMap UInt64 Nat) [.insert 1 5,.remove 1,.entryOrInsertWith 2 0 (· + 1),
        .getMut 2 (· + 1),.get 2,.containsKey 1,.clear,.insert 3 4] ∧
      ∃ m', (blank 16 : FxHashMap UInt64 Nat).execAll .dev [.insert 1 5,.remove 1,.entryOrInsertWith 2 0 (· + 1),
        .getMut 2 (· + 1),.get 2,.containsKey 1,.clear,.insert 3 4] =
          .ok ([.option none,.option (some 5),.value 0,.option (some 1),.option (some 2),.bool false,.unit,
            .option none],m') ∧ m'.len = 1 := by
  have hr : RoomyRun .dev (blank 16 : FxHashMap UInt64 Nat) [.insert 1 5,.remove 1,
      .entryOrInsertWith 2 0 (· + 1),.getMut 2 (· + 1),.get 2,.containsKey 1,.clear,.insert 3 4] := by
    decide +kernel
  obtain ⟨m',he,hlen,_⟩ := execAll_eq_mapExecAll .dev 0 (blank 16) (withCapacity_zero .dev) _ hr
  exact ⟨hr,m',he,hlen⟩

/-- Sixteen keys with sixteen home slots, each inserted and removed again, turn
every slot of the smallest table into a tombstone; then one more key. -/
def churn : List (Op UInt64 Nat) :=
  ([11,7,3,14,10,6,17,2,9,20,5,1,23,8,4,26].flatMap fun k => [.insert k 0,.remove k]) ++ [.insert 1 7,.get 1]

/-- The finite map returns the last inserted value, the table has lost it in
release and panics in dev. -/
theorem churn_loses_key :
    (mapExecAll ∅ churn).1.getLast? = some (.option (some 7)) ∧
      ((blank 16).execAll .release churn).map (fun out => (out.1.getLast?,out.2.len)) =
        .ok (some (.option none),0) ∧
      ((blank 16).execAll .dev churn).map (fun out => out.1) = .error .panic ∧
      (∀ p, withCapacity p 0 = .ok (blank 16 : FxHashMap UInt64 Nat)) :=
  ⟨by decide +kernel,by decide +kernel,by decide +kernel,withCapacity_zero⟩

theorem locate_eq_full_iff {m : FxHashMap K V} (h : WellFormed m) {k : K} : m.locate k = .full ↔ ¬ HasRoom m k := by
  constructor
  · intro hl hr
    rcases locate_cases h hr with ⟨i,-,hi,-⟩ | ⟨i,hi,-⟩ <;> rw [hl] at hi <;> cases hi
  · intro hroom
    cases hl : m.locate k with
    | full => rfl
    | found i =>
      obtain ⟨w,hw⟩ := locate_found h hl
      refine absurd (.inl ?_) hroom
      simp [containsKey,(get_iff h k w).mpr ⟨i,hw⟩]
    | vacant i => exact absurd (.inr (locate_vacant_empty h hl)) hroom

/-- Outside the roomy case insert panics in dev and forgets the pair in release. -/
theorem insert_without_room (p : Profile) {m : FxHashMap K V} {f : Finmap fun _ : K => V} (h : Refines m f)
    {k : K} (v : V) (hr : ¬ (m.overloaded ∨ HasRoom m k)) :
    m.insert p k v = (if p.checks then .error .panic else .ok (none,m)) ∧ m.get k = none := by
  rw [not_or] at hr
  obtain ⟨ho,hroom⟩ := hr
  have hfull := (locate_eq_full_iff h.wellFormed).mpr hroom
  refine ⟨?_,(locate_full h.wellFormed hfull).1⟩
  simp only [insert,makeRoom,if_neg ho,pure_bind,insertProbed,hfull,debugAssert]
  cases p <;> rfl

end MofuOS.DataStructures.FxHashMap

namespace MofuOS.DataStructures
open Lib
variable {K V W : Type}

/-- A slot with its value read through a function. -/
def Slot.map (f : V → W) : Slot K V → Slot K W
  | .empty => .empty
  | .dead => .dead
  | .occupied k v => .occupied k (f v)

namespace FxHashMap

def mapValues (f : V → W) (m : FxHashMap K V) : FxHashMap K W := ⟨m.slots.map (Slot.map f),m.count⟩

section Values
variable {f : V → W} {m : FxHashMap K V} {k : K} {v : V} {i : Nat} {p : Profile}

theorem blank_mapValues {cap : Nat} : mapValues f (blank cap : FxHashMap K V) = blank cap := by
  rw [mapValues,blank,List.map_replicate]
  rfl

theorem spot_mapValues {w : W} : Spot (mapValues f m).slots i k w ↔ ∃ v, Spot m.slots i k v ∧ f v = w := by
  rw [Spot,mapValues,List.getElem?_map,Option.map_eq_some_iff]
  constructor
  · rintro ⟨s,hs,heq⟩
    cases s <;> cases heq
    exact ⟨_,hs,rfl⟩
  · rintro ⟨v,hv,rfl⟩
    exact ⟨_,hv,rfl⟩

theorem set_mapValues {s : Slot K V} {c : Nat} :
    mapValues f ⟨m.slots.set i s,c⟩ = ⟨(mapValues f m).slots.set i (s.map f),c⟩ := by
  rw [mapValues,mapValues,List.map_set]

theorem iter_mapValues : (mapValues f m).iter = m.iter.map fun e => (e.1,f e.2) := by
  rw [iter,iter,mapValues,List.filterMap_map,List.map_filterMap]
  refine List.filterMap_congr fun s _ => ?_
  cases s <;> rfl

theorem countP_mapValues : (mapValues f m).slots.countP isOccupied = m.slots.countP isOccupied := by
  rw [mapValues,List.countP_map]
  refine List.countP_congr fun s _ => ?_
  cases s <;> exact Iff.rfl

theorem overloaded_mapValues : (mapValues f m).overloaded = m.overloaded := by
  rw [overloaded,overloaded,mapValues,List.length_map]

theorem getSlotIndex_mapValues [IntoUsize K] : (mapValues f m).getSlotIndex k = m.getSlotIndex k := by
  rw [getSlotIndex,getSlotIndex,mapValues,List.length_map]

theorem WellFormed.mapValues [IntoUsize K] (h : WellFormed m) (f : V → W) : WellFormed (m.mapValues f) where
  pow := by rw [FxHashMap.mapValues,List.length_map]; exact h.pow
  large := by rw [FxHashMap.mapValues,List.length_map]; exact h.large
  counted := by rw [countP_mapValues]; exact h.counted
  unique hi hj := by
    obtain ⟨v,hv,-⟩ := spot_mapValues.mp hi
    obtain ⟨w,hw,-⟩ := spot_mapValues.mp hj
    exact h.unique hv hw
  reach {j k w} hj hw j' hj' := by
    rw [getSlotIndex_mapValues] at hw ⊢
    have hlen : (m.mapValues f).slots.length = m.slots.length := List.length_map ..
    rw [hlen] at hj hw ⊢
    obtain ⟨v,hv,-⟩ := spot_mapValues.mp hw
    have hold := h.reach hj hv j' hj'
    rw [FxHashMap.mapValues,List.getElem?_map]
    cases hs : m.slots[pos m.slots.length (m.getSlotIndex k) j']? with
    | none => exact nofun
    | some s =>
      rw [hs] at hold
      cases s with
      | empty => exact absurd rfl hold
      | dead => exact nofun
      | occupied k v => exact nofun

variable [DecidableEq K]

theorem search_map {slots : List (Slot K V)} {start n pr : Nat} :
    search (slots.map (Slot.map f)) k start n pr = search slots k start n pr := by
  induction n generalizing pr with
  | zero => rfl
  | succ n ih =>
    rw [search,search,List.length_map,List.getElem?_map]
    cases slots[(start + pr) &&& (slots.length - 1)]? with
    | none => rfl
    | some s => cases s <;> simp only [Option.map_some,Slot.map,ih]

theorem probe_map {slots : List (Slot K V)} {start n pr : Nat} {d : Option Nat} :
    probe (slots.map (Slot.map f)) k start n pr d = probe slots k start n pr d := by
  induction n generalizing pr d with
  | zero => rfl
  | succ n ih =>
    rw [probe,probe,List.length_map,List.getElem?_map]
    cases slots[(start + pr) &&& (slots.length - 1)]? with
    | none => rfl
    | some s => cases s <;> simp only [Option.map_some,Slot.map,ih]

variable [IntoUsize K]

theorem find_mapValues : (mapValues f m).find k = m.find k := by
  rw [find,find,getSlotIndex_mapValues,mapValues,List.length_map,search_map]

theorem locate_mapValues : (mapValues f m).locate k = m.locate k := by
  rw [locate,locate,getSlotIndex_mapValues,mapValues,List.length_map,probe_map]

theorem insertProbed_mapValues :
    insertProbed p (mapValues f m) k (f v) = (insertProbed p m k v).map fun out => (out.1.map f,mapValues f out.2) := by
  rw [insertProbed,insertProbed,locate_mapValues]
  cases m.locate k with
  | vacant i =>
    simp only [pure,Except.pure,Except.map,set_mapValues]
    rfl
  | found i =>
    simp only [mapValues,List.getElem?_map]
    cases hs : m.slots[i]? with
    | none => rfl
    | some s =>
      cases s with
      | empty => rfl
      | dead => rfl
      | occupied k' old =>
        simp only [Option.map_some,Slot.map,pure,Except.pure,Except.map,List.map_set]
  | full => cases p <;> rfl

theorem rehash_mapValues (rest : List (Slot K V)) :
    rehash p (mapValues f m) (rest.map (Slot.map f)) = (rehash p m rest).map (mapValues f) := by
  induction rest generalizing m with
  | nil => rfl
  | cons s rest ih =>
    cases s with
    | empty => exact ih
    | dead => exact ih
    | occupied k v =>
      rw [List.map_cons,Slot.map,rehash,rehash,insertProbed_mapValues]
      cases insertProbed p m k v with
      | error w => rfl
      | ok out => exact ih

theorem grow_mapValues : grow p (mapValues f m) = (grow p m).map (mapValues f) := by
  rw [grow,grow,← rehash_mapValues,blank_mapValues,mapValues,List.length_map]

theorem makeRoom_mapValues : makeRoom p (mapValues f m) = (makeRoom p m).map (mapValues f) := by
  rw [makeRoom,makeRoom,overloaded_mapValues,grow_mapValues]
  split_ifs <;> rfl

theorem remove_mapValues : (mapValues f m).remove p k = (m.remove p k).map fun out => (out.1.map f,mapValues f out.2) := by
  rw [remove,remove,find_mapValues]
  cases m.find k with
  | none => rfl
  | some i =>
    simp only [mapValues,List.getElem?_map]
    cases m.slots[i]? with
    | none => rfl
    | some s =>
      cases s with
      | empty => rfl
      | dead => rfl
      | occupied k' v =>
        simp only [Option.map_some,Slot.map]
        cases usizeSub p m.count 1 with
        | error w => rfl
        | ok c => simp only [ok_bind,pure,Except.pure,Except.map,Option.map_some,List.map_set,Slot.map]

/-- A change of a value that f does not see. -/
theorem getMut_mapValues {g : V → V} (h : ∀ v, f (g v) = f v) : mapValues f (m.getMut k g).2 = mapValues f m := by
  rw [getMut]
  cases m.find k with
  | none => rfl
  | some i =>
    dsimp only
    cases hs : m.slots[i]? with
    | none => rfl
    | some s =>
      cases s with
      | empty => rfl
      | dead => rfl
      | occupied k' v =>
        obtain ⟨hi,hs⟩ := List.getElem?_eq_some_iff.mp hs
        have hslot : Slot.map f (.occupied k' (g v)) = Slot.map f m.slots[i] := by
          rw [hs,Slot.map,Slot.map,h]
        dsimp only
        rw [set_mapValues,hslot,mapValues,← List.map_set,List.set_getElem_self]

end Values

section Growing
variable [DecidableEq K] [IntoUsize K] {f : V → W} {m : FxHashMap K V} {k : K} {v : V} {p : Profile}

/-- The load check of an insertion that grows the table also where it finds no slot. -/
def roomFor (p : Profile) (m : FxHashMap K V) (key : K) : Outcome (FxHashMap K V) :=
  if m.locate key = .full then grow p m else makeRoom p m

def insertGrowing (p : Profile) (m : FxHashMap K V) (key : K) (value : V) : Outcome (FxHashMap K V) := do
  let m ← roomFor p m key
  let out ← insertProbed p m key value
  pure out.2

/-- Where the table has room it is the table's own insertion. -/
theorem insertGrowing_eq (h : WellFormed m) (hr : m.overloaded ∨ HasRoom m k) :
    insertGrowing p m k v = (m.insert p k v).map Prod.snd := by
  have hroom : roomFor p m k = makeRoom p m := by
    rw [roomFor]
    split_ifs with hfull
    · rw [makeRoom,if_pos (hr.resolve_right ((locate_eq_full_iff h).mp hfull))]
    · rfl
  rw [insertGrowing,insert,hroom]
  cases makeRoom p m with
  | error w => rfl
  | ok m' =>
    rw [ok_bind,ok_bind]
    cases insertProbed p m' k v <;> rfl

theorem insertGrowing_spec (p : Profile) (h : WellFormed m) (k : K) (v : V) :
    ∃ m', insertGrowing p m k v = .ok m' ∧ WellFormed m' ∧ ∀ k', m'.get k' = if k' = k then some v else m.get k' := by
  obtain ⟨m₁,he₁,hw₁,hr₁,hg₁⟩ : ∃ m₁, roomFor p m k = .ok m₁ ∧ WellFormed m₁ ∧ HasRoom m₁ k ∧
      ∀ k', m₁.get k' = m.get k' := by
    rw [roomFor]
    split_ifs with hfull
    · obtain ⟨m₁,he,hw,hempty,hg⟩ := grow_spec p h
      exact ⟨m₁,he,hw,.inr hempty,hg⟩
    · exact makeRoom_spec p h (.inr (not_not.mp fun hno => hfull ((locate_eq_full_iff h).mpr hno)))
  obtain ⟨m₂,he₂,hw₂,-,-,-,hg₂⟩ := insertProbed_spec p hw₁ v hr₁
  refine ⟨m₂,?_,hw₂,fun k' => by rw [hg₂,hg₁]⟩
  rw [insertGrowing,he₁,ok_bind,he₂]
  rfl

theorem insertGrowing_mapValues : insertGrowing p (mapValues f m) k (f v) = (insertGrowing p m k v).map (mapValues f) := by
  have hroom : roomFor p (mapValues f m) k = (roomFor p m k).map (mapValues f) := by
    rw [roomFor,roomFor,locate_mapValues,grow_mapValues,makeRoom_mapValues]
    split_ifs <;> rfl
  rw [insertGrowing,insertGrowing,hroom]
  cases roomFor p m k with
  | error w => rfl
  | ok m' =>
    rw [Except.map,ok_bind,ok_bind,insertProbed_mapValues]
    cases insertProbed p m' k v <;> rfl

end Growing
end FxHashMap

/-- The kernel's table, save that an insertion that finds no slot grows it. -/
structure GrowingTable (p : Profile) (K : Type) [DecidableEq K] [IntoUsize K] (V : Type) where
  table : FxHashMap K V
  wellFormed : table.WellFormed

namespace GrowingTable
variable {p : Profile} [DecidableEq K] [IntoUsize K]

theorem ext {s t : GrowingTable p K V} (h : s.table = t.table) : s = t := by
  cases s
  cases t
  cases h
  rfl

/-- The table that a call leaves. -/
def result (t : GrowingTable p K V) (x : Outcome (FxHashMap K V)) (h : ∃ m, x = .ok m ∧ m.WellFormed) : GrowingTable p K V :=
  ⟨x.toOption.getD t.table,by
    obtain ⟨m,rfl,hw⟩ := h
    exact hw⟩

theorem result_table {t : GrowingTable p K V} {x : Outcome (FxHashMap K V)} {m : FxHashMap K V} {h : ∃ m, x = .ok m ∧ m.WellFormed}
    (hx : x = .ok m) : (t.result x h).table = m := by
  subst hx
  rfl

theorem result_map {t : GrowingTable p K V} {t' : GrowingTable p K W} {f : V → W} {x : Outcome (FxHashMap K V)}
    {y : Outcome (FxHashMap K W)} {h : ∃ m, x = .ok m ∧ m.WellFormed} {h' : ∃ m, y = .ok m ∧ m.WellFormed}
    (hxy : y = x.map (FxHashMap.mapValues f)) : (t.result x h).table.mapValues f = (t'.result y h').table := by
  obtain ⟨m,hm,-⟩ := h
  rw [result_table hm,result_table]
  rw [hxy,hm]
  rfl

end GrowingTable

instance {p : Profile} [DecidableEq K] [IntoUsize K] : FiniteMap K (GrowingTable p K) where
  empty := ⟨.blank defaultCapacity,FxHashMap.blank_wellFormed ⟨4,rfl⟩ (Nat.le_refl _)⟩
  get t k := t.table.get k
  insert t k v := t.result (t.table.insertGrowing p k v) (by
    obtain ⟨m,he,hw,-⟩ := FxHashMap.insertGrowing_spec p t.wellFormed k v
    exact ⟨m,he,hw⟩)
  remove t k := t.result ((t.table.remove p k).map Prod.snd) (by
    obtain ⟨m,he,hw,-⟩ := FxHashMap.remove_spec p t.wellFormed k
    exact ⟨m,by rw [he]; rfl,hw⟩)
  modify t k g := ⟨(t.table.getMut k g).2,(FxHashMap.getMut_spec t.wellFormed k g).2.1⟩
  map f t := ⟨t.table.mapValues f,t.wellFormed.mapValues f⟩
  iter t := t.table.iter
  get_empty k := FxHashMap.get_blank ⟨4,rfl⟩ (Nat.le_refl _) k
  get_insert t k k' v := by
    obtain ⟨m,he,-,hg⟩ := FxHashMap.insertGrowing_spec p t.wellFormed k v
    rw [GrowingTable.result_table he,hg]
  get_remove t k k' := by
    obtain ⟨m,he,-,hg⟩ := FxHashMap.remove_spec p t.wellFormed k
    rw [GrowingTable.result_table (m := m) (by rw [he]; rfl),hg]
  get_modify t k k' g := by
    split_ifs with hk
    · rw [(FxHashMap.getMut_spec t.wellFormed k g).2.2,if_pos hk,hk]
    · rw [(FxHashMap.getMut_spec t.wellFormed k g).2.2,if_neg hk]
  map_insert f t k v := GrowingTable.ext (GrowingTable.result_map FxHashMap.insertGrowing_mapValues)
  map_remove f t k := GrowingTable.ext (GrowingTable.result_map (by
    rw [FxHashMap.remove_mapValues]
    cases t.table.remove p k <;> rfl))
  map_modify f t k g h := GrowingTable.ext (FxHashMap.getMut_mapValues h)
  iter_map f t := FxHashMap.iter_mapValues
  mem_iter t k v := FxHashMap.mem_iter.trans (FxHashMap.get_iff t.wellFormed k v).symm
  iter_nodup t := FxHashMap.iter_nodup t.wellFormed

namespace GrowingTable
variable {p : Profile} [DecidableEq K] [IntoUsize K] {t : GrowingTable p K V} {k : K} {v : V}

/-- While there is room, the insertion of the kernel's table is that of the finite map. -/
theorem insert_table (hr : t.table.overloaded ∨ t.table.HasRoom k) :
    t.table.insert p k v = .ok (FiniteMap.get t k,(FiniteMap.insert t k v).table) := by
  obtain ⟨m,he,-⟩ := FxHashMap.insert_spec p t.wellFormed v hr
  have hgrowing : t.table.insertGrowing p k v = .ok m := by
    rw [FxHashMap.insertGrowing_eq t.wellFormed hr,he]
    rfl
  exact he.trans (congrArg (fun table => Except.ok (t.table.get k,table)) (result_table hgrowing).symm)

theorem remove_table : t.table.remove p k = .ok (FiniteMap.get t k,(FiniteMap.remove t k).table) := by
  obtain ⟨m,he,-⟩ := FxHashMap.remove_spec p t.wellFormed k
  have hremoved : (t.table.remove p k).map Prod.snd = .ok m := by
    rw [he]
    rfl
  exact he.trans (congrArg (fun table => Except.ok (t.table.get k,table)) (result_table hremoved).symm)

end GrowingTable
end MofuOS.DataStructures
