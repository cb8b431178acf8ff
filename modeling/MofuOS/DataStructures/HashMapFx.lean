import MofuOS.Usize
import Mathlib.Data.Finmap
import Mathlib.Data.Nat.Bitwise

/-! The open-addressing table of data_structures/hash_map_fx.rs: linear probing
from the hashed home slot, tombstones left by removals, doubling on load. -/
namespace MofuOS.DataStructures
open Lib

/-- The conversion the table asks of its keys. -/
class IntoUsize (K : Type) where
  into : K → UInt64

instance : IntoUsize UInt64 := ⟨id⟩
instance : IntoUsize Nat := ⟨UInt64.ofNat⟩

def hashK : UInt64 := 0xf1357aea2e62a9c5

def addToHash (hash i : UInt64) : UInt64 := (hash + i) * hashK

def finishUsize (hash : UInt64) : UInt64 := (hash <<< 26) ||| (hash >>> 38)

def defaultCapacity : Nat := 16
def maxLoadFactorNum : Nat := 3
def maxLoadFactorDen : Nat := 4

inductive Slot (K V : Type) where
  | empty
  | dead
  | occupied (k : K) (v : V)
  deriving DecidableEq, Repr

structure FxHashMap (K V : Type) where
  slots : List (Slot K V)
  count : Nat
  deriving DecidableEq, Repr

namespace FxHashMap
variable {K V : Type}

/-- usize::next_power_of_two: past 2^63 it panics in dev and wraps to 0 in release. -/
def nextPowerOfTwo (p : Profile) (n : Nat) : Outcome Nat :=
  if n ≤ 2^63 then .ok n.nextPowerOfTwo
  else if p.checks then .error .panic
  else .ok 0

/-- A table of empty slots only. -/
def blank (capacity : Nat) : FxHashMap K V := ⟨List.replicate capacity .empty,0⟩

def withCapacity (p : Profile) (capacity : Nat) : Outcome (FxHashMap K V) := do
  let capacity ← nextPowerOfTwo p capacity
  pure (blank (max capacity defaultCapacity))

def len (m : FxHashMap K V) : Nat := m.count

def occupiedPair : Slot K V → Option (K × V)
  | .occupied k v => some (k,v)
  | _ => none

def iter (m : FxHashMap K V) : List (K × V) := m.slots.filterMap occupiedPair

def clear (m : FxHashMap K V) : FxHashMap K V := ⟨m.slots.map fun _ => .empty,0⟩

variable [DecidableEq K] [IntoUsize K]

/-- The home slot of a key in a table of the given capacity. -/
def homeSlot (capacity : Nat) (key : K) : Nat :=
  (finishUsize (addToHash 0 (IntoUsize.into key))).toNat &&& (capacity - 1)

def getSlotIndex (m : FxHashMap K V) (key : K) : Nat := homeSlot m.slots.length key

/-- The loop shared by get, get_mut and remove: stop at the key or at an empty slot. -/
def search (slots : List (Slot K V)) (key : K) (start : Nat) : Nat → Nat → Option Nat
  | 0, _ => none
  | n+1, probe =>
    let idx := (start + probe) &&& (slots.length - 1)
    match slots[idx]? with
    | some .empty => none
    | some .dead => search slots key start n (probe + 1)
    | some (.occupied k _) => if k = key then some idx else search slots key start n (probe + 1)
    | none => none

def find (m : FxHashMap K V) (key : K) : Option Nat :=
  search m.slots key (m.getSlotIndex key) m.slots.length 0

def valueAt (m : FxHashMap K V) (idx : Nat) : Option V :=
  match m.slots[idx]? with
  | some (.occupied _ v) => some v
  | _ => none

def get (m : FxHashMap K V) (key : K) : Option V := (m.find key).bind m.valueAt

def containsKey (m : FxHashMap K V) (key : K) : Bool := (m.get key).isSome

/-- The value get_mut hands out, and the table once the caller has replaced it by f of it. -/
def getMut (m : FxHashMap K V) (key : K) (f : V → V) : Option V × FxHashMap K V :=
  match m.find key with
  | some idx =>
    match m.slots[idx]? with
    | some (.occupied k v) => (some v,{ m with slots := m.slots.set idx (.occupied k (f v)) })
    | _ => (none,m)
  | none => (none,m)

def remove (p : Profile) (m : FxHashMap K V) (key : K) : Outcome (Option V × FxHashMap K V) :=
  match m.find key with
  | some idx =>
    match m.slots[idx]? with
    | some (.occupied _ v) => do
      let count ← usizeSub p m.count 1
      pure (some v,⟨m.slots.set idx .dead,count⟩)
    | _ => .error .panic
  | none => pure (none,m)

/-- Where the loop shared by insert and entry ends. -/
inductive Probe where
  | vacant (idx : Nat)
  | found (idx : Nat)
  | full
  deriving DecidableEq, Repr

def probe (slots : List (Slot K V)) (key : K) (start : Nat) : Nat → Nat → Option Nat → Probe
  | 0, _, _ => .full
  | n+1, pr, firstDead =>
    let idx := (start + pr) &&& (slots.length - 1)
    match slots[idx]? with
    | some .empty => .vacant (firstDead.getD idx)
    | some .dead => probe slots key start n (pr + 1) (if firstDead.isNone then some idx else firstDead)
    | some (.occupied k _) =>
      if k = key then .found idx else probe slots key start n (pr + 1) firstDead
    | none => .full

def locate (m : FxHashMap K V) (key : K) : Probe :=
  probe m.slots key (m.getSlotIndex key) m.slots.length 0 none

def overloaded (m : FxHashMap K V) : Bool :=
  (m.count + 1) * maxLoadFactorDen > m.slots.length * maxLoadFactorNum

/-- The body of insert after its load check. -/
def insertProbed (p : Profile) (m : FxHashMap K V) (key : K) (value : V) :
    Outcome (Option V × FxHashMap K V) :=
  match m.locate key with
  | .vacant idx => pure (none,⟨m.slots.set idx (.occupied key value),m.count + 1⟩)
  | .found idx =>
    match m.slots[idx]? with
    | some (.occupied _ old) => pure (some old,{ m with slots := m.slots.set idx (.occupied key value) })
    | _ => .error .panic
  | .full => do
    debugAssert p false
    pure (none,m)

/-- The rehash of grow. Its inserts find the doubled table too lightly loaded to
grow again, which rehash_not_overloaded states. -/
def rehash (p : Profile) (m : FxHashMap K V) : List (Slot K V) → Outcome (FxHashMap K V)
  | [] => pure m
  | .occupied k v :: rest => do
    let out ← insertProbed p m k v
    rehash p out.2 rest
  | _ :: rest => rehash p m rest

def grow (p : Profile) (m : FxHashMap K V) : Outcome (FxHashMap K V) :=
  rehash p (blank (max (m.slots.length * 2) defaultCapacity)) m.slots

/-- The load check that insert and entry begin with. -/
def makeRoom (p : Profile) (m : FxHashMap K V) : Outcome (FxHashMap K V) :=
  if m.overloaded then grow p m else pure m

def insert (p : Profile) (m : FxHashMap K V) (key : K) (value : V) :
    Outcome (Option V × FxHashMap K V) := do
  let m ← makeRoom p m
  insertProbed p m key value

/-- entry(key).or_insert_with: the value handed out, and the table once the
caller has replaced it by f of it. A full probe falls back to slot 0. -/
def entryOrInsertWith (p : Profile) (m : FxHashMap K V) (key : K) (dflt : V) (f : V → V) :
    Outcome (V × FxHashMap K V) := do
  let m ← makeRoom p m
  match m.locate key with
  | .vacant idx => pure (dflt,⟨m.slots.set idx (.occupied key (f dflt)),m.count + 1⟩)
  | .found idx =>
    match m.slots[idx]? with
    | some (.occupied k v) => pure (v,{ m with slots := m.slots.set idx (.occupied k (f v)) })
    | _ => .error .panic
  | .full => do
    debugAssert p false
    pure (dflt,⟨m.slots.set 0 (.occupied key (f dflt)),m.count + 1⟩)

end FxHashMap
end MofuOS.DataStructures
