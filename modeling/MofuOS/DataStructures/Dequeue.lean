import MofuOS.Words
import Mathlib.Logic.Function.Basic

/-! The double-ended queue of data_structures/dequeue.rs: a ring of a power of two of cells, which growth unrolls into
one of twice the size. A cell keeps what was moved out of it until it is written again. -/
namespace MofuOS.DataStructures
open Lib

/-- Why a call of a container does not return: a panic of its own, a loop without end, or an array that is not to be had. -/
inductive Halt where
  | panic
  | diverge
  | noStorage
  deriving DecidableEq, Repr

def Halt.ofFault : Fault → Halt
  | .panic => .panic
  | .diverge => .diverge

instance : MonadLift Outcome (Except Halt) := ⟨fun x => x.mapError Halt.ofFault⟩

section Halts
variable {α β : Type} {b : β}

@[simp] theorem liftM_ok_bind (a : α) (f : α → Except Halt β) : ((liftM (.ok a : Outcome α) : Except Halt α) >>= f) = f a := rfl

theorem liftM_bind_eq_ok {x : Outcome α} {f : α → Except Halt β} (h : ((liftM x : Except Halt α) >>= f) = .ok b) :
    ∃ a, x = .ok a ∧ f a = .ok b := by
  cases x with
  | ok a => exact ⟨a,rfl,h⟩
  | error w => cases h

end Halts

/-- One more than the words can count. -/
theorem usizeAdd_last {n : Nat} (hlast : n + 1 = usizeBound) : usizeAdd .release n 1 = .ok 0 := by
  rw [usizeAdd,if_neg (by omega),if_neg (by decide),hlast,Nat.mod_self]

/-- The size and the alignment of an element, in bytes. -/
structure ElemLayout where
  size : Nat
  align : Nat
  align_pos : 0 < align

/-- Layout::array of n elements: it fails past isize::MAX bytes, less the padding of the last one. -/
def ElemLayout.fits (e : ElemLayout) (n : Nat) : Bool := e.size * n ≤ 2^63 - e.align

/-- An array for n elements is laid out and asked for; granted is the allocator's answer. -/
def ElemLayout.allocate (e : ElemLayout) (granted : Bool) (n : Nat) : Except Halt Unit :=
  if e.fits n && granted then .ok () else .error .noStorage

/-- ptr::read of a cell of an array. -/
def ptrRead {T : Type} (data : Nat → Option T) (index : Nat) : Except Halt T :=
  match data index with
  | some v => .ok v
  | none => .error .panic

structure Dequeue (T : Type) where
  head : Nat
  tail : Nat
  size : Nat
  capacity : Nat
  data : Nat → Option T

namespace Dequeue
variable {T : Type} (p : Profile) (e : ElemLayout) (granted : Bool)

/-- usize::next_power_of_two: past 2^63 it panics in dev and wraps to 0 in release. -/
def nextPowerOfTwo (n : Nat) : Outcome Nat := unsigned p 64 (if n ≤ 1 then 1 else 2^((n - 1).log2 + 1) : Nat)

def withCapacity (capacity : Nat) : Except Halt (Dequeue T) := do
  let capacity ← if 2^capacity.log2 = capacity then pure capacity else nextPowerOfTwo p capacity
  if capacity = 0 then .error .panic
  else do
    e.allocate granted capacity
    pure { head := 0, tail := 0, size := 0, capacity, data := fun _ => none }

variable (q : Dequeue T)

/-- The mask works because the capacity is a power of two. -/
def wrapIndex (index : Nat) : Except Halt Nat := do
  let mask ← usizeSub p q.capacity 1
  pure (index &&& mask)

def wrappingSubOne (n : Nat) : Nat := (n + (usizeBound - 1)) % usizeBound

/-- The n cells from the i-th element on, copied to the front of the new array. -/
def copyCells : Nat → Nat → (Nat → Option T) → Except Halt (Nat → Option T)
  | 0, _, newData => pure newData
  | n + 1, i, newData => do
    let index ← usizeAdd p q.head i
    let index ← q.wrapIndex p index
    copyCells n (i + 1) (Function.update newData i (q.data index))

/-- A capacity that cannot be doubled cannot be had either. The old array is given back with its own layout. -/
def expand : Except Halt (Dequeue T) := do
  let newCapacity ← (unsigned p 64 (q.capacity * 2 : Nat)).mapError fun _ => Halt.noStorage
  e.allocate granted newCapacity
  let newData ← q.copyCells p q.size 0 fun _ => none
  if !e.fits q.capacity then .error .panic
  else pure { head := 0, tail := q.size, size := q.size, capacity := newCapacity, data := newData }

def getPtrAt (index : Nat) : Except Halt Nat := do
  debugAssert p (index < q.size)
  let index ← usizeAdd p q.head index
  q.wrapIndex p index

/-- The queue that a push goes to. -/
def reserve : Except Halt (Dequeue T) := if q.size = q.capacity then q.expand p e granted else pure q

def pushBack (value : T) : Except Halt (Dequeue T) := do
  let q ← q.reserve p e granted
  let data := Function.update q.data q.tail (some value)
  let next ← usizeAdd p q.tail 1
  let tail ← q.wrapIndex p next
  let size ← usizeAdd p q.size 1
  pure { q with data, tail, size }

def pushFront (value : T) : Except Halt (Dequeue T) := do
  let q ← q.reserve p e granted
  let head ← q.wrapIndex p (wrappingSubOne q.head)
  let data := Function.update q.data head (some value)
  let size ← usizeAdd p q.size 1
  pure { q with head, data, size }

def popBack : Except Halt (T × Dequeue T) :=
  if q.size = 0 then .error .panic
  else do
    let tail ← q.wrapIndex p (wrappingSubOne q.tail)
    let value ← ptrRead q.data tail
    let size ← usizeSub p q.size 1
    pure (value,{ q with tail, size })

def popFront : Except Halt (T × Dequeue T) :=
  if q.size = 0 then .error .panic
  else do
    let value ← ptrRead q.data q.head
    let next ← usizeAdd p q.head 1
    let head ← q.wrapIndex p next
    let size ← usizeSub p q.size 1
    pure (value,{ q with head, size })

def front : Except Halt T := if q.size = 0 then .error .panic else ptrRead q.data q.head

def back : Except Halt T :=
  if q.size = 0 then .error .panic
  else do
    let idx ← q.wrapIndex p (wrappingSubOne q.tail)
    ptrRead q.data idx

def get (index : Nat) : Except Halt T :=
  if index < q.size then do
    let index ← q.getPtrAt p index
    ptrRead q.data index
  else .error .panic

def len : Nat := q.size

/-- The elements from the i-th on, n of them, dropped in place. -/
def dropElements : Nat → Nat → Except Halt (List T)
  | 0, _ => pure []
  | n + 1, i => do
    let index ← q.getPtrAt p i
    let value ← ptrRead q.data index
    let rest ← dropElements n (i + 1)
    pure (value :: rest)

/-- What it drops, and the queue after it. -/
def clear : Except Halt (List T × Dequeue T) := do
  let dropped ← q.dropElements p q.size 0
  pure (dropped,{ q with head := 0, tail := 0, size := 0 })

/-- The rounds of an iterator from an index on. -/
def iterFrom : Nat → Nat → Except Halt (List T)
  | 0, _ => pure []
  | n + 1, index =>
    if index < q.len then do
      let item ← q.get p index
      let index ← usizeAdd p index 1
      let rest ← iterFrom n index
      pure (item :: rest)
    else pure []

/-- One round more than there are elements sees the end. -/
def iter : Except Halt (List T) := q.iterFrom p (q.len + 1) 0

/-- What an owner of a Drain takes out of it in n calls of next, and the index it has then. -/
def drainNext : Nat → Nat → Except Halt (List T × Nat)
  | 0, index => pure ([],index)
  | n + 1, index =>
    if index < q.len then do
      let cell ← q.getPtrAt p index
      let item ← ptrRead q.data cell
      let index ← usizeAdd p index 1
      let (rest,index) ← drainNext n index
      pure (item :: rest,index)
    else pure ([],index)

/-- Drain::drop pops as many elements as were drained, and drops each. -/
def dropDrain : Nat → Dequeue T → Except Halt (List T × Dequeue T)
  | 0, q => pure ([],q)
  | n + 1, q => do
    let (value,q) ← q.popFront p
    let (rest,q) ← dropDrain n q
    pure (value :: rest,q)

/-- A Drain whose owner calls next n times and drops it: what is handed out, what is dropped, and the queue after it. -/
def drain (n : Nat) : Except Halt (List T × List T × Dequeue T) := do
  let (items,index) ← q.drainNext p n 0
  let (dropped,q) ← dropDrain p index q
  pure (items,dropped,q)

/-- The array is given back with the layout it was taken with. -/
def drop : Except Halt (List T) := do
  let (dropped,q) ← q.clear p
  if q.capacity > 0 ∧ !e.fits q.capacity then .error .panic else pure dropped

end Dequeue
end MofuOS.DataStructures
