import MofuOS.Lib.Carving
import MofuOS.Memory.Allocator
import MofuOS.Memory.UserMem

/-! The heap of a user program: a bump range over slabs, lists of free blocks of fixed sizes, and one list of large
free blocks. sys_allocate is the kernel's, with its answers listed in the order in which they come. -/
namespace MofuOS.Rustspace
open Lib
open Memory (Layout Block pageSize)

def slabSize : Nat := 16 * 1024

def blockSizes : List Nat := [8,16,32,64,128,256,512,1024,2048,4096]

def largeNodeSize : Nat := 16
def largeNodeAlign : Nat := 8
def largeRemainderMinBytes : Nat := 16

def listIndex (requested : Nat) : Option (Fin blockSizes.length) := blockSizes.findFinIdx? fun s => s ≥ requested

/-- The list that a layout is served from. -/
def smallIndex (layout : Layout) : Option (Fin blockSizes.length) := if layout.align ≤ 8 then listIndex layout.size else none

/-- Rounding up with the mask of a power of two. -/
def alignUp (n align : Nat) : Nat := (n + align - 1) / align * align

/-- A free large block is an address and the size that its header records. -/
structure Arena where
  cursor : Nat
  endAddr : Nat
  smallHeads : Fin blockSizes.length → List Nat
  largeHead : List Region

/-- The arena, and the regions that sys_allocate has handed out. -/
structure Space where
  arena : Arena
  obtained : List Region

/-- What sys_allocate may answer: whole pages that it has not handed out before. -/
def Space.Fresh (m : Space) (r : Region) : Prop := pageSize ∣ r.off ∧ ∀ o ∈ m.obtained, r.Apart o

instance (m : Space) (r : Region) : Decidable (m.Fresh r) := inferInstanceAs (Decidable (_ ∧ _))

/-- Without a base, sys_allocate has failed. -/
def sysAllocate (n : Nat) (reply : Option Nat) (m : Space) : Option Space :=
  match reply with
  | none => some m
  | some base => if m.Fresh ⟨base,n⟩ then some { m with obtained := ⟨base,n⟩ :: m.obtained } else none

def preallocate (preallocSize : Nat) (reply : Option Nat) (m : Space) : Option Space :=
  (sysAllocate preallocSize reply m).map fun m =>
    match reply with
    | none => m
    | some base => { m with arena := { m.arena with cursor := base, endAddr := base + preallocSize } }

def grow (reply : Option Nat) (m : Space) : Option (Bool × Space) := (preallocate slabSize reply m).map (reply.isSome,·)

/-- One turn of a loop on the bump range. -/
def bump (align size : Nat) (m : Space) : Option (Nat × Space) :=
  let aligned := alignUp m.arena.cursor align
  let next := aligned + size
  if next ≤ m.arena.endAddr then some (aligned,{ m with arena := { m.arena with cursor := next } }) else none

/-- The turns of a loop. When the range has no room the kernel is asked for a slab, or for the block itself
if that is larger than a slab and the loop is the one of the large blocks. -/
def bumpLoop (align size : Nat) (large : Bool) : List (Option Nat) → Space → Option (Nat × Space)
  | [],m => bump align size m
  | reply :: replies,m =>
    match bump align size m with
    | some got => some got
    | none =>
      if large ∧ size > slabSize then (sysAllocate size reply m).map (reply.getD 0,·)
      else
        match grow reply m with
        | some (true,m) => bumpLoop align size large replies m
        | some (false,m) => some (0,m)
        | none => none

/-- The first large block that has room behind its padding, and the others in their order. -/
def takeLarge (align size : Nat) : List Region → Option (Region × List Region)
  | [] => none
  | node :: next =>
    let padding := alignUp node.off align - node.off
    if node.len ≥ size + padding then some (node,next)
    else (takeLarge align size next).map fun (found,others) => (found,node :: others)

/-- What a large block leaves behind the part that is taken, if it is worth a node. -/
def remainder (node : Region) (aligned size : Nat) : List Region :=
  let nodeEnd := node.off + node.len
  let remStart := alignUp (aligned + size) largeNodeAlign
  if remStart + largeNodeSize + largeRemainderMinBytes ≤ nodeEnd then [⟨remStart,nodeEnd - remStart⟩] else []

/-- The blocks with no small list; the size is that of the layout, or of the header if that is more. -/
def allocLarge (align size : Nat) (replies : List (Option Nat)) (m : Space) : Option (Nat × Space) :=
  match takeLarge align size m.arena.largeHead with
  | some (node,others) =>
    let aligned := alignUp node.off align
    some (aligned,{ m with arena := { m.arena with largeHead := remainder node aligned size ++ others } })
  | none => bumpLoop align size true replies m

/-- The address, which is null when there is no memory, and the dangling one of an empty block. -/
def alloc (layout : Layout) (replies : List (Option Nat)) (m : Space) : Option (Nat × Space) :=
  if layout.size = 0 then some (1,m)
  else
    match smallIndex layout with
    | some idx =>
      match m.arena.smallHeads idx with
      | node :: next => some (node,{ m with arena := { m.arena with smallHeads := Function.update m.arena.smallHeads idx next } })
      | [] => bumpLoop (blockSizes.get idx) (blockSizes.get idx) false replies m
    | none =>
      if layout.size > 4096 ∨ layout.align > 8 then
        allocLarge (max layout.align largeNodeAlign) (max layout.size largeNodeSize) replies m
      else bumpLoop layout.align layout.size false replies m

def dealloc (ptr : Nat) (layout : Layout) (a : Arena) : Arena :=
  if ptr = 0 ∨ layout.size = 0 then a
  else
    match smallIndex layout with
    | some idx => { a with smallHeads := Function.update a.smallHeads idx (ptr :: a.smallHeads idx) }
    | none => { a with largeHead := ⟨ptr,max layout.size largeNodeSize⟩ :: a.largeHead }

/-- The heap, and the blocks that the program holds. -/
structure UserHeap where
  space : Space
  live : List Block

inductive HeapCall where
  | preallocate (preallocSize : Nat) (reply : Option Nat)
  | alloc (layout : Layout) (replies : List (Option Nat))
  | dealloc (ptr : Nat) (layout : Layout)

namespace UserHeap

def start : UserHeap := ⟨⟨⟨0,0,fun _ => [],[]⟩,[]⟩,[]⟩

/-- Blocks are given back as they were asked for. -/
def step : HeapCall → UserHeap → Option UserHeap
  | .preallocate preallocSize reply,s => (preallocate preallocSize reply s.space).map (⟨·,s.live⟩)
  | .alloc layout replies,s => (alloc layout replies s.space).map fun (p,space) =>
    ⟨space,if p = 0 ∨ layout.size = 0 then s.live else (p,layout) :: s.live⟩
  | .dealloc ptr layout,s =>
    if ptr = 0 ∨ layout.size = 0 ∨ (ptr,layout) ∈ s.live then
      some ⟨{ s.space with arena := dealloc ptr layout s.space.arena },s.live.erase (ptr,layout)⟩
    else none

end UserHeap
end MofuOS.Rustspace
