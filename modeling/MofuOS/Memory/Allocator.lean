import MofuOS.Lib.Arena
import Mathlib.Algebra.BigOperators.Group.Multiset.Basic
import Mathlib.Algebra.BigOperators.Fin
import Mathlib.Algebra.Order.BigOperators.Group.Multiset

/-! The kernel heap of memory/allocator.rs: lists of free blocks of fixed sizes in front of a heap that is
a package of its own. -/
namespace MofuOS.Memory
open Lib

def heapPointer : Nat := 0xFFFF808000000000
def heapSizeBytes : Nat := 32 * 1024 * 1024

structure Layout where
  size : Nat
  align : Nat
  align_pow : ∃ k, align = 2 ^ k
  deriving DecidableEq

/-- An address and what was asked for there. -/
abbrev Block : Type := Nat × Layout

instance : LawfulBEq Block := inferInstance

def Block.region (b : Block) : Region := ⟨b.1,b.2.size⟩

/-- linked_list_allocator. The first state is that after init. -/
structure FallbackHeap where
  State : Type
  init : State
  allocateFirstFit : Layout → State → Option (Nat × State)
  deallocate : Nat → Layout → State → State

namespace FallbackHeap
variable (fb : FallbackHeap)

/-- What is handed out lies in the memory that init was given. -/
def Bounded : Prop := ∀ layout s p t, fb.allocateFirstFit layout s = some (p,t) →
  heapPointer ≤ p ∧ p + layout.size ≤ heapPointer + heapSizeBytes

/-- What is handed out is aligned and lies apart from what is held. -/
structure Lawful (held : fb.State → Multiset Block) : Prop where
  init : held fb.init = 0
  allocate : ∀ layout s p t, fb.allocateFirstFit layout s = some (p,t) →
    held t = (p,layout) ::ₘ held s ∧ layout.align ∣ p ∧ ∀ b ∈ held s, (Block.region (p,layout)).Apart (Block.region b)
  deallocate : ∀ p layout s, (p,layout) ∈ held s → held (fb.deallocate p layout s) = (held s).erase (p,layout)

end FallbackHeap

def blockSizes : List Nat := [8,16,32,64,128,256,512,1024,2048,4096]

def getBlockIndex (layout : Layout) : Option (Fin blockSizes.length) :=
  blockSizes.findFinIdx? fun s => s ≥ max layout.size layout.align

def blockLayout (index : Fin blockSizes.length) : Layout :=
  ⟨blockSizes[index],blockSizes[index],⟨index.val + 3,by revert index; decide⟩⟩

structure FixedSizeBlockAllocator (fb : FallbackHeap) where
  lists : Fin blockSizes.length → List Nat
  fallbackAllocator : fb.State

namespace FixedSizeBlockAllocator
variable {fb : FallbackHeap}

def new : FixedSizeBlockAllocator fb := ⟨fun _ => [],fb.init⟩

def allocateWithFallbackAllocator (layout : Layout) (a : FixedSizeBlockAllocator fb) :
    Option (Nat × FixedSizeBlockAllocator fb) :=
  (fb.allocateFirstFit layout a.fallbackAllocator).map fun (p,fallbackAllocator) => (p,{ a with fallbackAllocator })

def alloc (layout : Layout) (a : FixedSizeBlockAllocator fb) : Option (Nat × FixedSizeBlockAllocator fb) :=
  match getBlockIndex layout with
  | some index =>
    match a.lists index with
    | node :: next => some (node,{ a with lists := Function.update a.lists index next })
    | [] => a.allocateWithFallbackAllocator (blockLayout index)
  | none => a.allocateWithFallbackAllocator layout

def dealloc (p : Nat) (layout : Layout) (a : FixedSizeBlockAllocator fb) : FixedSizeBlockAllocator fb :=
  match getBlockIndex layout with
  | some index => { a with lists := Function.update a.lists index (p :: a.lists index) }
  | none => { a with fallbackAllocator := fb.deallocate p layout a.fallbackAllocator }

end FixedSizeBlockAllocator
end MofuOS.Memory
