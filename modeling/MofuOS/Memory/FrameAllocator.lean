import Mathlib.Data.Multiset.AddSub

/-! The physical frames of memory/memory.rs. -/
namespace MofuOS.Memory

/-- The frames that were given back, and those of the usable regions that were never handed out. -/
structure MemoryMapFrameAllocator (F : Type) where
  freeList : List F
  untouched : List F
  deriving DecidableEq, Repr

namespace MemoryMapFrameAllocator
variable {F : Type} {frame : F} {a b : MemoryMapFrameAllocator F}

def deallocateFrame (frame : F) (a : MemoryMapFrameAllocator F) : MemoryMapFrameAllocator F :=
  { a with freeList := frame :: a.freeList }

/-- A frame that was given back is handed out again first. -/
def allocateFrame (a : MemoryMapFrameAllocator F) : Option (F × MemoryMapFrameAllocator F) :=
  match a.freeList,a.untouched with
  | frame :: freeList,_ => some (frame,{ a with freeList })
  | [],frame :: untouched => some (frame,{ a with untouched })
  | [],[] => none

/-- The frames that nobody holds. -/
def available (a : MemoryMapFrameAllocator F) : Multiset F := ↑(a.freeList ++ a.untouched)

@[simp] theorem available_deallocateFrame : (a.deallocateFrame frame).available = frame ::ₘ a.available := rfl

theorem available_of_allocateFrame (h : a.allocateFrame = some (frame,b)) : a.available = frame ::ₘ b.available := by
  obtain ⟨freeList,untouched⟩ := a
  cases freeList with
  | cons f freeList =>
    cases h
    rfl
  | nil =>
    cases untouched with
    | cons f untouched =>
      cases h
      rfl
    | nil => cases h

theorem allocateFrame_eq_none : a.allocateFrame = none ↔ a.available = 0 := by
  obtain ⟨freeList,untouched⟩ := a
  cases freeList with
  | cons f freeList => simp [allocateFrame,available]
  | nil => cases untouched <;> simp [allocateFrame,available]

end MemoryMapFrameAllocator
end MofuOS.Memory
