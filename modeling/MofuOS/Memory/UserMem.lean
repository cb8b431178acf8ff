import Mathlib.Data.List.Basic
import Mathlib.Logic.Function.Basic
import Mathlib.Tactic.SplitIfs
import Mathlib.Algebra.Group.Nat.Defs

/-! The leaf entries of a user address space, as memory/usermem.rs writes them. The frames of the tables
and of what is freed are left out. -/
namespace MofuOS.Memory

def pageSize : Nat := 4096

structure PageTableFlags where
  present : Bool := false
  writable : Bool := false
  userAccessible : Bool := false
  noExecute : Bool := false
  deriving DecidableEq, Repr

inductive FrameOwnership where
  | owned
  | borrowed
  deriving DecidableEq, Repr

structure MappedMemoryRegion where
  startVirt : Nat
  sizeBytes : Nat
  pageFlags : PageTableFlags
  frameOwnership : FrameOwnership
  deriving DecidableEq, Repr

def MappedMemoryRegion.endVirt (region : MappedMemoryRegion) : Nat := region.startVirt + region.sizeBytes

structure PageTableEntry (F : Type) where
  frame : F
  flags : PageTableFlags
  deriving DecidableEq, Repr

abbrev PageTable (F : Type) := Nat → Option (PageTableEntry F)

/-- The page is touched by the bytes from a to b. -/
def Touches (a b page : Nat) : Prop := a < (page + 1) * pageSize ∧ page * pageSize < b

instance (a b page : Nat) : Decidable (Touches a b page) := inferInstanceAs (Decidable (_ ∧ _))

section Map
variable {F : Type} [DecidableEq F]

/-- Maps one page, with a mapper that names the frame of a page that is mapped. There is room when the tables above the
page are there or a frame can be taken for each that is not. -/
def mapSpecificFrame (page : Nat) (frame : F) (flags : PageTableFlags) (room : Bool) (table : PageTable F) :
    Option (PageTable F) :=
  let userFlags := { flags with userAccessible := true }
  match table page with
  | some existing => if existing.frame = frame then some (Function.update table page (some ⟨frame,userFlags⟩)) else none
  | none => if room then some (Function.update table page (some ⟨frame,userFlags⟩)) else none

omit [DecidableEq F] in
/-- Pages that are absent already are skipped. -/
def unmapUserRegion (region : MappedMemoryRegion) (table : PageTable F) : PageTable F := fun page =>
  if region.sizeBytes ≠ 0 ∧ Touches region.startVirt region.endVirt page then none else table page

theorem touches_pages {first n page : Nat} :
    Touches (first * pageSize) (first * pageSize + n * pageSize) page ↔ first ≤ page ∧ page < first + n := by
  unfold Touches pageSize
  omega

omit [DecidableEq F] in
theorem unmapUserRegion_pages {first n page : Nat} {flags : PageTableFlags} {ownership : FrameOwnership} {table : PageTable F} :
    unmapUserRegion ⟨first * pageSize,n * pageSize,flags,ownership⟩ table page =
      if first ≤ page ∧ page < first + n then none else table page := by
  have hiff : n * pageSize ≠ 0 ∧ Touches (first * pageSize) (first * pageSize + n * pageSize) page ↔
      first ≤ page ∧ page < first + n := by
    rw [touches_pages]
    unfold pageSize
    omega
  exact if_congr hiff rfl rfl

/-- A page that was not mapped is mapped by a success and left alone by a failure. -/
theorem mapSpecificFrame_cases {page : Nat} {frame : F} {flags : PageTableFlags} {room : Bool} {table table' : PageTable F}
    (h : mapSpecificFrame page frame flags room table = some table') :
    (table page = none ∨ ∃ existing, table page = some existing ∧ existing.frame = frame) ∧
      table' = Function.update table page (some ⟨frame,{ flags with userAccessible := true }⟩) := by
  unfold mapSpecificFrame at h
  cases hpage : table page with
  | some existing =>
    simp only [hpage] at h
    split_ifs at h with hframe
    exact ⟨.inr ⟨existing,rfl,hframe⟩,(Option.some.inj h).symm⟩
  | none =>
    simp only [hpage] at h
    split_ifs at h
    exact ⟨.inl rfl,(Option.some.inj h).symm⟩

end Map
end MofuOS.Memory
