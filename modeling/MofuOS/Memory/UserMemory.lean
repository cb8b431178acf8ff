import MofuOS.Memory.FrameAllocator
import MofuOS.Memory.VirtAddr
import Mathlib.Data.Finset.Dedup
import Mathlib.Data.Finset.Card

/-! A user address space together with the frames its tables and pages come from, as
memory/usermem.rs and the page tables of the x86_64 crate work on them. -/
namespace MofuOS.Memory
open Lib

/-- A table below the top one: how many levels of tables lie below it, and the pages it is for. -/
abbrev TableKey : Type := Nat × Nat

/-- The tables on the way to a page, from the top down. -/
def tablesAbove (page : Nat) : List TableKey := [(2,page / 2^27),(1,page / 2^18),(0,page / 2^9)]

structure UserMemory (F : Type) where
  allocator : MemoryMapFrameAllocator F
  tables : List (TableKey × F)
  leaves : PageTable F
  bytes : F → Nat → UInt8

inductive MapToError (F : Type) where
  | frameAllocationFailed
  | pageAlreadyMapped (frame : F)
  deriving DecidableEq, Repr

/-- What either of two mappings of a page allows is allowed. -/
def PageTableFlags.merge (existing user : PageTableFlags) : PageTableFlags where
  present := existing.present || user.present
  writable := existing.writable || user.writable
  userAccessible := existing.userAccessible || user.userAccessible
  noExecute := existing.noExecute && user.noExecute

namespace UserMemory
variable {F : Type}

def tableKeys (s : UserMemory F) : Finset TableKey := (s.tables.map Prod.fst).toFinset

/-- The frames that nobody holds. -/
def available (s : UserMemory F) : Multiset F := s.allocator.available

def allocateFrame (s : UserMemory F) : Option (F × UserMemory F) :=
  s.allocator.allocateFrame.map fun (frame,allocator) => (frame,{ s with allocator })

def deallocateFrame (frame : F) (s : UserMemory F) : UserMemory F :=
  { s with allocator := s.allocator.deallocateFrame frame }

/-- From s to t the tables new were made and frames were taken for something else. Only frames that nobody
held were written. -/
structure Took (s t : UserMemory F) (new : List (TableKey × F)) (frames : Multiset F) : Prop where
  tables : t.tables = new ++ s.tables
  available : s.available = ↑(new.map Prod.snd) + frames + t.available
  nodup : (new.map Prod.fst).Nodup
  missing : ∀ key ∈ new.map Prod.fst, key ∉ s.tableKeys
  bytes : ∀ frame, frame ∉ s.available → t.bytes frame = s.bytes frame

end UserMemory

open UserMemory in
/-- map_to, update_flags and unmap of the x86_64 crate, for pages of one size. -/
class Mapper (F : Type) where
  mapTo : Nat → F → PageTableFlags → UserMemory F → Except (MapToError F) Unit × UserMemory F
  updateFlags : Nat → PageTableFlags → UserMemory F → UserMemory F
  unmap : Nat → UserMemory F → Option F × UserMemory F
  /-- The three ways a mapping ends. The tables that the page lacks are made with frames of the allocator, and kept when
  they have run out. What the second error names is left open. -/
  mapTo_cases : ∀ page frame flags s, ∃ new, Took s (mapTo page frame flags s).2 new 0 ∧ new.map Prod.fst ⊆ tablesAbove page ∧
    ((mapTo page frame flags s).1 = .error .frameAllocationFailed ∧ (mapTo page frame flags s).2.leaves = s.leaves ∧
        (mapTo page frame flags s).2.available = 0 ∧
        (∃ key ∈ tablesAbove page, key ∉ (mapTo page frame flags s).2.tableKeys) ∨
      (∃ named, s.leaves page ≠ none ∧ (mapTo page frame flags s).1 = .error (.pageAlreadyMapped named)) ∧
        (mapTo page frame flags s).2.leaves = s.leaves ∧
        (∀ key ∈ tablesAbove page, key ∈ (mapTo page frame flags s).2.tableKeys) ∨
      s.leaves page = none ∧ (mapTo page frame flags s).1 = .ok () ∧
        (mapTo page frame flags s).2.leaves = Function.update s.leaves page (some ⟨frame,flags⟩) ∧
        ∀ key ∈ tablesAbove page, key ∈ (mapTo page frame flags s).2.tableKeys)
  updateFlags_eq : ∀ page flags s entry, s.leaves page = some entry →
    updateFlags page flags s = { s with leaves := Function.update s.leaves page (some { entry with flags }) }
  unmap_eq_none : ∀ page s, (∀ entry, s.leaves page = some entry → entry.flags.present = false) → unmap page s = (none,s)
  unmap_eq_some : ∀ page s entry, s.leaves page = some entry → entry.flags.present →
    unmap page s = (some entry.frame,{ s with leaves := Function.update s.leaves page none })

/-- What map_specific_frame takes an error of map_to for: the frame that it names is the one that the page maps. -/
class NamesMapped (F : Type) [Mapper F] : Prop where
  names : ∀ page (frame : F) flags s existing named, s.leaves page = some existing →
    (Mapper.mapTo page frame flags s).1 = .error (.pageAlreadyMapped named) → named = existing.frame

namespace UserMemory

/-- An entry that is absent has no flags. -/
def getPageFlags (page : Nat) (s : UserMemory F) : PageTableFlags := ((s.leaves page).map PageTableEntry.flags).getD {}

variable [Mapper F]

/-- Pages that are not present are skipped. The frame is given back only if the region owns it. -/
def unmapPage (ownership : FrameOwnership) (page : Nat) (s : UserMemory F) : UserMemory F :=
  match Mapper.unmap page s with
  | (none,s) => s
  | (some frame,s) => if ownership = .owned then s.deallocateFrame frame else s

def unmapPages (ownership : FrameOwnership) : Nat → Nat → UserMemory F → UserMemory F
  | _, 0, s => s
  | page, n + 1, s => unmapPages ownership (page + 1) n (s.unmapPage ownership page)

/-- The pages that the bytes from virtAddr on lie in. -/
def pageCount (virtAddr sizeBytes : Nat) : Nat := (virtAddr + sizeBytes - 1) / pageSize + 1 - virtAddr / pageSize

def unmapUserRegion (region : MappedMemoryRegion) (s : UserMemory F) : UserMemory F :=
  if region.sizeBytes = 0 then s
  else s.unmapPages region.frameOwnership (region.startVirt / pageSize) (pageCount region.startVirt region.sizeBytes)

section Map
variable [DecidableEq F]

omit [Mapper F] in
def zeroFrame (frame : F) (s : UserMemory F) : UserMemory F :=
  { s with bytes := Function.update s.bytes frame fun _ => 0 }

/-- A round of map_virt_mem_region. The only error left is that no frame could be had. -/
def mapNewPage (page : Nat) (flags : PageTableFlags) (s : UserMemory F) : Bool × UserMemory F :=
  let userFlags := { flags with userAccessible := true }
  match s.allocateFrame with
  | none => (false,s)
  | some (frame,s) =>
    match Mapper.mapTo page frame userFlags (s.zeroFrame frame) with
    | (.ok (),s) => (true,s)
    | (.error (.pageAlreadyMapped _),s) =>
      let s := s.deallocateFrame frame
      (true,Mapper.updateFlags page ((s.getPageFlags page).merge userFlags) s)
    | (.error .frameAllocationFailed,s) => (false,s.deallocateFrame frame)

def rollbackPartialMapping (startPage failedPage : Nat) (flags : PageTableFlags) (s : UserMemory F) : UserMemory F :=
  s.unmapUserRegion ⟨startPage * pageSize,failedPage * pageSize - startPage * pageSize,flags,.owned⟩

/-- The loop over the pages, n of which are left. -/
def mapPages (startPage : Nat) (flags : PageTableFlags) : Nat → Nat → UserMemory F → Bool × UserMemory F
  | _, 0, s => (true,s)
  | page, n + 1, s =>
    match s.mapNewPage page flags with
    | (true,s) => mapPages startPage flags (page + 1) n s
    | (false,s) => (false,s.rollbackPartialMapping startPage page flags)

/-- Where every address is canonical. -/
def mapVirtMemRegion (virtAddr sizeBytes : Nat) (flags : PageTableFlags) (s : UserMemory F) : Bool × UserMemory F :=
  mapPages (virtAddr / pageSize) flags (virtAddr / pageSize) (pageCount virtAddr sizeBytes) s

/-- The same loop with the steps of its page range. -/
def stepPages (startPage : Nat) (flags : PageTableFlags) : Nat → Nat → UserMemory F → Outcome (Bool × UserMemory F)
  | _, 0, s => .ok (true,s)
  | page, n + 1, s => do
    VirtAddr.stepPage page
    match s.mapNewPage page flags with
    | (true,s) => stepPages startPage flags (page + 1) n s
    | (false,s) => .ok (false,s.rollbackPartialMapping startPage page flags)

/-- With the checks of the addresses. -/
def checkedMapVirtMemRegion (virtAddr sizeBytes : Nat) (flags : PageTableFlags) (s : UserMemory F) :
    Outcome (Bool × UserMemory F) := do
  let stop ← VirtAddr.add virtAddr sizeBytes
  let _ ← VirtAddr.sub stop 1
  stepPages (virtAddr / pageSize) flags (virtAddr / pageSize) (pageCount virtAddr sizeBytes) s

theorem stepPages_of_lt {startPage page n : Nat} {flags : PageTableFlags} {s : UserMemory F}
    (h : (page + n) * pageSize < 0x0000_8000_0000_0000) :
    stepPages startPage flags page n s = .ok (mapPages startPage flags page n s) := by
  induction n generalizing page s with
  | zero => rfl
  | succ n ih =>
    have hstep : VirtAddr.stepPage page = .ok () :=
      VirtAddr.stepPage_of_lt (Nat.lt_of_le_of_lt (Nat.mul_le_mul_right _ (by omega)) h)
    rw [stepPages,mapPages,hstep,ok_bind]
    obtain ⟨_ | _,t⟩ := s.mapNewPage page flags
    · rfl
    · exact ih (by rwa [Nat.add_right_comm])

/-- Below the last page of the lower half the checks find nothing. -/
theorem checkedMapVirtMemRegion_of_le {virtAddr sizeBytes : Nat} {flags : PageTableFlags} {s : UserMemory F} (hpos : 0 < sizeBytes)
    (h : virtAddr + sizeBytes + pageSize ≤ 0x0000_8000_0000_0000) :
    s.checkedMapVirtMemRegion virtAddr sizeBytes flags = .ok (s.mapVirtMemRegion virtAddr sizeBytes flags) := by
  unfold pageSize at h
  rw [checkedMapVirtMemRegion,VirtAddr.add_of_lt (by omega),ok_bind,VirtAddr.sub_of_lt (by omega) (by omega),ok_bind]
  refine stepPages_of_lt ?_
  unfold pageCount pageSize
  omega

/-- A page that maps the frame already only has its flags replaced. -/
def mapSpecificFrame (page : Nat) (frame : F) (flags : PageTableFlags) (s : UserMemory F) :
    Except (MapToError F) Unit × UserMemory F :=
  let userFlags := { flags with userAccessible := true }
  match Mapper.mapTo page frame userFlags s with
  | (.error (.pageAlreadyMapped existing),s) =>
    if existing ≠ frame then (.error (.pageAlreadyMapped existing),s) else (.ok (),Mapper.updateFlags page userFlags s)
  | result => result

end Map
end UserMemory
end MofuOS.Memory
