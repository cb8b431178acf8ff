import MofuOS.Memory.UserMem

/-! The tracked regions of an address space, as process/process_mem.rs keeps them beside the page tables. -/
namespace MofuOS.Process
open Memory

def alignToPageSize (size : Nat) : Nat := (size + pageSize - 1) / pageSize * pageSize

def alignDownToPageSize (address : Nat) : Nat := address / pageSize * pageSize

/-- The loop over the regions behind the insertion point. -/
def absorbNext (merged : MappedMemoryRegion) : List MappedMemoryRegion → MappedMemoryRegion × List MappedMemoryRegion
  | [] => (merged,[])
  | next :: rest =>
    if next.pageFlags = merged.pageFlags ∧ next.frameOwnership = merged.frameOwnership ∧ next.startVirt ≤ merged.endVirt then
      absorbNext { merged with sizeBytes := max merged.endVirt next.endVirt - merged.startVirt } rest
    else (merged,next :: rest)

def absorbPrevious (merged : MappedMemoryRegion) (before : List MappedMemoryRegion) :
    MappedMemoryRegion × List MappedMemoryRegion :=
  match before.getLast? with
  | none => (merged,before)
  | some previous =>
    if previous.pageFlags = merged.pageFlags ∧ previous.frameOwnership = merged.frameOwnership ∧
        previous.endVirt ≥ merged.startVirt then
      ({ merged with
        startVirt := previous.startVirt
        sizeBytes := max merged.endVirt previous.endVirt - previous.startVirt },before.dropLast)
    else (merged,before)

/-- partition_point splits a list that is sorted by start. -/
def trackRegion (region : MappedMemoryRegion) (regions : List MappedMemoryRegion) : List MappedMemoryRegion :=
  let alignedStart := alignDownToPageSize region.startVirt
  let alignedEnd := alignToPageSize region.endVirt
  let merged := { region with startVirt := alignedStart, sizeBytes := alignedEnd - alignedStart }
  let before := regions.takeWhile fun existing => existing.startVirt < alignedStart
  let after := regions.dropWhile fun existing => existing.startVirt < alignedStart
  let (merged,before) := absorbPrevious merged before
  let (merged,after) := absorbNext merged after
  before ++ merged :: after

/-- What is left of a region when a range inside it goes. -/
def pieces (region : MappedMemoryRegion) (rangeStart rangeEnd : Nat) : List MappedMemoryRegion :=
  (if region.startVirt < rangeStart then [{ region with sizeBytes := rangeStart - region.startVirt }] else []) ++
    if rangeEnd < region.endVirt then [{ region with startVirt := rangeEnd, sizeBytes := region.endVirt - rangeEnd }] else []

/-- The first region that covers the range, and the regions with its pieces in its place. -/
def carve (rangeStart rangeEnd : Nat) : List MappedMemoryRegion → Option (MappedMemoryRegion × List MappedMemoryRegion)
  | [] => none
  | region :: regions =>
    if region.startVirt ≤ rangeStart ∧ region.endVirt ≥ rangeEnd then
      some (region,pieces region rangeStart rangeEnd ++ regions)
    else (carve rangeStart rangeEnd regions).map fun (found,rest) => (found,region :: rest)

structure ProcessMemoryLayout (F : Type) where
  table : PageTable F
  regions : List MappedMemoryRegion

namespace ProcessMemoryLayout
variable {F : Type}

def isRangeTracked (startVirt sizeBytes : Nat) (layout : ProcessMemoryLayout F) : Bool :=
  layout.regions.any fun region => decide (region.startVirt ≤ startVirt ∧ region.endVirt ≥ startVirt + sizeBytes)

def unmapRegion (startVirt sizeBytes : Nat) (layout : ProcessMemoryLayout F) : Bool × ProcessMemoryLayout F :=
  match carve startVirt (startVirt + sizeBytes) layout.regions with
  | none => (false,layout)
  | some (region,regions) => (true,⟨unmapUserRegion { region with startVirt, sizeBytes } layout.table,regions⟩)

variable [DecidableEq F]

/-- The loop over the frames. A page that cannot be mapped ends it, and the pages before it are
unmapped. -/
def mapLoop (startVirt : Nat) (pageFlags : PageTableFlags) (room : Nat → Bool) :
    Nat → List F → PageTable F → Bool × PageTable F
  | _, [], table => (true,table)
  | pageIndex, frame :: frames, table =>
    let page := (startVirt + pageIndex * pageSize) / pageSize
    match mapSpecificFrame page frame pageFlags (room page) table with
    | some table => mapLoop startVirt pageFlags room (pageIndex + 1) frames table
    | none => (false,unmapUserRegion ⟨startVirt,pageIndex * pageSize,pageFlags,.borrowed⟩ table)

/-- Returns whether the frames were mapped. -/
def mapFrames (startVirt : Nat) (frames : List F) (pageFlags : PageTableFlags) (frameOwnership : FrameOwnership)
    (room : Nat → Bool) (layout : ProcessMemoryLayout F) : Bool × ProcessMemoryLayout F :=
  if frames = [] then (true,layout)
  else
    match mapLoop startVirt pageFlags room 0 frames layout.table with
    | (true,table) =>
      (true,⟨table,trackRegion ⟨startVirt,frames.length * pageSize,pageFlags,frameOwnership⟩ layout.regions⟩)
    | (false,table) => (false,{ layout with table })

end ProcessMemoryLayout
end MofuOS.Process
