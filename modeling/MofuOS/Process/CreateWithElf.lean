import MofuOS.Process.AddressSpace
import MofuOS.Process.ElfLoader

/-! The address space of a new process, as process/process.rs fills it from an ELF file. -/
namespace MofuOS.Process
open Memory Lib

def userStackTop : Nat := 0x7FFFFFFFF000
def defaultNewProcessStackSize : Nat := 0x100000

/-- A page of the kernel that every process sees. -/
structure SharedRegion (F : Type) where
  physAddr : F
  defaultUserVaddr : Nat
  pageTableFlags : PageTableFlags

section Copy
variable {F : Type}

/-- The frame and the offset that an address stands for. Whatever is no address is mapped nowhere, so a sum that left the
lower half panics here. -/
def translateUserVirtToPhys (virtAddr : Nat) (s : UserMemory F) : Outcome (F × Nat) :=
  match (s.leaves (virtAddr / pageSize)).filter fun entry => entry.flags.present with
  | some entry => .ok (entry.frame,virtAddr % pageSize)
  | none => .error .panic

variable [DecidableEq F]

def writeFrame (frame : F) (offset : Nat) (data : List UInt8) (s : UserMemory F) : UserMemory F :=
  { s with bytes := Function.update s.bytes frame fun i =>
      if offset ≤ i then (data[i - offset]?).getD (s.bytes frame i) else s.bytes frame i }

/-- The loop that copies and the one that zeroes, page by page. Every round moves at least one byte. -/
def fillPages (virtAddr size : Nat) (source : Nat → Nat → Outcome (List UInt8)) : Nat → Nat → UserMemory F → Outcome (UserMemory F)
  | 0, _, s => .ok s
  | rounds + 1, done, s =>
    if done < size then do
      let (frame,pageOffset) ← translateUserVirtToPhys (virtAddr + done) s
      let bytesInPage := min (pageSize - pageOffset) (size - done)
      let data ← source done bytesInPage
      fillPages virtAddr size source rounds (done + bytesInPage) (writeFrame frame pageOffset data s)
    else .ok s

/-- A read past the end of the data, which nothing checks, ends the program here. -/
def readData (data : List UInt8) (done n : Nat) : Outcome (List UInt8) :=
  if done + n ≤ data.length then .ok (slice data done n) else .error .panic

def zeros (_ n : Nat) : Outcome (List UInt8) := .ok (List.replicate n 0)

def copyFileData (segment : LoadSegment) (s : UserMemory F) : Outcome (UserMemory F) :=
  fillPages segment.vaddr segment.inFileSize (readData segment.data) segment.inFileSize 0 s

def zeroBss (segment : LoadSegment) (s : UserMemory F) : Outcome (UserMemory F) :=
  if segment.inMemorySize > segment.inFileSize then
    fillPages (segment.vaddr + segment.inFileSize) (segment.inMemorySize - segment.inFileSize) zeros
      (segment.inMemorySize - segment.inFileSize) 0 s
  else .ok s

end Copy

/-- What is computed for the segment stays in the lower half: there is a page behind its last one. -/
structure LoadSegment.Addressable (segment : LoadSegment) : Prop where
  start : segment.vaddr < 0x0000_8000_0000_0000
  stop : segment.inMemorySize = 0 ∨ segment.memoryEnd ≤ userStackTop

section Create
variable {F : Type} [DecidableEq F] [Mapper F]

def segmentFlags (flags : UInt32) : PageTableFlags where
  present := true
  userAccessible := true
  writable := flags &&& 2 ≠ 0
  noExecute := flags &&& 1 = 0

/-- An error leaves the memory without the address space. -/
def loadSegment (segment : LoadSegment) (s : AddressSpace F) : Outcome (Except (UserMemory F) (AddressSpace F)) := do
  let vaddr ← VirtAddr.new segment.vaddr
  match ← s.checkedMapOwnedRegion vaddr segment.inMemorySize (segmentFlags segment.flags) with
  | (false,s) => .ok (.error s.freeAddressSpace)
  | (true,s) =>
    let memory ← copyFileData segment s.memory
    let memory ← zeroBss segment memory
    .ok (.ok { s with memory })

/-- The mapping of such a segment finds no address to panic at. -/
theorem loadSegment_of_addressable {segment : LoadSegment} (h : segment.Addressable) (s : AddressSpace F) :
    loadSegment segment s =
      match s.mapOwnedRegion segment.vaddr segment.inMemorySize (segmentFlags segment.flags) with
      | (false,s) => .ok (.error s.freeAddressSpace)
      | (true,s) => copyFileData segment s.memory >>= fun memory => zeroBss segment memory >>= fun memory =>
          .ok (.ok { s with memory }) := by
  have hstop : segment.inMemorySize = 0 ∨ segment.vaddr + segment.inMemorySize + pageSize ≤ 0x0000_8000_0000_0000 :=
    h.stop.imp_right fun hle => by
      rw [LoadSegment.memoryEnd,userStackTop] at hle
      unfold pageSize
      omega
  rw [loadSegment,VirtAddr.new_of_lt h.start,ok_bind,AddressSpace.checkedMapOwnedRegion_of_le hstop,ok_bind]

def loadSegments : List LoadSegment → AddressSpace F → Outcome (Except (UserMemory F) (AddressSpace F))
  | [], s => .ok (.ok s)
  | segment :: segments, s => do
    match ← loadSegment segment s with
    | .error memory => .ok (.error memory)
    | .ok s => loadSegments segments s

/-- Returns whether every region was mapped. -/
def mapIntoProcess : List (SharedRegion F) → AddressSpace F → Bool × AddressSpace F
  | [], s => (true,s)
  | region :: regions, s =>
    match s.mapFrames region.defaultUserVaddr [region.physAddr] region.pageTableFlags .borrowed with
    | (true,s) => mapIntoProcess regions s
    | (false,s) => (false,s)

/-- Neither the top of the stack nor what is mapped below it leaves the lower half. -/
def mapStack (s : AddressSpace F) : Except (UserMemory F) (AddressSpace F) :=
  match s.mapOwnedRegion (userStackTop - defaultNewProcessStackSize) defaultNewProcessStackSize
      { present := true, writable := true, noExecute := true } with
  | (false,s) => .error s.freeAddressSpace
  | (true,s) => .ok s

def createWithElf (shared : List (SharedRegion F)) (segments : List LoadSegment) (memory : UserMemory F) :
    Outcome (Except (UserMemory F) (AddressSpace F)) :=
  match memory.allocateFrame with
  | none => .ok (.error memory)
  | some (topPageTablePhys,memory) => do
    match ← loadSegments segments (.withPageTable topPageTablePhys memory) with
    | .error memory => .ok (.error memory)
    | .ok s =>
      match mapIntoProcess shared s with
      | (false,_) => .error .panic
      | (true,s) => .ok (mapStack s)

end Create
end MofuOS.Process
