import MofuOS.Process.CreateWithElf
import MofuOS.Process.Scheduler

/-! The creation of a process, as process/process_manager.rs makes it from an ELF file. -/
namespace MofuOS.Process
open Memory Lib

def eventBufferAddr : Nat := 0x700000000
def programSharedDataAddr : Nat := eventBufferAddr + pageSize

/-- The one region that init_shared_state registers. -/
def programSharedData {F : Type} (physAddr : F) : SharedRegion F where
  physAddr
  defaultUserVaddr := programSharedDataAddr
  pageTableFlags := { present := true, writable := true, userAccessible := true, noExecute := true }

/-- A process, the kernel included, with the pages and page tables of its own. -/
structure ProcessEntry (F : Type) where
  pid : Nat
  parentPid : Nat
  priority : Nat
  name : String
  topPageTablePhys : F
  heapEnd : Nat
  regions : List MappedMemoryRegion
  tables : List (TableKey × F)
  leaves : PageTable F

/-- The process table, the scheduler with the pid that comes next, and the physical memory. -/
structure ProcessSystem (F : Type) where
  kernel : Kernel
  processes : List (ProcessEntry F)
  allocator : MemoryMapFrameAllocator F
  bytes : F → Nat → UInt8

inductive ProcessError where
  | parentNotFound
  | schedulerError
  | outOfTaskSlots
  deriving DecidableEq, Repr

/-- The core with the fewest tasks, core 0 left out. -/
def leastLoadedCore (totalCores : Nat) (k : Kernel) : Core :=
  (((List.finRange maxCores).filter fun c => 1 ≤ c.val ∧ c.val < totalCores).foldl
    (fun best c => if k.runnableTasksCount c < best.2 then (c,k.runnableTasksCount c) else best) (1,usizeMax)).1

namespace ProcessSystem
variable {F : Type}

def getProcess (pid : Nat) (s : ProcessSystem F) : Outcome (Option (ProcessEntry F)) :=
  if pid = invalidPid then .error .panic else .ok (s.processes.find? fun process => process.pid = pid)

/-- The memory as the manager of a user address space sees it before there is one. -/
def memory (s : ProcessSystem F) : UserMemory F := ⟨s.allocator,[],fun _ => none,s.bytes⟩

/-- What is left when a creation has failed. -/
def abandoned (memory : UserMemory F) (s : ProcessSystem F) : ProcessSystem F :=
  { s with kernel := { s.kernel with newPid := s.kernel.newPid + 1 }, allocator := memory.allocator, bytes := memory.bytes }

variable [DecidableEq F] [Mapper F]

def createProcessFromElf (shared : List (SharedRegion F)) (totalCores parentPid : Nat) (elfInfo : ElfLoadInfo) (name : String)
    (priority : Nat) (s : ProcessSystem F) : Outcome (Except ProcessError Nat × ProcessSystem F) := do
  match ← s.getProcess parentPid with
  | none => .ok (.error .parentNotFound,s)
  | some _ =>
    let newPid := s.kernel.newPid
    let coreId := leastLoadedCore totalCores s.kernel
    match ← createWithElf shared elfInfo.segments s.memory with
    | .error memory => .ok (.error .schedulerError,s.abandoned memory)
    | .ok space =>
      match allocateTaskSlot s.kernel.tasks newPid priority coreId with
      | none => .ok (.error .outOfTaskSlots,s.abandoned space.freeAddressSpace)
      | some _ => do
        let kernel ← s.kernel.create coreId priority
        let process : ProcessEntry F :=
          { pid := newPid, parentPid, priority, name, topPageTablePhys := space.topPageTablePhys, heapEnd := space.heapEnd,
            regions := space.regions, tables := space.memory.tables, leaves := space.memory.leaves }
        .ok (.ok newPid,
          { kernel, processes := s.processes ++ [process], allocator := space.memory.allocator, bytes := space.memory.bytes })

end ProcessSystem
end MofuOS.Process
