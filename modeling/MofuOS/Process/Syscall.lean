import MofuOS.Process.Scheduler
import MofuOS.Lib.Traced

/-! The system calls: what a call does with the pointers in its registers. The other parts of the kernel
are services, which touch no memory at an address a user gave. -/
namespace MofuOS.Process
open Lib
open Traced

def userMemMaxAddress : Nat := 0x0000_8000_0000_0000

inductive SyscallNumber where
  | createProcess | terminateProcess | write | read | getLine | allocate | loadFile | unloadFile
  | createWindow | destroyWindow | mapWindowBuffer | presentWindow | getWindowSize | focusWindow | getWindowInfo
  | openFile | closeFile | readFile | writeFile | statFile | listDir | createFile | createDir | delete
  | pinFile | unpinFile | reserveCache | evictDirectory | getCacheStats | flushFileCache
  | createCircularBuffer
  | sleepMs | waitForInput | futexWait | futexWake
  | getCpuInfo | getProcessInfo | getPid | yield | exit
  deriving DecidableEq, Repr

structure SyscallFrame where
  syscallNum : SyscallNumber
  arg1 : UInt64 := 0
  arg2 : UInt64 := 0
  arg3 : UInt64 := 0
  arg4 : UInt64 := 0
  deriving DecidableEq, Repr

/-- Memory the kernel reads or writes at an address of the user. A slice counts in full where it is made. -/
structure UserAccess where
  writes : Bool
  ptr : Nat
  len : Nat
  deriving DecidableEq, Repr

/-- The size of a struct with the C layout, from the size and the alignment of its fields. -/
def reprC (align : Nat) (fields : List (Nat × Nat)) : Nat :=
  let up (n a : Nat) : Nat := (n + a - 1) / a * a
  up (fields.foldl (fun offset field => up offset field.2 + field.1) 0) align

def fsNameLen : Nat := 16
def sizeOfWindowInfo : Nat := reprC 8 [(4,4),(4,4),(8,8),(8,8)]
def sizeOfStatFlat : Nat := reprC 8 [(fsNameLen,1),(1,1),(1,1),(8,8),(4,4),(4,4)]
def sizeOfDirEntryFlat : Nat := reprC 8 [(fsNameLen,1),(1,1),(1,1),(6,1),(8,8),(4,4),(4,4)]
def sizeOfCacheStatsFlat : Nat := reprC 8 [(8,8),(8,8),(8,8),(8,8)]
def sizeOfCircularBufferInfo : Nat := reprC 8 [(8,8),(8,8),(8,8)]
def sizeOfCpuInfoFlat : Nat :=
  reprC 16 [(1,1),(1,1),(1,1),(1,1),(2,2),(1,1),(1,1),(1,1),(4,4),(8,8),(8,8),(4,4),(4,4),(1,1)]

example : sizeOfDirEntryFlat = 40 ∧ sizeOfCpuInfoFlat = 48 := by decide

def u64Max : UInt64 := 0xFFFF_FFFF_FFFF_FFFF
def invalidFd : UInt64 := u64Max

def archePid : Nat := 0

structure FileDescriptor where
  nodeId : Nat
  flags : UInt8
  deriving DecidableEq, Repr

def fdFlagRead : UInt8 := 0x01
def fdFlagWrite : UInt8 := 0x02

/-- The buffers of a window as the compositor has them. -/
structure WindowBuffer where
  byteCount : Nat
  pageCount : Nat
  maxWindowBufferSize : Nat
  userBase : Nat

/-- The kernel behind the system calls, with a state κ. -/
structure Services (κ : Type) where
  /-- The use_cached_fs feature. -/
  cachedFs : Bool
  memory : κ → Nat → Nat → ByteArray
  currentPid : κ → Nat
  odysElfParses : Bool
  createProcessFromElf : κ → Bool × κ
  parentPid : Nat → κ → Option Nat
  requestKill : Nat → UInt32 → κ → Bool × κ
  framebufferSize : κ → UInt32 × UInt32
  createWindow : UInt32 → UInt32 → UInt32 → UInt32 → Nat → κ → UInt32 × κ
  destroyWindow : UInt32 → κ → κ
  focusWindow : UInt32 → κ → κ
  presentWindow : UInt32 → κ → κ
  /-- The size of a visible window. -/
  windowSize : UInt32 → κ → Option (UInt32 × UInt32)
  windowExists : UInt32 → κ → Bool
  windowBuffer : UInt32 → Nat → κ → Option WindowBuffer
  isRangeTracked : Nat → Nat → Nat → κ → Option Bool
  mapWindowFrames : Nat → Nat → Nat → κ → Bool × κ
  unmapRegion : Nat → Nat → Nat → κ → κ
  yield : κ → κ
  allocateHeap : Nat → UInt64 → κ → Option UInt64 × κ
  fileDescriptors : Nat → κ → Option (List FileDescriptor)
  setFileDescriptors : Nat → List FileDescriptor → κ → κ
  /-- The handle of the node at a path. -/
  resolvePath : String → κ → Option Nat × κ
  /-- How many entries the directory at a path has. -/
  listDirectory : String → κ → Option Nat × κ
  driverReadFile : Nat → UInt64 → UInt64 → κ → Option UInt64 × κ
  driverWriteFile : Nat → UInt64 → UInt64 → κ → Option UInt64 × κ
  createFile : String → κ → Bool × κ
  createDirectory : String → κ → Bool × κ
  delete : String → κ → Bool × κ
  pinFile : String → κ → Bool × κ
  unpinFile : String → κ → Bool × κ
  reserveCache : String → UInt64 → κ → Bool × κ
  evictDirectory : String → κ → Option UInt64 × κ
  flushNodes : List Nat → κ → Bool × κ
  mapForUser : Nat → UInt64 → UInt64 → κ → Bool × κ
  sleepCurrentTaskMs : UInt64 → κ → κ
  processHasPendingInput : Nat → κ → Bool
  killPending : κ → Bool
  addCurrentTaskAndMarkBlocked : WaitQueue → κ → κ
  removeAndWake : WaitQueue → κ → κ
  runScheduling : κ → κ
  wakeAll : WaitQueue → κ → κ
  deriving Inhabited

/-- What a call hands back in rax, none where the task does not come back to its caller. -/
abbrev Reply := Option UInt64

abbrev Handler (κ α : Type) := Traced κ UserAccess Reply α

def validateUserPtr (ptr len : Nat) : Bool :=
  let finish := min (ptr + len) usizeMax
  ptr != 0 && finish ≤ userMemMaxAddress && ptr ≤ finish

section Calls
variable {κ : Type} (services : Services κ)

def readUserString (ptr len : UInt64) : Handler κ (Option String) :=
  if validateUserPtr ptr.toNat len.toNat then do
    emit ⟨false,ptr.toNat,len.toNat⟩
    let bytes ← look (services.memory · ptr.toNat len.toNat)
    pure (String.fromUTF8? bytes)
  else pure none

/-- The path in a pair of registers, where every caller gives up without one. -/
def userPath (ptr len : UInt64) : Handler κ String := do
  ofOption (some invalidFd) (← readUserString services ptr len)

/-- The two strings are taken from the registers as they are, and printed. -/
def createProcess (frame : SyscallFrame) : Handler κ UInt64 := do
  emit ⟨false,frame.arg1.toNat,frame.arg2.toNat⟩
  emit ⟨false,frame.arg3.toNat,frame.arg4.toNat⟩
  require services.odysElfParses (some u64Max)
  require (← call services.createProcessFromElf) (some u64Max)
  pure 0

def terminateProcess (frame : SyscallFrame) : Handler κ UInt64 := do
  let targetPid := frame.arg1.toNat
  let callerPid ← look services.currentPid
  require (targetPid != invalidPid && targetPid != archePid) (some u64Max)
  let targetParent ← ofOption (some u64Max) (← look (services.parentPid targetPid))
  require (targetPid == callerPid || targetParent == callerPid || callerPid == archePid) (some u64Max)
  if targetPid = callerPid then stop none
  else do
    require (← call (services.requestKill targetPid frame.arg2.toUInt32)) (some u64Max)
    pure 0

/-- The text goes to a serial port, whichever the descriptor is. -/
def write (frame : SyscallFrame) : Handler κ UInt64 := do
  emit ⟨false,frame.arg2.toNat,frame.arg3.toNat⟩
  pure frame.arg3

def createWindow (frame : SyscallFrame) : Handler κ UInt64 := do
  let width := frame.arg1.toUInt32
  let height := frame.arg2.toUInt32
  let pid ← look services.currentPid
  let framebuffer ← look services.framebufferSize
  require (width != 0 && height != 0 && width ≤ framebuffer.1 && height ≤ framebuffer.2) (some u64Max)
  let windowId ← call (services.createWindow width height frame.arg3.toUInt32 frame.arg4.toUInt32 pid)
  pure windowId.toUInt64

def allocate (frame : SyscallFrame) : Handler κ UInt64 := do
  let pid ← look services.currentPid
  ofOption (some u64Max) (← call (services.allocateHeap pid frame.arg1))

def mapWindowBuffer (pageSize : Nat) (frame : SyscallFrame) : Handler κ UInt64 := do
  let pid ← look services.currentPid
  let buffer ← ofOption (some u64Max) (← look (services.windowBuffer frame.arg1.toUInt32 pid))
  require (buffer.byteCount ≤ buffer.maxWindowBufferSize) (some u64Max)
  let bufferBytes := buffer.pageCount * pageSize
  let front := buffer.userBase + buffer.maxWindowBufferSize
  let backTracked ← ofOption (some u64Max) (← look (services.isRangeTracked pid buffer.userBase bufferBytes))
  let frontTracked ← ofOption (some u64Max) (← look (services.isRangeTracked pid front bufferBytes))
  if backTracked && frontTracked then pure (.ofNat buffer.userBase)
  else do
    require (← call (services.mapWindowFrames pid buffer.userBase buffer.pageCount)) (some u64Max)
    if ← call (services.mapWindowFrames pid front buffer.pageCount) then pure (.ofNat buffer.userBase)
    else do
      act (services.unmapRegion pid buffer.userBase bufferBytes)
      stop (some u64Max)

def getWindowSize (frame : SyscallFrame) : Handler κ UInt64 := do
  let size ← ofOption (some u64Max) (← look (services.windowSize frame.arg1.toUInt32))
  pure (size.1.toUInt64 <<< 32 ||| size.2.toUInt64)

def getWindowInfo (frame : SyscallFrame) : Handler κ UInt64 := do
  require (validateUserPtr frame.arg2.toNat sizeOfWindowInfo) (some invalidFd)
  require (← look (services.windowExists frame.arg1.toUInt32)) (some u64Max)
  emit ⟨true,frame.arg2.toNat,sizeOfWindowInfo⟩
  pure 0

def openFile (frame : SyscallFrame) : Handler κ UInt64 := do
  let path ← userPath services frame.arg1 frame.arg2
  let nodeId ← ofOption (some invalidFd) (← call (services.resolvePath path))
  let pid ← look services.currentPid
  let descriptors ← ofOption (some invalidFd) (← look (services.fileDescriptors pid))
  act (services.setFileDescriptors pid (descriptors ++ [⟨nodeId,frame.arg3.toUInt8⟩]))
  pure (.ofNat descriptors.length)

def closeFile (frame : SyscallFrame) : Handler κ UInt64 := do
  let fd := frame.arg1.toNat
  let pid ← look services.currentPid
  let descriptors ← ofOption (some invalidFd) (← look (services.fileDescriptors pid))
  require (fd < descriptors.length) (some invalidFd)
  act (services.setFileDescriptors pid (swapRemove descriptors fd))
  pure 0

/-- The node behind a descriptor of the running process that has one of the flags. -/
def openNode (fd : Nat) (flag : UInt8) : Handler κ Nat := do
  let pid ← look services.currentPid
  let descriptors ← ofOption (some invalidFd) (← look (services.fileDescriptors pid))
  let descriptor ← ofOption (some invalidFd) descriptors[fd]?
  require (descriptor.flags &&& flag != 0) (some invalidFd)
  pure descriptor.nodeId

def readFile (frame : SyscallFrame) : Handler κ UInt64 := do
  require (validateUserPtr frame.arg3.toNat frame.arg4.toNat) (some invalidFd)
  let nodeId ← openNode services frame.arg1.toNat fdFlagRead
  emit ⟨true,frame.arg3.toNat,frame.arg4.toNat⟩
  ofOption (some invalidFd) (← call (services.driverReadFile nodeId frame.arg2 frame.arg4))

def writeFile (frame : SyscallFrame) : Handler κ UInt64 := do
  require (validateUserPtr frame.arg3.toNat frame.arg4.toNat) (some invalidFd)
  let nodeId ← openNode services frame.arg1.toNat fdFlagWrite
  emit ⟨false,frame.arg3.toNat,frame.arg4.toNat⟩
  ofOption (some invalidFd) (← call (services.driverWriteFile nodeId frame.arg2 frame.arg4))

def statFile (frame : SyscallFrame) : Handler κ UInt64 := do
  let path ← userPath services frame.arg1 frame.arg2
  require (validateUserPtr frame.arg3.toNat sizeOfStatFlat) (some invalidFd)
  let _ ← ofOption (some invalidFd) (← call (services.resolvePath path))
  emit ⟨true,frame.arg3.toNat,sizeOfStatFlat⟩
  pure 0

/-- The entries from index i on. -/
def writeEntries (outPtr : Nat) : Nat → Nat → Handler κ Unit
  | _,0 => pure ()
  | i,count + 1 => do
    emit ⟨true,outPtr + i * sizeOfDirEntryFlat,sizeOfDirEntryFlat⟩
    writeEntries outPtr (i + 1) count

def listDir (frame : SyscallFrame) : Handler κ UInt64 := do
  let path ← userPath services frame.arg1 frame.arg2
  require (validateUserPtr frame.arg3.toNat frame.arg4.toNat) (some invalidFd)
  let entries ← ofOption (some invalidFd) (← call (services.listDirectory path))
  let writeCount := min entries (frame.arg4.toNat / sizeOfDirEntryFlat)
  writeEntries frame.arg3.toNat 0 writeCount
  pure (.ofNat writeCount)

/-- A call that hands a path to the file system. -/
def pathCall (service : String → κ → Bool × κ) (frame : SyscallFrame) : Handler κ UInt64 := do
  let path ← userPath services frame.arg1 frame.arg2
  require (← call (service path)) (some invalidFd)
  pure 0

/-- The same for the file cache, which may be off. -/
def cachePathCall (service : String → κ → Bool × κ) (frame : SyscallFrame) : Handler κ UInt64 := do
  require services.cachedFs (some u64Max)
  pathCall services service frame

def reserveCache (frame : SyscallFrame) : Handler κ UInt64 := do
  require services.cachedFs (some u64Max)
  let path ← userPath services frame.arg1 frame.arg2
  require (frame.arg3 ≤ 6) (some u64Max)
  require (← call (services.reserveCache path frame.arg3)) (some u64Max)
  pure 0

def evictDirectory (frame : SyscallFrame) : Handler κ UInt64 := do
  require services.cachedFs (some u64Max)
  let path ← userPath services frame.arg1 frame.arg2
  ofOption (some u64Max) (← call (services.evictDirectory path))

def getCacheStats (frame : SyscallFrame) : Handler κ UInt64 :=
  if services.cachedFs then do
    require (validateUserPtr frame.arg1.toNat sizeOfCacheStatsFlat) (some u64Max)
    emit ⟨true,frame.arg1.toNat,sizeOfCacheStatsFlat⟩
    pure 0
  else pure 0

def flushFileCache : Handler κ UInt64 :=
  if services.cachedFs then do
    let pid ← look services.currentPid
    let descriptors ← ofOption (some u64Max) (← look (services.fileDescriptors pid))
    require (← call (services.flushNodes (descriptors.map (·.nodeId)))) (some u64Max)
    pure 0
  else pure 0

def createCircularBuffer (frame : SyscallFrame) : Handler κ UInt64 := do
  require (validateUserPtr frame.arg3.toNat sizeOfCircularBufferInfo) (some u64Max)
  let pid ← look services.currentPid
  require (← call (services.mapForUser pid frame.arg1 frame.arg2)) (some u64Max)
  emit ⟨true,frame.arg3.toNat,sizeOfCircularBufferInfo⟩
  pure 0

/-- The length that is checked is the one the caller gives. -/
def getCpuInfo (frame : SyscallFrame) : Handler κ UInt64 := do
  require (validateUserPtr frame.arg1.toNat frame.arg2.toNat) (some 2)
  emit ⟨true,frame.arg1.toNat,sizeOfCpuInfoFlat⟩
  pure 0

/-- The condition holds or the task is asked to exit. -/
def eventOrKill (condition : Handler κ Bool) : Handler κ Bool := do
  if ← condition then pure true else look services.killPending

/-- A wait that has not ended after the given number of rounds has not come back. -/
def blockCurrentTaskUntilEvent (queue : WaitQueue) (condition : Handler κ Bool) : Nat → Handler κ Unit
  | 0 => stop none
  | rounds + 1 => do
    if ← eventOrKill services condition then pure ()
    else do
      act (services.addCurrentTaskAndMarkBlocked queue)
      if ← eventOrKill services condition then act (services.removeAndWake queue) else pure ()
      act services.runScheduling
      blockCurrentTaskUntilEvent queue condition rounds

def waitForInput (rounds : Nat) : Handler κ UInt64 := do
  let pid ← look services.currentPid
  blockCurrentTaskUntilEvent services .input (look (services.processHasPendingInput pid)) rounds
  pure 0

def loadWord (ptr : Nat) : Handler κ ByteArray := do
  emit ⟨false,ptr,4⟩
  look (services.memory · ptr 4)

def futexWait (rounds : Nat) (frame : SyscallFrame) : Handler κ UInt64 := do
  require (validateUserPtr frame.arg1.toNat 4) (some u64Max)
  let expected := ByteArray.mk ((List.range 4).map fun i => (frame.arg2 >>> (8 * .ofNat i)).toUInt8).toArray
  blockCurrentTaskUntilEvent services .futex (do pure ((← loadWord services frame.arg1.toNat) != expected)) rounds
  pure 0

/-- The call of a frame. Waits are followed for the given number of rounds. -/
def dispatchSyscall (rounds : Nat) (frame : SyscallFrame) : Handler κ UInt64 :=
  match frame.syscallNum with
  | .createProcess => createProcess services frame
  | .terminateProcess => terminateProcess services frame
  | .write => write frame
  | .createWindow => createWindow services frame
  | .destroyWindow => do act (services.destroyWindow frame.arg1.toUInt32); pure 0
  | .getPid => do pure (.ofNat (← look services.currentPid))
  | .yield => do act services.yield; pure 0
  | .exit => stop none
  | .allocate => allocate services frame
  | .mapWindowBuffer => mapWindowBuffer services 4096 frame
  | .presentWindow => do act (services.presentWindow frame.arg1.toUInt32); pure 0
  | .getWindowSize => getWindowSize services frame
  | .getWindowInfo => getWindowInfo services frame
  | .focusWindow => do act (services.focusWindow frame.arg1.toUInt32); pure 0
  | .openFile => openFile services frame
  | .closeFile => closeFile services frame
  | .readFile => readFile services frame
  | .writeFile => writeFile services frame
  | .statFile => statFile services frame
  | .listDir => listDir services frame
  | .createFile => pathCall services services.createFile frame
  | .createDir => pathCall services services.createDirectory frame
  | .delete => pathCall services services.delete frame
  | .pinFile => cachePathCall services services.pinFile frame
  | .unpinFile => cachePathCall services services.unpinFile frame
  | .reserveCache => reserveCache services frame
  | .evictDirectory => evictDirectory services frame
  | .getCacheStats => getCacheStats services frame
  | .flushFileCache => flushFileCache services
  | .createCircularBuffer => createCircularBuffer services frame
  | .getCpuInfo => getCpuInfo frame
  | .sleepMs => do act (services.sleepCurrentTaskMs frame.arg1); pure 0
  | .waitForInput => waitForInput services rounds
  | .futexWait => futexWait services rounds frame
  | .futexWake => do act (services.wakeAll .futex); pure 0
  | .read | .getLine | .loadFile | .unloadFile | .getProcessInfo => stop (some u64Max)

end Calls
end MofuOS.Process
