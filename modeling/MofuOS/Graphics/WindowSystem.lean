import MofuOS.Lib.Steps
import MofuOS.Memory.Allocator
import MofuOS.Process.ProcessMem

/-! Windows as processes see them: the window part of graphics/compositor.rs and the window calls of
process/syscall.rs, over the address spaces of the processes and the kernel heap. What is only drawn,
stacked or focused is left out. -/
namespace MofuOS.Graphics.Windows
open Lib Memory Process

def invalidWindowId : Nat := 2 ^ 32 - 1

def framebufferBytesPerPixel : Nat := 4

def processWindowBufferBase : Nat := 0x100000000

def processWindowBufferHardMaxSize : Nat := 64 * 1024 * 1024

def processEventBufferBase : Nat := 0x800000000

/-- A frame of the kernel heap is named by its page there and by the WindowBuffer it is mapped for, an event
page by the window it was made for. Ids are used again, so windows and their buffers are numbered. -/
inductive Frame where
  | heap (page serial : Nat)
  | event (serial : Nat)
  | other (n : Nat)
  deriving DecidableEq, Repr

def Frame.serial : Frame → Option Nat
  | .heap _ serial => some serial
  | .event serial => some serial
  | .other _ => none

structure WindowBuffer where
  width : Nat
  height : Nat
  backBuffer : Nat
  frontBuffer : Nat

namespace WindowBuffer

def pixelCount (b : WindowBuffer) : Nat := b.width * b.height % 2 ^ 32

def byteCount (b : WindowBuffer) : Nat := b.pixelCount * framebufferBytesPerPixel

def pageCount (b : WindowBuffer) : Nat := (b.byteCount + pageSize - 1) / pageSize

/-- The layout that both buffers are allocated and freed with. -/
def layout (b : WindowBuffer) : Layout := ⟨b.byteCount,pageSize,⟨12,rfl⟩⟩

def swap (b : WindowBuffer) : WindowBuffer := { b with backBuffer := b.frontBuffer, frontBuffer := b.backBuffer }

end WindowBuffer

/-- The Arc of the buffer is its number. -/
structure Window where
  id : Nat
  ownerPid : Nat
  isVisible : Bool
  buffer : Nat
  eventBufferPhys : Option Frame

/-- The stack of free ids has its top in front. -/
structure Compositor where
  framebufferWidth : Nat
  framebufferHeight : Nat
  nextWindowId : Nat := 0
  freeWindowIds : List Nat := []
  windows : List Window := []

namespace Compositor

def maxWindowBufferBytes (c : Compositor) : Nat :=
  min (alignToPageSize (c.framebufferWidth * c.framebufferHeight * framebufferBytesPerPixel)) processWindowBufferHardMaxSize

def windowBufferUserBase (id : Nat) (c : Compositor) : Nat := processWindowBufferBase + id * (2 * c.maxWindowBufferBytes)

end Compositor

def eventBufferUserVaddr (id : Nat) : Nat := processEventBufferBase + id * pageSize

/-- A system call that holds an Arc of a buffer. MapWindowBuffer has looked up the window with this id and
read its back buffer, or has no more to map. -/
structure Call where
  pid : Nat
  serial : Nat
  request : Option (Nat × Nat)
  deriving DecidableEq

/-- A live block of the kernel heap, and the buffer it is part of. -/
structure Allocation where
  block : Block
  buffer : Option Nat
  deriving DecidableEq

abbrev Layouts : Type := Nat → Option (ProcessMemoryLayout Frame)

/-- A process has a layout until its address space is freed. Which buffers were dropped and which blocks are
live is recorded for the proofs. -/
structure Kernel (fb : FallbackHeap) where
  compositor : Compositor
  buffers : Nat → WindowBuffer
  serials : Nat := 0
  dropped : List Nat := []
  calls : List Call := []
  exiting : List Nat := []
  layouts : Layouts
  heap : FixedSizeBlockAllocator fb := .new
  live : List Allocation := []

def windowFlags : PageTableFlags := { present := true, writable := true, noExecute := true }

/-- The frames of a buffer in the kernel heap, by translate_kernel_heap_virt_to_phys. -/
def heapFrames (p serial pageCount : Nat) : List Frame :=
  (List.range pageCount).map fun i => .heap ((p + i * pageSize) / pageSize) serial

/-- MapWindowBuffer under the lock of the process manager. -/
def mapWindowBuffer (backUserVirt frontUserVirt bufferBytes : Nat) (backFrames frontFrames : List Frame) (room : Nat → Bool)
    (layout : ProcessMemoryLayout Frame) : ProcessMemoryLayout Frame :=
  if layout.isRangeTracked backUserVirt bufferBytes ∧ layout.isRangeTracked frontUserVirt bufferBytes then layout
  else
    match layout.mapFrames backUserVirt backFrames windowFlags .borrowed room with
    | (false,layout) => layout
    | (true,layout) =>
      match layout.mapFrames frontUserVirt frontFrames windowFlags .borrowed room with
      | (true,layout) => layout
      | (false,layout) => (layout.unmapRegion backUserVirt bufferBytes).2

/-- What destroy_window unmaps. -/
def unmapWindow (backBufferBase frontBufferBase bufferBytes eventVaddr : Nat) (hasEventBuffer : Bool)
    (layout : ProcessMemoryLayout Frame) : ProcessMemoryLayout Frame :=
  let layout := (layout.unmapRegion backBufferBase bufferBytes).2
  let layout := (layout.unmapRegion frontBufferBase bufferBytes).2
  if hasEventBuffer then (layout.unmapRegion eventVaddr pageSize).2 else layout

namespace Kernel
variable {fb : FallbackHeap}

def start (compositor : Compositor) (layouts : Layouts) : Kernel fb :=
  { compositor, layouts, buffers := fun _ => ⟨0,0,0,0⟩ }

def held (serial : Nat) (s : Kernel fb) : Bool :=
  s.compositor.windows.any (fun w => w.buffer == serial) || s.calls.any (fun c => c.serial == serial)

/-- An Arc of the buffer is gone. The last one drops it. -/
def release (serial : Nat) (s : Kernel fb) : Kernel fb :=
  if s.held serial then s
  else
    let b := s.buffers serial
    { s with
      dropped := serial :: s.dropped
      heap := (s.heap.dealloc b.backBuffer b.layout).dealloc b.frontBuffer b.layout
      live := s.live.filter fun a => a.buffer ≠ some serial }

/-- A process that may start a system call. -/
def running (pid : Nat) (s : Kernel fb) : Bool :=
  (s.layouts pid).isSome && !s.exiting.contains pid && s.calls.all fun c => c.pid != pid

/-- The page may not be there to allocate. -/
def allocateEventBufferForWindow (id pid serial : Nat) (page : Bool) (room : Nat → Bool) (layouts : Layouts) :
    Option Frame × Layouts :=
  match page, layouts pid with
  | true, some layout =>
    let mapped := layout.mapFrames (eventBufferUserVaddr id) [.event serial] windowFlags .borrowed room
    (if mapped.1 then some (.event serial) else none,Function.update layouts pid (some mapped.2))
  | _, _ => (none,layouts)

/-- The new window takes a free id, or the next one. -/
def placeWindow (window : Nat → Window) (c : Compositor) : Compositor :=
  match c.freeWindowIds with
  | id :: rest => { c with
      freeWindowIds := rest
      windows := if id ≥ c.windows.length then c.windows ++ [window id] else c.windows.set id (window id) }
  | [] => { c with
      nextWindowId := c.nextWindowId + 1
      windows :=
        if c.nextWindowId ≥ c.windows.length then c.windows ++ [window c.nextWindowId]
        else c.windows.set c.nextWindowId (window c.nextWindowId) }

def newWindowId (c : Compositor) : Nat := c.freeWindowIds.headD c.nextWindowId

/-- CreateWindow. An allocation that fails is a panic. The Arc that create_window returns lives until the
call does. -/
def createWindow (pid width height : Nat) (page : Bool) (room : Nat → Bool) (s : Kernel fb) : Option (Kernel fb) :=
  if width = 0 ∨ height = 0 ∨ width > s.compositor.framebufferWidth ∨ height > s.compositor.framebufferHeight then some s
  else
    let layout := (⟨width,height,0,0⟩ : WindowBuffer).layout
    (s.heap.alloc layout).bind fun (backBuffer,heap) =>
      (heap.alloc layout).map fun (frontBuffer,heap) =>
        let id := newWindowId s.compositor
        let (eventBufferPhys,layouts) := allocateEventBufferForWindow id pid s.serials page room s.layouts
        let s' := { s with
          compositor := placeWindow (fun id => ⟨id,pid,true,s.serials,eventBufferPhys⟩) s.compositor
          buffers := Function.update s.buffers s.serials ⟨width,height,backBuffer,frontBuffer⟩
          serials := s.serials + 1
          calls := ⟨pid,s.serials,none⟩ :: s.calls
          layouts
          heap
          live := ⟨(backBuffer,layout),some s.serials⟩ :: ⟨(frontBuffer,layout),some s.serials⟩ :: s.live }
        match s.compositor.windows[id]? with
        | some old => s'.release old.buffer
        | none => s'

def destroyWindow (id : Nat) (s : Kernel fb) : Kernel fb :=
  if id = invalidWindowId then s
  else
    match s.compositor.windows[id]? with
    | none => s
    | some window =>
      if window.isVisible then
        { s with
          compositor := { s.compositor with
            windows := s.compositor.windows.set id { window with isVisible := false, eventBufferPhys := none }
            freeWindowIds := id :: s.compositor.freeWindowIds }
          layouts := Function.update s.layouts window.ownerPid ((s.layouts window.ownerPid).map
            (unmapWindow (s.compositor.windowBufferUserBase id)
              (s.compositor.windowBufferUserBase id + s.compositor.maxWindowBufferBytes)
              ((s.buffers window.buffer).pageCount * pageSize) (eventBufferUserVaddr id) window.eventBufferPhys.isSome)) }
      else s

def ownedWindowIds (pid : Nat) (c : Compositor) : List Nat :=
  (c.windows.filter fun w => w.isVisible && w.ownerPid == pid).map Window.id

def destroyWindowsOfProcess (pid : Nat) (s : Kernel fb) : Kernel fb :=
  (ownedWindowIds pid s.compositor).foldl (fun s id => s.destroyWindow id) s

/-- MapWindowBuffer under the lock of the compositor. -/
def lookUp (pid id : Nat) (s : Kernel fb) : Kernel fb :=
  match s.compositor.windows[id]? with
  | some w =>
    if w.isVisible ∧ w.ownerPid = pid then
      { s with calls := ⟨pid,w.buffer,some (id,(s.buffers w.buffer).backBuffer)⟩ :: s.calls }
    else s
  | none => s

/-- The rest of MapWindowBuffer. A buffer that does not fit its slot is not mapped. -/
def mapBuffers (pid : Nat) (room : Nat → Bool) (s : Kernel fb) : Option (Kernel fb) :=
  match s.calls.find? fun c => c.pid == pid with
  | some ⟨_,serial,some (id,backBuffer)⟩ =>
    let b := s.buffers serial
    let base := s.compositor.windowBufferUserBase id
    let mapped := { s with calls := s.calls.map fun c => if c.pid = pid then { c with request := none } else c }
    if b.byteCount > s.compositor.maxWindowBufferBytes then some mapped
    else
      some { mapped with
        layouts := Function.update s.layouts pid ((s.layouts pid).map
          (mapWindowBuffer base (base + s.compositor.maxWindowBufferBytes) (b.pageCount * pageSize)
            (heapFrames backBuffer serial b.pageCount) (heapFrames b.frontBuffer serial b.pageCount) room)) }
  | _ => none

/-- The call is over and its Arc goes. -/
def returnFrom (pid : Nat) (s : Kernel fb) : Option (Kernel fb) :=
  match s.calls.find? fun c => c.pid == pid with
  | some ⟨_,serial,none⟩ => some ({ s with calls := s.calls.filter fun c => c.pid ≠ pid }.release serial)
  | _ => none

end Kernel

/-- Room is what mapSpecificFrame finds for a page. Exit is the start of a process's end, freeAddressSpace
its rest. Alloc and dealloc are those of the rest of the kernel. -/
inductive WindowAction where
  | createWindow (pid width height : Nat) (page : Bool) (room : Nat → Bool)
  | destroyWindow (id : Nat)
  | lookUp (pid id : Nat)
  | mapBuffers (pid : Nat) (room : Nat → Bool)
  | returnFrom (pid : Nat)
  | trySwap (id : Nat)
  | exit (pid : Nat)
  | freeAddressSpace (pid : Nat)
  | alloc (layout : Layout)
  | dealloc (p : Nat) (layout : Layout)

/-- Everything that holds the lock of the compositor is one step. -/
def step {fb : FallbackHeap} : WindowAction → Kernel fb → Option (Kernel fb)
  | .createWindow pid width height page room, s => if s.running pid then s.createWindow pid width height page room else none
  | .destroyWindow id, s => some (s.destroyWindow id)
  | .lookUp pid id, s => if s.running pid then some (s.lookUp pid id) else none
  | .mapBuffers pid room, s => s.mapBuffers pid room
  | .returnFrom pid, s => s.returnFrom pid
  | .trySwap id, s => (s.compositor.windows[id]?).map fun w =>
    { s with buffers := Function.update s.buffers w.buffer (s.buffers w.buffer).swap }
  | .exit pid, s => if s.running pid then some { s.destroyWindowsOfProcess pid with exiting := pid :: s.exiting } else none
  | .freeAddressSpace pid, s =>
    if s.exiting.contains pid then some { s with layouts := Function.update s.layouts pid none } else none
  | .alloc layout, s =>
    match s.heap.alloc layout with
    | some (p,heap) => some { s with heap, live := ⟨(p,layout),none⟩ :: s.live }
    | none => some s
  | .dealloc p layout, s =>
    if ⟨(p,layout),none⟩ ∈ s.live then
      some { s with heap := s.heap.dealloc p layout, live := s.live.erase ⟨(p,layout),none⟩ }
    else none

end MofuOS.Graphics.Windows
