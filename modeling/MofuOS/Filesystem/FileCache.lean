import MofuOS.Filesystem.Types
import MofuOS.Lib.Arena
import MofuOS.Lib.FiniteMap
import Mathlib.Data.List.Sort

/-! The write-back cache of filesystem/file_cache.rs: files of any length packed
into one arena, moved by compaction and dropped by eviction. -/
namespace MofuOS.Filesystem
open Lib

/-- The cache's view of the driver below it. A read fills a prefix of the buffer
it is given and returns that prefix's length. -/
class CacheFilesystemDriver (D : Type) where
  readFileInto : FileNodeHandle → List UInt8 → D → Outcome (Except FileSystemError Nat × List UInt8 × D)
  writeFile : FileNodeHandle → Nat → List UInt8 → FsProg D Nat
  fileSize : FileNodeHandle → FsProg D Nat
  getNode : FileNodeHandle → FsProg D FileNode
  readFileInto_length : ∀ {h out d r out' d'}, readFileInto h out d = .ok (r,out',d') → out'.length = out.length
  readFileInto_le : ∀ {h out d n out' d'}, readFileInto h out d = .ok (.ok n,out',d') → n ≤ out.length
  fileSize_lt : ∀ {h d n d'}, fileSize h d = .ok (.ok n,d') → n < usizeBound

inductive CacheImportance where
  | minimal
  | low
  | normal
  | high
  | veryHigh
  | critical
  | resident
  deriving DecidableEq, Repr

def u64Max : Nat := 2^64 - 1

def CacheImportance.evictionPriority : CacheImportance → Nat
  | .minimal => 0
  | .low => 1
  | .normal => 2
  | .high => 3
  | .veryHigh => 4
  | .critical => 5
  | .resident => u64Max

structure CachedFile where
  arenaOffset : Nat
  len : Nat
  lastAccess : UInt64
  isDirty : Bool
  pinned : Bool
  importance : CacheImportance
  deriving DecidableEq, Repr

def CachedFile.new (arenaOffset len : Nat) (tick : UInt64) (importance : CacheImportance) : CachedFile :=
  ⟨arenaOffset,len,tick,false,false,importance⟩

/-- The part of the arena a cached file owns. -/
def CachedFile.region (f : CachedFile) : Region := ⟨f.arenaOffset,f.len⟩

/-- What happened to a file's bytes, in order. -/
inductive CacheEvent where
  | wrote (id : FileNodeHandle) (bytes : List UInt8)
  | dropped (id : FileNodeHandle) (dirty : Bool) (bytes : List UInt8)
  deriving DecidableEq, Repr

/-- The state of the cache. The trace is not in the source: it records the
whole-file writes that succeeded and the files that left the map. -/
structure FileCache (M : Type → Type) (D : Type) where
  driver : D
  arena : List UInt8
  arenaPushOffset : Nat
  currentMemoryUsed : Nat
  maxMemory : Nat
  accessTick : UInt64
  files : M CachedFile
  fileNodes : M FileNode
  directoryChildren : M (List FileNodeHandle)
  directoryHints : M CacheImportance
  trace : List CacheEvent

namespace FileCache
variable {M : Type → Type} [FiniteMap FileNodeHandle M] {D : Type}
open FiniteMap (get insert remove iter modify)
open Prog (liftO)

/-- A cache that holds nothing. -/
def empty (driver : D) (maxMemory : Nat) : FileCache M D where
  driver := driver
  arena := List.replicate maxMemory 0
  arenaPushOffset := 0
  currentMemoryUsed := 0
  maxMemory := maxMemory
  accessTick := 0
  files := FiniteMap.empty
  fileNodes := FiniteMap.empty
  directoryChildren := FiniteMap.empty
  directoryHints := FiniteMap.empty
  trace := []

/-- Vec::with_capacity panics past isize::MAX bytes. -/
def new (driver : D) (maxMemory : Nat) : Outcome (FileCache M D) :=
  if maxMemory < 2^63 then .ok (empty driver maxMemory) else .error .panic

/-- The bytes of a cached file. -/
def bytesOf (s : FileCache M D) (f : CachedFile) : List UInt8 := slice s.arena f.arenaOffset f.len

def callDriver {α : Type} (x : FsProg D α) : FsProg (FileCache M D) α := fun s =>
  match x s.driver with
  | .ok (r,d) => .ok (r,{ s with driver := d })
  | .error w => .error w

/-- arena[a..b].fill(0) -/
def fillZero (p : Profile) (a n : Nat) : FsProg (FileCache M D) Unit := do
  let s ← Prog.get
  let b ← liftO (usizeAdd p a n)
  liftO (checkRange a b s.arena.length)
  Prog.set { s with arena := overwrite s.arena a (List.replicate (b - a) 0) }

/-- arena.copy_within(src..src + n, dest) -/
def copyWithin (p : Profile) (src n dest : Nat) : FsProg (FileCache M D) Unit := do
  let s ← Prog.get
  let b ← liftO (usizeAdd p src n)
  liftO (checkRange src b s.arena.length)
  liftO (checkRange dest (dest + (b - src)) s.arena.length)
  Prog.set { s with arena := overwrite s.arena dest (slice s.arena src (b - src)) }

/-- &arena[a..a + n] -/
def arenaSlice (p : Profile) (a n : Nat) : FsProg (FileCache M D) (List UInt8) := do
  let s ← Prog.get
  let b ← liftO (usizeAdd p a n)
  liftO (checkRange a b s.arena.length)
  pure (slice s.arena a (b - a))

/-- arena[a..a + data.len()].copy_from_slice(data) -/
def copyFromSlice (p : Profile) (a : Nat) (data : List UInt8) : FsProg (FileCache M D) Unit := do
  let s ← Prog.get
  let b ← liftO (usizeAdd p a data.length)
  liftO (checkRange a b s.arena.length)
  Prog.set { s with arena := overwrite s.arena a data }

def arenaPushAlloc (p : Profile) (len : Nat) : FsProg (FileCache M D) (Option Nat) := do
  let s ← Prog.get
  let top ← liftO (usizeAdd p s.arenaPushOffset len)
  if top ≤ s.maxMemory then
    Prog.set { s with arenaPushOffset := top }
    pure (some s.arenaPushOffset)
  else pure none

/-- What compact sorts by. -/
def liveKey (sortLast : FileNodeHandle) (e : FileNodeHandle × Nat × Nat) : Nat :=
  if e.1 ≠ sortLast then e.2.1 else usizeMax

/-- The cached files as compact visits them: stably sorted by offset, sort_last at the end. -/
def liveSorted (files : M CachedFile) (sortLast : FileNodeHandle) : List (FileNodeHandle × Nat × Nat) :=
  ((iter files).map fun e => (e.1,e.2.arenaOffset,e.2.len)).insertionSort fun a b => liveKey sortLast a ≤ liveKey sortLast b

def compactLoop (p : Profile) : List (FileNodeHandle × Nat × Nat) → Nat → FsProg (FileCache M D) Unit
  | [], writeOffset => Prog.modify fun s => { s with arenaPushOffset := writeOffset }
  | (id,oldOffset,len) :: live, writeOffset => do
    if oldOffset ≠ writeOffset then
      copyWithin p oldOffset len writeOffset
      Prog.modify fun s => { s with files := modify s.files id fun f => { f with arenaOffset := writeOffset } }
    let next ← liftO (usizeAdd p writeOffset len)
    compactLoop p live next

def compact (p : Profile) (sortLast : FileNodeHandle) : FsProg (FileCache M D) Unit := do
  let s ← Prog.get
  compactLoop p (liveSorted s.files sortLast) 0

def age (now lastAccess : UInt64) : Nat := max (now - lastAccess).toNat 1

def saturatingMul (a b : Nat) : Nat := min (a * b) u64Max

/-- The scan of evict_one_keep_alive: the best score so far and its file. -/
def pickVictim (tick : UInt64) (keep : FileNodeHandle) (force : Bool) :
    List (FileNodeHandle × CachedFile) → Nat × FileNodeHandle → Nat × FileNodeHandle
  | [], best => best
  | (id,f) :: rest, best =>
    if (f.pinned && !force) || id == keep then pickVictim tick keep force rest best
    else
      let priority := f.importance.evictionPriority
      if priority == u64Max && !force then pickVictim tick keep force rest best
      else
        let score := saturatingMul priority (age tick f.lastAccess)
        if score > best.1 then pickVictim tick keep force rest (score,id)
        else pickVictim tick keep force rest best

variable [CacheFilesystemDriver D]

/-- driver.write_file(id, 0, bytes), recorded when it succeeds. -/
def writeBack (p : Profile) (id : FileNodeHandle) (f : CachedFile) : FsProg (FileCache M D) Nat := do
  let bytes ← arenaSlice p f.arenaOffset f.len
  let n ← callDriver (CacheFilesystemDriver.writeFile id 0 bytes)
  Prog.modify fun s => { s with trace := s.trace ++ [.wrote id bytes] }
  pure n

/-- files.remove(id), recorded. -/
def removeFile (id : FileNodeHandle) (f : CachedFile) : FsProg (FileCache M D) Unit :=
  Prog.modify fun s => { s with
    files := remove s.files id
    trace := s.trace ++ [.dropped id f.isDirty (s.bytesOf f)] }

/-- Returns the size of the evicted file, 0 if none was. -/
def evictOneKeepAlive (p : Profile) (fileToKeep : FileNodeHandle) (forceEviction : Bool) :
    FsProg (FileCache M D) Nat := do
  let s ← Prog.get
  let bestId := (pickVictim s.accessTick fileToKeep forceEviction (iter s.files) (0,invalidNodeHandle)).2
  if bestId = invalidNodeHandle then pure 0
  else
    match get s.files bestId with
    | none => pure 0
    | some cached => do
      let flushed ← Prog.attempt (if cached.isDirty then writeBack p bestId cached else pure 0)
      match flushed with
      | .error _ => pure 0
      | .ok _ => do
        removeFile bestId cached
        let s ← Prog.get
        let used ← liftO (usizeSub p s.currentMemoryUsed cached.len)
        Prog.set { s with currentMemoryUsed := used }
        pure cached.len

def ensureSpaceLoop (p : Profile) (needed : Nat) (fileToEnd : FileNodeHandle) (forceEviction : Bool) :
    Nat → FsProg (FileCache M D) Bool
  | 0 => Prog.fault .diverge
  | fuel+1 => do
    let s ← Prog.get
    let top ← liftO (usizeAdd p s.arenaPushOffset needed)
    if top > s.maxMemory then do
      let evicted ← evictOneKeepAlive p fileToEnd forceEviction
      if evicted ≠ 0 then do
        let s ← Prog.get
        let sum ← liftO (usizeAdd p s.currentMemoryUsed needed)
        let rest ← liftO (usizeSub p sum evicted)
        if rest ≤ s.maxMemory then compact p fileToEnd
        ensureSpaceLoop p needed fileToEnd forceEviction fuel
      else pure false
    else pure true

/-- Every pass of the loop removes a file or ends, so one pass more than there
are files is never used up. -/
def ensureSpace (p : Profile) (needed : Nat) (fileToEnd : FileNodeHandle) (forceEviction : Bool) :
    FsProg (FileCache M D) Bool := do
  let s ← Prog.get
  ensureSpaceLoop p needed fileToEnd forceEviction ((iter s.files).length + 1)

def getEffectiveImportance (s : FileCache M D) (id : FileNodeHandle) : CacheImportance :=
  (get s.directoryHints id).getD .normal

/-- driver.read_file_into(id, &mut arena[off..off + size]) -/
def loadInto (p : Profile) (id : FileNodeHandle) (off size : Nat) : FsProg (FileCache M D) Nat := do
  let out ← arenaSlice p off size
  fun s =>
    match CacheFilesystemDriver.readFileInto id out s.driver with
    | .ok (r,out',d) => .ok (r,{ s with driver := d, arena := overwrite s.arena off out' })
    | .error w => .error w

/-- files.insert(id, CachedFile::new(..)) at the current tick -/
def insertFile (id : FileNodeHandle) (off len : Nat) : FsProg (FileCache M D) Unit :=
  Prog.modify fun s => { s with
    files := insert s.files id (CachedFile.new off len s.accessTick (s.getEffectiveImportance id)) }

def bumpTick : FsProg (FileCache M D) Unit := Prog.modify fun s => { s with accessTick := s.accessTick + 1 }

/-- The miss path of read_file_range after the size is known to be positive. -/
def readMiss (p : Profile) (id : FileNodeHandle) (offset outLen fileSize : Nat) :
    FsProg (FileCache M D) (List UInt8) := do
  let room ← ensureSpace p fileSize invalidNodeHandle true
  if !room then Prog.fail .cacheFull
  else
    match ← arenaPushAlloc p fileSize with
    | none => do
      -- the bypass read into a temporary buffer
      let out ← fun s =>
        match CacheFilesystemDriver.readFileInto id (List.replicate fileSize 0) s.driver with
        | .ok (.ok n,out,d) => .ok (.ok (n,out),{ s with driver := d })
        | .ok (.error e,_,d) => .ok (.error e,{ s with driver := d })
        | .error w => .error w
      let last := min outLen (out.1 - offset)
      pure (slice out.2 offset last)
    | some off => do
      let readBytes ← loadInto p id off fileSize
      insertFile id off readBytes
      let node ← callDriver (CacheFilesystemDriver.getNode id)
      Prog.modify fun s => { s with fileNodes := insert s.fileNodes id node }
      let s ← Prog.get
      let used ← liftO (usizeAdd p s.currentMemoryUsed readBytes)
      Prog.set { s with currentMemoryUsed := used }
      if offset ≥ readBytes then pure []
      else arenaSlice p (off + offset) (min outLen (readBytes - offset))

/-- Returns the bytes copied to the front of a buffer of length outLen. -/
def readFileRange (p : Profile) (id : FileNodeHandle) (offset outLen : Nat) :
    FsProg (FileCache M D) (List UInt8) := do
  bumpTick
  let s ← Prog.get
  match get s.files id with
  | some cached => do
    Prog.set { s with files := modify s.files id fun f => { f with lastAccess := s.accessTick } }
    if offset ≥ cached.len then pure []
    else do
      let srcOff ← liftO (usizeAdd p cached.arenaOffset offset)
      arenaSlice p srcOff (min outLen (cached.len - offset))
  | none => do
    let fileSize ← callDriver (CacheFilesystemDriver.fileSize id)
    if fileSize = 0 then pure []
    else readMiss p id offset outLen fileSize

/-- The side-table update of the write miss paths: an existing node is assigned to itself. -/
def rememberNode (id : FileNodeHandle) : FsProg (FileCache M D) Unit := do
  let node ← callDriver (CacheFilesystemDriver.getNode id)
  Prog.modify fun s => { s with
    fileNodes := match get s.fileNodes id with
      | some _ => s.fileNodes
      | none => insert s.fileNodes id node }

/-- The write miss of a file that has bytes on disk. -/
def loadMissing (p : Profile) (id : FileNodeHandle) (fileSize : Nat) : FsProg (FileCache M D) Unit := do
  let room ← ensureSpace p fileSize invalidNodeHandle true
  if !room then Prog.fail .cacheFull
  else
    match ← arenaPushAlloc p fileSize with
    | none => pure ()
    | some off => do
      let read ← loadInto p id off fileSize
      insertFile id off read
      rememberNode id
      let s ← Prog.get
      let used ← liftO (usizeAdd p s.currentMemoryUsed read)
      Prog.set { s with currentMemoryUsed := used }

/-- The write miss of a new or empty file: room for the incoming write. -/
def createMissing (p : Profile) (id : FileNodeHandle) (offset dataLen : Nat) : FsProg (FileCache M D) Unit := do
  let needed ← liftO (usizeAdd p offset dataLen)
  let room ← ensureSpace p needed invalidNodeHandle true
  if !room then Prog.fail .cacheFull
  else
    match ← arenaPushAlloc p needed with
    | none => pure ()
    | some off => do
      fillZero p off needed
      insertFile id off 0
      rememberNode id

/-- The part of write_file that brings the file into the cache. -/
def writeMiss (p : Profile) (id : FileNodeHandle) (offset dataLen : Nat) : FsProg (FileCache M D) Unit := do
  let size ← Prog.attempt (callDriver (CacheFilesystemDriver.fileSize id))
  let fileSize := match size with
    | .ok n => n
    | .error _ => 0
  if fileSize > 0 then loadMissing p id fileSize
  else createMissing p id offset dataLen

def setLen (id : FileNodeHandle) (newLen : Nat) : FsProg (FileCache M D) Unit :=
  Prog.modify fun s => { s with files := modify s.files id fun f => { f with len := newLen } }

/-- arena_push_offset += a; current_memory_used += b -/
def pushAndUse (p : Profile) (a b : Nat) : FsProg (FileCache M D) Unit := do
  let s ← Prog.get
  let top ← liftO (usizeAdd p s.arenaPushOffset a)
  let used ← liftO (usizeAdd p s.currentMemoryUsed b)
  Prog.set { s with arenaPushOffset := top, currentMemoryUsed := used }

/-- The zero-filled extension at the tail that two growth branches share. -/
def extendAtTail (p : Profile) (id : FileNodeHandle) (extra newLen : Nat) : FsProg (FileCache M D) Unit := do
  let s ← Prog.get
  fillZero p s.arenaPushOffset extra
  pushAndUse p extra extra
  setLen id newLen

/-- The branch that copies the file to the tail, where there is room for all of it. -/
def growByCopying (p : Profile) (id : FileNodeHandle) (file : CachedFile) (newLen : Nat) :
    FsProg (FileCache M D) Unit := do
  let s ← Prog.get
  let extra := newLen - file.len
  let newOff := s.arenaPushOffset
  copyWithin p file.arenaOffset file.len newOff
  fillZero p (newOff + file.len) extra
  pushAndUse p newLen extra
  Prog.modify fun s => { s with
    files := modify s.files id fun f => { f with arenaOffset := newOff, len := newLen } }

/-- The branch that relies on a compaction to bring the file to the tail. -/
def growByCompacting (p : Profile) (id : FileNodeHandle) (extra newLen : Nat) : FsProg (FileCache M D) Unit := do
  let room ← ensureSpace p extra id true
  if !room then Prog.fail .cacheFull
  else do
    let s ← Prog.get
    let top ← liftO (usizeAdd p s.arenaPushOffset extra)
    if top ≤ s.maxMemory then
      match get s.files id with
      | some f => do
        let fileEnd ← liftO (usizeAdd p f.arenaOffset f.len)
        liftO (debugAssert p (fileEnd == s.arenaPushOffset))
        extendAtTail p id extra newLen
      | none => pure ()

/-- The growth branches of write_file, for a cached file shorter than newLen. -/
def growFile (p : Profile) (id : FileNodeHandle) (file : CachedFile) (newLen : Nat) :
    FsProg (FileCache M D) Unit := do
  let s ← Prog.get
  let extra := newLen - file.len
  let fileEnd ← liftO (usizeAdd p file.arenaOffset file.len)
  -- the right operand of && is evaluated at the tail only
  let tailFits ← liftO (if fileEnd = s.arenaPushOffset then
      (usizeAdd p s.arenaPushOffset extra).map fun top => decide (top ≤ s.maxMemory)
    else .ok false)
  if tailFits then extendAtTail p id extra newLen
  else if (← liftO (usizeSub p s.maxMemory s.arenaPushOffset)) ≥ newLen then growByCopying p id file newLen
  else growByCompacting p id extra newLen

/-- The last part of write_file: copy the data, mark the file dirty, refresh its node. -/
def patchFile (p : Profile) (now : UInt32) (id : FileNodeHandle) (offset : Nat) (data : List UInt8)
    (writeEnd : Nat) : FsProg (FileCache M D) Nat := do
  let s ← Prog.get
  match get s.files id with
  | none => Prog.fail .ioError
  | some file => do
    let dstOff ← liftO (usizeAdd p file.arenaOffset offset)
    copyFromSlice p dstOff data
    if writeEnd > file.len then do
      let s ← Prog.get
      let used ← liftO (usizeAdd p s.currentMemoryUsed (writeEnd - file.len))
      Prog.set { s with currentMemoryUsed := used }
    let newLen := max file.len writeEnd
    Prog.modify fun s => { s with files := modify s.files id fun f =>
      { f with len := newLen, isDirty := true, lastAccess := s.accessTick } }
    let node ← callDriver (CacheFilesystemDriver.getNode id)
    Prog.modify fun s => { s with
      fileNodes := match get s.fileNodes id with
        | some old => insert s.fileNodes id { old with size := newLen, modifiedTime := now }
        | none => insert s.fileNodes id node }
    pure data.length

/-- The part of write_file from the point where the file should be cached. -/
def writeCached (p : Profile) (now : UInt32) (id : FileNodeHandle) (offset : Nat) (data : List UInt8) :
    FsProg (FileCache M D) Nat := do
  let writeEnd ← liftO (usizeAdd p offset data.length)
  let s ← Prog.get
  match get s.files id with
  | none => Prog.fail .fileNotFound
  | some file => do
    if file.len < writeEnd then growFile p id file writeEnd
    patchFile p now id offset data writeEnd

/-- now is the reading of the time stamp counter. -/
def writeFile (p : Profile) (now : UInt32) (id : FileNodeHandle) (offset : Nat) (data : List UInt8) :
    FsProg (FileCache M D) Nat := do
  bumpTick
  let s ← Prog.get
  if (get s.files id).isNone then writeMiss p id offset data.length
  writeCached p now id offset data

def getNodeCached (id : FileNodeHandle) : FsProg (FileCache M D) FileNode := do
  let s ← Prog.get
  match get s.fileNodes id with
  | some node => pure node
  | none => do
    let node ← callDriver (CacheFilesystemDriver.getNode id)
    Prog.modify fun s => { s with fileNodes := insert s.fileNodes id node }
    pure node

/-- The body shared by the three flush loops. -/
def flushFile (p : Profile) (id : FileNodeHandle) : FsProg (FileCache M D) Unit := do
  let s ← Prog.get
  match get s.files id with
  | none => pure ()
  | some cached =>
    if cached.isDirty then do
      let _ ← writeBack p id cached
      Prog.modify fun s => { s with files := modify s.files id fun f => { f with isDirty := false } }
    else pure ()

def flushNodes (p : Profile) : List FileNodeHandle → FsProg (FileCache M D) Unit
  | [] => pure ()
  | id :: ids => do
    flushFile p id
    flushNodes p ids

def flushAll (p : Profile) : FsProg (FileCache M D) Unit := do
  let s ← Prog.get
  flushNodes p (((iter s.files).filter fun e => e.2.isDirty).map Prod.fst)

def pinFile (p : Profile) (id : FileNodeHandle) : FsProg (FileCache M D) Unit := do
  let s ← Prog.get
  if (get s.files id).isNone then do
    let fileSize ← callDriver (CacheFilesystemDriver.fileSize id)
    if fileSize > 0 then do
      let _ ← readFileRange p id 0 0
  Prog.modify fun s => { s with files := modify s.files id fun f =>
    { f with pinned := true, importance := .resident } }

def unpinFile (id : FileNodeHandle) : FsProg (FileCache M D) Unit :=
  Prog.modify fun s => { s with files := modify s.files id fun f =>
    { f with pinned := false, importance := .normal } }

def reserveCache (id : FileNodeHandle) (importance : CacheImportance) : FsProg (FileCache M D) Unit :=
  Prog.modify fun s => { s with
    directoryHints := insert s.directoryHints id importance
    files := ((get s.directoryChildren id).getD []).foldl (fun files child =>
      modify files child fun f => if f.pinned then f else { f with importance := importance }) s.files }

def evictChildren (p : Profile) : List FileNodeHandle → Nat → FsProg (FileCache M D) Nat
  | [], freed => pure freed
  | child :: children, freed => do
    let s ← Prog.get
    match get s.files child with
    | none => evictChildren p children freed
    | some cached =>
      if cached.pinned then evictChildren p children freed
      else do
        let freed ← liftO (usizeAdd p freed cached.len)
        removeFile child cached
        let s ← Prog.get
        let used ← liftO (usizeSub p s.currentMemoryUsed freed)
        Prog.set { s with currentMemoryUsed := used }
        evictChildren p children freed

def evictDirectory (p : Profile) (id : FileNodeHandle) : FsProg (FileCache M D) Nat := do
  let s ← Prog.get
  let children := (get s.directoryChildren id).getD []
  Prog.set { s with directoryChildren := remove s.directoryChildren id }
  let freed ← evictChildren p children 0
  Prog.modify fun s => { s with directoryHints := remove s.directoryHints id }
  pure freed

def registerFileInDirectory (dir file : FileNodeHandle) : FsProg (FileCache M D) Unit :=
  Prog.modify fun s => { s with
    directoryChildren := insert s.directoryChildren dir ((get s.directoryChildren dir).getD [] ++ [file]) }

def invalidate (p : Profile) (id : FileNodeHandle) : FsProg (FileCache M D) Unit := do
  let s ← Prog.get
  match get s.files id with
  | some cached => do
    removeFile id cached
    let s ← Prog.get
    let used ← liftO (usizeSub p s.currentMemoryUsed cached.len)
    Prog.set { s with currentMemoryUsed := used }
  | none => pure ()
  Prog.modify fun s => { s with fileNodes := remove s.fileNodes id }

def clear : FsProg (FileCache M D) Unit :=
  Prog.modify fun s => { s with
    files := FiniteMap.empty
    directoryChildren := FiniteMap.empty
    directoryHints := FiniteMap.empty
    currentMemoryUsed := 0
    arenaPushOffset := 0
    trace := s.trace ++ (iter s.files).map fun e => .dropped e.1 e.2.isDirty (s.bytesOf e.2) }

end FileCache
end MofuOS.Filesystem
