import MofuOS.Filesystem.Fat32.Volume
import MofuOS.Io.Disk

/-! The FAT32 driver of fat32/mod.rs over a disk. A loop of the source is a recursion
whose fuel bounds its rounds; running out of it stands for a loop that does not end. -/
namespace MofuOS.Filesystem.Fat32
open Lib Io
open Prog (liftO)

def emptyFatEntry : Nat := 0
def endOfChain : Nat := 0x0FFFFFFF
def badCluster : Nat := 0x0FFFFFF7
def fatEntryReservedBegin : Nat := 0x0FFFFFF8
def fatEntryReservedEnd : Nat := 0x0FFFFFFE

def zeroBuffer : List UInt8 := List.replicate 4096 0

def isValidFilename (name : List Char) : Bool :=
  if name.isEmpty || name.head? == some '.' then false
  else match splitLastDot name with
    | some (stem,ext) => (utf8 stem).length ≤ maxNameLength && (utf8 ext).length ≤ maxExtLength
    | none => (utf8 name).length ≤ maxNameLength

/-- A char uppercased in ASCII and cut to its low byte. -/
def charByte (c : Char) : UInt8 :=
  if 'a' ≤ c ∧ c ≤ 'z' then UInt8.ofNat (c.toNat - 32) else UInt8.ofNat c.toNat

/-- The 11 bytes a path component is looked up by. -/
def toFat32Name (name : List Char) : Except FileSystemError (List UInt8) :=
  if !isValidFilename name then .error .invalidFilename
  else
    let (stem,ext) := (splitLastDot name).getD (name,[])
    if maxNameLength < (utf8 stem).length then .error .invalidFilename
    else if maxExtLength < (utf8 ext).length then .error .invalidFilename
    else .ok ((padded 8 (stem.map charByte)).toList ++ (padded 3 (ext.map charByte)).toList)

/-- The components of a path. -/
def pathParts (path : List Char) : List (List Char) := (path.splitOn '/').filter fun part => !part.isEmpty

namespace Fat32Driver
variable (drv : Fat32Driver)

def clusterToSector (cluster : Nat) : Nat :=
  if 2 ≤ cluster then drv.dataStartSector + (cluster - 2) * drv.sectorsPerCluster else drv.rootStartSector

def readFatEntry (cluster : Nat) : FsProg Disk Nat := do
  let bytesPerSector ← liftO (divisor drv.bootSector.bytesPerSector)
  let offsetInSector := cluster * 4 % bytesPerSector
  let buffer ← Disk.readSector (drv.fatStartSector + cluster * 4 / bytesPerSector) bytesPerSector
  let _ ← liftO (checkRange offsetInSector (offsetInSector + 4) buffer.length)
  pure (leNat (slice buffer offsetInSector 4) &&& 0x0FFFFFFF)

def writeFatEntry (cluster value : Nat) : FsProg Disk Unit := do
  let bytesPerSector ← liftO (divisor drv.bootSector.bytesPerSector)
  let offsetInSector := cluster * 4 % bytesPerSector
  let fatSector := drv.fatStartSector + cluster * 4 / bytesPerSector
  let buffer ← Disk.readSector fatSector bytesPerSector
  let _ ← liftO (checkRange offsetInSector (offsetInSector + 4) buffer.length)
  let existing := leNat (slice buffer offsetInSector 4)
  let newEntry := (existing &&& 0xF0000000) ||| (value &&& 0x0FFFFFFF)
  Disk.writeSector fatSector (overwrite buffer offsetInSector (leBytes 4 newEntry))

/-- A free entry counts as a link to cluster 0. -/
def getNextCluster (cluster : Nat) : FsProg Disk (Option Nat) :=
  if cluster = 0 then pure none
  else do
    let fatEntry ← readFatEntry drv cluster
    if fatEntry = endOfChain then pure none
    else if fatEntry = badCluster then Prog.fail .diskOpError
    else if fatEntryReservedBegin ≤ fatEntry ∧ fatEntry ≤ fatEntryReservedEnd then pure none
    else pure (some fatEntry)

/-- The clusters that chain walks visit. -/
def inVolume (cluster : Nat) : Bool := rootCluster ≤ cluster && cluster < drv.maxCluster

def readClusterChainFrom : Nat → Nat → Nat → FsProg Disk (List UInt8)
  | 0, _, _ => Prog.fault .diverge
  | fuel + 1, curr, remaining =>
    if 0 < remaining ∧ curr < drv.maxCluster then do
      let bytesToRead := min drv.clusterSize remaining
      let buffer ← Disk.readSectors (clusterToSector drv curr) drv.sectorsPerCluster drv.clusterSize
      match ← getNextCluster drv curr with
      | some next =>
        let rest ← readClusterChainFrom fuel next (remaining - bytesToRead)
        pure (buffer.take bytesToRead ++ rest)
      | none => pure (buffer.take bytesToRead)
    else pure []

/-- The bytes read into the front of a buffer of outLen bytes. -/
def readClusterChain (startCluster outLen : Nat) : FsProg Disk (List UInt8) :=
  readClusterChainFrom drv (outLen + 1) startCluster outLen

def clusterChainLengthFrom : Nat → Nat → FsProg Disk Nat
  | 0, _ => Prog.fault .diverge
  | fuel + 1, curr =>
    if inVolume drv curr then do
      match ← getNextCluster drv curr with
      | some next =>
        let n ← clusterChainLengthFrom fuel next
        pure (n + 1)
      | none => pure 1
    else pure 0

/-- A walk that is still inside the volume after maxCluster rounds repeats itself for ever. -/
def getClusterChainLength (startCluster : Nat) : FsProg Disk Nat :=
  clusterChainLengthFrom drv (drv.maxCluster + 1) startCluster

def findFreeClusterIn : List Nat → FsProg Disk Nat
  | [] => Prog.fail .noSpace
  | cluster :: rest => do
    let fatEntry ← readFatEntry drv cluster
    if fatEntry = 0 then pure cluster else findFreeClusterIn rest

def findFreeCluster : FsProg Disk Nat :=
  findFreeClusterIn drv (List.range' rootCluster (drv.maxCluster - rootCluster))

def allocateMore : Nat → Nat → FsProg Disk Nat
  | prev, 0 => pure prev
  | prev, n + 1 => do
    let newCluster ← findFreeCluster drv
    let _ ← writeFatEntry drv prev newCluster
    allocateMore newCluster n

def allocateClusters (count : Nat) : FsProg Disk Nat :=
  if count = 0 then Prog.fault .panic
  else do
    let firstCluster ← findFreeCluster drv
    let lastCluster ← allocateMore drv firstCluster (count - 1)
    let _ ← writeFatEntry drv lastCluster endOfChain
    pure firstCluster

def clearSectors : Nat → Nat → FsProg Disk Unit
  | _, 0 => pure ()
  | sector, n + 1 => do
    let _ ← Disk.writeSector sector zeroBuffer
    clearSectors (sector + 1) n

def clearClusters : Nat → Nat → FsProg Disk Unit
  | _, 0 => pure ()
  | curr, n + 1 => do
    let _ ← clearSectors (clusterToSector drv curr) drv.sectorsPerCluster
    match ← getNextCluster drv curr with
    | some next => clearClusters next n
    | none => pure ()

/-- Decode slots up to the first one that was never used. -/
def parseEntries : Nat → List UInt8 → Outcome (List DirectoryEntry)
  | 0, _ => .ok []
  | n + 1, bytes => do
    let entry ← DirectoryEntry.fromBytes (bytes.take directoryEntrySize)
    if entry.isEmpty then .ok []
    else
      let entries ← parseEntries n (bytes.drop directoryEntrySize)
      .ok (entry :: entries)

/-- Deleted slots, volume labels and the dot entries are all listed. -/
def readDirectoryEntries (startCluster : Nat) : FsProg Disk (List DirectoryEntry) := do
  let clusterCount ← getClusterChainLength drv startCluster
  let buffer ← readClusterChain drv startCluster (clusterCount * drv.clusterSize)
  liftO (parseEntries (buffer.length / directoryEntrySize) buffer)

def findEntryByCluster (parentCluster targetCluster : Nat) : FsProg Disk DirectoryEntry := do
  let entries ← readDirectoryEntries drv parentCluster
  match entries.find? fun e => e.getFirstCluster == targetCluster with
  | some entry => pure entry
  | none => Prog.fail .notFound

/-- The entry of the last component and the cluster of the directory it is in. -/
def findDirentryFrom : List (List Char) → Nat → FsProg Disk (DirectoryEntry × Nat)
  | [], _ => Prog.fault .panic
  | part :: parts, curr =>
    match toFat32Name part with
    | .error e => Prog.fail e
    | .ok name => do
      let entries ← readDirectoryEntries drv curr
      match entries.find? fun e => !e.isDeleted && e.fullNameMatches name with
      | none => Prog.fail .notFound
      | some entry =>
        if parts.isEmpty then pure (entry,curr)
        else if !entry.isDirectory then Prog.fail .notDirectory
        else findDirentryFrom parts entry.getFirstCluster

def findDirentry (path : List Char) : FsProg Disk (DirectoryEntry × Nat) :=
  if (pathParts path).isEmpty then pure (drv.rootDirentry,drv.bootSector.rootCluster)
  else findDirentryFrom drv (pathParts path) drv.bootSector.rootCluster

def writeClusterChainFrom : Nat → Nat → List UInt8 → FsProg Disk Unit
  | 0, _, _ => Prog.fault .diverge
  | fuel + 1, curr, buffer =>
    if 0 < buffer.length ∧ curr < drv.maxCluster then do
      let _ ← Disk.writeSectors (clusterToSector drv curr) drv.sectorsPerCluster (buffer.take drv.clusterSize)
      match ← getNextCluster drv curr with
      | some next => writeClusterChainFrom fuel next (buffer.drop drv.clusterSize)
      | none => pure ()
    else pure ()

/-- One slot is rewritten by reading and writing back the whole directory. -/
def writeDirentry (dirCluster indexInDirectory : Nat) (entry : DirectoryEntry) : FsProg Disk Unit := do
  let clusterCount ← getClusterChainLength drv dirCluster
  let bytes ← readClusterChain drv dirCluster (clusterCount * drv.clusterSize)
  let entryOffset := indexInDirectory * directoryEntrySize
  if bytes.length < entryOffset + directoryEntrySize then Prog.fail .noSpace
  else
    let dirBuffer := overwrite (bytes ++ List.replicate (clusterCount * drv.clusterSize - bytes.length) 0)
      entryOffset entry.asBytes
    writeClusterChainFrom drv (dirBuffer.length + 1) dirCluster dirBuffer

def lastClusterFrom : Nat → Nat → FsProg Disk Nat
  | 0, _ => Prog.fault .diverge
  | fuel + 1, curr =>
    if inVolume drv curr then do
      match ← getNextCluster drv curr with
      | some next => lastClusterFrom fuel next
      | none => pure curr
    else pure curr

def expandDirectory (dirCluster currEntryCount : Nat) : FsProg Disk Nat := do
  let lastCluster ← lastClusterFrom drv (drv.maxCluster + 1) dirCluster
  let newCluster ← allocateClusters drv 1
  let _ ← clearClusters drv newCluster 1
  let _ ← writeFatEntry drv lastCluster newCluster
  let _ ← writeFatEntry drv newCluster endOfChain
  pure currEntryCount

def freeClusterChainFrom : Nat → Nat → FsProg Disk Unit
  | 0, _ => Prog.fault .diverge
  | fuel + 1, curr =>
    if inVolume drv curr then do
      match ← getNextCluster drv curr with
      | some next =>
        if !inVolume drv next then Prog.fault .panic
        else do
          let _ ← writeFatEntry drv curr emptyFatEntry
          freeClusterChainFrom fuel next
      | none => writeFatEntry drv curr emptyFatEntry
    else pure ()

def freeClusterChain (startCluster : Nat) : FsProg Disk Unit :=
  freeClusterChainFrom drv (drv.maxCluster + 1) startCluster

def findFreeSlotInDirectory (dirCluster : Nat) (entries : List DirectoryEntry) : FsProg Disk Nat :=
  match entries.findIdx? fun e => !e.isValid with
  | some i => pure i
  | none => expandDirectory drv dirCluster entries.length

def skipClusters : Nat → Nat → FsProg Disk (Option Nat)
  | 0, curr => pure (some curr)
  | n + 1, curr => do
    match ← getNextCluster drv curr with
    | some next => skipClusters n next
    | none => pure none

def readFrom : Nat → Nat → Nat → Nat → FsProg Disk (List UInt8)
  | 0, _, _, _ => Prog.fault .diverge
  | fuel + 1, curr, currentOffset, remaining =>
    if remaining = 0 then pure []
    else do
      let buffer ← Disk.readSectors (clusterToSector drv curr) drv.sectorsPerCluster drv.clusterSize
      let bytesFromCluster := min (drv.clusterSize - currentOffset) remaining
      let chunk := slice buffer currentOffset bytesFromCluster
      if bytesFromCluster < remaining then
        match ← getNextCluster drv curr with
        | some next =>
          let rest ← readFrom fuel next 0 (remaining - bytesFromCluster)
          pure (chunk ++ rest)
        | none => pure chunk
      else pure chunk

/-- The part of a read behind the lookup of the entry. -/
def readContents (cluster fileSize offset outLen : Nat) : FsProg Disk (List UInt8) :=
  if fileSize ≤ offset then pure []
  else do
    let clusterSize ← liftO (divisor drv.clusterSize)
    match ← skipClusters drv (offset / clusterSize) cluster with
    | none => pure []
    | some curr =>
      let maxToRead := min outLen (fileSize - offset)
      readFrom drv (maxToRead + 1) curr (offset % clusterSize) maxToRead

/-- The bytes put into the front of an out buffer of outLen bytes. -/
def readFile (nodeId : FileNodeHandle) (offset outLen : Nat) : FsProg Disk (List UInt8) :=
  let (cluster,parentCluster,attributes) := decodeNodeId nodeId
  if isDirectory attributes then Prog.fail .isDirectory
  else if cluster = 0 then Prog.fail .invalidPath
  else do
    let entry ← findEntryByCluster drv parentCluster cluster
    readContents drv cluster entry.fileSize.toNat offset outLen

/-- A fresh zeroed cluster is linked behind curr, the last one of its chain. -/
def appendCluster (curr : Nat) : FsProg Disk Nat := do
  let newCluster ← allocateClusters drv 1
  let _ ← clearClusters drv newCluster 1
  let _ ← writeFatEntry drv curr newCluster
  pure newCluster

def nextOrAppended (curr : Nat) : FsProg Disk Nat := do
  match ← getNextCluster drv curr with
  | some next => pure next
  | none => appendCluster drv curr

/-- Walk n clusters on, extending the chain where it ends. -/
def seekCluster : Nat → Nat → FsProg Disk Nat
  | 0, curr => pure curr
  | n + 1, curr => do
    let next ← nextOrAppended drv curr
    seekCluster n next

/-- The chunk goes into cluster curr: a part of a cluster is patched into what is there. -/
def writeRound (curr offsetInCluster : Nat) (chunk : List UInt8) : FsProg Disk Unit :=
  let sector := clusterToSector drv curr
  if offsetInCluster ≠ 0 ∨ chunk.length < drv.clusterSize then do
    let buffer ← Disk.readSectors sector drv.sectorsPerCluster drv.clusterSize
    Disk.writeSectors sector drv.sectorsPerCluster (overwrite buffer offsetInCluster chunk)
  else Disk.writeSectors sector drv.sectorsPerCluster chunk

def writeFrom : Nat → Nat → Nat → List UInt8 → FsProg Disk Unit
  | 0, _, _, _ => Prog.fault .diverge
  | fuel + 1, curr, offsetInCluster, data =>
    if data.isEmpty then pure ()
    else do
      let bytesToWrite := min (drv.clusterSize - offsetInCluster) data.length
      let _ ← writeRound drv curr offsetInCluster (data.take bytesToWrite)
      let rest := data.drop bytesToWrite
      if rest.isEmpty then pure ()
      else do
        let next ← nextOrAppended drv curr
        writeFrom fuel next 0 rest

/-- Put the data into the chain from cluster on, which grows as far as it has to. -/
def writeContents (cluster offset : Nat) (data : List UInt8) : FsProg Disk Unit := do
  let clusterSize ← liftO (divisor drv.clusterSize)
  let curr ← seekCluster drv (offset / clusterSize) cluster
  writeFrom drv (data.length + 1) curr (offset % clusterSize) data

/-- Where the file grew, its new end goes into the first live slot of the parent with its cluster. -/
def updateFileSize (parentCluster cluster : Nat) (entry : DirectoryEntry) (newEnd : Nat) : FsProg Disk Unit :=
  if entry.fileSize.toNat < newEnd then do
    let entries ← readDirectoryEntries drv parentCluster
    match entries.findIdx? fun e => !e.isDeleted && e.getFirstCluster == cluster with
    | none => Prog.fail .notFound
    | some entryIndex =>
      writeDirentry drv parentCluster entryIndex { entry with fileSize := UInt32.ofNat newEnd }
  else pure ()

def writeFile (p : Profile) (nodeId : FileNodeHandle) (offset : Nat) (data : ByteSlice) : FsProg Disk Nat :=
  if data.val.isEmpty then pure 0
  else
    let (cluster,parentCluster,attributes) := decodeNodeId nodeId
    if isDirectory attributes then Prog.fail .isDirectory
    else if cluster = 0 then Prog.fail .invalidPath
    else do
      let entry ← findEntryByCluster drv parentCluster cluster
      let newEnd ← liftO (usizeAdd p offset data.val.length)
      let _ ← writeContents drv cluster offset data
      let _ ← updateFileSize drv parentCluster cluster entry newEnd
      pure data.val.length

def nodeOf (nodeId : FileNodeHandle) (entry : DirectoryEntry) : FileNode where
  nodeId := nodeId
  name := entry.getFilename
  fileType := entry.getFileType
  size := entry.fileSize.toNat
  createdTime := entry.getCreationTimestamp
  modifiedTime := entry.getModifiedTimestamp
  attributes := fileAttributesFromFatAttributes entry.attributes

def getNode (nodeId : FileNodeHandle) : FsProg Disk FileNode :=
  let (cluster,parentCluster,_) := decodeNodeId nodeId
  if cluster ≠ rootCluster then do
    let entry ← findEntryByCluster drv parentCluster cluster
    pure (nodeOf nodeId entry)
  else pure drv.rootFilenode

def listDirectory (nodeId : FileNodeHandle) : FsProg Disk (List FileNode) :=
  let (dirCluster,_,attributes) := decodeNodeId nodeId
  if !isDirectory attributes then Prog.fail .notDirectory
  else do
    let entries ← readDirectoryEntries drv dirCluster
    pure ((entries.filter fun e => e.isValid && !e.isVolumeId).map fun e => nodeOf (encodeNodeId e dirCluster) e)

def findNode (path : List Char) : FsProg Disk FileNodeHandle := do
  let (entry,parentCluster) ← findDirentry drv path
  if entry.isDirectory && entry.fileSize != 0 then Prog.fault .panic
  else pure (encodeNodeId entry parentCluster)

/-- The checks of both creations, and the slot the new entry goes to. -/
def claimSlot (parentCluster : Nat) (name : List Char) : FsProg Disk Nat := do
  let entries ← readDirectoryEntries drv parentCluster
  if entries.any fun e => !e.isDeleted && e.getFilename == utf8 name then Prog.fail .fileExists
  else findFreeSlotInDirectory drv parentCluster entries

def newCleared : FsProg Disk Nat := do
  let newCluster ← allocateClusters drv 1
  let _ ← clearClusters drv newCluster 1
  pure newCluster

/-- The entry of a new file or directory. -/
def newEntry (name : List Char) (attributes : UInt8) (cluster : Nat) : Except FileSystemError DirectoryEntry := do
  let entry ← DirectoryEntry.createEmpty.setFilename name
  pure ({ entry with attributes }.setFirstCluster cluster)

def createFile (parentId : FileNodeHandle) (name : List Char) : FsProg Disk FileNodeHandle :=
  let (parentCluster,_,attrs) := decodeNodeId parentId
  if !isDirectory attrs then Prog.fail .notDirectory
  else if !isValidFilename name then Prog.fail .invalidFilename
  else do
    let freeSlotIndex ← claimSlot drv parentCluster name
    let newFileCluster ← newCleared drv
    match newEntry name FatFileAttributes.archive newFileCluster with
    | .error e => Prog.fail e
    | .ok entry =>
      let _ ← writeDirentry drv parentCluster freeSlotIndex entry
      pure (encodeNodeId entry parentCluster)

def createDirectory (parentId : FileNodeHandle) (name : List Char) : FsProg Disk FileNodeHandle :=
  let (parentCluster,_,attrs) := decodeNodeId parentId
  if !isDirectory attrs then Prog.fail .notDirectory
  else if !isValidFilename name then Prog.fail .invalidFilename
  else do
    let freeSlotIndex ← claimSlot drv parentCluster name
    let newDirCluster ← newCleared drv
    let _ ← writeDirentry drv newDirCluster 0 (.createDotEntry newDirCluster)
    let _ ← writeDirentry drv newDirCluster 1 (.createDotDotEntry parentCluster)
    match newEntry name FatFileAttributes.directory newDirCluster with
    | .error e => Prog.fail e
    | .ok entry =>
      let _ ← writeDirentry drv parentCluster freeSlotIndex entry
      pure (encodeNodeId entry parentCluster)

/-- A directory that lists a valid entry besides the dot entries. -/
def hasValidEntries (entries : List DirectoryEntry) : Bool := entries.any fun e => e.isValid && e.firstByte != 0x2E

/-- The clusters of a deleted object are given up; a directory has to be empty. -/
def freeContents (cluster : Nat) (attrs : UInt8) : FsProg Disk Unit :=
  if isDirectory attrs then do
    let dirEntries ← readDirectoryEntries drv cluster
    if hasValidEntries dirEntries then Prog.fail .directoryNotEmpty
    else freeClusterChain drv cluster
  else freeClusterChain drv cluster

def delete (nodeId : FileNodeHandle) : FsProg Disk Unit := do
  let (cluster,parentCluster,attrs) := decodeNodeId nodeId
  let entries ← readDirectoryEntries drv parentCluster
  match entries.findIdx? fun e => !e.isDeleted && e.getFirstCluster == cluster with
  | none => Prog.fail .notFound
  | some entryIndex =>
    let _ ← freeContents drv cluster attrs
    writeDirentry drv parentCluster entryIndex (entries.getD entryIndex .createEmpty).markDeleted

def rootNode : FileNodeHandle := drv.rootDirNodeId

end Fat32Driver
end MofuOS.Filesystem.Fat32
