import MofuOS.Filesystem.Fat32.Direntry

/-! fat32/boot_sector.rs and the mount of fat32/mod.rs: what the driver reads from the
boot sector and how it packs a directory entry into a node handle. -/
namespace MofuOS.Filesystem.Fat32
open Lib

/-- The fields of the boot sector that the driver reads. -/
structure BootSector where
  bytesPerSector : Nat
  sectorsPerCluster : Nat
  reservedSectors : Nat
  numFats : Nat
  rootEntries : Nat
  totalSectors16 : Nat
  totalSectors32 : Nat
  fatSize32 : Nat
  rootCluster : Nat
  deriving DecidableEq, Repr

def BootSector.fromBytes (data : List UInt8) : Except FileSystemError BootSector :=
  let le (i w : Nat) : Nat := leNat (slice data i w)
  let bs : BootSector :=
    { bytesPerSector := le 11 2
      sectorsPerCluster := le 13 1
      reservedSectors := le 14 2
      numFats := le 16 1
      rootEntries := le 17 2
      totalSectors16 := le 19 2
      totalSectors32 := le 32 4
      fatSize32 := le 36 4
      rootCluster := le 44 4 }
  if data.length < 512 then .error .ioError
  else if bs.fatSize32 = 0 then .error .diskOpError
  else if bs.rootEntries ≠ 0 then .error .diskOpError
  else .ok bs

/-- attributes, parent and first cluster share one handle; bit 63 is reserved. -/
def encodeNodeId (entry : DirectoryEntry) (parentCluster : Nat) : FileNodeHandle :=
  ((entry.attributes.toNat &&& 0x7F) <<< 56) ||| ((parentCluster &&& 0xFFFFFF) <<< 32)
    ||| (entry.getFirstCluster &&& 0xFFFFFF)

/-- The first cluster, the parent cluster and the attributes of a handle. -/
def decodeNodeId (nodeId : FileNodeHandle) : Nat × Nat × UInt8 :=
  (nodeId &&& 0xFFFFFF,(nodeId >>> 32) &&& 0xFFFFFF,UInt8.ofNat ((nodeId >>> 56) &&& 0x7F))

def isDirectory (fatAttributes : UInt8) : Bool := fatAttributes &&& FatFileAttributes.directory != 0

def fileAttributesFromFatAttributes (fatAttributes : UInt8) : FileAttributes :=
  if isDirectory fatAttributes then .dirDefault
  else if fatAttributes &&& FatFileAttributes.readOnly == 0 then .fileReadWrite else .fileReadonly

structure Fat32Driver where
  bootSector : BootSector
  fatStartSector : Nat
  rootStartSector : Nat
  dataStartSector : Nat
  sectorsPerCluster : Nat
  clusterSize : Nat
  maxCluster : Nat
  rootDirNodeId : FileNodeHandle
  rootDirentry : DirectoryEntry
  rootFilenode : FileNode
  deriving DecidableEq

/-- The operators on u32 of the mount. -/
def u32Sub (p : Profile) (a b : Nat) : Outcome Nat :=
  if b ≤ a then .ok (a - b) else if p.checks then .error .panic else .ok ((a + 2^32 - b) % 2^32)

def u32Add (p : Profile) (a b : Nat) : Outcome Nat :=
  if a + b < 2^32 then .ok (a + b) else if p.checks then .error .panic else .ok ((a + b) % 2^32)

/-- A division by zero panics in every profile. -/
def divisor (n : Nat) : Outcome Nat := if n = 0 then .error .panic else .ok n

def Fat32Driver.new (p : Profile) (bootSectorData : List UInt8) : Outcome (Except FileSystemError Fat32Driver) :=
  match BootSector.fromBytes bootSectorData with
  | .error e => .ok (.error e)
  | .ok bootSector => do
    let fatStartSector := bootSector.reservedSectors
    let rootStartSector := fatStartSector + bootSector.numFats * bootSector.fatSize32
    let dataStartSector := rootStartSector
    let total := if bootSector.totalSectors32 ≠ 0 then bootSector.totalSectors32 else bootSector.totalSectors16
    let availableDataSectors ← u32Sub p total (dataStartSector % 2^32)
    let sectorsPerCluster ← divisor bootSector.sectorsPerCluster
    let maxCluster ← u32Add p (availableDataSectors / sectorsPerCluster) rootCluster
    let rootDirNodeId := encodeNodeId .createForRoot bootSector.rootCluster
    .ok (.ok
      { bootSector
        fatStartSector
        rootStartSector
        dataStartSector
        sectorsPerCluster := bootSector.sectorsPerCluster
        clusterSize := bootSector.sectorsPerCluster * bootSector.bytesPerSector
        maxCluster
        rootDirNodeId
        rootDirentry := .createForRoot
        rootFilenode :=
          { nodeId := rootDirNodeId
            name := [0x2F]
            fileType := .directory
            size := 0
            createdTime := 0
            modifiedTime := 0
            attributes := .dirDefault } })

private theorem and_mask24 (n : Nat) : n &&& 0xFFFFFF = n % 2^24 := Nat.and_two_pow_sub_one_eq_mod n 24

private theorem and_mask7 (n : Nat) : n &&& 0x7F = n % 2^7 := Nat.and_two_pow_sub_one_eq_mod n 7

theorem encodeNodeId_eq (entry : DirectoryEntry) (parent : Nat) :
    encodeNodeId entry parent =
      entry.attributes.toNat % 2^7 * 2^56 + parent % 2^24 * 2^32 + entry.getFirstCluster % 2^24 := by
  have hlow : parent % 2^24 * 2^32 + entry.getFirstCluster % 2^24 < 2^56 := by omega
  have hcl : entry.getFirstCluster % 2^24 < 2^32 := by omega
  rw [encodeNodeId,and_mask24,and_mask24,and_mask7,Nat.or_assoc,← Nat.shiftLeft_add_eq_or_of_lt hcl,
    Nat.shiftLeft_eq (parent % 2^24),← Nat.shiftLeft_add_eq_or_of_lt hlow,Nat.shiftLeft_eq,
    Nat.add_assoc]

/-- A handle carries the low 24 bits of both clusters and the low 7 of the attributes. -/
theorem decodeNodeId_encodeNodeId (entry : DirectoryEntry) (parent : Nat) :
    decodeNodeId (encodeNodeId entry parent) =
      (entry.getFirstCluster % 2^24,parent % 2^24,entry.attributes &&& 0x7F) := by
  rw [encodeNodeId_eq,decodeNodeId]
  simp only [and_mask24,and_mask7,Nat.shiftRight_eq_div_pow]
  refine Prod.ext (by simp only; omega) (Prod.ext (by simp only; omega) ?_)
  apply UInt8.toNat.inj
  rw [UInt8.toNat_ofNat',UInt8.toNat_and,show (0x7F : UInt8).toNat = 0x7F from rfl,and_mask7]
  omega

theorem isDirectory_masked (a : UInt8) : isDirectory (a &&& 0x7F) = isDirectory a := by
  rw [isDirectory,isDirectory,UInt8.and_assoc]
  rfl

end MofuOS.Filesystem.Fat32
