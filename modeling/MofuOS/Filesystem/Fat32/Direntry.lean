import MofuOS.Filesystem.Types
import MofuOS.Lib.Buffer
import MofuOS.Lib.LittleEndian
import Mathlib.Data.Vector.Basic

/-! fat32/direntry.rs: the 32-byte directory entry, its byte codec and its 8.3 names. -/
namespace MofuOS.Filesystem.Fat32
open Lib

def rootCluster : Nat := 2

/-- Handles keep 24 bits of a cluster number. -/
def maxClusterNumber : Nat := 0xFFFFFF

namespace FatFileAttributes
def readOnly : UInt8 := 0x01
def volumeId : UInt8 := 0x08
def directory : UInt8 := 0x10
def archive : UInt8 := 0x20
end FatFileAttributes

def maxNameLength : Nat := 8
def maxExtLength : Nat := 3
def directoryEntrySize : Nat := 32

structure DirectoryEntry where
  name : List.Vector UInt8 8
  extension : List.Vector UInt8 3
  attributes : UInt8
  ntReserved : UInt8
  creationTimeTenth : UInt8
  creationTime : UInt16
  creationDate : UInt16
  accessDate : UInt16
  firstClusterHigh : UInt16
  writeTime : UInt16
  writeDate : UInt16
  firstClusterLow : UInt16
  fileSize : UInt32
  deriving DecidableEq

def isLeapYear (year : Nat) : Bool := year % 4 == 0 && (year % 100 != 0 || year % 400 == 0)

/-- Entry idx of the table: the days of the years from 1970 up to 1970 + idx. -/
def daysUntilYearSince1970 : Nat → Nat
  | 0 => 0
  | idx + 1 => daysUntilYearSince1970 idx + if isLeapYear (1970 + idx) then 366 else 365

def monthDays : Nat → Nat
  | 2 => 31
  | 3 => 59
  | 4 => 90
  | 5 => 120
  | 6 => 151
  | 7 => 181
  | 8 => 212
  | 9 => 243
  | 10 => 273
  | 11 => 304
  | 12 => 334
  | _ => 0

def fatTimeToUnixTimestamp (time date : UInt16) : UInt32 :=
  let seconds := (time &&& 0x1F).toNat * 2
  let minutes := ((time >>> 5) &&& 0x3F).toNat
  let hours := ((time >>> 11) &&& 0x1F).toNat
  let day := (date &&& 0x1F).toNat
  let month := ((date >>> 5) &&& 0x0F).toNat
  let yearIdx := ((date >>> 9) &&& 0x7F).toNat
  let days := daysUntilYearSince1970 yearIdx + monthDays month
    + (if 2 < month && isLeapYear (yearIdx + 1980) then 1 else 0) + (if 1 < day then day - 1 else 0)
  UInt32.ofNat (days * 86400 + hours * 3600 + minutes * 60 + seconds)

/-- A field of n bytes that starts with the bytes of l, the rest spaces. -/
def padded (n : Nat) (l : List UInt8) : List.Vector UInt8 n :=
  ⟨(l ++ List.replicate n 0x20).take n,by simp⟩

def asciiUppercase (b : UInt8) : UInt8 := if 0x61 ≤ b ∧ b ≤ 0x7A then b - 32 else b

/-- The bytes of a str, which the source holds as UTF-8. -/
def utf8 (s : List Char) : List UInt8 := s.flatMap String.utf8EncodeChar

/-- The parts of a name before and behind its last dot. -/
def splitLastDot : List Char → Option (List Char × List Char)
  | [] => none
  | c :: cs => match splitLastDot cs with
    | some (stem,ext) => some (c :: stem,ext)
    | none => if c = '.' then some ([],cs) else none

theorem splitLastDot_cons {c : Char} {cs : List Char} : splitLastDot (c :: cs) = match splitLastDot cs with
    | some (stem,ext) => some (c :: stem,ext)
    | none => if c = '.' then some ([],cs) else none := rfl

/-- The continuation bytes of UTF-8. -/
def isContinuation (b : UInt8) : Bool := 0x80 ≤ b && b ≤ 0xBF

/-- core::str::from_utf8 accepts the bytes. -/
def validUtf8 : List UInt8 → Bool
  | [] => true
  | a :: r =>
    if a < 0x80 then validUtf8 r
    else match r with
    | [] => false
    | b :: r =>
      if 0xC2 ≤ a ∧ a ≤ 0xDF then isContinuation b && validUtf8 r
      else match r with
      | [] => false
      | c :: r =>
        if 0xE0 ≤ a ∧ a ≤ 0xEF then
          isContinuation b && (a != 0xE0 || 0xA0 ≤ b) && (a != 0xED || b ≤ 0x9F) && isContinuation c && validUtf8 r
        else match r with
        | [] => false
        | d :: r =>
          0xF0 ≤ a && a ≤ 0xF4 && isContinuation b && (a != 0xF0 || 0x90 ≤ b) && (a != 0xF4 || b ≤ 0x8F)
            && isContinuation c && isContinuation d && validUtf8 r

namespace DirectoryEntry

def getFirstCluster (e : DirectoryEntry) : Nat := (e.firstClusterHigh.toNat <<< 16) ||| e.firstClusterLow.toNat

/-- The fields of the 32 bytes, before the assertion on the cluster number. -/
def decode (data : List UInt8) : DirectoryEntry :=
  let b (i : Nat) : UInt8 := data.getD i 0
  let u16 (i : Nat) : UInt16 := UInt16.ofNat (leNat [b i,b (i + 1)])
  { name := ⟨[b 0,b 1,b 2,b 3,b 4,b 5,b 6,b 7],rfl⟩
    extension := ⟨[b 8,b 9,b 10],rfl⟩
    attributes := b 11
    ntReserved := b 12
    creationTimeTenth := b 13
    creationTime := u16 14
    creationDate := u16 16
    accessDate := u16 18
    firstClusterHigh := u16 20
    writeTime := u16 22
    writeDate := u16 24
    firstClusterLow := u16 26
    fileSize := UInt32.ofNat (leNat [b 28,b 29,b 30,b 31]) }

def fromBytes (data : List UInt8) : Outcome DirectoryEntry :=
  if data.length < 32 then .error .panic
  else if maxClusterNumber < (decode data).getFirstCluster then .error .panic
  else .ok (decode data)

def createEmpty : DirectoryEntry where
  name := ⟨List.replicate 8 0,rfl⟩
  extension := ⟨List.replicate 3 0,rfl⟩
  attributes := 0
  ntReserved := 0
  creationTimeTenth := 0
  creationTime := 0
  creationDate := 0
  accessDate := 0
  firstClusterHigh := 0
  writeTime := 0
  writeDate := 0
  firstClusterLow := 0
  fileSize := 0

def setFirstCluster (e : DirectoryEntry) (cluster : Nat) : DirectoryEntry :=
  { e with
    firstClusterHigh := UInt16.ofNat (cluster >>> 16)
    firstClusterLow := UInt16.ofNat cluster }

def thisDirEntryName : List.Vector UInt8 8 := padded 8 [0x2E]
def parentDirEntryName : List.Vector UInt8 8 := padded 8 [0x2E,0x2E]

/-- The extension stays the zero bytes of an empty entry. -/
def createDotEntry (cluster : Nat) : DirectoryEntry :=
  setFirstCluster { createEmpty with name := thisDirEntryName, attributes := FatFileAttributes.directory } cluster

def createDotDotEntry (parentCluster : Nat) : DirectoryEntry :=
  setFirstCluster { createEmpty with name := parentDirEntryName, attributes := FatFileAttributes.directory } parentCluster

def firstByte (e : DirectoryEntry) : UInt8 := e.name.head

def isEmpty (e : DirectoryEntry) : Bool := e.firstByte == 0x00
def isDeleted (e : DirectoryEntry) : Bool := e.firstByte == 0xE5
def isValid (e : DirectoryEntry) : Bool := !(e.isEmpty || e.isDeleted)
def isVolumeId (e : DirectoryEntry) : Bool := e.attributes &&& FatFileAttributes.volumeId != 0
def isDirectory (e : DirectoryEntry) : Bool := e.attributes &&& FatFileAttributes.directory != 0

def getFileType (e : DirectoryEntry) : FileType := if e.isDirectory then .directory else .file

def getStem (e : DirectoryEntry) : List UInt8 := e.name.toList.takeWhile fun c => c != 0 && c != 0x20

def getFilename (e : DirectoryEntry) : List UInt8 :=
  let ext := e.extension.toList.takeWhile fun c => c != 0 && c != 0x20
  if 0 < ext.length then e.getStem ++ [0x2E] ++ (if validUtf8 ext then ext else [0x3F,0x3F,0x3F])
  else e.getStem

def fullNameMatches (e : DirectoryEntry) (fullname : List UInt8) : Bool :=
  e.name.toList == fullname.take 8 && e.extension.toList == fullname.drop 8

/-- The entry is already blanked when a part turns out too long. -/
def setFilename (e : DirectoryEntry) (filename : List Char) : Except FileSystemError DirectoryEntry :=
  let (namePart,extPart) := match splitLastDot filename with
    | some (stem,ext) => (utf8 stem,utf8 ext)
    | none => (utf8 filename,[])
  if maxNameLength < namePart.length then .error .invalidFilename
  else if maxExtLength < extPart.length then .error .invalidFilename
  else .ok { e with
    name := padded 8 (namePart.map asciiUppercase)
    extension := padded 3 (extPart.map asciiUppercase) }

def markDeleted (e : DirectoryEntry) : DirectoryEntry := { e with name := 0xE5 ::ᵥ e.name.tail }

def getCreationTimestamp (e : DirectoryEntry) : UInt32 := fatTimeToUnixTimestamp e.creationTime e.creationDate
def getModifiedTimestamp (e : DirectoryEntry) : UInt32 := fatTimeToUnixTimestamp e.writeTime e.writeDate

def asBytes (e : DirectoryEntry) : List UInt8 :=
  e.name.toList ++ e.extension.toList ++ [e.attributes,e.ntReserved,e.creationTimeTenth]
    ++ leBytes 2 e.creationTime.toNat ++ leBytes 2 e.creationDate.toNat ++ leBytes 2 e.accessDate.toNat
    ++ leBytes 2 e.firstClusterHigh.toNat ++ leBytes 2 e.writeTime.toNat ++ leBytes 2 e.writeDate.toNat
    ++ leBytes 2 e.firstClusterLow.toNat ++ leBytes 4 e.fileSize.toNat

def createForRoot : DirectoryEntry :=
  setFirstCluster { createEmpty with
    name := padded 8 []
    extension := padded 3 []
    attributes := FatFileAttributes.directory } rootCluster

variable (e : DirectoryEntry)

theorem length_asBytes : e.asBytes.length = 32 := by
  simp [asBytes]

private theorem u16_roundtrip (x : UInt16) :
    UInt16.ofNat (leNat [UInt8.ofNat x.toNat,UInt8.ofNat (x.toNat / 256)]) = x := by
  have h : leNat (leBytes 2 x.toNat) = x.toNat := leNat_leBytes_of_lt x.toNat_lt
  simp only [leBytes] at h
  rw [h,UInt16.ofNat_toNat]

private theorem u32_roundtrip (x : UInt32) :
    UInt32.ofNat (leNat [UInt8.ofNat x.toNat,UInt8.ofNat (x.toNat / 256),
      UInt8.ofNat (x.toNat / 256 / 256),UInt8.ofNat (x.toNat / 256 / 256 / 256)]) = x := by
  have h : leNat (leBytes 4 x.toNat) = x.toNat := leNat_leBytes_of_lt x.toNat_lt
  simp only [leBytes] at h
  rw [h,UInt32.ofNat_toNat]

/-- A slot decodes to the entry that was encoded into it. -/
theorem decode_asBytes : decode e.asBytes = e := by
  obtain ⟨name,ext,attrs,nt,tenth,ct,cd,ad,hi,wt,wd,lo,size⟩ := e
  match name, ext with
  | ⟨[n0,n1,n2,n3,n4,n5,n6,n7],_⟩, ⟨[e0,e1,e2],_⟩ =>
    simp only [decode,asBytes,leBytes,List.Vector.toList,List.cons_append,List.nil_append,
      List.getD_cons_zero,List.getD_cons_succ,u16_roundtrip,u32_roundtrip]

private theorem leBytes_u16 (x y : UInt8) : leBytes 2 (UInt16.ofNat (leNat [x,y])).toNat = [x,y] := by
  have hlt : leNat [x,y] < 2^16 := (leNat_lt [x,y]).trans_eq (by norm_num)
  rw [UInt16.toNat_ofNat',Nat.mod_eq_of_lt hlt]
  exact leBytes_leNat [x,y]

private theorem leBytes_u32 (x y z w : UInt8) : leBytes 4 (UInt32.ofNat (leNat [x,y,z,w])).toNat = [x,y,z,w] := by
  have hlt : leNat [x,y,z,w] < 2^32 := (leNat_lt [x,y,z,w]).trans_eq (by norm_num)
  rw [UInt32.toNat_ofNat',Nat.mod_eq_of_lt hlt]
  exact leBytes_leNat [x,y,z,w]

/-- An entry encodes to the slot it was decoded from. -/
theorem asBytes_decode {data : List UInt8} (h : data.length = 32) : (decode data).asBytes = data := by
  have hdata : (List.range 32).map (fun i => data.getD i 0) = data := by
    refine List.ext_getElem (by simp [h]) fun i hi hi' => ?_
    rw [List.getElem_map,List.getElem_range,List.getD_eq_getElem?_getD,List.getElem?_eq_getElem hi',Option.getD_some]
  conv_rhs => rw [← hdata]
  simp only [asBytes,decode,leBytes_u16,leBytes_u32]
  rfl

theorem getFirstCluster_eq : e.getFirstCluster = e.firstClusterHigh.toNat * 65536 + e.firstClusterLow.toNat := by
  have h := Nat.shiftLeft_add_eq_or_of_lt e.firstClusterLow.toNat_lt e.firstClusterHigh.toNat
  rw [getFirstCluster,← h,Nat.shiftLeft_eq]

theorem getFirstCluster_setFirstCluster {c : Nat} (h : c < 2^32) : (e.setFirstCluster c).getFirstCluster = c := by
  have hhi : (UInt16.ofNat (c >>> 16)).toNat = c / 65536 := by
    rw [UInt16.toNat_ofNat',Nat.shiftRight_eq_div_pow]
    omega
  have hlo : (UInt16.ofNat c).toNat = c % 65536 := UInt16.toNat_ofNat' ..
  rw [getFirstCluster_eq,setFirstCluster,hhi,hlo]
  omega

variable {e} in
theorem isDirectory_of_directory (h : e.attributes = FatFileAttributes.directory) : e.isDirectory = true := by
  rw [isDirectory,h]
  rfl

variable {e} in
theorem isDirectory_of_archive (h : e.attributes = FatFileAttributes.archive) : e.isDirectory = false := by
  rw [isDirectory,h]
  rfl

variable {e} in
theorem isEmpty_of_valid (h : e.isValid = true) : e.isEmpty = false := by
  rw [isValid,Bool.not_eq_true',Bool.or_eq_false_iff] at h
  exact h.1

variable {e} in
theorem isDeleted_of_valid (h : e.isValid = true) : e.isDeleted = false := by
  rw [isValid,Bool.not_eq_true',Bool.or_eq_false_iff] at h
  exact h.2

theorem head?_asBytes : e.asBytes.head? = some e.firstByte := by
  obtain ⟨⟨name,hname⟩,_⟩ := e
  cases name with
  | nil => cases hname
  | cons b name => rfl

theorem asBytes_markDeleted : e.markDeleted.asBytes = 0xE5 :: e.asBytes.tail := by
  obtain ⟨⟨name,hname⟩,_⟩ := e
  cases name with
  | nil => cases hname
  | cons b name => rfl

@[simp] theorem firstByte_markDeleted : e.markDeleted.firstByte = 0xE5 := rfl
@[simp] theorem getFirstCluster_markDeleted : e.markDeleted.getFirstCluster = e.getFirstCluster := rfl

end DirectoryEntry
end MofuOS.Filesystem.Fat32
