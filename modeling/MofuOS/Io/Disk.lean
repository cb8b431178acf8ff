import MofuOS.Filesystem.Types
import MofuOS.Lib.Buffer

/-! io/disk.rs: the in-memory disk device behind the disk manager. Every device error
reaches the file system as DiskOpError. -/
namespace MofuOS.Io
open Lib Filesystem

def sectorSize : Nat := 512

/-- The bytes of a MockDiskDevice; its size in bytes is their number. -/
structure Disk where
  data : List UInt8
  deriving DecidableEq

namespace Disk

/-- Fill the front of a zeroed buffer of bufferLen bytes from count sectors. -/
def readSectors (startSector count bufferLen : Nat) : FsProg Disk (List UInt8) := do
  let s ← Prog.get
  if s.data.length < sectorSize * startSector + sectorSize * count then Prog.fail .diskOpError
  else if bufferLen < sectorSize * count then Prog.fail .diskOpError
  else pure (slice s.data (sectorSize * startSector) (sectorSize * count)
    ++ List.replicate (bufferLen - sectorSize * count) 0)

def readSector (sector bufferLen : Nat) : FsProg Disk (List UInt8) :=
  if bufferLen < sectorSize then Prog.fail .diskOpError else readSectors sector 1 bufferLen

def writeSectors (startSector count : Nat) (data : List UInt8) : FsProg Disk Unit := do
  let s ← Prog.get
  if data.length < sectorSize then Prog.fail .diskOpError
  else if s.data.length < sectorSize * startSector + sectorSize * count then Prog.fail .diskOpError
  else if data.length < sectorSize * count then Prog.fail .diskOpError
  else Prog.set ⟨overwrite s.data (sectorSize * startSector) (data.take (sectorSize * count))⟩

def writeSector (sector : Nat) (data : List UInt8) : FsProg Disk Unit := writeSectors sector 1 data

variable {s : Disk} {start count n : Nat}

theorem readSectors_run (h : sectorSize * start + sectorSize * count ≤ s.data.length) (hn : n = sectorSize * count) :
    readSectors start count n s = .ok (.ok (slice s.data (sectorSize * start) (sectorSize * count)), s) := by
  subst hn
  simp [readSectors,Nat.not_lt.mpr h]

theorem readSectors_readOnly (start count n : Nat) : Prog.ReadOnly (readSectors start count n) := by
  intro s t r h
  rw [readSectors,Prog.run_get_bind] at h
  split_ifs at h <;> (cases h; rfl)

theorem readSector_readOnly (sector n : Nat) : Prog.ReadOnly (readSector sector n) := by
  rw [readSector]
  split_ifs
  · exact .fail _
  · exact readSectors_readOnly _ _ _

theorem writeSectors_run {data : List UInt8} (h : sectorSize * start + sectorSize * count ≤ s.data.length)
    (hc : 0 < count) (hd : sectorSize * count ≤ data.length) :
    writeSectors start count data s =
      .ok (.ok (), ⟨overwrite s.data (sectorSize * start) (data.take (sectorSize * count))⟩) := by
  have hs : ¬ data.length < sectorSize := Nat.not_lt.mpr (Nat.le_trans (Nat.le_mul_of_pos_right _ hc) hd)
  simp [writeSectors,Nat.not_lt.mpr h,Nat.not_lt.mpr hd,hs]

end Disk
end MofuOS.Io
