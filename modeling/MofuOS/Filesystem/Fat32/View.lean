import MofuOS.Filesystem.Fat32.Driver
import MofuOS.Lib.Abstraction
import MofuOS.Lib.LinkedChain
import Mathlib.Data.List.Range

/-! The disk as the driver uses it: a table of FAT entries and a table of clusters. On a
disk that holds the whole volume the sector accesses read and update these tables. -/
namespace MofuOS.Filesystem.Fat32
open Lib Io
open Prog (liftO)

/-- The low 28 bits of the FAT entries and the bytes of the clusters. -/
structure FatView where
  fat : Nat → Nat
  data : Nat → List UInt8

namespace FatView

def setFat (v : FatView) (c n : Nat) : FatView := { v with fat := Function.update v.fat c n }
def setData (v : FatView) (c : Nat) (bytes : List UInt8) : FatView := { v with data := Function.update v.data c bytes }

@[simp] theorem setFat_fat (v : FatView) (c n : Nat) : (v.setFat c n).fat = Function.update v.fat c n := rfl
@[simp] theorem setFat_data (v : FatView) (c n : Nat) : (v.setFat c n).data = v.data := rfl
@[simp] theorem setData_fat (v : FatView) (c : Nat) (b : List UInt8) : (v.setData c b).fat = v.fat := rfl
@[simp] theorem setData_data (v : FatView) (c : Nat) (b : List UInt8) :
    (v.setData c b).data = Function.update v.data c b := rfl

/-- The successor table of a FAT: an end mark has none. -/
def next (v : FatView) (c : Nat) : Option Nat := if fatEntryReservedBegin ≤ v.fat c then none else some (v.fat c)

theorem next_setFat_link (v : FatView) {c n : Nat} (h : n < fatEntryReservedBegin) :
    (v.setFat c n).next = Function.update v.next c (some n) := by
  funext x
  by_cases hx : x = c
  · subst hx
    simp [next,Nat.not_le.mpr h]
  · simp [next,Function.update_of_ne hx]

theorem next_setFat_end (v : FatView) (c : Nat) : (v.setFat c endOfChain).next = Function.update v.next c none := by
  funext x
  by_cases hx : x = c
  · subst hx
    simp [next,endOfChain,fatEntryReservedBegin]
  · simp [next,Function.update_of_ne hx]

end FatView

namespace Fat32Driver
variable {drv : Fat32Driver}

/-- What a mounted volume with 512-byte sectors has: a first FAT with an entry for every
cluster, in front of the clusters, and cluster numbers that fit a handle. -/
structure Geometry (drv : Fat32Driver) : Prop where
  bytesPerSector : drv.bootSector.bytesPerSector = 512
  sectorsPerCluster : 0 < drv.sectorsPerCluster
  clusterSize : drv.clusterSize = 512 * drv.sectorsPerCluster
  fatSize : 512 * drv.fatStartSector + 4 * drv.maxCluster ≤ 512 * drv.dataStartSector
  rootCluster : drv.bootSector.rootCluster = 2
  rootExists : 2 < drv.maxCluster
  maxCluster : drv.maxCluster ≤ 2^24
  rootDirentry : drv.rootDirentry = .createForRoot

/-- The disk holds every sector of the volume. -/
def Holds (drv : Fat32Driver) (s : Disk) : Prop :=
  512 * (drv.dataStartSector + (drv.maxCluster - 2) * drv.sectorsPerCluster) ≤ s.data.length

def fatOffset (drv : Fat32Driver) (c : Nat) : Nat := 512 * drv.fatStartSector + 4 * c
def clusterOffset (drv : Fat32Driver) (c : Nat) : Nat := 512 * clusterToSector drv c

def fatOf (drv : Fat32Driver) (bytes : List UInt8) (c : Nat) : Nat :=
  if c < drv.maxCluster then leNat (slice bytes (fatOffset drv c) 4) &&& 0x0FFFFFFF else 0

def clusterOf (drv : Fat32Driver) (bytes : List UInt8) (c : Nat) : List UInt8 :=
  if inVolume drv c then slice bytes (clusterOffset drv c) drv.clusterSize else []

def viewOf (drv : Fat32Driver) (s : Disk) : FatView where
  fat := fatOf drv s.data
  data := clusterOf drv s.data

def onDisk (drv : Fat32Driver) : Abstraction Disk FatView where
  good := Holds drv
  view := viewOf drv

theorem inVolume_iff {c : Nat} : inVolume drv c = true ↔ 2 ≤ c ∧ c < drv.maxCluster := by
  rw [inVolume,Bool.and_eq_true,decide_eq_true_eq,decide_eq_true_eq]
  rfl

section Layout
variable (G : Geometry drv) {c c' : Nat} {s : Disk}
include G

theorem Geometry.clusterSize_pos : 0 < drv.clusterSize := by
  have := G.clusterSize
  have := G.sectorsPerCluster
  omega

theorem Geometry.slots_dvd : directoryEntrySize ∣ drv.clusterSize :=
  ⟨16 * drv.sectorsPerCluster,by rw [G.clusterSize,directoryEntrySize]; omega⟩

private theorem clusterOffset_eq (hc : inVolume drv c) :
    clusterOffset drv c = 512 * drv.dataStartSector + (c - 2) * drv.clusterSize := by
  have h2 : 2 ≤ c := (inVolume_iff.mp hc).1
  rw [clusterOffset,clusterToSector,if_pos h2,G.clusterSize,Nat.mul_add,Nat.mul_left_comm]

omit G in
private theorem mul_gap {a b n : Nat} (h : a < b) : a * n + n ≤ b * n := by
  calc a * n + n = (a + 1) * n := (Nat.succ_mul a n).symm
    _ ≤ b * n := Nat.mul_le_mul_right n h

private theorem clusterOffset_le (hs : Holds drv s) (hc : inVolume drv c) :
    clusterOffset drv c + drv.clusterSize ≤ s.data.length := by
  have hr := inVolume_iff.mp hc
  have hgap : (c - 2) * drv.clusterSize + drv.clusterSize ≤ (drv.maxCluster - 2) * drv.clusterSize :=
    mul_gap (by omega)
  have hsize : 512 * (drv.dataStartSector + (drv.maxCluster - 2) * drv.sectorsPerCluster)
      = 512 * drv.dataStartSector + (drv.maxCluster - 2) * drv.clusterSize := by
    rw [G.clusterSize,Nat.mul_add,Nat.mul_left_comm]
  have := hs
  rw [Holds,hsize] at this
  rw [clusterOffset_eq G hc]
  omega

private theorem clusterOffset_apart (hc : inVolume drv c) (hc' : inVolume drv c') (h : c' ≠ c) :
    clusterOffset drv c' + drv.clusterSize ≤ clusterOffset drv c ∨
      clusterOffset drv c + drv.clusterSize ≤ clusterOffset drv c' := by
  have hr := inVolume_iff.mp hc
  have hr' := inVolume_iff.mp hc'
  rw [clusterOffset_eq G hc,clusterOffset_eq G hc']
  rcases Nat.lt_or_gt_of_ne h with hlt | hlt
  · have := mul_gap (a := c' - 2) (b := c - 2) (n := drv.clusterSize) (by omega)
    exact .inl (by omega)
  · have := mul_gap (a := c - 2) (b := c' - 2) (n := drv.clusterSize) (by omega)
    exact .inr (by omega)

private theorem fatOffset_le (hc : c < drv.maxCluster) : fatOffset drv c + 4 ≤ 512 * drv.dataStartSector := by
  have := G.fatSize
  rw [fatOffset]
  omega

theorem fatOffset_before (hc : c < drv.maxCluster) (hc' : inVolume drv c') :
    fatOffset drv c + 4 ≤ clusterOffset drv c' := by
  rw [clusterOffset_eq G hc']
  exact Nat.le_add_right_of_le (fatOffset_le G hc)

/-- Both tables after a write inside one FAT entry. -/
theorem view_overwrite_fat (hs : Holds drv s) (hc : c < drv.maxCluster) {d : List UInt8} (hd : d.length = 4) :
    viewOf drv ⟨overwrite s.data (fatOffset drv c) d⟩ = (viewOf drv s).setFat c (leNat d &&& 0x0FFFFFFF) := by
  have hdata : 512 * drv.dataStartSector ≤ s.data.length := by
    have := hs
    rw [Holds,Nat.mul_add] at this
    omega
  have ho : fatOffset drv c ≤ s.data.length := by
    have := fatOffset_le G hc
    omega
  rw [FatView.setFat,viewOf,viewOf,FatView.mk.injEq]
  refine ⟨funext fun x => ?_,funext fun x => ?_⟩
  · by_cases hx : x = c
    · subst hx
      simp only [Function.update_self,fatOf,if_pos hc]
      rw [← hd,slice_overwrite_self ho]
    · simp only [Function.update_of_ne hx,fatOf]
      split_ifs
      · rw [slice_overwrite_of_disjoint ho (by rw [hd]; simp only [fatOffset]; omega)]
      · rfl
  · simp only [clusterOf]
    split_ifs with hx
    · rw [slice_overwrite_of_disjoint ho (.inr (by rw [hd]; exact fatOffset_before G hc hx))]
    · rfl

/-- Both tables after a write of one whole cluster. -/
private theorem view_overwrite_cluster (hs : Holds drv s) (hc : inVolume drv c) {d : List UInt8}
    (hd : d.length = drv.clusterSize) :
    viewOf drv ⟨overwrite s.data (clusterOffset drv c) d⟩ = (viewOf drv s).setData c d := by
  have hle := clusterOffset_le G hs hc
  have ho : clusterOffset drv c ≤ s.data.length := by omega
  rw [FatView.setData,viewOf,viewOf,FatView.mk.injEq]
  refine ⟨funext fun x => ?_,funext fun x => ?_⟩
  · simp only [fatOf]
    split_ifs with hx
    · rw [slice_overwrite_of_disjoint ho (.inl (fatOffset_before G hx hc))]
    · rfl
  · by_cases hx : x = c
    · subst hx
      simp only [Function.update_self,clusterOf,if_pos hc]
      rw [← hd,slice_overwrite_self ho]
    · simp only [Function.update_of_ne hx,clusterOf]
      split_ifs with hv
      · rw [slice_overwrite_of_disjoint ho (by rw [hd]; exact clusterOffset_apart G hc hv hx)]
      · rfl

omit G in
theorem holds_overwrite (hs : Holds drv s) {o : Nat} {d : List UInt8} (h : o + d.length ≤ s.data.length) :
    Holds drv ⟨overwrite s.data o d⟩ := by
  rw [Holds,length_overwrite h]
  exact hs

end Layout

/-- The FAT entry of a cluster, on a disk that holds its sector. -/
def fatEntryOn (drv : Fat32Driver) (s : Disk) (c : Nat) : Option Nat :=
  if 512 * (drv.fatStartSector + c * 4 / 512) + 512 ≤ s.data.length then
    some (leNat (slice s.data (fatOffset drv c) 4) &&& 0x0FFFFFFF)
  else none

section Entry
variable (hb : drv.bootSector.bytesPerSector = 512) {c n : Nat} {s : Disk}

/-- A FAT entry lies inside its sector. -/
private theorem fatOffset_eq (drv : Fat32Driver) (c : Nat) :
    c * 4 % 512 + 4 ≤ 512 ∧ 512 * (drv.fatStartSector + c * 4 / 512) + c * 4 % 512 = fatOffset drv c := by
  rw [fatOffset]
  omega

include hb in
theorem readFatEntry_eq (c : Nat) (s : Disk) :
    readFatEntry drv c s = .ok ((fatEntryOn drv s c).elim (.error .diskOpError) .ok,s) := by
  obtain ⟨ho,heq⟩ := fatOffset_eq drv c
  simp only [readFatEntry,hb]
  rw [show divisor 512 = .ok 512 from rfl,Prog.run_liftO_ok_bind,Disk.readSector,if_neg (by simp [sectorSize]),fatEntryOn]
  split_ifs with hle
  · rw [Prog.run_bind_ok (Disk.readSectors_run (by simpa [sectorSize] using hle) (by rfl)),checkRange]
    simp only [sectorSize,Nat.mul_one]
    rw [if_pos (by rw [length_slice hle]; omega),Prog.run_liftO_ok_bind,slice_slice ho,heq]
    rfl
  · refine Prog.run_bind_error ?_
    rw [Disk.readSectors,Prog.run_get_bind,if_pos (by simp only [sectorSize]; omega)]
    rfl

/-- The low 28 bits of the entry are replaced, the top four kept. -/
private theorem masked_entry (existing value : Nat) :
    leNat (leBytes 4 ((existing &&& 0xF0000000) ||| (value &&& 0x0FFFFFFF))) &&& 0x0FFFFFFF = value &&& 0x0FFFFFFF ∧
      leNat (leBytes 4 ((existing &&& 0xF0000000) ||| (value &&& 0x0FFFFFFF))) &&& 0xF0000000 = existing &&& 0xF0000000 := by
  have hlt : (existing &&& 0xF0000000) ||| (value &&& 0x0FFFFFFF) < 2^32 :=
    Nat.or_lt_two_pow (Nat.lt_of_le_of_lt Nat.and_le_right (by decide))
      (Nat.lt_of_le_of_lt Nat.and_le_right (by decide))
  rw [leNat_leBytes_of_lt hlt,Nat.and_or_distrib_right,Nat.and_or_distrib_right]
  refine ⟨?_,?_⟩
  · rw [Nat.and_assoc,show 0xF0000000 &&& 0x0FFFFFFF = 0 from rfl,Nat.and_zero,Nat.zero_or,Nat.and_assoc,Nat.and_self]
  · rw [Nat.and_assoc,Nat.and_self,Nat.and_assoc,show 0x0FFFFFFF &&& 0xF0000000 = 0 from rfl,Nat.and_zero,Nat.or_zero]

include hb in
/-- An entry is written wherever it can be read, and nothing else on the disk changes. -/
theorem writeFatEntry_cases (c n : Nat) (s : Disk) :
    (fatEntryOn drv s c = none ∧ writeFatEntry drv c n s = .ok (.error .diskOpError,s)) ∨
      (512 * (drv.fatStartSector + c * 4 / 512) + 512 ≤ s.data.length ∧
        ∃ b, b.length = 4 ∧ (leNat b &&& 0x0FFFFFFF = n &&& 0x0FFFFFFF ∧
            leNat b &&& 0xF0000000 = leNat (slice s.data (fatOffset drv c) 4) &&& 0xF0000000) ∧
          writeFatEntry drv c n s = .ok (.ok (),⟨overwrite s.data (fatOffset drv c) b⟩)) := by
  obtain ⟨ho,heq⟩ := fatOffset_eq drv c
  simp only [writeFatEntry,hb]
  rw [show divisor 512 = .ok 512 from rfl,Prog.run_liftO_ok_bind,Disk.readSector,if_neg (by simp [sectorSize]),fatEntryOn]
  by_cases hle : 512 * (drv.fatStartSector + c * 4 / 512) + 512 ≤ s.data.length
  · right
    have hlen := length_slice hle
    let b := leBytes 4 ((leNat (slice (slice s.data (512 * (drv.fatStartSector + c * 4 / 512)) 512) (c * 4 % 512) 4)
      &&& 0xF0000000) ||| (n &&& 0x0FFFFFFF))
    have hbytes : b.length = 4 := length_leBytes ..
    have hbuf : (overwrite (slice s.data (512 * (drv.fatStartSector + c * 4 / 512)) 512) (c * 4 % 512) b).length = 512 := by
      rw [length_overwrite (by rw [hbytes,hlen]; exact ho),hlen]
    have hmask := masked_entry (leNat (slice (slice s.data (512 * (drv.fatStartSector + c * 4 / 512)) 512) (c * 4 % 512) 4)) n
    refine ⟨hle,b,hbytes,⟨hmask.1,by rw [hmask.2,slice_slice ho,heq]⟩,?_⟩
    rw [Prog.run_bind_ok (Disk.readSectors_run (by simpa [sectorSize] using hle) (by rfl)),checkRange]
    simp only [sectorSize,Nat.mul_one]
    rw [if_pos (by rw [hlen]; omega),Prog.run_liftO_ok_bind]
    refine (Disk.writeSectors_run (by simpa [sectorSize] using hle) Nat.one_pos
      (by simp only [sectorSize,Nat.mul_one]; exact hbuf.ge)).trans ?_
    rw [List.take_of_length_le (by simp only [sectorSize,Nat.mul_one]; exact hbuf.le),sectorSize,
      overwrite_window hle (by rw [hbytes]; exact ho),heq]
  · refine .inl ⟨if_neg hle,Prog.run_bind_error ?_⟩
    rw [Disk.readSectors,Prog.run_get_bind,if_pos (by simp only [sectorSize]; omega)]
    rfl

end Entry

section Access
variable (G : Geometry drv) {c n : Nat} {v : FatView}
include G

/-- The FAT sector of a cluster lies on the disk. -/
private theorem fatSector_le {s : Disk} (hs : Holds drv s) (hc : c < drv.maxCluster) :
    512 * (drv.fatStartSector + c * 4 / 512) + 512 ≤ s.data.length := by
  have := G.fatSize
  have hd := hs
  rw [Holds,Nat.mul_add] at hd
  omega

theorem fatEntryOn_of_holds {s : Disk} (hs : Holds drv s) (hc : c < drv.maxCluster) :
    fatEntryOn drv s c = some ((viewOf drv s).fat c) := by
  rw [fatEntryOn,if_pos (fatSector_le G hs hc)]
  show _ = some (fatOf drv s.data c)
  rw [fatOf,if_pos hc]

theorem readFatEntry_runs (hc : c < drv.maxCluster) : (onDisk drv).Runs (readFatEntry drv c) v (.ok (v.fat c)) v := by
  rintro s hs rfl
  refine ⟨s,?_,hs,rfl⟩
  rw [readFatEntry_eq G.bytesPerSector,fatEntryOn_of_holds G hs hc]
  rfl

theorem writeFatEntry_runs (hc : c < drv.maxCluster) (hn : n < 2^28) :
    (onDisk drv).Runs (writeFatEntry drv c n) v (.ok ()) (v.setFat c n) := by
  rintro s hs rfl
  obtain ⟨hnone,-⟩ | ⟨hle,b,hlen,⟨hmask,-⟩,hw⟩ := writeFatEntry_cases G.bytesPerSector c n s
  · rw [fatEntryOn_of_holds G hs hc] at hnone
    cases hnone
  · refine ⟨_,hw,holds_overwrite hs ?_,?_⟩
    · have := (fatOffset_eq drv c).2
      omega
    · show viewOf drv _ = _
      rw [view_overwrite_fat G hs hc hlen,hmask,show 0x0FFFFFFF = 2^28 - 1 from rfl,Nat.and_two_pow_sub_one_eq_mod,
        Nat.mod_eq_of_lt hn]
      rfl

/-- The sectors of a cluster, in bytes. -/
private theorem sectors_le {s : Disk} (hs : Holds drv s) (hc : inVolume drv c) :
    sectorSize * clusterToSector drv c + sectorSize * drv.sectorsPerCluster ≤ s.data.length := by
  have := clusterOffset_le G hs hc
  rwa [G.clusterSize] at this

theorem readCluster_runs (hc : inVolume drv c) :
    (onDisk drv).Runs (Disk.readSectors (clusterToSector drv c) drv.sectorsPerCluster drv.clusterSize) v
      (.ok (v.data c)) v := by
  rintro s hs rfl
  refine ⟨s,?_,hs,rfl⟩
  rw [Disk.readSectors_run (sectors_le G hs hc) G.clusterSize]
  show _ = Except.ok (Except.ok (clusterOf drv s.data c),s)
  rw [clusterOf,if_pos hc,clusterOffset,G.clusterSize]
  rfl

/-- Writing a whole cluster overwrites its bytes on the disk. -/
theorem writeCluster_state {s : Disk} (hs : Holds drv s) (hc : inVolume drv c) {d : List UInt8} (hd : d.length = drv.clusterSize) :
    clusterOffset drv c + drv.clusterSize ≤ s.data.length ∧
      Disk.writeSectors (clusterToSector drv c) drv.sectorsPerCluster d s =
        .ok (.ok (),⟨overwrite s.data (clusterOffset drv c) d⟩) := by
  have hd' : d.length = sectorSize * drv.sectorsPerCluster := by rw [hd,G.clusterSize,sectorSize]
  refine ⟨clusterOffset_le G hs hc,?_⟩
  rw [Disk.writeSectors_run (sectors_le G hs hc) G.sectorsPerCluster hd'.ge,List.take_of_length_le hd'.le]
  rfl

theorem writeCluster_runs (hc : inVolume drv c) {d : List UInt8} (hd : d.length = drv.clusterSize) :
    (onDisk drv).Runs (Disk.writeSectors (clusterToSector drv c) drv.sectorsPerCluster d) v (.ok ()) (v.setData c d) := by
  rintro s hs rfl
  obtain ⟨hle,hw⟩ := writeCluster_state G hs hc hd
  exact ⟨_,hw,holds_overwrite hs (by rw [hd]; exact hle),view_overwrite_cluster G hs hc hd⟩

omit G in
private theorem zeroBuffer_take : zeroBuffer.take (sectorSize * 1) = List.replicate sectorSize 0 := by
  rw [zeroBuffer,List.take_replicate,show min (sectorSize * 1) 4096 = sectorSize from rfl]

omit G in
private theorem clearSectors_run {s : Disk} {sector n : Nat}
    (h : sectorSize * sector + sectorSize * n ≤ s.data.length) :
    clearSectors sector n s =
      .ok (.ok (),⟨overwrite s.data (sectorSize * sector) (List.replicate (sectorSize * n) 0)⟩) := by
  induction n generalizing sector s with
  | zero =>
    rw [Nat.mul_zero,List.replicate_zero,overwrite_nil]
    rfl
  | succ n ih =>
    rw [Nat.mul_succ] at h ⊢
    have hlen : sectorSize * sector + (List.replicate sectorSize (0 : UInt8)).length ≤ s.data.length := by
      rw [List.length_replicate]
      omega
    have hw : Disk.writeSector sector zeroBuffer s =
        .ok (.ok (),⟨overwrite s.data (sectorSize * sector) (List.replicate sectorSize 0)⟩) := by
      rw [Disk.writeSector,Disk.writeSectors_run (by rw [Nat.mul_one]; omega) Nat.one_pos,zeroBuffer_take]
      rw [zeroBuffer,List.length_replicate]
      decide
    have hrest : clearSectors (sector + 1) n ⟨overwrite s.data (sectorSize * sector) (List.replicate sectorSize 0)⟩
        = _ := ih (by rw [length_overwrite hlen,Nat.mul_succ]; omega)
    have happ := overwrite_overwrite (e := List.replicate (sectorSize * n) 0) hlen
    rw [List.length_replicate,← Nat.mul_succ] at happ
    rw [clearSectors,Prog.run_bind_ok hw,hrest,happ,List.replicate_append_replicate,Nat.add_comm sectorSize]

theorem clearCluster_runs (hc : inVolume drv c) :
    (onDisk drv).Runs (clearSectors (clusterToSector drv c) drv.sectorsPerCluster) v (.ok ())
      (v.setData c (List.replicate drv.clusterSize 0)) := by
  rintro s hs rfl
  have hz : (List.replicate drv.clusterSize (0 : UInt8)).length = drv.clusterSize := List.length_replicate ..
  refine ⟨⟨overwrite s.data (clusterOffset drv c) (List.replicate drv.clusterSize 0)⟩,?_,?_,?_⟩
  · rw [clearSectors_run (sectors_le G hs hc),G.clusterSize]
    rfl
  · exact holds_overwrite hs (by rw [hz]; exact clusterOffset_le G hs hc)
  · exact view_overwrite_cluster G hs hc hz

theorem length_clusterOf {s : Disk} (hs : Holds drv s) (hc : inVolume drv c) :
    ((viewOf drv s).data c).length = drv.clusterSize := by
  show (clusterOf drv s.data c).length = _
  rw [clusterOf,if_pos hc,length_slice (clusterOffset_le G hs hc)]

end Access
end Fat32Driver
end MofuOS.Filesystem.Fat32
