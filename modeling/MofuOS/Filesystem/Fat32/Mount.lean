import MofuOS.Filesystem.Fat32.Fresh

/-! Which boot sectors a mount can work with. The header is accepted on two of its fields;
the arithmetic of the mount and of the driver behind it rests on all the others as well. -/
namespace MofuOS.Filesystem.Fat32
open Lib Io

namespace BootSector

/-- The reserved sectors and the FATs. -/
def systemSectors (bs : BootSector) : Nat := bs.reservedSectors + bs.numFats * bs.fatSize32

def totalSectors (bs : BootSector) : Nat := if bs.totalSectors32 ≠ 0 then bs.totalSectors32 else bs.totalSectors16

/-- The whole clusters behind the system sectors, whose number the mount cuts to 32 bits. -/
def clusterCount (bs : BootSector) : Nat := (bs.totalSectors - bs.systemSectors % 2^32) / bs.sectorsPerCluster

/-- A header whose fields fit together. -/
structure Sound (bs : BootSector) : Prop where
  sectorsPerCluster : 0 < bs.sectorsPerCluster
  systemSectors : bs.systemSectors % 2^32 ≤ bs.totalSectors
  uncut : bs.systemSectors ≤ bs.totalSectors ∨ bs.clusterCount = 0
  clusterCount : bs.clusterCount + 2 < 2^24
  entryFits : 4 ≤ bs.bytesPerSector
  entriesAligned : 4 ∣ bs.bytesPerSector ∨ 4 * (bs.clusterCount + 2) ≤ bs.bytesPerSector
  fatHolds : 4 * (bs.clusterCount + 2) ≤ bs.bytesPerSector * bs.fatSize32
  rootCluster : bs.rootCluster = 2

end BootSector

namespace Fat32Driver

/-- What the driver relies on once a volume is mounted. -/
structure Consistent (drv : Fat32Driver) : Prop where
  fatEntries : ∀ c, c < drv.maxCluster → c * 4 / drv.bootSector.bytesPerSector < drv.bootSector.fatSize32 ∧
    c * 4 % drv.bootSector.bytesPerSector + 4 ≤ drv.bootSector.bytesPerSector
  apart : ∀ c c', inVolume drv c = true → inVolume drv c' = true → c ≠ c' →
    clusterToSector drv c + drv.sectorsPerCluster ≤ clusterToSector drv c' ∨
      clusterToSector drv c' + drv.sectorsPerCluster ≤ clusterToSector drv c
  behindFats : ∀ c, inVolume drv c = true →
    drv.fatStartSector + drv.bootSector.numFats * drv.bootSector.fatSize32 ≤ clusterToSector drv c
  insideVolume : ∀ c, inVolume drv c = true → clusterToSector drv c + drv.sectorsPerCluster ≤ drv.bootSector.totalSectors
  maxCluster : drv.maxCluster < 2^24
  rootNode : ∀ s, findNode drv ['/'] s = .ok (.ok drv.rootDirNodeId,s)
  /-- Names under '/' are looked up in the directory that the root node stands for. -/
  rootCluster : drv.bootSector.rootCluster = (decodeNodeId drv.rootDirNodeId).1

/-- The mount returns without leaving the range of its integers, and a driver it returns can
rely on the geometry. -/
def MountsWell (data : List UInt8) : Prop :=
  ∃ r, (∀ p, Fat32Driver.new p data = .ok r) ∧ ∀ drv, r = .ok drv → Consistent drv

/-- The driver over a header whose numbers stay in range. -/
def mounted (bs : BootSector) : Fat32Driver where
  bootSector := bs
  fatStartSector := bs.reservedSectors
  rootStartSector := bs.systemSectors
  dataStartSector := bs.systemSectors
  sectorsPerCluster := bs.sectorsPerCluster
  clusterSize := bs.sectorsPerCluster * bs.bytesPerSector
  maxCluster := bs.clusterCount + 2
  rootDirNodeId := encodeNodeId .createForRoot bs.rootCluster
  rootDirentry := .createForRoot
  rootFilenode :=
    { nodeId := encodeNodeId .createForRoot bs.rootCluster
      name := [0x2F]
      fileType := .directory
      size := 0
      createdTime := 0
      modifiedTime := 0
      attributes := .dirDefault }

variable {data : List UInt8} {bs : BootSector} {c : Nat}

theorem new_mounts (h : BootSector.fromBytes data = .ok bs) (hspc : 0 < bs.sectorsPerCluster)
    (hsys : bs.systemSectors % 2^32 ≤ bs.totalSectors) (hmax : bs.clusterCount + 2 < 2^32) (p : Profile) :
    Fat32Driver.new p data = .ok (.ok (mounted bs)) := by
  rw [Fat32Driver.new,h]
  show (u32Sub p bs.totalSectors (bs.systemSectors % 2^32) >>= _) = _
  rw [u32Sub,if_pos hsys,ok_bind,divisor,if_neg (by omega),ok_bind]
  show (u32Add p bs.clusterCount 2 >>= _) = _
  rw [u32Add,if_pos hmax,ok_bind]
  rfl

/-- With the overflow checks on, a mount that returns has stayed in range. -/
theorem of_new_returns (h : BootSector.fromBytes data = .ok bs) {r : Except FileSystemError Fat32Driver}
    (hr : Fat32Driver.new .dev data = .ok r) :
    0 < bs.sectorsPerCluster ∧ bs.systemSectors % 2^32 ≤ bs.totalSectors ∧ bs.clusterCount + 2 < 2^32 := by
  rw [Fat32Driver.new,h] at hr
  obtain ⟨avail,havail,hr⟩ := bind_eq_ok hr
  obtain ⟨spc,hspc,hr⟩ := bind_eq_ok hr
  obtain ⟨max,hmax,-⟩ := bind_eq_ok hr
  have hsub : u32Sub .dev bs.totalSectors (bs.systemSectors % 2^32) = .ok avail := havail
  rw [u32Sub] at hsub
  split_ifs at hsub with hsys hc
  · cases hsub
    rw [divisor] at hspc
    split_ifs at hspc with h0
    cases hspc
    have hadd : u32Add .dev bs.clusterCount 2 = .ok max := hmax
    rw [u32Add] at hadd
    split_ifs at hadd with hlt hc
    · exact ⟨Nat.pos_of_ne_zero h0,hsys,hlt⟩
    · exact absurd rfl hc
  · exact absurd rfl hc

section Header

theorem inVolume_mounted : inVolume (mounted bs) c = true ↔ 2 ≤ c ∧ c < bs.clusterCount + 2 := by
  rw [inVolume,Bool.and_eq_true,decide_eq_true_eq,decide_eq_true_eq]
  rfl

theorem clusterToSector_mounted (hc : 2 ≤ c) :
    clusterToSector (mounted bs) c = bs.systemSectors + (c - 2) * bs.sectorsPerCluster := if_pos hc

private theorem step_le {a b n : Nat} (h : a < b) : a * n + n ≤ b * n := by
  rw [← Nat.succ_mul]
  exact Nat.mul_le_mul_right n h

theorem apart_mounted {c' : Nat} (hc : 2 ≤ c) (hlt : c < c') :
    clusterToSector (mounted bs) c + bs.sectorsPerCluster ≤ clusterToSector (mounted bs) c' := by
  have := step_le (n := bs.sectorsPerCluster) (show c - 2 < c' - 2 by omega)
  rw [clusterToSector_mounted hc,clusterToSector_mounted (by omega)]
  omega

/-- Where the system sectors were cut, only a volume without clusters has all of them inside. -/
theorem insideVolume_mounted_iff (htotal : bs.totalSectors < 2^32) :
    (∀ c, inVolume (mounted bs) c = true → clusterToSector (mounted bs) c + bs.sectorsPerCluster ≤ bs.totalSectors) ↔
      bs.systemSectors ≤ bs.totalSectors ∨ bs.clusterCount = 0 := by
  constructor
  · intro h
    by_cases h0 : bs.clusterCount = 0
    · exact .inr h0
    · have := h 2 (inVolume_mounted.mpr (by omega))
      rw [clusterToSector_mounted (le_refl 2)] at this
      exact .inl (by omega)
  · rintro (hle | h0) c hc
    · obtain ⟨h2,hlt⟩ := inVolume_mounted.mp hc
      have hstep := step_le (n := bs.sectorsPerCluster) (show c - 2 < bs.clusterCount by omega)
      have hcount : bs.clusterCount * bs.sectorsPerCluster ≤ bs.totalSectors - bs.systemSectors := by
        rw [BootSector.clusterCount,Nat.mod_eq_of_lt (by omega)]
        exact Nat.div_mul_le_self ..
      rw [clusterToSector_mounted h2]
      omega
    · have := inVolume_mounted.mp hc
      omega

/-- An entry of the table ends inside its sector whenever the sector length is a multiple of
four, or when the first sector holds them all. -/
theorem fatEntries_mounted_iff {n size bytes : Nat} (hn : 0 < n) (hsize : 0 < size) :
    (∀ c, c < n → c * 4 / bytes < size ∧ c * 4 % bytes + 4 ≤ bytes) ↔
      4 ≤ bytes ∧ (4 ∣ bytes ∨ 4 * n ≤ bytes) ∧ 4 * n ≤ bytes * size := by
  constructor
  · intro h
    have h4 : 4 ≤ bytes := by
      have := (h 0 hn).2
      rw [Nat.zero_mul,Nat.zero_mod] at this
      omega
    by_cases hdvd : 4 ∣ bytes
    · obtain ⟨k,rfl⟩ := hdvd
      have hlast := (Nat.div_lt_iff_lt_mul (by omega)).mp (h (n - 1) (by omega)).1
      rw [Nat.mul_left_comm] at hlast
      rw [Nat.mul_assoc,Nat.mul_comm k]
      exact ⟨h4,.inl ⟨k,rfl⟩,by omega⟩
    · have hle : 4 * n ≤ bytes := by
        by_contra hlt
        have hover := (h (bytes / 4) (by omega)).2
        rw [Nat.mod_eq_of_lt (by omega)] at hover
        omega
      exact ⟨h4,.inr hle,hle.trans (Nat.le_mul_of_pos_right _ hsize)⟩
  · rintro ⟨h4,halign,hfat⟩ c hc
    refine ⟨(Nat.div_lt_iff_lt_mul (by omega)).mpr (by rw [Nat.mul_comm size]; omega),?_⟩
    rcases halign with ⟨k,rfl⟩ | hle
    · have := Nat.mod_lt c (show 0 < k by omega)
      rw [Nat.mul_comm c,Nat.mul_mod_mul_left]
      omega
    · rw [Nat.mod_eq_of_lt (by omega)]
      omega

end Header

private theorem leNat_slice_lt (data : List UInt8) (o w : Nat) : leNat (slice data o w) < 256^w :=
  (leNat_lt _).trans_le (Nat.pow_le_pow_right (by decide) (List.length_take_le _ _))

theorem fromBytes_bounds (h : BootSector.fromBytes data = .ok bs) : bs.totalSectors < 2^32 ∧ 0 < bs.fatSize32 := by
  rw [BootSector.fromBytes] at h
  split_ifs at h with hlen hfat hroot
  cases h
  refine ⟨?_,Nat.pos_of_ne_zero hfat⟩
  rw [BootSector.totalSectors]
  have h4 := leNat_slice_lt data 32 4
  have h2 := leNat_slice_lt data 19 2
  split_ifs <;> simp only <;> omega

theorem findNode_root (bs : BootSector) (s : Disk) :
    findNode (mounted bs) ['/'] s = .ok (.ok (mounted bs).rootDirNodeId,s) := by
  have hparts : (pathParts ['/']).isEmpty = true := by decide
  have hsize : ¬ (DirectoryEntry.createForRoot.isDirectory && DirectoryEntry.createForRoot.fileSize != 0) = true := by decide
  rw [findNode,findDirentry,if_pos hparts,Prog.run_pure_bind]
  exact congrFun (if_neg hsize) s

theorem consistent_mounted_iff (h : BootSector.fromBytes data = .ok bs) :
    Consistent (mounted bs) ↔ (bs.systemSectors ≤ bs.totalSectors ∨ bs.clusterCount = 0) ∧ bs.clusterCount + 2 < 2^24 ∧
      (4 ≤ bs.bytesPerSector ∧ (4 ∣ bs.bytesPerSector ∨ 4 * (bs.clusterCount + 2) ≤ bs.bytesPerSector) ∧
        4 * (bs.clusterCount + 2) ≤ bs.bytesPerSector * bs.fatSize32) ∧ bs.rootCluster = 2 := by
  obtain ⟨htotal,hfat⟩ := fromBytes_bounds h
  have hroot : (decodeNodeId (mounted bs).rootDirNodeId).1 = 2 := by
    show (decodeNodeId (encodeNodeId .createForRoot bs.rootCluster)).1 = 2
    rw [decodeNodeId_encodeNodeId]
    rfl
  rw [← fatEntries_mounted_iff (Nat.succ_pos _) hfat,← insideVolume_mounted_iff htotal]
  constructor
  · intro hc
    exact ⟨hc.insideVolume,hc.maxCluster,hc.fatEntries,hc.rootCluster.trans hroot⟩
  · rintro ⟨hinside,hmax,hentries,hcluster⟩
    refine ⟨hentries,fun c c' hc hc' hne => ?_,fun c hc => ?_,hinside,hmax,findNode_root bs,hcluster.trans hroot.symm⟩
    · have h2 := (inVolume_mounted.mp hc).1
      have h2' := (inVolume_mounted.mp hc').1
      exact (Nat.lt_or_gt_of_ne hne).imp (apart_mounted h2) (apart_mounted h2')
    · rw [clusterToSector_mounted (inVolume_mounted.mp hc).1]
      exact Nat.le_add_right ..

/-- The accepted headers that make a mount the driver can rely on. -/
theorem mountsWell_iff (h : BootSector.fromBytes data = .ok bs) : MountsWell data ↔ bs.Sound := by
  constructor
  · rintro ⟨r,hr,hc⟩
    obtain ⟨hspc,hsys,hmax⟩ := of_new_returns h (hr .dev)
    cases (new_mounts h hspc hsys hmax .dev).symm.trans (hr .dev)
    obtain ⟨huncut,hcount,⟨h4,halign,hfat⟩,hroot⟩ := (consistent_mounted_iff h).mp (hc _ rfl)
    exact ⟨hspc,hsys,huncut,hcount,h4,halign,hfat,hroot⟩
  · intro hb
    have hmax := hb.clusterCount
    refine ⟨_,new_mounts h hb.sectorsPerCluster hb.systemSectors (by omega),?_⟩
    rintro drv ⟨⟩
    exact (consistent_mounted_iff h).mpr
      ⟨hb.uncut,hb.clusterCount,⟨hb.entryFits,hb.entriesAligned,hb.fatHolds⟩,hb.rootCluster⟩

theorem mountsWell_iff_small : MountsWell (smallVolume.data.take 512) ↔ smallDriver.bootSector.Sound :=
  mountsWell_iff (by decide +kernel)

/-- An accepted sector with no sectors to a cluster, which the mount divides by. -/
theorem zero_sectors_per_cluster_panics : ∃ data bs, data.length = 512 ∧ BootSector.fromBytes data = .ok bs ∧
    (∀ p, Fat32Driver.new p data = .error .panic) ∧ ¬ MountsWell data := by
  let data := overwrite (smallVolume.data.take 512) 13 [0]
  have hpanic : ∀ p, Fat32Driver.new p data = .error .panic := by
    intro p
    cases p <;> decide +kernel
  refine ⟨data,{ smallDriver.bootSector with sectorsPerCluster := 0 },by decide +kernel,by decide +kernel,hpanic,?_⟩
  rintro ⟨r,hr,-⟩
  cases (hpanic .dev).symm.trans (hr .dev)

end Fat32Driver
end MofuOS.Filesystem.Fat32
