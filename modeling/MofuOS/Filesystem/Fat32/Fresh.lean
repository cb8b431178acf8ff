import MofuOS.Filesystem.Fat32.Run

/-! A freshly formatted volume is in order, and the operations keep it so. -/
namespace MofuOS.Filesystem.Fat32
open Lib Io

namespace Fat32Driver
variable {drv : Fat32Driver} {p : Profile} {s t : Disk}

/-- The volume of a format with 512-byte sectors, mounted: the first FAT has an entry for every
cluster, the chain of the root ends at cluster 2, and the root holds at most labels. -/
structure Fresh (p : Profile) (drv : Fat32Driver) (s : Disk) : Prop where
  mounted : Fat32Driver.new p (s.data.take 512) = .ok (.ok drv)
  bytesPerSector : drv.bootSector.bytesPerSector = 512
  rootCluster : drv.bootSector.rootCluster = 2
  rootExists : 2 < drv.maxCluster
  maxCluster : drv.maxCluster ≤ 2^24
  fatSize : 512 * drv.fatStartSector + 4 * drv.maxCluster ≤ 512 * drv.dataStartSector
  holds : Holds drv s
  rootEnds : fatEntryReservedBegin ≤ (viewOf drv s).fat 2
  rootEmpty : ∀ e ∈ (viewOf drv s).slots [2], e.getFirstCluster = 0 ∧
    (e.isValid = true → e.isVolumeId = true ∧ e.isDirectory = false ∧ e.firstByte ≠ 0x2E)

/-- The fields of a mounted driver that the boot sector does not hold. -/
private theorem new_fields {bytes : List UInt8} (h : Fat32Driver.new p bytes = .ok (.ok drv)) :
    0 < drv.sectorsPerCluster ∧ drv.clusterSize = drv.sectorsPerCluster * drv.bootSector.bytesPerSector ∧
      drv.rootDirentry = .createForRoot ∧
      drv.rootFilenode.nodeId = encodeNodeId .createForRoot drv.bootSector.rootCluster := by
  rw [Fat32Driver.new] at h
  split at h
  · cases h
  · obtain ⟨avail,-,h⟩ := bind_eq_ok h
    obtain ⟨spc,hspc,h⟩ := bind_eq_ok h
    obtain ⟨max,-,h⟩ := bind_eq_ok h
    cases h
    rw [divisor] at hspc
    split_ifs at hspc with h0
    exact ⟨Nat.pos_of_ne_zero h0,rfl,rfl,rfl⟩

theorem Fresh.geometry (h : Fresh p drv s) : Geometry drv := by
  obtain ⟨hpos,hsize,hroot,-⟩ := new_fields h.mounted
  refine ⟨h.bytesPerSector,hpos,?_,h.fatSize,h.rootCluster,h.rootExists,h.maxCluster,hroot⟩
  rw [hsize,h.bytesPerSector,Nat.mul_comm]

theorem Fresh.rootNode (h : Fresh p drv s) : drv.rootFilenode.nodeId = encodeNodeId .createForRoot 2 := by
  obtain ⟨-,-,-,hnode⟩ := new_fields h.mounted
  rw [hnode,h.rootCluster]

/-- The tree of a volume that holds nothing but its root. -/
def rootTree (slots : List DirectoryEntry) : Tree where
  chain := Function.update (fun _ => []) 2 [2]
  isDir _ := true
  parent _ := 2
  depth _ := 0
  slots _ := slots

@[simp] theorem rootTree_chain (slots : List DirectoryEntry) :
    (rootTree slots).chain = Function.update (fun _ => []) 2 [2] := rfl

private theorem rootTree_mem {slots : List DirectoryEntry} {a x : Nat} (h : x ∈ (rootTree slots).chain a) : a = 2 ∧ x = 2 := by
  rw [rootTree_chain] at h
  by_cases ha : a = 2
  · subst ha
    rw [Function.update_self] at h
    exact ⟨rfl,List.mem_singleton.mp h⟩
  · rw [Function.update_of_ne ha] at h
    cases h

private theorem rootTree_dir {slots : List DirectoryEntry} {a : Nat} (h : (rootTree slots).Dir a) : a = 2 := by
  obtain ⟨x,hx⟩ := List.exists_mem_of_ne_nil _ h.1
  exact (rootTree_mem hx).1

theorem Fresh.own (h : Fresh p drv s) : Own drv (viewOf drv s) (rootTree ((viewOf drv s).slots [2])) := by
  have G := h.geometry
  have hin : inVolume drv 2 = true := inVolume_iff.mpr ⟨Nat.le_refl 2,h.rootExists⟩
  have hchain : (rootTree ((viewOf drv s).slots [2])).chain 2 = [2] := by
    rw [rootTree_chain,Function.update_self]
  have hroot : (rootTree ((viewOf drv s).slots [2])).Dir 2 := ⟨by rw [hchain]; exact List.cons_ne_nil _ _,rfl⟩
  refine ⟨⟨⟨solid_viewOf G h.holds,⟨fun a ha => ?_,fun a b x hx hy => ?_⟩,fun a x hx => ?_,fun {d} hd => ?_⟩,
    hroot,fun {d e} _ he => ?_,fun {d i j e e'} _ hi _ _ _ _ h0 => ?_⟩,fun {d e} _ he hv hb => ?_,
    fun {d i j e e'} _ _ hj _ _ _ _ => ?_⟩
  · obtain ⟨x,hx⟩ := List.exists_mem_of_ne_nil _ ha
    obtain ⟨rfl,-⟩ := rootTree_mem hx
    rw [hchain]
    exact .last (if_pos h.rootEnds)
  · rw [(rootTree_mem hx).1,(rootTree_mem hy).1]
  · rwa [(rootTree_mem hx).2]
  · rw [rootTree_dir hd,hchain]
    rfl
  · obtain ⟨hz,hlabel⟩ := h.rootEmpty e he
    refine ⟨by rw [hz]; decide,fun hv hb => absurd hb (hlabel hv).2.2,fun hc _ => ?_,fun _ h0 => absurd hz h0⟩
    rw [DirectoryEntry.isChild,Bool.and_eq_true] at hc
    exact (hlabel hc.1).2.1
  · exact absurd (h.rootEmpty e (List.mem_of_getElem? hi)).1 h0
  · exact absurd hb ((h.rootEmpty e he).2 hv).2.2
  · exact (h.rootEmpty e' (List.mem_of_getElem? hj)).1

theorem Fresh.inOrder (h : Fresh p drv s) : InOrder drv s := ⟨h.holds,_,h.own⟩

/-- The volume stays in order through every run that spares the dot entries. -/
theorem Fresh.run_inOrder (h : Fresh p drv s) {ops : List FatOp} {rs : List (Except FileSystemError FatReply)}
    (hc : meets (exec drv p) (sparesDots drv) ops s = true) (hrun : runAll (exec drv p) ops s = .ok (rs,t)) :
    InOrder drv t := by
  refine runAll_invariant (I := InOrder drv) (fun {op s r t} hop hs hx => ?_) hc h.inOrder hrun
  rcases exec_inOrder h.geometry hs hop with ⟨r',t',hx',ht⟩ | ⟨_,_,_,f,_,_,hx'⟩
  · rw [hx'] at hx
    cases hx
    exact ht
  · rw [hx'] at hx
    cases hx

/-- What holds of a fresh volume and is kept by every change that an operation from a state with c makes holds
after every run of such operations. -/
theorem Fresh.run_keeps (h : Fresh p drv s) {c : FatOp → Disk → Bool} {I : FatView → Tree → Prop}
    (hdots : ∀ op s, c op s = true → sparesDots drv op s = true) (h0 : I (viewOf drv s) (rootTree ((viewOf drv s).slots [2])))
    (step : ∀ {op s T w T'}, c op s = true → Holds drv s → Own drv (viewOf drv s) T → I (viewOf drv s) T → Own drv w T' →
      Change drv p (viewOf drv s) T op w T' → I w T') {ops : List FatOp} {rs : List (Except FileSystemError FatReply)}
    (hc : meets (exec drv p) c ops s = true) (hrun : runAll (exec drv p) ops s = .ok (rs,t)) :
    Holds drv t ∧ ∃ T, Own drv (viewOf drv t) T ∧ I (viewOf drv t) T := by
  refine runAll_invariant (I := fun s => Holds drv s ∧ ∃ T, Own drv (viewOf drv s) T ∧ I (viewOf drv s) T)
    (fun {op s r t} hop hs hx => ?_) hc ⟨h.holds,_,h.own,h0⟩ hrun
  obtain ⟨hs,T,ho,hi⟩ := hs
  rcases exec_change h.geometry hs ho (hdots op s hop) with ⟨r',t',T',hx',ht,ho',hch⟩ | ⟨_,_,_,f,_,_,hx'⟩
  · rw [hx'] at hx
    cases hx
    exact ⟨ht,T',ho',step hop hs ho hi ho' hch⟩
  · rw [hx'] at hx
    cases hx

/-- Without overflow checks every such run returns. -/
theorem Fresh.run_returns (h : Fresh .release drv s) {ops : List FatOp}
    (hc : meets (exec drv .release) (sparesDots drv) ops s = true) :
    ∃ rs t, runAll (exec drv .release) ops s = .ok (rs,t) ∧ InOrder drv t := by
  refine runAll_total (I := InOrder drv) (fun {op s} hop hs => ?_) hc h.inOrder
  rcases exec_inOrder h.geometry hs hop with hx | ⟨_,offset,data,f,_,hsum,_⟩
  · exact hx
  · rw [usizeAdd] at hsum
    split_ifs at hsum with _ hchecks
    cases hchecks

end Fat32Driver

/-- Six clusters of one sector behind a boot sector and a FAT, freshly formatted. -/
def smallVolume : Disk :=
  let boot : List UInt8 := [(11,[0,2]),(13,[1]),(14,[1,0]),(16,[1]),(19,[8,0]),(36,[1,0,0,0]),(44,[2,0,0,0])].foldl
    (fun b f => overwrite b f.1 f.2) (List.replicate 512 0)
  let fat : List UInt8 := [0xF8,0xFF,0xFF,0x0F,0xFF,0xFF,0xFF,0x0F,0xFF,0xFF,0xFF,0x0F] ++ List.replicate 500 0
  ⟨boot ++ fat ++ List.replicate (512 * 6) 0⟩

def smallDriver : Fat32Driver where
  bootSector :=
    { bytesPerSector := 512
      sectorsPerCluster := 1
      reservedSectors := 1
      numFats := 1
      rootEntries := 0
      totalSectors16 := 8
      totalSectors32 := 0
      fatSize32 := 1
      rootCluster := 2 }
  fatStartSector := 1
  rootStartSector := 2
  dataStartSector := 2
  sectorsPerCluster := 1
  clusterSize := 512
  maxCluster := 8
  rootDirNodeId := encodeNodeId .createForRoot 2
  rootDirentry := .createForRoot
  rootFilenode :=
    { nodeId := encodeNodeId .createForRoot 2
      name := [0x2F]
      fileType := .directory
      size := 0
      createdTime := 0
      modifiedTime := 0
      attributes := .dirDefault }

theorem smallVolume_fresh (p : Profile) : Fat32Driver.Fresh p smallDriver smallVolume where
  mounted := by cases p <;> decide +kernel
  bytesPerSector := rfl
  rootCluster := rfl
  rootExists := by decide
  maxCluster := by decide
  fatSize := by decide
  holds := by
    rw [Fat32Driver.Holds]
    decide +kernel
  rootEnds := by decide +kernel
  rootEmpty := by decide +kernel

/-- The same volume cut to n sectors. -/
def tinyVolume (n : Nat) : Disk := ⟨(overwrite smallVolume.data 19 [UInt8.ofNat n]).take (512 * n)⟩

def tinyDriver (n : Nat) : Fat32Driver :=
  { smallDriver with
    bootSector := { smallDriver.bootSector with totalSectors16 := n }
    maxCluster := n }

theorem tinyVolume_fresh (p : Profile) {n : Nat} (h : n = 4 ∨ n = 5) : Fat32Driver.Fresh p (tinyDriver n) (tinyVolume n) where
  mounted := by rcases h with rfl | rfl <;> cases p <;> decide +kernel
  bytesPerSector := rfl
  rootCluster := rfl
  rootExists := by rcases h with rfl | rfl <;> decide
  maxCluster := by rcases h with rfl | rfl <;> decide
  fatSize := by rcases h with rfl | rfl <;> decide
  holds := by
    rw [Fat32Driver.Holds]
    rcases h with rfl | rfl <;> decide +kernel
  rootEnds := by rcases h with rfl | rfl <;> decide +kernel
  rootEmpty := by rcases h with rfl | rfl <;> decide +kernel

end MofuOS.Filesystem.Fat32
