import MofuOS.Filesystem.Fat32.StaleHandle
import MofuOS.Filesystem.Fat32.Fresh
import MofuOS.Words

/-! write_direntry with the arithmetic of its machine words. The offset of a slot is its index times 32, and from the
index 2^59 on that product does not fit a word. -/
namespace MofuOS.Filesystem.Fat32.Fat32Driver
open Lib Io
open Prog (liftO)

/-- The source's write_direntry; writeDirentry is the part of it in which no word overflows. -/
def writeDirentryWords (drv : Fat32Driver) (p : Profile) (dirCluster indexInDirectory : Nat) (entry : DirectoryEntry) : FsProg Disk Unit := do
  let clusterCount ← getClusterChainLength drv dirCluster
  let bytes ← readClusterChain drv dirCluster (clusterCount * drv.clusterSize)
  let entryOffset ← liftO (unsigned p 64 (indexInDirectory * directoryEntrySize : Nat))
  let entryEnd ← liftO (usizeAdd p entryOffset directoryEntrySize)
  if bytes.length < entryEnd then Prog.fail .noSpace
  else do
    let dirBuffer := bytes ++ List.replicate (clusterCount * drv.clusterSize - bytes.length) 0
    let _ ← liftO (checkRange entryOffset entryEnd dirBuffer.length)
    let dirBuffer := overwrite dirBuffer entryOffset entry.asBytes
    writeClusterChainFrom drv (dirBuffer.length + 1) dirCluster dirBuffer

variable {drv : Fat32Driver} {p : Profile} {s t : Disk} {c d i : Nat} {l : List Nat} {e : DirectoryEntry}

section Words

theorem writeDirentryWords_of_fits (h : i + 1 < 2^59) : writeDirentryWords drv p d i e = writeDirentry drv d i e := by
  have hmul : unsigned p 64 (i * directoryEntrySize : Nat) = .ok (i * directoryEntrySize) :=
    unsigned_of_lt (by rw [directoryEntrySize]; omega)
  have hadd : usizeAdd p (i * directoryEntrySize) directoryEntrySize = .ok (i * directoryEntrySize + directoryEntrySize) :=
    usizeAdd_of_lt p (by rw [directoryEntrySize,usizeBound]; omega)
  rw [writeDirentryWords,writeDirentry]
  refine congrArg (getClusterChainLength drv d >>= ·) (funext fun clusterCount => ?_)
  refine congrArg (readClusterChain drv d (clusterCount * drv.clusterSize) >>= ·) (funext fun bytes => funext fun s => ?_)
  rw [hmul,Prog.run_liftO_ok_bind,hadd,Prog.run_liftO_ok_bind]
  split_ifs with hlt
  · rfl
  · show (liftO (checkRange _ _ _) >>= _) s = _
    rw [checkRange,if_pos ⟨Nat.le_add_right _ _,by rw [List.length_append]; omega⟩,Prog.run_liftO_ok_bind]

/-- In release an index is as good as its rest below 2^59. -/
theorem writeDirentryWords_release (i : Nat) :
    writeDirentryWords drv .release d i e = writeDirentryWords drv .release d (i % 2^59) e := by
  have hmod : i * directoryEntrySize % 2^64 = i % 2^59 * directoryEntrySize % 2^64 := by
    rw [directoryEntrySize]
    omega
  have hmul : unsigned .release 64 (i * directoryEntrySize : Nat) = unsigned .release 64 (i % 2^59 * directoryEntrySize : Nat) := by
    rw [unsigned_natCast,unsigned_natCast,hmod]
    rfl
  rw [writeDirentryWords,writeDirentryWords,hmul]

end Words

/-- The 32 bytes of slot i of a directory in the clusters of l. -/
def slotBytes (drv : Fat32Driver) (s : Disk) (l : List Nat) (i : Nat) : List UInt8 :=
  slice ((viewOf drv s).contents l) (directoryEntrySize * i) directoryEntrySize

/-- No cluster of l has byte b of the disk. -/
def OutsideClusters (drv : Fat32Driver) (l : List Nat) (b : Nat) : Prop :=
  ∀ c ∈ l, b < clusterOffset drv c ∨ clusterOffset drv c + drv.clusterSize ≤ b

/-- Slot i has become e, and nothing else on the disk has changed. -/
structure OnlySlotWritten (drv : Fat32Driver) (d : Nat) (l : List Nat) (i : Nat) (e : DirectoryEntry) (s t : Disk) : Prop where
  chained : Chained drv (viewOf drv t) d l
  decodes : DirectoryEntry.fromBytes (slotBytes drv t l i) = .ok e
  others : ∀ j, j ≠ i → slotBytes drv t l j = slotBytes drv s l j
  outside : ∀ b, OutsideClusters drv l b → t.data[b]? = s.data[b]?

/-- A write inside the directory's capacity writes one slot, any other is refused. -/
structure WritesSlot (drv : Fat32Driver) (p : Profile) (d : Nat) (l : List Nat) (i : Nat) (e : DirectoryEntry) (s : Disk) : Prop where
  written : i < l.length * slotsPerCluster drv →
    ∃ t, writeDirentryWords drv p d i e s = .ok (.ok (),t) ∧ OnlySlotWritten drv d l i e s t
  refused : l.length * slotsPerCluster drv ≤ i → ∃ err, writeDirentryWords drv p d i e s = .ok (.error err,s)

section Write
variable (G : Geometry drv)
include G

/-- The write-back touches the clusters of the chain only. -/
private theorem writeClusterChainFrom_outside {buffer : List UInt8} {fuel : Nat} {r : Except FileSystemError Unit}
    (hs : Holds drv s) (h : Chained drv (viewOf drv s) c l) (hb : buffer.length = l.length * drv.clusterSize)
    (hrun : writeClusterChainFrom drv fuel c buffer s = .ok (r,t)) {b : Nat} (hout : OutsideClusters drv l b) :
    t.data[b]? = s.data[b]? := by
  have hpos := G.clusterSize_pos
  induction l generalizing c fuel s buffer with
  | nil => exact absurd rfl h.linked.ne_nil
  | cons x l ih =>
    obtain ⟨rfl,hv,hcase⟩ := h.inv
    rw [List.length_cons,Nat.succ_mul] at hb
    have htake : (buffer.take drv.clusterSize).length = drv.clusterSize := by
      rw [List.length_take]
      omega
    obtain ⟨hle,hw⟩ := writeCluster_state G hs hv htake
    obtain ⟨-,hs₁,hview⟩ := (writeCluster_runs G hv htake).returns hs hw
    have hspare : (overwrite s.data (clusterOffset drv x) (buffer.take drv.clusterSize))[b]? = s.data[b]? := by
      rw [getElem?_overwrite _ (by omega),htake]
      have := hout x List.mem_cons_self
      split_ifs <;> first | rfl | omega
    cases fuel with
    | zero => cases hrun
    | succ fuel =>
      rw [writeClusterChainFrom,if_pos ⟨by omega,(inVolume_iff.mp hv).2⟩,Prog.run_bind_ok hw] at hrun
      obtain ⟨err,herr,-⟩ | ⟨next,s₂,hnext,hrun⟩ := Prog.bind_returns hrun
      · rw [getNextCluster_readOnly drv x _ _ _ herr]
        exact hspare
      · have hsolid := solid_viewOf G hs₁
        obtain rfl := getNextCluster_readOnly drv x _ _ _ hnext
        obtain ⟨rfl,hc⟩ | ⟨y,hy,hc,hrest,-⟩ := hcase
        · have hnone := getNextCluster_none G hsolid hv (show (viewOf drv _).next x = none by rw [show viewOf drv _ = _ from hview]; exact hc)
          obtain ⟨heq,-⟩ := hnone.returns hs₁ hnext
          cases heq
          cases hrun
          exact hspare
        · have hsome := getNextCluster_some G hv (show (viewOf drv _).next x = some y by rw [show viewOf drv _ = _ from hview]; exact hc) hy
          obtain ⟨heq,-⟩ := hsome.returns hs₁ hnext
          cases heq
          refine (ih hs₁ (by rw [show viewOf drv _ = _ from hview]; exact hrest.congr fun _ _ => rfl) ?_ hrun
            fun x hx => hout x (List.mem_cons_of_mem _ hx)).trans hspare
          rw [List.length_drop]
          omega

/-- What write_direntry reads of the directory before it comes to the index. -/
private theorem directory_state (hs : Holds drv s) (h : Chained drv (viewOf drv s) d l) :
    getClusterChainLength drv d s = .ok (.ok l.length,s) ∧
      readClusterChain drv d (l.length * drv.clusterSize) s = .ok (.ok ((viewOf drv s).contents l),s) := by
  have hsolid := solid_viewOf G hs
  obtain ⟨t,ht,-⟩ := getClusterChainLength_runs G hsolid h s hs rfl
  obtain ⟨u,hu,-⟩ := readClusterChain_runs G hsolid h s hs rfl
  obtain rfl := clusterChainLengthFrom_readOnly drv _ d _ _ _ ht
  obtain rfl := readClusterChainFrom_readOnly drv _ d _ _ _ _ hu
  exact ⟨ht,hu⟩

private theorem thirtyTwo_capacity (l : List Nat) : 32 * (l.length * slotsPerCluster drv) = l.length * drv.clusterSize := by
  rw [Nat.mul_left_comm,← clusterSize_eq_slots G]

private theorem writeDirentry_refuses (hs : Holds drv s) (h : Chained drv (viewOf drv s) d l)
    (hi : l.length * slotsPerCluster drv ≤ i) : writeDirentry drv d i e s = .ok (.error .noSpace,s) := by
  obtain ⟨hlen,hread⟩ := directory_state G hs h
  have hcap := thirtyTwo_capacity G l
  rw [writeDirentry,Prog.run_bind_ok hlen,Prog.run_bind_ok hread,
    if_pos (by rw [length_contents (solid_viewOf G hs) h.inside,directoryEntrySize]; omega)]
  rfl

theorem writeDirentry_writes (hs : Holds drv s) (h : Chained drv (viewOf drv s) d l)
    (hi : i < l.length * slotsPerCluster drv) (he : e.getFirstCluster ≤ maxClusterNumber) :
    ∃ t, writeDirentry drv d i e s = .ok (.ok (),t) ∧ OnlySlotWritten drv d l i e s t := by
  have hsolid := solid_viewOf G hs
  have hcap := thirtyTwo_capacity G l
  have hlen := length_contents hsolid h.inside
  have hbytes := e.length_asBytes
  have hoff : 32 * i ≤ ((viewOf drv s).contents l).length := by omega
  obtain ⟨w,hw,-,hfat,-,hcont⟩ := writeDirentry_contents G hsolid h (k := i) (by omega) e
  obtain ⟨t,ht,-,rfl⟩ := hw s hs rfl
  have hslot : ∀ j, slotBytes drv t l j = slice (overwrite ((viewOf drv s).contents l) (32 * i) e.asBytes) (32 * j) 32 := by
    intro j
    rw [← hcont]
    rfl
  refine ⟨t,ht,h.congr fun x _ => congrFun hfat x,?_,fun j hj => ?_,fun b hb => ?_⟩
  · have hself := slice_overwrite_self (d := e.asBytes) hoff
    rw [hbytes] at hself
    rw [hslot,hself,DirectoryEntry.fromBytes,if_neg (by omega),DirectoryEntry.decode_asBytes,if_neg (Nat.not_lt.mpr he)]
  · rw [hslot,slice_overwrite_of_disjoint hoff (by rw [hbytes]; omega)]
    rfl
  · obtain ⟨hcount,hread⟩ := directory_state G hs h
    rw [writeDirentry,Prog.run_bind_ok hcount,Prog.run_bind_ok hread,if_neg (by rw [directoryEntrySize]; omega),hlen,
      Nat.sub_self,List.replicate_zero,List.append_nil] at ht
    refine writeClusterChainFrom_outside G hs h ?_ ht hb
    rw [length_overwrite (by rw [directoryEntrySize]; omega),hlen]

/-- With overflow checks an index whose slot does not end inside the words is a panic. -/
private theorem writeDirentryWords_dev (hs : Holds drv s) (h : Chained drv (viewOf drv s) d l) (hi : 2^59 ≤ i + 1) :
    writeDirentryWords drv .dev d i e s = .error .panic := by
  obtain ⟨hlen,hread⟩ := directory_state G hs h
  rw [writeDirentryWords,Prog.run_bind_ok hlen,Prog.run_bind_ok hread]
  obtain hlt | hge := Nat.lt_or_ge (i * directoryEntrySize) (2^64)
  · rw [unsigned_of_lt hlt,Prog.run_liftO_ok_bind,usizeAdd,if_neg (by rw [directoryEntrySize,usizeBound]; omega)]
    rfl
  · rw [unsigned_natCast,if_pos ⟨rfl,hge⟩]
    rfl

/-- Without them the end of the slot in front of the wrap is zero. -/
private theorem writeDirentryWords_last (hs : Holds drv s) (h : Chained drv (viewOf drv s) d l) (hi : i + 1 = 2^59) :
    writeDirentryWords drv .release d i e s = .error .panic := by
  obtain ⟨hlen,hread⟩ := directory_state G hs h
  have hmul : i * directoryEntrySize = 2^64 - 32 := by
    rw [directoryEntrySize]
    omega
  have hadd : usizeAdd .release (2^64 - 32) directoryEntrySize = .ok 0 := by decide
  rw [writeDirentryWords,Prog.run_bind_ok hlen,Prog.run_bind_ok hread,hmul,unsigned_of_lt (by omega),Prog.run_liftO_ok_bind,
    hadd,Prog.run_liftO_ok_bind,if_neg (Nat.not_lt_zero _)]
  show (liftO (checkRange _ _ _) >>= _) s = _
  rw [checkRange,if_neg (by omega)]
  rfl

/-- A slot write is local exactly when its index does not leave the words, or wraps to one that is refused as well. -/
theorem writeDirentry_local_iff (hbyte : drv.sectorsPerCluster < 2^8) (hs : Holds drv s) (h : Chained drv (viewOf drv s) d l)
    (he : e.getFirstCluster ≤ maxClusterNumber) :
    WritesSlot drv p d l i e s ↔
      i + 1 < 2^59 ∨ p = .release ∧ l.length * slotsPerCluster drv ≤ i % 2^59 ∧ i % 2^59 + 1 < 2^59 := by
  have hcap : l.length * slotsPerCluster drv < 2^58 := by
    have hmul := Nat.mul_le_mul (Nat.le_trans h.length_le G.maxCluster) (Nat.le_of_lt hbyte)
    have hsize := G.clusterSize
    have hslots := clusterSize_eq_slots G
    have hspc : slotsPerCluster drv = 16 * drv.sectorsPerCluster := by omega
    rw [hspc,Nat.mul_left_comm]
    omega
  constructor
  · intro hw
    obtain hfits | hout := Nat.lt_or_ge (i + 1) (2^59)
    · exact .inl hfits
    · obtain ⟨err,herr⟩ := hw.refused (by omega)
      cases p with
      | dev =>
        rw [writeDirentryWords_dev G hs h hout] at herr
        cases herr
      | release =>
        have hmod : i % 2^59 < 2^59 := Nat.mod_lt _ (by decide)
        rw [writeDirentryWords_release] at herr
        obtain hlast | hlast := Nat.eq_or_lt_of_le (Nat.succ_le_of_lt hmod)
        · rw [writeDirentryWords_last G hs h hlast] at herr
          cases herr
        · refine .inr ⟨rfl,Nat.not_lt.mp fun hlt => ?_,hlast⟩
          obtain ⟨t,ht,-⟩ := writeDirentry_writes G hs h hlt he
          rw [writeDirentryWords_of_fits hlast,ht] at herr
          cases herr
  · rintro (hfits | ⟨rfl,hge,hlast⟩)
    · refine ⟨fun hi => ?_,fun hi => ⟨.noSpace,?_⟩⟩
      · rw [writeDirentryWords_of_fits hfits]
        exact writeDirentry_writes G hs h hi he
      · rw [writeDirentryWords_of_fits hfits]
        exact writeDirentry_refuses G hs h hi
    · have hmod := Nat.mod_le i (2^59)
      refine ⟨fun hi => absurd hi (by omega),fun _ => ⟨.noSpace,?_⟩⟩
      rw [writeDirentryWords_release,writeDirentryWords_of_fits hlast]
      exact writeDirentry_refuses G hs h hge

end Write

private theorem smallVolume_root : Chained smallDriver (viewOf smallDriver smallVolume) 2 [2] :=
  ⟨.last (if_pos (smallVolume_fresh .dev).rootEnds),by decide⟩

theorem writeDirentry_local_iff_small : smallDriver.sectorsPerCluster < 2^8 ∧ Geometry smallDriver ∧ Holds smallDriver smallVolume ∧
    Chained smallDriver (viewOf smallDriver smallVolume) 2 [2] ∧ DirectoryEntry.createForRoot.getFirstCluster ≤ maxClusterNumber ∧
    (WritesSlot smallDriver .release 2 [2] 2 .createForRoot smallVolume ↔ 2 + 1 < 2^59 ∨
      Profile.release = .release ∧ [2].length * slotsPerCluster smallDriver ≤ 2 % 2^59 ∧ 2 % 2^59 + 1 < 2^59) :=
  have h := smallVolume_fresh .dev
  ⟨by decide,h.geometry,h.holds,smallVolume_root,by decide,
    writeDirentry_local_iff h.geometry (by decide) h.holds smallVolume_root (by decide)⟩

/-- Index 2^59 is far beyond the sixteen slots of the root directory. In release the entry goes into slot 0. -/
theorem slot_index_wraps : Geometry smallDriver ∧ Holds smallDriver smallVolume ∧
    Chained smallDriver (viewOf smallDriver smallVolume) 2 [2] ∧ [2].length * slotsPerCluster smallDriver = 16 ∧
    (∃ t, writeDirentryWords smallDriver .release 2 (2^59) .createForRoot smallVolume = .ok (.ok (),t) ∧
      DirectoryEntry.fromBytes (slotBytes smallDriver t [2] 0) = .ok .createForRoot) ∧
    ¬ WritesSlot smallDriver .release 2 [2] (2^59) .createForRoot smallVolume := by
  have G := (smallVolume_fresh .dev).geometry
  have hs := (smallVolume_fresh .dev).holds
  have hrun : ∃ t, writeDirentryWords smallDriver .release 2 (2^59) .createForRoot smallVolume = .ok (.ok (),t) ∧
      DirectoryEntry.fromBytes (slotBytes smallDriver t [2] 0) = .ok .createForRoot := by
    obtain ⟨t,ht,honly⟩ := writeDirentry_writes G hs smallVolume_root (i := 0) (e := .createForRoot) (by decide) (by decide)
    rw [writeDirentryWords_release,Nat.mod_self,writeDirentryWords_of_fits (by decide)]
    exact ⟨t,ht,honly.decodes⟩
  refine ⟨G,hs,smallVolume_root,rfl,hrun,fun hw => ?_⟩
  obtain ⟨t,ht,-⟩ := hrun
  obtain ⟨err,herr⟩ := hw.refused (by decide)
  rw [ht] at herr
  cases herr

end MofuOS.Filesystem.Fat32.Fat32Driver
