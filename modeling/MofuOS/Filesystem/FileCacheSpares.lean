import MofuOS.Filesystem.FileCacheLedger
import MofuOS.Filesystem.FileCachePreserve
import MofuOS.Filesystem.FileCacheSim

/-! What making room can lose. Only the first compaction of a call can overwrite the file that is
sorted last, which lies behind all others after it. Whether it does can be read off the state in
which the call is made. -/
namespace MofuOS.Filesystem.FileCache
open Lib
open FiniteMap (get insert remove iter modify view)
open FallibleStore (content)
variable {M : Type → Type} [FiniteMap FileNodeHandle M] {D : Type} {p : Profile} {s t u v : FileCache M D}
  {id j keep : FileNodeHandle} {f : CachedFile} {A : FileNodeHandle → List UInt8} {needed : Nat}

section Compaction
variable {L L' : Ledger M D} {saved : FileNodeHandle → Bool → D → D → Prop} {tick : UInt64} {max rest : Nat}

theorem Packed.content_of_ne (h : Packed keep s t) (hi : InArena s) (ha : (arenaOf s).Apart) (hne : id ≠ keep) :
    (arenaOf t).content id = (arenaOf s).content id := by
  cases hf : get s.files keep with
  | none => exact h.content hi ha (by simp [FileCache.packsBelow,hf]) id
  | some f => rw [h.content_last hi ha hf,if_neg hne]

/-- What a compaction does to the file sorted last depends on the files and the arena. -/
private theorem slidesClear_congr (hfiles : t.files = s.files) (harena : t.arena = s.arena) :
    slidesClear t keep = slidesClear s keep := by
  unfold slidesClear slidBytes bytesOf
  rw [hfiles,harena]

private theorem length_slidBytes_le (s : FileCache M D) (k : FileNodeHandle) : (slidBytes s k).length ≤ usedExcept s.files k := by
  have hp := ((liveSorted_perm (s := s) (k := k)).filter fun e => e.1 ≠ k).map fun e => e.2.2
  have hsum := hp.sum_eq
  rw [List.filter_map,List.map_map] at hsum
  refine Nat.le_trans ?_ (Nat.le_of_eq hsum)
  rw [slidBytes,List.length_flatMap]
  refine List.sum_le_sum fun e _ => ?_
  simp [slice]

theorem slidesClear_of_packsBelow (h : packsBelow s keep = true) : slidesClear s keep = true := by
  unfold slidesClear
  unfold packsBelow at h
  cases hf : get s.files keep with
  | none => rfl
  | some f =>
    simp only [hf,Option.all_some,Bool.or_eq_true,beq_iff_eq,decide_eq_true_eq] at h
    rw [Option.all_some,List.isPrefixOf_iff_prefix]
    have hnil : slice (slidBytes s keep) f.arenaOffset f.len = [] := by
      obtain hzero | hbelow := h
      · simp [slice,hzero]
      · have hlen := length_slidBytes_le s keep
        simp only [slice]
        rw [List.drop_eq_nil_of_le (by omega),List.take_nil]
    rw [hnil]
    exact List.nil_prefix

/-- The files that are left when the first compaction comes. -/
theorem FirstPack.left (h : FirstPack saved p tick max needed keep L L') :
    get L'.files keep = get L.files keep ∧ usedExcept L'.files keep ≤ usedExcept L.files keep := by
  have hone {L L' : Ledger M D} {rest : Nat} (h : Drops saved p tick max needed keep L rest L') :
      get L'.files keep = get L.files keep ∧ usedExcept L'.files keep ≤ usedExcept L.files keep := by
    cases h with
    | mk adds tight first =>
      exact ⟨by rw [FiniteMap.get_remove,if_neg (foremost_eq_some first).2.symm],usedExcept_remove_le⟩
  induction h with
  | now drops => exact hone drops
  | later drops _ _ ih => exact ⟨ih.1.trans (hone drops).1,Nat.le_trans ih.2 (hone drops).2⟩

end Compaction

variable [CacheFilesystemDriver D]

/-- A dirty file is saved by a write of its bytes to the disk. -/
def savedAs (A : FileNodeHandle → List UInt8) (id : FileNodeHandle) (dirty : Bool) (d d' : D) : Prop :=
  if dirty then ∃ n, CacheFilesystemDriver.writeFile id 0 (A id) d = .ok (.ok n,d') else d' = d

/-- The files other than the one that is kept hold their bytes. -/
structure Holding (A : FileNodeHandle → List UInt8) (keep : FileNodeHandle) (s : FileCache M D) (d : D) : Prop where
  driver : s.driver = d
  apart : (arenaOf s).Apart
  bytes : ∀ {id f}, id ≠ keep → get s.files id = some f → s.bytesOf f = A id

theorem holding_tracks (A : FileNodeHandle → List UInt8) (p : Profile) (keep : FileNodeHandle) :
    Tracks (Holding A keep : FileCache M D → D → Prop) (savedAs A) p keep where
  packed {s t d} h hb out := by
    refine ⟨out.moved.driver.trans h.driver,out.apart,fun {id g} hne hg => ?_⟩
    obtain ⟨f,hf,_⟩ := out.moved.get_eq_some hg
    have hcontent := out.content_of_ne hb.inArena h.apart hne
    rw [arenaOf_content hg,arenaOf_content hf,h.bytes hne hf] at hcontent
    exact Option.some.inj hcontent
  evicted {s t id f d} h _ out := by
    have hbytes := h.bytes out.ne_keep out.cached
    obtain ⟨d',_,_,⟨hd,_,n,hw⟩ | ⟨hd,_,rfl⟩,_⟩ := out.out
    · rw [hbytes,h.driver] at hw
      exact ⟨d',by rw [savedAs,hd]; exact ⟨n,hw⟩⟩
    · exact ⟨d,by rw [savedAs,hd]; rfl⟩
  saves {s id f d d'} h _ hf hne hsaved := by
    have hbytes := h.bytes hne hf
    refine ⟨fun hd => ?_,fun t out => ?_⟩
    · rw [savedAs,hd] at hsaved
      obtain ⟨n,hw⟩ := hsaved
      rw [hbytes,h.driver]
      exact ⟨n,d',hw⟩
    · have hget := out.get
      have harena := out.arena
      obtain ⟨d'',_,_,hcase,rfl⟩ := out.out
      refine ⟨?_,by rw [harena]; exact Arena.Apart.free h.apart,fun {j g} hj hg => ?_⟩
      · obtain ⟨hd,_,n,hw⟩ | ⟨hd,_,rfl⟩ := hcase
        · rw [savedAs,hd] at hsaved
          obtain ⟨n',hw'⟩ := hsaved
          rw [hbytes,h.driver,hw'] at hw
          cases hw
          rfl
        · rw [savedAs,hd] at hsaved
          exact h.driver.trans hsaved.symm
      · rw [hget] at hg
        split_ifs at hg
        exact h.bytes hj hg

/-- The first compaction of a call that makes room spares the file that is kept. -/
def RoomSpares (A : FileNodeHandle → List UInt8) (p : Profile) (needed : Nat) (keep : FileNodeHandle) (s : FileCache M D) : Prop :=
  ∀ L, FirstPack (savedAs A) p s.accessTick s.maxMemory needed keep (ledger s s.driver) L →
    slidesClear { s with files := L.files } keep = true

/-- Where there is room nothing is compacted. -/
theorem roomSpares_of_fits (hb : Bounds s) (hfits : s.arenaPushOffset + needed ≤ s.maxMemory) : RoomSpares A p needed keep s := by
  intro L hpack
  have hmax := hb.max_lt
  obtain ⟨_,_,adds,tight⟩ := hpack.drops
  rw [ledger,usizeAdd_of_lt p (show s.arenaPushOffset + needed < usizeBound by unfold usizeBound; omega)] at adds
  cases adds
  exact absurd hfits (Nat.not_le.mpr tight)

/-- A file that lies behind all others is not overwritten. -/
theorem roomSpares_of_packsBelow (h : packsBelow s keep = true) : RoomSpares A p needed keep s := by
  intro L hpack
  obtain ⟨hkept,hle⟩ := hpack.left
  apply slidesClear_of_packsBelow
  unfold packsBelow at h ⊢
  rw [show get L.files keep = get s.files keep from hkept]
  cases hf : get s.files keep with
  | none => rfl
  | some f =>
    simp only [hf,Option.all_some,Bool.or_eq_true,beq_iff_eq,decide_eq_true_eq] at h ⊢
    exact h.imp_right (Nat.le_trans hle)

/-- A cached file does not hold its bytes any more. -/
def Damaged (A : FileNodeHandle → List UInt8) (id : FileNodeHandle) (s : FileCache M D) : Prop :=
  ∃ bytes, bytes ≠ A id ∧ (arenaOf s).content id = some bytes

omit [CacheFilesystemDriver D] in
theorem Damaged.of_content (h : Damaged A id s) (hsame : (arenaOf t).content id = (arenaOf s).content id) : Damaged A id t := by
  obtain ⟨bytes,hne,hcontent⟩ := h
  exact ⟨bytes,hne,hsame.trans hcontent⟩

theorem SpaceSteps.content_keep (h : SpaceSteps p keep s t) (hl : Layout s) (hk : packsBelow s keep = true) :
    (arenaOf t).content keep = (arenaOf s).content keep ∧ Layout t ∧ packsBelow t keep = true := by
  induction h with
  | refl => exact ⟨rfl,hl,hk⟩
  | tail _ step ih =>
    obtain ⟨hcontent,hlu,hku⟩ := ih
    refine ⟨?_,⟨step.bounds hlu.1,step.apart hlu.2⟩,step.packsBelow hlu.1 hku⟩
    rw [← hcontent]
    cases step with
    | refused _ _ _ => rfl
    | evicted out => rw [out.arena,Arena.content_free_of_ne out.ne_keep.symm]
    | packed out => exact out.content hlu.1.inArena hlu.2 hku keep

/-- The handle that stands for no file is not evicted. -/
theorem SpaceSteps.content_invalid (h : SpaceSteps p keep s t) (hl : Layout s) (hne : invalidNodeHandle ≠ keep) :
    (arenaOf t).content invalidNodeHandle = (arenaOf s).content invalidNodeHandle ∧ Layout t := by
  induction h with
  | refl => exact ⟨rfl,hl⟩
  | tail _ step ih =>
    obtain ⟨hcontent,hlu⟩ := ih
    refine ⟨?_,step.bounds hlu.1,step.apart hlu.2⟩
    rw [← hcontent]
    cases step with
    | refused _ _ _ => rfl
    | evicted out => rw [out.arena,Arena.content_free_of_ne out.named.symm]
    | packed out => exact out.content_of_ne hlu.1.inArena hlu.2 hne

variable [FallibleStore D]

theorem Sim.booked (h : Sim A s) (keep : FileNodeHandle) :
    Booked (Holding A keep) s.accessTick s.maxMemory (ledger s s.driver) s :=
  booked_ledger h.layout.covered ⟨rfl,h.layout.2,fun _ hf => h.cached hf⟩

private theorem Sim.evictions (h : Sim A s) (hsteps : Evictions p keep s t) : Sim A t := by
  induction hsteps with
  | refl => exact h
  | tail _ step ih =>
    obtain ⟨_,_,out⟩ := step
    exact ih.evicted out

/-- Making room keeps the files when its first compaction does. -/
theorem Sim.spared {r : Except FileSystemError Bool} (h : Sim A s) (hspares : RoomSpares A p needed keep s)
    (hrun : ensureSpace p needed keep true s = .ok (r,t)) : Sim A t := by
  have hbooked := h.booked keep
  simp only [ensureSpace,Prog.run_get_bind] at hrun
  by_cases hpack : ∃ L, FirstPack (savedAs A) p s.accessTick s.maxMemory needed keep (ledger s s.driver) L
  · obtain ⟨L,hpack⟩ := hpack
    obtain ⟨u,v,hsteps,hfiles,harena,hpacked,hrest⟩ := hpack.loop_runs (holding_tracks A p keep) hbooked rfl hrun
    have hu := h.evictions hsteps
    have hclear : slidesClear u keep = slidesClear { s with files := L.files } keep := slidesClear_congr hfiles harena
    have hsame := (hpacked.content_iff hu.layout.1.inArena hu.layout.2).mpr (hclear.trans (hspares L hpack))
    exact ((hu.packed hpacked hsame).steps (hpacked.packsBelow hu.layout.1) hrest).1
  · simp only [not_exists] at hpack
    obtain ⟨u,hsteps,rfl | ⟨id,f,e,d,hf,hd,hw,rfl⟩⟩ := loop_unpacked (holding_tracks A p keep) hbooked hpack hrun
    · exact h.evictions hsteps
    · exact (h.evictions hsteps).refused hf hd hw

/-- Making room leaves the file that is kept with other bytes when its first compaction does. -/
theorem Sim.damaged {r : Except FileSystemError Bool} (h : Sim A s) (hspares : ¬ RoomSpares A p needed keep s)
    (hrun : ensureSpace p needed keep true s = .ok (r,t)) : Damaged A keep t := by
  have hbooked := h.booked keep
  simp only [ensureSpace,Prog.run_get_bind] at hrun
  simp only [RoomSpares,not_forall] at hspares
  obtain ⟨L,hpack,hclear⟩ := hspares
  obtain ⟨u,v,hsteps,hfiles,harena,hpacked,hrest⟩ := hpack.loop_runs (holding_tracks A p keep) hbooked rfl hrun
  have hu := h.evictions hsteps
  have hb := hu.layout.1
  have hsame : slidesClear u keep = slidesClear { s with files := L.files } keep := slidesClear_congr hfiles harena
  rw [← hsame,← hpacked.content_iff hb.inArena hu.layout.2,not_forall] at hclear
  obtain ⟨i,hne⟩ := hclear
  have hi : i = keep := by
    by_contra hi
    exact hne (hpacked.content_of_ne hb.inArena hu.layout.2 hi)
  subst hi
  have hstays := (hrest.content_keep ⟨hpacked.bounds hb,hpacked.apart⟩ (hpacked.packsBelow hb)).1
  cases hf : get u.files i with
  | none =>
    refine absurd (hpacked.content hb.inArena hu.layout.2 ?_ i) hne
    simp [packsBelow,hf]
  | some f =>
    have hlast := hpacked.content_last hb.inArena hu.layout.2 hf i
    rw [if_pos rfl] at hlast
    refine ⟨_,fun heq => hne ?_,hstays.trans hlast⟩
    rw [hlast,heq,arenaOf_content hf,hu.cached hf]

end MofuOS.Filesystem.FileCache
