import MofuOS.Filesystem.FileCacheCalls
import MofuOS.Filesystem.FileCacheFlush

/-! The driver with the cache in front of it, of filesystem/sirius.rs, and the files as its
callers see them: what calls that fail leave of them. -/
namespace MofuOS.Filesystem
open Lib
open FiniteMap (get insert remove iter modify view)
open CacheFilesystemDriver (fileSize getNode)
open FallibleStore (content)
variable {M : Type → Type} [FiniteMap FileNodeHandle M] {D : Type} [CacheFilesystemDriver D]

namespace CachedDriver

/-- The cache forgets the file before the driver below it, whose own delete is del, is asked. -/
def delete (p : Profile) (del : FileNodeHandle → FsProg D Unit) (nodeId : FileNodeHandle) : FsProg (FileCache M D) Unit := do
  FileCache.invalidate p nodeId
  FileCache.callDriver (del nodeId)

end CachedDriver

namespace FileCache
variable [FallibleStore D] {p : Profile} {s t u : FileCache M D} {id : FileNodeHandle} {f : CachedFile}
  {A : FileNodeHandle → List UInt8}

/-- The bytes of a file as the callers see them: the cached ones, else those on disk. -/
def logical (s : FileCache M D) (id : FileNodeHandle) : List UInt8 :=
  match get s.files id with
  | some f => s.bytesOf f
  | none => content s.driver id

/-- The arena is in order, a clean file is on disk, and a dirty one is no shorter than there. -/
structure Coherent (s : FileCache M D) : Prop where
  layout : Layout s
  sized : ∀ id, (content s.driver id).length < usizeBound
  stored : ∀ id f, get s.files id = some f →
    if f.isDirty then (content s.driver id).length ≤ f.len else content s.driver id = s.bytesOf f

theorem logical_cached (hf : get s.files id = some f) : logical s id = s.bytesOf f := by
  rw [logical,hf]

theorem logical_absent (hf : get s.files id = none) : logical s id = content s.driver id := by
  rw [logical,hf]

theorem Coherent.sim (h : Coherent s) : Sim (logical s) s where
  layout := h.layout
  sized := h.sized
  node id := by
    cases hf : get s.files id with
    | none =>
      rw [logical_absent hf,view,hf]
      exact rfl
    | some f =>
      have hstored := h.stored id f hf
      rw [logical_cached hf,view,hf,Option.map_some,arenaOf_content hf]
      cases hd : f.isDirty with
      | false =>
        rw [hd] at hstored
        exact ⟨hstored,rfl⟩
      | true =>
        rw [hd,if_pos rfl,← h.layout.1.length_bytesOf hf] at hstored
        exact ⟨hstored,rfl⟩

theorem Sim.logical_eq (h : Sim A s) : logical s = A := by
  funext id
  cases hf : get s.files id with
  | none => rw [logical_absent hf,h.absent hf]
  | some f => rw [logical_cached hf,h.cached hf]

theorem Damaged.logical_ne (h : Damaged A id s) : logical s ≠ A := by
  obtain ⟨bytes,hne,hcontent⟩ := h
  obtain ⟨r,hr,_⟩ := Option.map_eq_some_iff.mp hcontent
  obtain ⟨f,hf,_⟩ := arenaOf_region_eq_some hr
  intro hsame
  rw [arenaOf_content hf,← logical_cached hf,hsame] at hcontent
  exact hne (Option.some.inj hcontent).symm

/-- A write that fails before it copies its data in changes no file exactly if the room made by it
spares them. One that fails after it changes none exactly if the file holds the data already. -/
theorem writeFile_failed_iff {now : UInt32} {offset : UInt64} {data : ByteSlice} {e : FileSystemError} (h : Coherent s)
    (hw : writeFile p now id offset.toNat data.1 s = .ok (.error e,t)) :
    (¬ CopiedIn p id offset.toNat data.1 s →
      (logical t = logical s ↔ WriteSpares (logical s) p id offset.toNat data.1.length s)) ∧
    (CopiedIn p id offset.toNat data.1 s → WriteSpares (logical s) p id offset.toNat data.1.length s →
      InStep p id offset.toNat data.1.length s →
      (logical t = logical s ↔ splice (logical s id) offset.toNat data.1 = logical s id)) := by
  have hdata : data.1.length < usizeBound := Nat.lt_trans data.2 (by decide)
  constructor
  · intro hc
    constructor
    · intro hsame
      by_contra hs
      obtain ⟨j,hdamaged⟩ := writeFile_damages h.sim hdata hc hs hw
      exact hdamaged.logical_ne hsame
    · exact fun hs => (writeFile_refused h.sim hdata hc hs hw).logical_eq
  · rintro ⟨w,e',d,hreached,hnode⟩ hs hp
    obtain ⟨g,newLen,hg,hle,hnew,hge,hgrew,hrun⟩ := hreached.grew h.sim hs hp
    have hpatched := patchFile_returns hg hdata hle ((hrun now).symm.trans hw)
    rw [(hgrew.patched hg rfl hnew hle hge hpatched).logical_eq,Function.update_eq_self_iff]

/-- A failed delete of the driver leaves the files on disk alone. -/
def RefusesAlone (del : FileNodeHandle → FsProg D Unit) : Prop :=
  ∀ id e d d', del id d = .ok (.error e,d') → content d' = content d

/-- A delete that fails changes no file exactly if the cache had nothing of the file that the
disk has not. A count of used bytes that panics stops the call. -/
theorem delete_failed_iff {del : FileNodeHandle → FsProg D Unit} (hdel : RefusesAlone del) :
    (∀ e t, CachedDriver.delete p del id s = .ok (.error e,t) → logical t = logical s) ↔
      ∀ f used e d, get s.files id = some f → usizeSub p s.currentMemoryUsed f.len = .ok used →
        del id s.driver = .ok (.error e,d) → content s.driver id = s.bytesOf f := by
  constructor
  · intro hkeeps f used e d hf hused hd
    have hinv : invalidate p id s = .ok (.ok (),{ s with
        files := remove s.files id
        fileNodes := remove s.fileNodes id
        currentMemoryUsed := used
        trace := s.trace ++ [.dropped id f.isDirty (s.bytesOf f)] }) := by
      rw [invalidate_eq,hf]
      simp only [hused]
    have hcall {u : FileCache M D} (hu : u.driver = s.driver) :
        callDriver (del id) u = .ok (.error e,{ u with driver := d }) := by
      rw [callDriver,hu,hd]
    have hsame := congrFun (hkeeps _ _ ((Prog.run_bind_ok hinv).trans (hcall rfl))) id
    rw [logical_cached hf,logical_absent ((FiniteMap.get_remove ..).trans (if_pos rfl))] at hsame
    rw [← hsame,hdel id e _ _ hd]
  · intro hkept e t h
    obtain ⟨e',he,_⟩ | ⟨_,u,hinv,h⟩ := Prog.bind_returns h
    · rw [invalidate_eq] at he
      split at he
      · cases he
      · split at he <;> cases he
    obtain ⟨d,hd,rfl⟩ := callDriver_returns h
    rw [invalidate_eq] at hinv
    cases hf : get s.files id with
    | none =>
      simp only [hf] at hinv
      cases hinv
      funext j
      simp only [logical,hdel id e _ _ hd]
      rfl
    | some f =>
      simp only [hf] at hinv
      cases hused : usizeSub p s.currentMemoryUsed f.len with
      | error w =>
        simp only [hused] at hinv
        cases hinv
      | ok used =>
        simp only [hused] at hinv
        cases hinv
        have hstored := hkept f used e d hf hused hd
        funext j
        simp only [logical,FiniteMap.get_remove,hdel id e _ _ hd]
        by_cases hj : j = id
        · rw [if_pos hj,hj,hf]
          exact hstored
        · rw [if_neg hj]
          rfl

/-- A read changes no file exactly if the room made by it spares them. -/
theorem readFileRange_keeps_iff {offset outLen : Nat} {r : Except FileSystemError (List UInt8)} (h : Coherent s)
    (hr : readFileRange p id offset outLen s = .ok (r,t)) : logical t = logical s ↔ ReadSpares (logical s) p id s := by
  constructor
  · intro hsame
    by_contra hs
    exact (readFileRange_damages h.sim hs hr).logical_ne hsame
  · exact fun hs => (readFileRange_sim h.sim hs hr).1.logical_eq

/-- Which calls leave every file as it was when they fail. -/
theorem failed_keeps_logical (h : Coherent s) :
    (∀ id offset outLen e t, readFileRange p id offset outLen s = .ok (.error e,t) →
      (logical t = logical s ↔ ReadSpares (logical s) p id s)) ∧
    (∀ (now : UInt32) (id : FileNodeHandle) (offset : UInt64) (data : ByteSlice) e t,
      writeFile p now id offset.toNat data.1 s = .ok (.error e,t) →
      (¬ CopiedIn p id offset.toNat data.1 s →
        (logical t = logical s ↔ WriteSpares (logical s) p id offset.toNat data.1.length s)) ∧
      (CopiedIn p id offset.toNat data.1 s → WriteSpares (logical s) p id offset.toNat data.1.length s →
        InStep p id offset.toNat data.1.length s →
        (logical t = logical s ↔ splice (logical s id) offset.toNat data.1 = logical s id))) ∧
    ∀ (del : FileNodeHandle → FsProg D Unit) (id : FileNodeHandle), RefusesAlone del →
      ((∀ e t, CachedDriver.delete p del id s = .ok (.error e,t) → logical t = logical s) ↔
        ∀ f used e d, get s.files id = some f → usizeSub p s.currentMemoryUsed f.len = .ok used →
          del id s.driver = .ok (.error e,d) → content s.driver id = s.bytesOf f) :=
  ⟨fun _ _ _ _ _ => readFileRange_keeps_iff h,fun _ _ _ _ _ _ => writeFile_failed_iff h,fun _ _ => delete_failed_iff⟩

/-- The delete of the store below, which may fail like its other calls. -/
def flakyDelete (id : FileNodeHandle) : FsProg FlakyDriver Unit :=
  FlakyDriver.call fun d => .ok (.ok (),⟨Function.update d.content id []⟩)

theorem flakyDelete_refusesAlone : RefusesAlone flakyDelete := by
  intro id e d d' hd
  obtain ⟨hstore,_⟩ | hx := FlakyDriver.call_returns hd
  · exact congrArg ByteDriver.content hstore
  · cases hx

private theorem heldPair_coherent (fails : List Bool) : Coherent (heldPair true fails) where
  layout := heldPair_layout true fails
  sized id := by
    simp only [content,heldPair,empty]
    split_ifs <;> decide
  stored id f hf := by
    have hd : f.isDirty = true := by
      simp only [heldPair,FiniteMap.get_insert,FiniteMap.get_empty] at hf
      split_ifs at hf <;> cases hf <;> rfl
    rw [hd,if_pos rfl]
    exact heldPair_noneShorter true fails id f hf

/-- The other file cannot be saved, so none goes and nothing is compacted. -/
private theorem heldPair_spares (A : FileNodeHandle → List UInt8) : WriteSpares A .dev 1 2 2 (heldPair true [true]) := by
  intro writeEnd hsum _ L hpack
  rw [usizeAdd_of_lt _ (by decide)] at hsum
  cases hsum
  obtain ⟨_,_,_,_,first,_,_,saves,_,_,_⟩ := hpack.drops
  cases first
  obtain ⟨n,hw⟩ := saves
  cases hw

private theorem heldPair_notCopied : ¬ CopiedIn .dev 1 2 [12,13] (heldPair true [true]) := by
  rintro ⟨w,e,d,hreached,_⟩
  cases hreached with
  | inside brought cached sum inside =>
    cases brought
    cases cached
    cases sum
    exact absurd inside (by decide)
  | grown brought cached sum grows grow =>
    cases brought
    cases cached
    cases sum
    have hfull : (growFile .dev 1 { CachedFile.new 0 2 1 .normal with isDirty := true } 4
        { heldPair true [true] with accessTick := 1 }).toOption.map (fun x => x.1.toOption.isSome) = some false := by
      decide
    have hgrown : (growFile .dev 1 { CachedFile.new 0 2 1 .normal with isDirty := true } 4
        { heldPair true [true] with accessTick := 1 }).toOption.map (fun x => x.1.toOption.isSome) = some true :=
      congrArg (fun r => r.toOption.map fun x => x.1.toOption.isSome) grow
    rw [hfull] at hgrown
    cases hgrown

/-- A file that cannot grow, as the file behind it cannot be saved. -/
theorem failed_keeps_logical_full : ∃ t,
    writeFile .dev 0 1 2 [12,13] (heldPair true [true]) = .ok (.error .cacheFull,t) ∧
      logical t = logical (heldPair true [true]) :=
  ⟨_,rfl,(((failed_keeps_logical (heldPair_coherent [true])).2.1 0 1 2 ⟨[12,13],by decide⟩ .cacheFull _ rfl).1
    heldPair_notCopied).mpr (heldPair_spares _)⟩

/-- A delete that fails has dropped the dirty bytes of the file. -/
theorem delete_loses_dirty : Layout (heldPair true [true]) ∧ RefusesAlone flakyDelete ∧
    ∃ t, CachedDriver.delete .dev flakyDelete 1 (heldPair true [true]) = .ok (.error .ioError,t) ∧
      logical t 1 ≠ logical (heldPair true [true]) 1 := by
  refine ⟨heldPair_layout true [true],flakyDelete_refusesAlone,_,rfl,?_⟩
  decide

end FileCache
end MofuOS.Filesystem
