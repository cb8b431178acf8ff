import MofuOS.Filesystem.FileCacheWellPacked

/-! What a flush persists, wherever the driver refuses a write: the files before the refused
one are clean and on disk, the others are as they were. -/
namespace MofuOS.Filesystem.FileCache
open Lib
open FiniteMap (get insert remove iter modify view)
open FallibleStore (content)
variable {M : Type → Type} [FiniteMap FileNodeHandle M] {D : Type} [CacheFilesystemDriver D] [FallibleStore D]
  {p : Profile} {s t u : FileCache M D} {id : FileNodeHandle} {f : CachedFile} {r : Except FileSystemError Unit}

/-- No cached file is shorter than its copy on disk. -/
def NoneShorter (s : FileCache M D) : Prop :=
  ∀ id f, get s.files id = some f → (content s.driver id).length ≤ f.len

/-- File id is not cached, or clean. -/
def Clean (s : FileCache M D) (id : FileNodeHandle) : Prop := ∀ f, get s.files id = some f → f.isDirty = false

/-- Nothing moves, and the files that are clean now and were not before are on disk. -/
structure Flushing (s t : FileCache M D) : Prop where
  arena : arenaOf t = arenaOf s
  file : ∀ id f, get s.files id = some f → get t.files id = some f ∨
    f.isDirty = true ∧ get t.files id = some { f with isDirty := false } ∧ content t.driver id = s.bytesOf f
  stored : ∀ id, Clean s id → content t.driver id = content s.driver id

namespace Flushing

theorem refl (s : FileCache M D) : Flushing s s := ⟨rfl,fun _ _ hf => .inl hf,fun _ _ => rfl⟩

theorem bytesOf (h : Flushing s t) (f : CachedFile) : t.bytesOf f = s.bytesOf f := by
  have hcells : t.arena = s.arena := congrArg Arena.cells h.arena
  rw [FileCache.bytesOf,FileCache.bytesOf,hcells]

theorem absent (h : Flushing s t) (hf : get s.files id = none) : get t.files id = none := by
  have hr : view CachedFile.region t.files id = view CachedFile.region s.files id :=
    congrFun (congrArg Arena.region h.arena) id
  rw [view,view,hf,Option.map_none,Option.map_eq_none_iff] at hr
  exact hr

theorem clean (h : Flushing s t) (hc : Clean s id) : Clean t id := by
  intro g hg
  cases hf : get s.files id with
  | none =>
    rw [h.absent hf] at hg
    cases hg
  | some f =>
    obtain hsame | ⟨hd,_,_⟩ := h.file id f hf
    · rw [hsame] at hg
      cases hg
      exact hc g hf
    · rw [hc f hf] at hd
      cases hd

theorem trans (h : Flushing s u) (h' : Flushing u t) : Flushing s t where
  arena := h'.arena.trans h.arena
  file id f hf := by
    obtain hsame | ⟨hd,hclean,hstored⟩ := h.file id f hf
    · obtain hsame' | ⟨hd,hclean,hstored⟩ := h'.file id f hsame
      · exact .inl hsame'
      · exact .inr ⟨hd,hclean,by rw [hstored,h.bytesOf]⟩
    · obtain hsame' | ⟨hd',_⟩ := h'.file id _ hclean
      · refine .inr ⟨hd,hsame',?_⟩
        rw [← hstored]
        apply h'.stored id
        intro g hg
        rw [hclean] at hg
        cases hg
        rfl
      · cases hd'
  stored id hc := by rw [h'.stored id (h.clean hc),h.stored id hc]

end Flushing

/-- A successful write-back of a file no shorter than its copy leaves just its bytes on disk. -/
private theorem content_written {n : Nat} {d : D} (hb : Bounds s) (hn : NoneShorter s) (hf : get s.files id = some f)
    (hw : CacheFilesystemDriver.writeFile id 0 (s.bytesOf f) s.driver = .ok (.ok n,d)) :
    content d = Function.update (content s.driver) id (s.bytesOf f) := by
  have hlen := hb.length_bytesOf hf
  have hle := hn id f hf
  rw [FallibleStore.writeFile_ok hw,splice_zero_of_le (by omega)]

/-- One file of a flush: it is clean afterwards unless the driver refused it. -/
theorem flushFile_flushing (hb : Bounds s) (hn : NoneShorter s) (h : flushFile p id s = .ok (r,t)) :
    Flushing s t ∧ (r = .ok () → Clean t id ∧ NoneShorter t) := by
  obtain ⟨_,rfl,hc⟩ | ⟨f,e,d,hf,hd,rfl,hw,rfl⟩ | ⟨f,n,d,hf,hd,_,hw,rfl⟩ := flushFile_cases hb h
  · exact ⟨.refl _,fun _ => ⟨hc,hn⟩⟩
  · obtain ⟨bytes,_,hd'⟩ := FallibleStore.writeFile_error hw
    refine ⟨⟨rfl,fun _ _ hg => .inl hg,fun j hc => ?_⟩,nofun⟩
    have hj : j ≠ id := by
      rintro rfl
      rw [hc f hf] at hd
      cases hd
    rw [hd',Function.update_of_ne hj]
  · have hstored := content_written hb hn hf hw
    have hget (j : FileNodeHandle) : get (modify s.files id fun f => { f with isDirty := false }) j =
        if j = id then some { f with isDirty := false } else get s.files j := by
      rw [FiniteMap.get_modify]
      split_ifs with hj
      · rw [hj,hf,Option.map_some]
      · rfl
    refine ⟨⟨FlushStep.arena (.flushed hf hd hw),?_,?_⟩,fun _ => ⟨?_,?_⟩⟩
    · intro j g hg
      rw [hget]
      split_ifs with hj
      · subst hj
        rw [hf] at hg
        cases hg
        exact .inr ⟨hd,rfl,by rw [hstored,Function.update_self]⟩
      · exact .inl hg
    · intro j hc
      have hj : j ≠ id := by
        rintro rfl
        rw [hc f hf] at hd
        cases hd
      rw [hstored,Function.update_of_ne hj]
    · intro g hg
      rw [hget,if_pos rfl] at hg
      cases hg
      rfl
    · intro j g hg
      rw [hget] at hg
      split_ifs at hg with hj
      · cases hg
        rw [hstored,hj,Function.update_self,hb.length_bytesOf hf]
      · rw [hstored,Function.update_of_ne hj]
        exact hn j g hg

/-- A whole flush: every listed file is clean afterwards unless the driver refused one. -/
theorem flushNodes_flushing {ids : List FileNodeHandle} (hb : Bounds s) (hn : NoneShorter s)
    (h : flushNodes p ids s = .ok (r,t)) : Flushing s t ∧ (r = .ok () → ∀ id ∈ ids, Clean t id) := by
  induction ids generalizing s with
  | nil =>
    cases h
    exact ⟨.refl _,fun _ _ hm => nomatch hm⟩
  | cons id ids ih =>
    obtain ⟨e,he,rfl⟩ | ⟨_,u,hu,h⟩ := Prog.bind_returns h
    · exact ⟨(flushFile_flushing hb hn he).1,nofun⟩
    · obtain ⟨hstep,hok⟩ := flushFile_flushing hb hn hu
      obtain ⟨hclean,hnu⟩ := hok rfl
      obtain ⟨hrest,hall⟩ := ih ((flushFile_returns hb hu).bounds hb) hnu h
      refine ⟨hstep.trans hrest,fun hr => List.forall_mem_cons.mpr ⟨hrest.clean hclean,hall hr⟩⟩

/-- The dirty files are the only ones that a flush of everything has to list. -/
theorem flushAll_flushing (hb : Bounds s) (hn : NoneShorter s) (h : flushAll p s = .ok (r,t)) :
    Flushing s t ∧ (r = .ok () → ∀ id, Clean t id) := by
  simp only [flushAll,Prog.run_get_bind] at h
  obtain ⟨hflush,hall⟩ := flushNodes_flushing hb hn h
  refine ⟨hflush,fun hr id => ?_⟩
  by_cases hc : Clean s id
  · exact hflush.clean hc
  · apply hall hr id
    simp only [Clean,not_forall] at hc
    obtain ⟨f,hf,hd⟩ := hc
    rw [List.mem_map]
    exact ⟨(id,f),List.mem_filter.mpr ⟨(FiniteMap.mem_iter ..).mpr hf,by simpa using hd⟩,rfl⟩

/-- File id is dirty, or the disk has its cached bytes. -/
def Kept (s : FileCache M D) (id : FileNodeHandle) : Prop :=
  ∀ f, get s.files id = some f → f.isDirty = true ∨ content s.driver id = s.bytesOf f

/-- How a flush of the listed files ends. A clean file that differs from the disk is passed over. -/
structure Persists (listed : FileNodeHandle → Prop) (s : FileCache M D) (r : Except FileSystemError Unit)
    (t : FileCache M D) : Prop where
  cached : ∀ id, (get t.files id).map (fun f => (f.region,t.bytesOf f)) = (get s.files id).map fun f => (f.region,s.bytesOf f)
  stored : ∀ id, Clean s id → content t.driver id = content s.driver id
  ok : r = .ok () → ∀ id f, listed id → get t.files id = some f →
    f.isDirty = false ∧ (Kept s id → content t.driver id = t.bytesOf f)
  error : ∀ e, r = .error e → ∀ id f, Kept s id → get t.files id = some f →
    f.isDirty = true ∧ get s.files id = some f ∨ f.isDirty = false ∧ content t.driver id = t.bytesOf f

/-- A file is dirty as before, or clean and on disk if it was dirty or on disk before. -/
private theorem Flushing.dirty_or_stored (h : Flushing s t) (hk : Kept s id) {g : CachedFile} (hg : get t.files id = some g) :
    g.isDirty = true ∧ get s.files id = some g ∨ g.isDirty = false ∧ content t.driver id = t.bytesOf g := by
  cases hf : get s.files id with
  | none =>
    rw [h.absent hf] at hg
    cases hg
  | some f =>
    obtain hsame | ⟨hd,hclean,hstored⟩ := h.file id f hf
    · rw [hsame] at hg
      cases hg
      cases hd : g.isDirty with
      | true => exact .inl ⟨rfl,rfl⟩
      | false =>
        have hc : Clean s id := by
          intro g' hg'
          rw [hf] at hg'
          cases hg'
          exact hd
        refine .inr ⟨rfl,?_⟩
        rw [h.stored id hc,h.bytesOf]
        exact (hk g hf).resolve_left (by simp [hd])
    · rw [hclean] at hg
      cases hg
      exact .inr ⟨rfl,by rw [hstored,h.bytesOf]; rfl⟩

private theorem Flushing.persists {listed : FileNodeHandle → Prop} (h : Flushing s t)
    (hall : r = .ok () → ∀ id, listed id → Clean t id) : Persists listed s r t where
  cached id := by
    cases hf : get s.files id with
    | none => rw [h.absent hf]; rfl
    | some f =>
      obtain hsame | ⟨_,hclean,_⟩ := h.file id f hf
      · rw [hsame,Option.map_some,Option.map_some,h.bytesOf]
      · rw [hclean,Option.map_some,Option.map_some,h.bytesOf]
        rfl
  stored := h.stored
  ok hr id g hl hg := by
    have hc := hall hr id hl g hg
    refine ⟨hc,fun hk => ?_⟩
    obtain ⟨hd,_⟩ | ⟨_,hs⟩ := h.dirty_or_stored hk hg
    · rw [hc] at hd
      cases hd
    · exact hs
  error _ _ _ _ hk hg := h.dirty_or_stored hk hg

/-- Both flushes persist the dirty files they list, as far as the driver takes them. -/
theorem flush_persists (hl : Layout s) (hn : NoneShorter s) :
    (∀ r t, flushAll p s = .ok (r,t) → Persists (fun _ => True) s r t) ∧
      ∀ ids r t, flushNodes p ids s = .ok (r,t) → Persists (fun id => id ∈ ids) s r t := by
  constructor
  · intro r t h
    obtain ⟨hflush,hall⟩ := flushAll_flushing hl.1 hn h
    exact hflush.persists fun hr id _ => hall hr id
  · intro ids r t h
    obtain ⟨hflush,hall⟩ := flushNodes_flushing hl.1 hn h
    exact hflush.persists hall

/-- Two cached files whose copies on disk are older. -/
def heldPair (dirty : Bool) (fails : List Bool) : FileCache NodeTable FlakyDriver :=
  { (empty ⟨⟨fun h => if h = 1 then [0,1] else []⟩,fails⟩ 4 : FileCache NodeTable FlakyDriver) with
    arena := [10,11,20,0]
    arenaPushOffset := 3
    currentMemoryUsed := 3
    files := insert (insert FiniteMap.empty 1 { CachedFile.new 0 2 1 .normal with isDirty := dirty }) 2
      { CachedFile.new 2 1 2 .normal with isDirty := dirty } }

private theorem heldPair_get {dirty : Bool} {fails : List Bool} (hf : get (heldPair dirty fails).files id = some f) :
    id = 2 ∧ f.region = ⟨2,1⟩ ∨ id = 1 ∧ f.region = ⟨0,2⟩ := by
  simp only [heldPair,FiniteMap.get_insert,FiniteMap.get_empty] at hf
  split_ifs at hf with h2 h1
  · cases hf
    exact .inl ⟨h2,rfl⟩
  · cases hf
    exact .inr ⟨h1,rfl⟩

theorem heldPair_layout (dirty : Bool) (fails : List Bool) : Layout (heldPair dirty fails) := by
  refine ⟨⟨?_,rfl,Nat.le_of_ble_eq_true rfl,?_⟩,?_⟩
  · show 4 < 2^63
    decide
  · intro id r hr
    obtain ⟨f,hf,rfl⟩ := arenaOf_region_eq_some hr
    obtain ⟨_,hreg⟩ | ⟨_,hreg⟩ := heldPair_get hf <;> rw [hreg] <;> exact Nat.le_of_ble_eq_true rfl
  · intro i j r r' hij hr hr'
    obtain ⟨f,hf,rfl⟩ := arenaOf_region_eq_some hr
    obtain ⟨g,hg,rfl⟩ := arenaOf_region_eq_some hr'
    obtain ⟨rfl,hfr⟩ | ⟨rfl,hfr⟩ := heldPair_get hf <;> obtain ⟨rfl,hgr⟩ | ⟨rfl,hgr⟩ := heldPair_get hg
    · exact absurd rfl hij
    · rw [hfr,hgr]
      decide
    · rw [hfr,hgr]
      decide
    · exact absurd rfl hij

theorem heldPair_noneShorter (dirty : Bool) (fails : List Bool) : NoneShorter (heldPair dirty fails) := by
  intro id f hf
  have hlen (r : Region) (hr : f.region = r) : f.len = r.len := congrArg Region.len hr
  obtain ⟨rfl,hfr⟩ | ⟨rfl,hfr⟩ := heldPair_get hf
  · rw [hlen _ hfr]
    exact Nat.zero_le _
  · rw [hlen _ hfr]
    exact Nat.le_refl _

/-- The driver takes the second file it is given and refuses the other one. -/
theorem flush_persists_refused : ∃ t, flushAll .dev (heldPair true [false,true]) = .ok (.error .ioError,t) ∧
    content t.driver 2 = [20] ∧ Persists (fun _ => True) (heldPair true [false,true]) (.error .ioError) t := by
  have hrun : ((flushAll .dev (heldPair true [false,true])).toOption.map fun x => (x.1,content x.2.driver 2)) =
      some (.error .ioError,[20]) := by
    decide +kernel
  obtain ⟨⟨r,t⟩,ht,he⟩ := Option.map_eq_some_iff.mp hrun
  obtain ⟨rfl,hstored⟩ := Prod.mk.inj he
  have hok := of_toOption ht
  exact ⟨t,hok,hstored,(flush_persists (heldPair_layout _ _) (heldPair_noneShorter _ _)).1 _ _ hok⟩

/-- A clean file that differs from the disk still differs after the flush. -/
theorem flush_passes_clean : Layout (heldPair false []) ∧ NoneShorter (heldPair false []) ∧
    ∃ t f, flushAll .dev (heldPair false []) = .ok (.ok (),t) ∧ get t.files 1 = some f ∧
      content t.driver 1 ≠ t.bytesOf f := by
  refine ⟨heldPair_layout false [],heldPair_noneShorter false [],heldPair false [],_,rfl,rfl,?_⟩
  decide

end MofuOS.Filesystem.FileCache
