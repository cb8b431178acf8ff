import MofuOS.Filesystem.FileCacheWellPacked
import MofuOS.Filesystem.ByteStore

/-! The byte count of the cache over whole runs. It is adjusted by hand with every file that
comes, grows or goes; two calls get it wrong. -/
namespace MofuOS.Filesystem.FileCache
open Lib
open Prog (liftO)
open FiniteMap (get insert remove iter modify view sumOf)
open CacheFilesystemDriver (readFileInto fileSize getNode)
variable {M : Type → Type} [FiniteMap FileNodeHandle M] {D : Type} {p : Profile} {s t u v : FileCache M D}
  {id keep : FileNodeHandle} {f g : CachedFile} {needed : Nat}

/-- The bytes of all cached files. -/
def usedTotal (files : M CachedFile) : Nat := sumOf CachedFile.len files

/-- No file was placed without moving the push offset. -/
structure Covered (s : FileCache M D) : Prop where
  bounds : Bounds s
  total_le : usedTotal s.files ≤ s.arenaPushOffset

/-- The count is exact. -/
structure Exact (s : FileCache M D) : Prop extends Covered s where
  used : s.currentMemoryUsed = usedTotal s.files

theorem view_len_eq (s : FileCache M D) :
    view CachedFile.len s.files = fun id => ((arenaOf s).region id).map Region.len := by
  funext id
  simp only [arenaOf,view,Option.map_map]
  rfl

theorem usedTotal_of_region (h : (arenaOf t).region = (arenaOf s).region) : usedTotal t.files = usedTotal s.files := by
  apply FiniteMap.sumOf_of_view
  rw [view_len_eq,view_len_eq,h]

/-- A file gets a region, and the total changes by what it had and now has. -/
theorem usedTotal_assign {A : Arena FileNodeHandle UInt8} {r : Region} (h : arenaOf t = A.assign id r)
    (hA : A.region = (arenaOf s).region) :
    usedTotal t.files + ((get s.files id).map CachedFile.len).getD 0 = usedTotal s.files + r.len := by
  apply FiniteMap.sumOf_update
  funext j
  rw [view_len_eq,view_len_eq,h]
  simp only
  by_cases hj : j = id
  · subst hj
    rw [Arena.assign_region_self,Function.update_self]
    rfl
  · rw [Arena.assign_region_of_ne hj,Function.update_of_ne hj,hA]

namespace Covered
variable (h : Covered s)
include h

theorem total_lt : usedTotal s.files < usizeBound := Nat.lt_of_le_of_lt h.total_le h.bounds.push_lt

/-- Bookkeeping that moves no file. -/
theorem of_same (hb : Bounds t) (hr : (arenaOf t).region = (arenaOf s).region)
    (hpush : s.arenaPushOffset ≤ t.arenaPushOffset) : Covered t where
  bounds := hb
  total_le := by rw [usedTotal_of_region hr]; exact Nat.le_trans h.total_le hpush

theorem removed (hb : Bounds t) (hf : get s.files id = some f) (hfiles : t.files = remove s.files id)
    (hpush : t.arenaPushOffset = s.arenaPushOffset) : Covered t := by
  have hsum := FiniteMap.sumOf_remove (v := CachedFile.len) hf
  have hle := h.total_le
  unfold usedTotal at hle
  refine ⟨hb,?_⟩
  rw [hfiles,hpush,usedTotal]
  omega

/-- The file gets a region that is longer by no more than the push offset rises. -/
theorem assigned {A : Arena FileNodeHandle UInt8} {r : Region} (extra : Nat) (hb : Bounds t)
    (harena : arenaOf t = A.assign id r) (hA : A.region = (arenaOf s).region)
    (hlen : r.len = ((get s.files id).map CachedFile.len).getD 0 + extra)
    (hpush : s.arenaPushOffset + extra ≤ t.arenaPushOffset) : Covered t := by
  have htotal := usedTotal_assign harena hA
  have hle := h.total_le
  exact ⟨hb,by omega⟩

end Covered

namespace Exact
variable (h : Exact s)
include h

theorem len_le (hf : get s.files id = some f) : f.len ≤ s.currentMemoryUsed := by
  rw [h.used]
  exact FiniteMap.le_sumOf hf

theorem of_same (hc : Covered t) (hr : (arenaOf t).region = (arenaOf s).region)
    (hused : t.currentMemoryUsed = s.currentMemoryUsed) : Exact t :=
  ⟨hc,by rw [hused,h.used,usedTotal_of_region hr]⟩

/-- The file goes, and its length with it. -/
theorem removed (hc : Covered t) (hf : get s.files id = some f) (hfiles : t.files = remove s.files id)
    (hused : t.currentMemoryUsed = s.currentMemoryUsed - f.len) : Exact t := by
  have hsum := FiniteMap.sumOf_remove (v := CachedFile.len) hf
  have hu := h.used
  unfold usedTotal at hu
  refine ⟨hc,?_⟩
  rw [hused,hfiles,usedTotal]
  omega

/-- The file gets longer by what the count rises. -/
theorem assigned {A : Arena FileNodeHandle UInt8} {r : Region} (extra : Nat) (hc : Covered t)
    (harena : arenaOf t = A.assign id r) (hA : A.region = (arenaOf s).region)
    (hlen : r.len = ((get s.files id).map CachedFile.len).getD 0 + extra)
    (hused : t.currentMemoryUsed = (s.currentMemoryUsed + extra) % usizeBound) : Exact t := by
  have htotal := usedTotal_assign harena hA
  have hu := h.used
  have hlt := hc.total_lt
  refine ⟨hc,?_⟩
  rw [hused,Nat.mod_eq_of_lt (by omega)]
  omega

end Exact

theorem Packed.usedTotal (h : Packed keep s t) : usedTotal t.files = usedTotal s.files := by
  apply FiniteMap.sumOf_of_view
  funext j
  have hj := congrArg (Option.map CachedFile.len) (congrFun h.moved.files j)
  rwa [view,view,Option.map_map,Option.map_map] at hj

theorem total_liveSorted (keep : FileNodeHandle) : Arena.total ((liveSorted s.files keep).map liveRegion) = usedTotal s.files := by
  have hp := (liveSorted_perm (s := s) (k := keep)).map fun e => e.2.2
  rw [List.map_map] at hp
  have hsum := hp.sum_eq
  rw [Arena.total,List.map_map]
  exact hsum

theorem Layout.covered (h : Layout s) : Covered s := by
  refine ⟨h.1,?_⟩
  rw [← total_liveSorted invalidNodeHandle]
  apply Arena.total_le_of_apart
  · rw [List.pairwise_map]
    apply (List.pairwise_map.mp liveSorted_nodup).imp_of_mem
    intro e e' hm hm' hne
    obtain ⟨f,hf,hr⟩ := mem_liveSorted.mp hm
    obtain ⟨f',hf',hr'⟩ := mem_liveSorted.mp hm'
    have hapart := h.2 hne (arenaOf_region hf) (arenaOf_region hf')
    rwa [hr,hr'] at hapart
  · intro id r hm
    obtain ⟨e,he,hr⟩ := List.mem_map.mp hm
    obtain ⟨f,hf,hreg⟩ := mem_liveSorted.mp he
    cases hr
    rw [← hreg]
    exact h.1.stop_le hf

theorem Covered.compact_runs (h : Covered s) (p : Profile) (keep : FileNodeHandle) : ∃ t, compact p keep s = .ok (.ok (),t) := by
  apply compact_runs_of_total h.bounds.inArena
  rw [total_liveSorted,h.bounds.length]
  exact Nat.le_trans h.total_le h.bounds.push_le

/-- After a compaction the push offset is what the files take. -/
theorem Packed.push (h : Packed keep s t) : t.arenaPushOffset = FileCache.usedTotal t.files := by
  have htop := congrArg Arena.top h.arena
  rw [Arena.pack_top,Nat.zero_add,total_liveSorted] at htop
  rw [h.usedTotal]
  exact htop

theorem Packed.covered (h : Packed keep s t) (hb : Bounds s) : Covered t := ⟨h.bounds hb,Nat.le_of_eq h.push.symm⟩

variable [CacheFilesystemDriver D]

/-- The driver tells the node of a file when it has just read its bytes. -/
def NamesRead (D : Type) [CacheFilesystemDriver D] : Prop :=
  ∀ {id : FileNodeHandle} {buf data : List UInt8} {n : Nat} {d d₁ d₂ : D} {e : FileSystemError},
    readFileInto id buf d = .ok (.ok n,data,d₁) → 0 < n → getNode id d₁ ≠ .ok (.error e,d₂)

theorem SpaceStep.covered (h : SpaceStep p keep s t) (hc : Covered s) : Covered t := by
  have hb := h.bounds hc.bounds
  cases h with
  | refused _ _ _ => exact hc.of_same hb rfl (Nat.le_refl _)
  | evicted out => exact hc.removed hb out.cached out.files out.push.1
  | packed out => exact out.covered hc.bounds

/-- Every transaction keeps the files within what the push offset has passed. -/
theorem covered_closed : ClosedWrite p (Covered : FileCache M D → Prop) where
  bounds h := h.bounds
  noted h hc := hc.of_same (h.bounds hc.bounds) (by rw [h.arena]) (Nat.le_of_eq h.push.symm)
  queried h hc := by
    have hb := h.bounds hc.bounds
    obtain ⟨d,_,rfl⟩ := h
    exact hc.of_same hb rfl (Nat.le_refl _)
  space h hc := h.covered hc
  claimed h hc := by
    obtain ⟨buf,data,e,_,_,_,hpush⟩ := h.out
    exact hc.of_same (h.bounds hc.bounds) (view_of_core Prod.fst h.core) (by omega)
  loaded hf h hc := by
    obtain ⟨buf,n,data,d,hbuf,hread,_,_,harena⟩ := h.out
    have hle := CacheFilesystemDriver.readFileInto_le hread
    have hpush := congrArg Arena.top harena
    simp only [Arena.assign_top,Arena.raise_top,Arena.store_top,arenaOf] at hpush
    exact hc.assigned n (h.layout hc.bounds).1 harena rfl (by simp [hf]) (by omega)
  flush h hc := by
    have hpush := congrArg Arena.top h.arena
    exact hc.of_same (h.bounds hc.bounds) (by rw [h.arena]) (Nat.le_of_eq hpush.symm)
  created hf h hc := by
    have hpush := congrArg Arena.top h.arena
    simp only [Arena.assign_top,Arena.raise_top,Arena.store_top,arenaOf] at hpush
    exact hc.assigned 0 (h.layout hc.bounds).1 h.arena rfl (by simp [hf]) (by omega)
  extended hlt h hc := by
    have hpush := congrArg Arena.top h.arena
    simp only [Arena.assign_top,Arena.raise_top,Arena.store_top,arenaOf] at hpush
    refine hc.assigned _ (h.bounds hc.bounds hlt) h.arena rfl ?_ (Nat.le_of_eq hpush.symm)
    rw [h.cached,Option.map_some,Option.getD_some]
    exact (Nat.add_sub_cancel' (Nat.le_of_lt hlt)).symm
  relocated {_ f n _ _} hlt h hc := by
    have hpush := congrArg Arena.top h.arena
    simp only [Arena.assign_top,Arena.raise_top,Arena.store_top,arenaOf] at hpush
    refine hc.assigned (n - f.len) (h.layout hc.bounds hlt).1 h.arena rfl ?_ (by omega)
    rw [h.cached,Option.map_some,Option.getD_some]
    exact (Nat.add_sub_cancel' (Nat.le_of_lt hlt)).symm
  patched _ h hc := by
    obtain ⟨dst,_,_,harena⟩ := h.arena
    have hpush := congrArg Arena.top harena
    exact hc.of_same (h.bounds hc.bounds) (by rw [harena]; rfl) (Nat.le_of_eq hpush.symm)

private theorem SpaceStep.exact (h : SpaceStep p keep s t) (he : Exact s) : Exact t := by
  have hc := h.covered he.toCovered
  cases h with
  | refused _ _ _ => exact he.of_same hc rfl rfl
  | evicted out =>
    have hused := out.used
    rw [usizeSub_of_le p (he.len_le out.cached)] at hused
    exact he.removed hc out.cached out.files (Except.ok.inj hused).symm
  | packed out => exact ⟨hc,by rw [out.moved.used,he.used,out.usedTotal]⟩

/-- Every transaction of a read or a write keeps the count exact, as long as the driver can
tell the node of what it has read. -/
theorem exact_closed (hn : NamesRead D) : ClosedWrite p (Exact : FileCache M D → Prop) where
  bounds h := h.bounds
  noted h he := he.of_same ((covered_closed (p := p)).noted h he.toCovered) (by rw [h.arena]) h.used
  queried h he := by
    have hc := (covered_closed (p := p)).queried h he.toCovered
    obtain ⟨d,_,rfl⟩ := h
    exact he.of_same hc rfl rfl
  space h he := h.exact he
  claimed h he := he.of_same ((covered_closed (p := p)).claimed h he.toCovered) (view_of_core Prod.fst h.core) h.used
  loaded hf h he := by
    have hc := (covered_closed (p := p)).loaded hf h he.toCovered
    obtain ⟨buf,n,data,d,hbuf,hread,_,hcount,harena⟩ := h.out
    refine he.assigned n hc harena rfl (by simp [hf]) ?_
    obtain hcount | ⟨hcount,e,hnode⟩ := hcount
    · exact hcount
    · have hzero : n = 0 := by
        by_contra hne
        exact hn hread (Nat.pos_of_ne_zero hne) hnode
      rw [hcount,hzero,Nat.add_zero,Nat.mod_eq_of_lt]
      rw [he.used]
      exact he.total_lt
  flush h he := by
    refine he.of_same ((covered_closed (p := p)).flush h he.toCovered) (by rw [h.arena]) ?_
    cases h with
    | refused _ _ _ => rfl
    | flushed _ _ _ => rfl
  created hf h he := by
    refine he.assigned 0 ((covered_closed (p := p)).created hf h he.toCovered) h.arena rfl (by simp [hf]) ?_
    rw [h.used,Nat.add_zero,Nat.mod_eq_of_lt]
    rw [he.used]
    exact he.total_lt
  extended hlt h he := by
    refine he.assigned _ ((covered_closed (p := p)).extended hlt h he.toCovered) h.arena rfl ?_ h.used
    rw [h.cached,Option.map_some,Option.getD_some]
    exact (Nat.add_sub_cancel' (Nat.le_of_lt hlt)).symm
  relocated hlt h he := by
    refine he.assigned _ ((covered_closed (p := p)).relocated hlt h he.toCovered) h.arena rfl ?_ h.used
    rw [h.cached,Option.map_some,Option.getD_some]
    exact (Nat.add_sub_cancel' (Nat.le_of_lt hlt)).symm
  patched hf h he := by
    have hc := (covered_closed (p := p)).patched hf h he.toCovered
    obtain ⟨dst,_,_,harena⟩ := h.arena
    exact he.of_same hc (by rw [harena]; rfl) h.used

section Drop
omit [CacheFilesystemDriver D]

/-- The lengths of the files that evicting these children drops. -/
def droppedLens (files : M CachedFile) : List FileNodeHandle → List Nat
  | [] => []
  | c :: children =>
    match get files c with
    | none => droppedLens files children
    | some f => if f.pinned then droppedLens files children else f.len :: droppedLens (remove files c) children

/-- What evict_directory subtracts with every file is all it has freed so far, so no file but
the last one it drops may have bytes. -/
def freesOnce : CacheOp → FileCache M D → Bool
  | .evictDirectory id, s => (droppedLens s.files ((get s.directoryChildren id).getD [])).dropLast.all (· == 0)
  | _, _ => true

/-- Nothing but what the count and the layout do not see. -/
theorem Exact.of_rest (h : Exact s) (hmax : t.maxMemory = s.maxMemory) (hused : t.currentMemoryUsed = s.currentMemoryUsed)
    (harena : arenaOf t = arenaOf s) : Exact t := by
  have hcells : t.arena = s.arena := congrArg Arena.cells harena
  have hpush : t.arenaPushOffset = s.arenaPushOffset := congrArg Arena.top harena
  have hb : Bounds t := ⟨hmax ▸ h.bounds.max_lt,by rw [hcells,hmax,h.bounds.length],by rw [harena]; exact h.bounds.bounded⟩
  exact h.of_same (h.toCovered.of_same hb (by rw [harena]) (Nat.le_of_eq hpush.symm)) (by rw [harena]) hused

/-- A dropped file, its length no longer counted. -/
theorem Exact.dropped (h : Exact s) (hf : get s.files id = some f) (trace : List CacheEvent) :
    Exact { s with files := remove s.files id, trace := trace, currentMemoryUsed := s.currentMemoryUsed - f.len } := by
  refine h.removed (h.toCovered.removed ⟨h.bounds.max_lt,h.bounds.length,?_⟩ hf rfl rfl) hf rfl rfl
  have harena : arenaOf { s with
      files := remove s.files id
      trace := trace
      currentMemoryUsed := s.currentMemoryUsed - f.len } = (arenaOf s).free id := by
    simp only [arenaOf,FiniteMap.view_remove]
    rfl
  rw [harena]
  exact h.bounds.bounded.free

private theorem evictChildren_idle {children : List FileNodeHandle} {freed : Nat}
    (hnone : droppedLens s.files children = []) : evictChildren p children freed s = .ok (.ok freed,s) := by
  induction children with
  | nil => rfl
  | cons c children ih =>
    rw [droppedLens] at hnone
    simp only [evictChildren,Prog.run_get_bind]
    cases hf : get s.files c with
    | none =>
      simp only [hf] at hnone ⊢
      exact ih hnone
    | some f =>
      simp only [hf] at hnone ⊢
      split_ifs at hnone ⊢
      exact ih hnone

private theorem evictChildren_runs {children : List FileNodeHandle} (h : Exact s)
    (hc : (droppedLens s.files children).dropLast.all (· == 0) = true) :
    ∃ n t, evictChildren p children 0 s = .ok (.ok n,t) ∧ Exact t := by
  induction children generalizing s with
  | nil => exact ⟨0,s,rfl,h⟩
  | cons c children ih =>
    rw [droppedLens] at hc
    simp only [evictChildren,Prog.run_get_bind]
    cases hf : get s.files c with
    | none =>
      simp only [hf] at hc ⊢
      exact ih h hc
    | some f =>
      simp only [hf] at hc ⊢
      split_ifs at hc ⊢ with hp
      · exact ih h hc
      have hle := h.len_le hf
      have hlt := h.bounds.len_lt hf
      simp only [removeFile,Nat.zero_add,usizeAdd_of_lt p (show 0 + f.len < usizeBound by omega),Prog.run_liftO_ok_bind,
        Prog.run_modify_bind,Prog.run_get_bind,usizeSub_of_le p hle,Prog.run_set_bind]
      have hdropped := h.dropped hf (s.trace ++ [.dropped c f.isDirty (s.bytesOf f)])
      cases hrest : droppedLens (remove s.files c) children with
      | nil => exact ⟨f.len,_,evictChildren_idle hrest,hdropped⟩
      | cons l rest =>
        rw [hrest,List.dropLast_cons_cons,List.all_cons,Bool.and_eq_true,beq_iff_eq] at hc
        rw [hc.1] at hdropped ⊢
        exact ih hdropped (by rw [hrest]; exact hc.2)

theorem evictDirectory_runs (h : Exact s) (hc : freesOnce (.evictDirectory id) s = true) :
    ∃ n t, evictDirectory p id s = .ok (.ok n,t) ∧ Exact t := by
  have hb : Exact { s with directoryChildren := remove s.directoryChildren id } :=
    h.of_rest rfl rfl rfl
  obtain ⟨n,t,ht,he⟩ := evictChildren_runs (p := p) hb hc
  refine ⟨n,{ t with directoryHints := remove t.directoryHints id },?_,?_⟩
  · simp only [evictDirectory,Prog.run_get_bind,Prog.run_set_bind]
    rw [Prog.run_bind_ok ht]
    rfl
  · exact he.of_rest rfl rfl rfl

theorem invalidate_runs (id : FileNodeHandle) (h : Exact s) : ∃ t, invalidate p id s = .ok (.ok (),t) ∧ Exact t := by
  simp only [invalidate,Prog.run_get_bind]
  cases hf : get s.files id with
  | none =>
    simp only
    exact ⟨_,rfl,h.of_rest rfl rfl rfl⟩
  | some f =>
    have hd := h.dropped hf (s.trace ++ [.dropped id f.isDirty (s.bytesOf f)])
    simp only [removeFile,Prog.run_modify_bind,Prog.run_get_bind,usizeSub_of_le p (h.len_le hf),Prog.run_liftO_ok_bind,
      Prog.run_set_bind]
    exact ⟨_,rfl,hd.of_rest rfl rfl rfl⟩

theorem exact_of_no_files (hmax : s.maxMemory < 2^63) (hlen : s.arena.length = s.maxMemory)
    (hpush : s.arenaPushOffset = 0) (hfiles : s.files = FiniteMap.empty) (hused : s.currentMemoryUsed = 0) : Exact s where
  bounds := bounds_of_no_files hmax hlen hpush hfiles
  used := by rw [hused,hfiles,usedTotal,FiniteMap.sumOf_empty]
  total_le := by rw [hfiles,usedTotal,FiniteMap.sumOf_empty]; exact Nat.zero_le _

end Drop

private theorem exec_exact {op : CacheOp} {r : Except FileSystemError CacheReply} (hn : NamesRead D)
    (hc : freesOnce op s = true) (he : Exact s) (h : exec p op s = .ok (r,t)) : Exact t := by
  refine (exact_closed hn).toClosed.exec (c := freesOnce) ?_ ?_ ?_ ?_ hc he h
  · intro now id offset data s r t _ he h
    exact (exact_closed hn).write he h
  · intro id s r t hc he h
    obtain ⟨n,u,hu,he⟩ := evictDirectory_runs (p := p) he hc
    rw [hu] at h
    cases h
    exact he
  · intro id s r t _ he h
    obtain ⟨u,hu,he⟩ := invalidate_runs (p := p) id he
    rw [hu] at h
    cases h
    exact he
  · intro s r t _ he h
    cases h
    exact exact_of_no_files he.bounds.max_lt he.bounds.length rfl rfl rfl

private theorem SpaceSteps.exact (h : SpaceSteps p keep s t) (he : Exact s) : Exact t := by
  induction h with
  | refl => exact he
  | tail _ step ih => exact step.exact ih

/-- Wherever a call makes room, it does so in a state whose count is exact. -/
private theorem CallsEnsureSpace.exact {op : CacheOp} (hn : NamesRead D) (h : CallsEnsureSpace p s op needed keep u)
    (he : Exact s) : Exact u := by
  have hb (tick : UInt64) (d : D) : Exact { s with accessTick := tick, driver := d } :=
    he.of_rest rfl rfl rfl
  cases h with
  | read _ _ _ => exact hb _ _
  | pin _ _ _ _ _ => exact hb _ _
  | load _ _ _ => exact hb _ _
  | create _ _ _ _ => exact hb _ _
  | grow brought _ _ _ =>
    split_ifs at brought with hnone
    · exact (exact_closed hn).writeMiss (by simpa using hnone) (hb _ _) brought
    · cases brought
      exact hb _ _

/-- The count in state s, and what the calls that start from it subtract. In dev a
subtraction that underflows panics. -/
structure Accounts (p : Profile) (s : FileCache M D) : Prop where
  used : s.currentMemoryUsed = usedTotal s.files
  evicts : ∀ {op needed keep v u}, CallsEnsureSpace p s op needed keep v → EvictsIn p needed keep true v u →
    ∀ id f, get u.files id = some f → f.len ≤ u.currentMemoryUsed
  evictsDirectory : ∀ id, freesOnce (.evictDirectory id) s = true →
    ∃ n t, evictDirectory .dev id s = .ok (.ok n,t)
  invalidates : ∀ id, ∃ t, invalidate .dev id s = .ok (.ok (),t)

/-- The count is exact in every run in which no evicted directory drops a file after one that
has bytes, over a driver that tells the node of what it has read. -/
theorem execAll_accounts {d : D} {max : Nat} {s t : FileCache M D} {ops : List CacheOp}
    {rs : List (Except FileSystemError CacheReply)} (hn : NamesRead D) (hnew : new d max = .ok s)
    (hc : runMeets freesOnce p ops s = true) (h : execAll p ops s = .ok (rs,t)) : Accounts p t := by
  have hs : Exact s := by
    unfold new at hnew
    split_ifs at hnew with hmax
    cases hnew
    exact exact_of_no_files hmax List.length_replicate rfl rfl rfl
  have ht : Exact t := runAll_invariant (fun hc he h => exec_exact hn hc he h) hc hs h
  refine ⟨ht.used,?_,?_,?_⟩
  · intro op needed keep v u hcall hevict id f hf
    exact ((hevict.steps (hcall.exact hn ht).bounds).exact (hcall.exact hn ht)).len_le hf
  · intro id hc
    obtain ⟨n,u,hu,_⟩ := evictDirectory_runs (p := .dev) ht hc
    exact ⟨n,u,hu⟩
  · intro id
    obtain ⟨u,hu,_⟩ := invalidate_runs (p := .dev) id ht
    exact ⟨u,hu⟩

/-- Two files of two bytes each. -/
def pairFiles : ByteDriver := ⟨fun h => if h = 1 then [10,11] else if h = 2 then [20,21] else []⟩

/-- A growth, an eviction that makes room, and a directory that drops the last file. -/
def countedRun : List CacheOp :=
  [.read 1 0 2,.write 0 1 2 ⟨[12,13],by decide⟩,.read 2 0 2,.registerFileInDirectory 9 1,.registerFileInDirectory 9 2,
    .invalidate 1,.evictDirectory 9]

theorem execAll_accounts_counted : ∃ (s t : FileCache NodeTable ByteDriver)
    (rs : List (Except FileSystemError CacheReply)), new pairFiles 6 = .ok s ∧
    runMeets freesOnce .dev countedRun s = true ∧ execAll .dev countedRun s = .ok (rs,t) ∧ Accounts .dev t := by
  have hrun : ((execAll .dev countedRun (empty pairFiles 6 : FileCache NodeTable ByteDriver)).toOption.map
      fun x => x.2.currentMemoryUsed) = some 0 := by
    decide +kernel
  obtain ⟨rs,t,h,_⟩ := runAll_of_view hrun
  have hc : runMeets freesOnce .dev countedRun
      (empty pairFiles 6 : FileCache NodeTable ByteDriver) = true := by
    decide +kernel
  have hnew : new pairFiles 6 = .ok (empty pairFiles 6 : FileCache NodeTable ByteDriver) := rfl
  have hn : NamesRead ByteDriver := by
    intro id buf data n d d₁ d₂ e _ _ hnode
    cases hnode
  exact ⟨_,t,rs,hnew,hc,h,execAll_accounts hn hnew hc h⟩

/-- Of three files, two are dropped with their directory: the first one is subtracted twice. -/
theorem evictDirectory_miscounts : ∃ (s t : FileCache NodeTable ByteDriver)
    (rs : List (Except FileSystemError CacheReply)), new ⟨fun _ => [1,2]⟩ 6 = .ok s ∧
    execAll .dev [.read 1 0 2,.read 2 0 2,.read 3 0 2,.registerFileInDirectory 9 1,.registerFileInDirectory 9 2,
      .evictDirectory 9] s = .ok (rs,t) ∧ t.currentMemoryUsed ≠ usedTotal t.files := by
  have hrun : ((execAll .dev [.read 1 0 2,.read 2 0 2,.read 3 0 2,.registerFileInDirectory 9 1,
      .registerFileInDirectory 9 2,.evictDirectory 9]
      (empty ⟨fun _ => [1,2]⟩ 6 : FileCache NodeTable ByteDriver)).toOption.map
        fun x => decide (x.2.currentMemoryUsed = usedTotal x.2.files)) = some false := by
    decide +kernel
  obtain ⟨rs,t,h,hne⟩ := runAll_of_view hrun
  exact ⟨_,t,rs,rfl,h,of_decide_eq_false hne⟩

end MofuOS.Filesystem.FileCache
