import MofuOS.Filesystem.FileCacheLayout

/-! What the calls that neither read nor write can do: flushing, pinning, hints, and
the three ways a file is dropped on request. -/
namespace MofuOS.Filesystem.FileCache
open Lib
open Prog (liftO)
open FiniteMap (get insert remove iter modify view)
open CacheFilesystemDriver (readFileInto fileSize)
variable {M : Type → Type} [FiniteMap FileNodeHandle M] {D : Type} [CacheFilesystemDriver D]
  {p : Profile} {s t u v : FileCache M D} {id : FileNodeHandle} {f g : CachedFile}

/-- One file of a flush: refused by the driver, or written back and clean. -/
inductive FlushStep : FileCache M D → FileCache M D → Prop
  | refused {s : FileCache M D} {id : FileNodeHandle} {f : CachedFile} {e : FileSystemError} {d : D}
      (cached : get s.files id = some f) (dirty : f.isDirty = true)
      (write : CacheFilesystemDriver.writeFile id 0 (s.bytesOf f) s.driver = .ok (.error e,d)) :
      FlushStep s { s with driver := d }
  | flushed {s : FileCache M D} {id : FileNodeHandle} {f : CachedFile} {n : Nat} {d : D}
      (cached : get s.files id = some f) (dirty : f.isDirty = true)
      (write : CacheFilesystemDriver.writeFile id 0 (s.bytesOf f) s.driver = .ok (.ok n,d)) :
      FlushStep s { s with
        driver := d
        files := modify s.files id fun f => { f with isDirty := false }
        trace := s.trace ++ [.wrote id (s.bytesOf f)] }

abbrev FlushSteps : FileCache M D → FileCache M D → Prop := Relation.ReflTransGen FlushStep

theorem FlushStep.arena (h : FlushStep s t) : arenaOf t = arenaOf s := by
  cases h with
  | refused _ _ _ => rfl
  | flushed _ _ _ =>
    simp only [arenaOf]
    congr 1
    exact FiniteMap.view_modify_same fun _ => rfl

theorem FlushStep.bounds (h : FlushStep s t) (hb : Bounds s) : Bounds t := by
  have harena := h.arena
  have hbd : (arenaOf t).Bounded := by
    rw [harena]
    exact hb.bounded
  cases h with
  | refused _ _ _ => exact ⟨hb.max_lt,hb.length,hbd⟩
  | flushed _ _ _ => exact ⟨hb.max_lt,hb.length,hbd⟩

theorem FlushSteps.bounds (h : FlushSteps s t) (hb : Bounds s) : Bounds t := by
  induction h with
  | refl => exact hb
  | tail _ step ih => exact step.bounds ih

/-- A flush of one file finds it clean or uncached, is refused by the driver, or cleans it. -/
theorem flushFile_cases {r : Except FileSystemError Unit} (hb : Bounds s) (h : flushFile p id s = .ok (r,t)) :
    (r = .ok () ∧ t = s ∧ ∀ f, get s.files id = some f → f.isDirty = false) ∨
      (∃ f e d, get s.files id = some f ∧ f.isDirty = true ∧ r = .error e ∧
        CacheFilesystemDriver.writeFile id 0 (s.bytesOf f) s.driver = .ok (.error e,d) ∧ t = { s with driver := d }) ∨
      ∃ f n d, get s.files id = some f ∧ f.isDirty = true ∧ r = .ok () ∧
        CacheFilesystemDriver.writeFile id 0 (s.bytesOf f) s.driver = .ok (.ok n,d) ∧
        t = { s with
          driver := d
          files := modify s.files id fun f => { f with isDirty := false }
          trace := s.trace ++ [.wrote id (s.bytesOf f)] } := by
  simp only [flushFile,Prog.run_get_bind] at h
  cases hf : get s.files id with
  | none =>
    simp only [hf] at h
    cases h
    exact .inl ⟨rfl,rfl,nofun⟩
  | some f =>
    simp only [hf] at h
    split_ifs at h with hd
    · right
      obtain ⟨e,he,rfl⟩ | ⟨n,u,hw,h⟩ := Prog.bind_returns h
      · obtain ⟨e',d,hwr,hr,rfl⟩ | ⟨_,_,_,hr,_⟩ := writeBack_returns (hb.off_lt hf) (hb.len_lt hf) he
        · cases hr
          exact .inl ⟨f,e,d,rfl,hd,rfl,hwr,rfl⟩
        · cases hr
      · obtain ⟨_,_,_,hr,_⟩ | ⟨n',d,hwr,_,rfl⟩ := writeBack_returns (hb.off_lt hf) (hb.len_lt hf) hw
        · cases hr
        · cases h
          exact .inr ⟨f,n',d,rfl,hd,rfl,hwr,rfl⟩
    · cases h
      refine .inl ⟨rfl,rfl,fun g hg => ?_⟩
      cases hg
      simpa using hd

theorem flushFile_returns {r : Except FileSystemError Unit} (hb : Bounds s) (h : flushFile p id s = .ok (r,t)) :
    FlushSteps s t := by
  obtain ⟨_,rfl,_⟩ | ⟨f,e,d,hf,hd,_,hw,rfl⟩ | ⟨f,n,d,hf,hd,_,hw,rfl⟩ := flushFile_cases hb h
  · exact .refl
  · exact .single (.refused hf hd hw)
  · exact .single (.flushed hf hd hw)

theorem flushNodes_returns {ids : List FileNodeHandle} {r : Except FileSystemError Unit} (hb : Bounds s)
    (h : flushNodes p ids s = .ok (r,t)) : FlushSteps s t := by
  induction ids generalizing s with
  | nil =>
    cases h
    exact .refl
  | cons id ids ih =>
    obtain ⟨e,he,_⟩ | ⟨_,u,hu,h⟩ := Prog.bind_returns h
    · exact flushFile_returns hb he
    · have hsteps := flushFile_returns hb hu
      exact hsteps.trans (ih (hsteps.bounds hb) h)

theorem flushAll_returns {r : Except FileSystemError Unit} (hb : Bounds s) (h : flushAll p s = .ok (r,t)) :
    FlushSteps s t := by
  simp only [flushAll,Prog.run_get_bind] at h
  exact flushNodes_returns hb h

/-- The driver was asked something, the cache itself is as it was. -/
def Queried (s u : FileCache M D) : Prop := ∃ d, Queries s.driver d ∧ u = { s with driver := d }

theorem Queried.bounds (h : Queried s t) (hb : Bounds s) : Bounds t := by
  obtain ⟨d,_,rfl⟩ := h
  exact ⟨hb.max_lt,hb.length,hb.bounded⟩

theorem Queried.arena (h : Queried s t) : arenaOf t = arenaOf s := by
  obtain ⟨d,_,rfl⟩ := h
  rfl

theorem getNodeCached_returns {r : Except FileSystemError FileNode} (h : getNodeCached id s = .ok (r,t)) :
    ∃ u, Queried s u ∧ Noted u t := by
  simp only [getNodeCached,Prog.run_get_bind] at h
  cases hn : get s.fileNodes id with
  | some node =>
    simp only [hn] at h
    cases h
    exact ⟨s,⟨s.driver,.refl,rfl⟩,.refl s⟩
  | none =>
    simp only [hn] at h
    obtain ⟨e,d,hd,_,rfl⟩ | ⟨node,d,hd,h⟩ := callDriver_bind_returns h
    · exact ⟨_,⟨d,.single (.node hd),rfl⟩,.refl _⟩
    · cases h
      exact ⟨_,⟨d,.single (.node hd),rfl⟩,⟨rfl,rfl,rfl,rfl,rfl,rfl,rfl⟩⟩

/-- Pinning asks for the size, loads an uncached file by reading nothing of it, and sets a flag. -/
theorem pinFile_returns {r : Except FileSystemError Unit} (h : pinFile p id s = .ok (r,t)) :
    ∃ u, Queried s u ∧ (Noted u t ∨ ∃ v r', readFileRange p id 0 0 u = .ok (r',v) ∧ Noted v t) := by
  have hpin (s : FileCache M D) : Noted s { s with
      files := modify s.files id fun f => { f with pinned := true, importance := .resident } } :=
    .of_modify fun _ => rfl
  simp only [pinFile,Prog.run_get_bind] at h
  split_ifs at h with hf
  · obtain ⟨e,d,hsize,_,rfl⟩ | ⟨n,d,hsize,h⟩ := callDriver_bind_returns h
    · exact ⟨_,⟨d,.single (.size hsize),rfl⟩,.inl (.refl _)⟩
    refine ⟨_,⟨d,.single (.size hsize),rfl⟩,?_⟩
    split_ifs at h with hn
    · obtain ⟨e,he,_⟩ | ⟨bs,v,hread,h⟩ := Prog.bind_returns h
      · exact .inr ⟨t,_,he,.refl t⟩
      · cases h
        exact .inr ⟨v,_,hread,hpin v⟩
    · cases h
      exact .inl (hpin _)
  · cases h
    exact ⟨s,⟨s.driver,.refl,rfl⟩,.inl (hpin s)⟩

omit [CacheFilesystemDriver D] in
theorem reserveCache_returns {imp : CacheImportance} {r : Except FileSystemError Unit}
    (h : reserveCache id imp s = .ok (r,t)) : Noted s t := by
  have hfold (children : List FileNodeHandle) (files : M CachedFile) :
      view CachedFile.core (children.foldl (fun files child => modify files child fun f =>
        if f.pinned then f else { f with importance := imp }) files) = view CachedFile.core files := by
    induction children generalizing files with
    | nil => rfl
    | cons child children ih =>
      rw [List.foldl_cons,ih]
      apply FiniteMap.view_modify_same
      intro f
      split_ifs <;> rfl
  cases h
  exact ⟨rfl,rfl,rfl,rfl,rfl,rfl,hfold _ _⟩

/-- File id leaves the map without a write-back. -/
def Dropped (id : FileNodeHandle) (f : CachedFile) (s t : FileCache M D) : Prop :=
  get s.files id = some f ∧ ∃ used, t = { s with
    files := remove s.files id
    currentMemoryUsed := used
    trace := s.trace ++ [.dropped id f.isDirty (s.bytesOf f)] }

/-- The files that evicting a directory drops are unpinned children of it. -/
inductive DropStep (files : M CachedFile) (children : List FileNodeHandle) : FileCache M D → FileCache M D → Prop
  | noted {s t : FileCache M D} (noted : Noted s t) : DropStep files children s t
  | dropped {s t : FileCache M D} {id : FileNodeHandle} {f : CachedFile} (child : id ∈ children)
      (cached : get files id = some f) (unpinned : f.pinned = false) (out : Dropped id f s t) :
      DropStep files children s t

omit [CacheFilesystemDriver D] in
theorem Dropped.arena (h : Dropped id f s t) : arenaOf t = (arenaOf s).free id := by
  obtain ⟨_,_,rfl⟩ := h
  simp only [arenaOf,FiniteMap.view_remove]
  rfl

omit [CacheFilesystemDriver D] in
theorem Dropped.bounds (h : Dropped id f s t) (hb : Bounds s) : Bounds t := by
  have hbd : (arenaOf t).Bounded := by
    rw [h.arena]
    exact hb.bounded.free
  obtain ⟨_,_,rfl⟩ := h
  exact ⟨hb.max_lt,hb.length,hbd⟩

omit [CacheFilesystemDriver D] in
private theorem evictChildren_returns {files : M CachedFile} {all children : List FileNodeHandle} {freed : Nat}
    {r : Except FileSystemError Nat} (hsub : ∀ c ∈ children, c ∈ all)
    (hfiles : ∀ {id f}, get s.files id = some f → get files id = some f)
    (h : evictChildren p children freed s = .ok (r,t)) : Relation.ReflTransGen (DropStep files all) s t := by
  induction children generalizing s freed with
  | nil =>
    cases h
    exact .refl
  | cons c children ih =>
    have hsub' : ∀ c ∈ children, c ∈ all := fun c hc => hsub c (List.mem_cons_of_mem _ hc)
    simp only [evictChildren,Prog.run_get_bind] at h
    cases hf : get s.files c with
    | none =>
      simp only [hf] at h
      exact ih hsub' hfiles h
    | some f =>
      simp only [hf] at h
      split_ifs at h with hp
      · exact ih hsub' hfiles h
      · obtain ⟨freed',_,h⟩ := Prog.liftO_bind_returns h
        simp only [removeFile,Prog.run_modify_bind,Prog.run_get_bind] at h
        obtain ⟨used,_,h⟩ := Prog.liftO_bind_returns h
        simp only [Prog.run_set_bind] at h
        have hdrop : DropStep files all s { s with
            files := remove s.files c
            currentMemoryUsed := used
            trace := s.trace ++ [.dropped c f.isDirty (s.bytesOf f)] } :=
          .dropped (hsub c List.mem_cons_self) (hfiles hf) (by simpa using hp) ⟨hf,used,rfl⟩
        have hfiles' : ∀ {id g}, get (remove s.files c) id = some g → get files id = some g := by
          intro id g hg
          rw [FiniteMap.get_remove] at hg
          split_ifs at hg
          exact hfiles hg
        exact .head hdrop (ih hsub' hfiles' h)

omit [CacheFilesystemDriver D] in
theorem evictDirectory_returns {r : Except FileSystemError Nat} (h : evictDirectory p id s = .ok (r,t)) :
    Relation.ReflTransGen (DropStep s.files ((get s.directoryChildren id).getD [])) s t := by
  simp only [evictDirectory,Prog.run_get_bind,Prog.run_set_bind] at h
  have hnoted : DropStep s.files ((get s.directoryChildren id).getD []) s
      { s with directoryChildren := remove s.directoryChildren id } := .noted ⟨rfl,rfl,rfl,rfl,rfl,rfl,rfl⟩
  obtain ⟨e,he,_⟩ | ⟨n,u,hu,h⟩ := Prog.bind_returns h
  · exact .head hnoted (evictChildren_returns (fun _ hc => hc) (fun hf => hf) he)
  · cases h
    exact (Relation.ReflTransGen.head hnoted (evictChildren_returns (fun _ hc => hc) (fun hf => hf) hu)).tail
      (.noted ⟨rfl,rfl,rfl,rfl,rfl,rfl,rfl⟩)

omit [CacheFilesystemDriver D] in
/-- Invalidation forgets what is cached of a file, dirty or not, and its node. -/
theorem invalidate_eq : invalidate p id s =
    match get s.files id with
    | none => .ok (.ok (),{ s with fileNodes := remove s.fileNodes id })
    | some f => match usizeSub p s.currentMemoryUsed f.len with
      | .ok used => .ok (.ok (),{ s with
          files := remove s.files id
          fileNodes := remove s.fileNodes id
          currentMemoryUsed := used
          trace := s.trace ++ [.dropped id f.isDirty (s.bytesOf f)] })
      | .error w => .error w := by
  simp only [invalidate,Prog.run_get_bind]
  cases hf : get s.files id with
  | none => rfl
  | some f =>
    simp only [removeFile,Prog.run_modify_bind,Prog.run_get_bind]
    cases usizeSub p s.currentMemoryUsed f.len with
    | ok used => rfl
    | error w => rfl

omit [CacheFilesystemDriver D] in
theorem invalidate_returns {r : Except FileSystemError Unit} (h : invalidate p id s = .ok (r,t)) :
    ∃ u, (u = s ∨ ∃ f, Dropped id f s u) ∧ Noted u t := by
  rw [invalidate_eq] at h
  cases hf : get s.files id with
  | none =>
    rw [hf] at h
    cases h
    exact ⟨s,.inl rfl,⟨rfl,rfl,rfl,rfl,rfl,rfl,rfl⟩⟩
  | some f =>
    rw [hf] at h
    cases hused : usizeSub p s.currentMemoryUsed f.len with
    | ok used =>
      simp only [hused] at h
      cases h
      exact ⟨_,.inr ⟨f,hf,used,rfl⟩,⟨rfl,rfl,rfl,rfl,rfl,rfl,rfl⟩⟩
    | error w =>
      simp only [hused] at h
      cases h

end MofuOS.Filesystem.FileCache
