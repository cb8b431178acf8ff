import MofuOS.Filesystem.FileCacheCompact
import Mathlib.Algebra.Order.BigOperators.Group.List
import Mathlib.Algebra.Order.Group.Nat
import Mathlib.Logic.Relation

/-! How the cache makes room. ensure_space is a sequence of evictions and compactions,
and the last thing it does before it succeeds late is a compaction. -/
namespace MofuOS.Filesystem.FileCache
open Lib
open Prog (liftO)
open FiniteMap (get insert remove iter modify)
variable {M : Type → Type} [FiniteMap FileNodeHandle M] {D : Type} [CacheFilesystemDriver D]
  {p : Profile} {s t u : FileCache M D} {keep id : FileNodeHandle} {f : CachedFile}

inductive SpaceStep (p : Profile) (keep : FileNodeHandle) : FileCache M D → FileCache M D → Prop
  | refused {s : FileCache M D} {id : FileNodeHandle} {f : CachedFile} {e : FileSystemError} {d : D}
      (cached : get s.files id = some f) (dirty : f.isDirty = true)
      (write : CacheFilesystemDriver.writeFile id 0 (s.bytesOf f) s.driver = .ok (.error e,d)) :
      SpaceStep p keep s { s with driver := d }
  | evicted {s t : FileCache M D} {id : FileNodeHandle} {f : CachedFile} (out : Evicted p keep id f s t) :
      SpaceStep p keep s t
  | packed {s t : FileCache M D} (out : Packed keep s t) : SpaceStep p keep s t

abbrev SpaceSteps (p : Profile) (keep : FileNodeHandle) : FileCache M D → FileCache M D → Prop :=
  Relation.ReflTransGen (SpaceStep p keep)

theorem Evicted.arena (h : Evicted p keep id f s t) : arenaOf t = (arenaOf s).free id := by
  obtain ⟨d,events,used,_,rfl⟩ := h.out
  simp only [arenaOf,FiniteMap.view_remove]
  rfl

theorem Evicted.files (h : Evicted p keep id f s t) : t.files = remove s.files id := by
  obtain ⟨d,events,used,_,rfl⟩ := h.out
  rfl

theorem Evicted.get (h : Evicted p keep id f s t) (j : FileNodeHandle) :
    get t.files j = if j = id then none else get s.files j := by
  rw [h.files]
  exact FiniteMap.get_remove ..

theorem Evicted.push (h : Evicted p keep id f s t) :
    t.arenaPushOffset = s.arenaPushOffset ∧ t.maxMemory = s.maxMemory := by
  obtain ⟨d,events,used,_,rfl⟩ := h.out
  exact ⟨rfl,rfl⟩

theorem SpaceStep.bounds (h : SpaceStep p keep s t) (hb : Bounds s) : Bounds t := by
  cases h with
  | refused _ _ _ => exact ⟨hb.max_lt,hb.length,hb.bounded⟩
  | evicted out =>
    refine ⟨?_,?_,?_⟩
    · rw [out.push.2]
      exact hb.max_lt
    · have hcells : t.arena = s.arena := congrArg Arena.cells out.arena
      rw [out.push.2,hcells]
      exact hb.length
    · rw [out.arena]
      exact hb.bounded.free
  | packed out => exact out.bounds hb

theorem SpaceStep.apart (h : SpaceStep p keep s t) (ha : (arenaOf s).Apart) : (arenaOf t).Apart := by
  cases h with
  | refused _ _ _ => exact ha
  | evicted out =>
    rw [out.arena]
    exact ha.free
  | packed out => exact out.apart

theorem SpaceSteps.bounds (h : SpaceSteps p keep s t) (hb : Bounds s) : Bounds t := by
  induction h with
  | refl => exact hb
  | tail _ hstep ih => exact hstep.bounds ih

theorem SpaceSteps.apart (h : SpaceSteps p keep s t) (ha : (arenaOf s).Apart) : (arenaOf t).Apart := by
  induction h with
  | refl => exact ha
  | tail _ hstep ih => exact hstep.apart ih

omit [CacheFilesystemDriver D] in
theorem usedExcept_of_view (h : FiniteMap.view CachedFile.len t.files = FiniteMap.view CachedFile.len s.files) :
    usedExcept t.files keep = usedExcept s.files keep := by
  have hp := ((FiniteMap.iter_map_perm CachedFile.len h).filter fun e => e.1 ≠ keep).map Prod.snd
  rw [List.filter_map,List.filter_map,List.map_map,List.map_map] at hp
  exact hp.sum_eq

omit [CacheFilesystemDriver D] in
private theorem usedExcept_moved (h : Moved s t) : usedExcept t.files keep = usedExcept s.files keep := by
  apply usedExcept_of_view
  funext j
  have hj := congrArg (Option.map CachedFile.len) (congrFun h.files j)
  rwa [FiniteMap.view,FiniteMap.view,Option.map_map,Option.map_map] at hj

omit [CacheFilesystemDriver D] in
theorem usedExcept_remove_le {m : M CachedFile} : usedExcept (remove m id) keep ≤ usedExcept m keep := by
  obtain ⟨l,hperm,hsub⟩ := FiniteMap.iter_remove_subperm m id
  have hp := ((hperm.filter fun e => e.1 ≠ keep).map fun e => e.2.len).sum_eq
  rw [usedExcept,← hp]
  exact ((hsub.filter _).map _).sum_le_sum fun _ _ => Nat.zero_le _

omit [CacheFilesystemDriver D] in
/-- After a compaction the file sorted last lies behind all others. -/
theorem Packed.packsBelow (h : Packed keep s t) (hb : Bounds s) : packsBelow t keep = true := by
  cases hg : get t.files keep with
  | none => simp [FileCache.packsBelow,hg]
  | some g =>
    have hoff := (h.at_tail hb.inArena hg).2
    simp [FileCache.packsBelow,hg,usedExcept_moved h.moved,hoff]

/-- Making room with a file kept never takes away the room in front of it. -/
theorem SpaceStep.packsBelow (h : SpaceStep p keep s t) (hb : Bounds s) (hk : packsBelow s keep = true) :
    packsBelow t keep = true := by
  cases h with
  | refused _ _ _ => exact hk
  | evicted out =>
    obtain ⟨d,events,used,_,rfl⟩ := out.out
    simp only [FileCache.packsBelow,FiniteMap.get_remove,if_neg out.ne_keep.symm] at hk ⊢
    cases hf : get s.files keep with
    | none => rfl
    | some f =>
      simp only [hf,Option.all_some,Bool.or_eq_true,beq_iff_eq,decide_eq_true_eq] at hk ⊢
      exact hk.imp_right (Nat.le_trans usedExcept_remove_le)
  | packed out => exact out.packsBelow hb

omit [FiniteMap FileNodeHandle M] [CacheFilesystemDriver D] in
/-- The room above the push offset does not suffice. -/
def Tight (p : Profile) (needed : Nat) (s : FileCache M D) : Prop :=
  ∃ top, usizeAdd p s.arenaPushOffset needed = .ok top ∧ s.maxMemory < top

/-- A successful ensure_space left the arena alone, or ends in a compaction. -/
def MadeRoom (p : Profile) (needed : Nat) (keep : FileNodeHandle) (s t : FileCache M D) : Prop :=
  ∃ top, usizeAdd p t.arenaPushOffset needed = .ok top ∧ top ≤ t.maxMemory ∧
    (t = s ∨ (Tight p needed s ∧ ∃ u, SpaceSteps p keep s u ∧ Packed keep u t))

theorem ensureSpaceLoop_returns {needed fuel : Nat} {force : Bool} {r : Except FileSystemError Bool}
    (hb : Bounds s) (h : ensureSpaceLoop p needed keep force fuel s = .ok (r,t)) :
    SpaceSteps p keep s t ∧ ((r = .ok false ∧ Tight p needed s) ∨ (r = .ok true ∧ MadeRoom p needed keep s t)) := by
  induction fuel generalizing s with
  | zero => cases h
  | succ fuel ih =>
    simp only [ensureSpaceLoop,Prog.run_get_bind] at h
    obtain ⟨top,htop,h⟩ := Prog.liftO_bind_returns h
    split_ifs at h with hfull
    swap
    · cases h
      exact ⟨.refl,.inr ⟨rfl,top,htop,Nat.not_lt.mp hfull,.inl rfl⟩⟩
    obtain ⟨e,he,_⟩ | ⟨n,s1,hev,h⟩ := Prog.bind_returns h
    · obtain ⟨hr,_⟩ | ⟨hr,_⟩ | ⟨_,_,hr,_⟩ := evictOneKeepAlive_returns hb he <;> cases hr
    have hstop {s1 : FileCache M D} (hs : SpaceSteps p keep s s1) (h : (pure false : FsProg _ Bool) s1 = .ok (r,t)) :
        SpaceSteps p keep s t ∧ ((r = .ok false ∧ Tight p needed s) ∨ (r = .ok true ∧ MadeRoom p needed keep s t)) := by
      cases h
      exact ⟨hs,.inl ⟨rfl,top,htop,hfull⟩⟩
    obtain ⟨hr,rfl⟩ | ⟨hr,id,f,e,d,hf,_,hd,hw,rfl⟩ | ⟨id,f,hr,out,_⟩ := evictOneKeepAlive_returns hb hev
    · cases hr
      exact hstop .refl h
    · cases hr
      exact hstop (.single (.refused hf hd hw)) h
    · cases hr
      have hstep : SpaceSteps p keep s s1 := .single (.evicted out)
      split_ifs at h with hlen
      swap
      · exact hstop hstep h
      simp only [Prog.run_get_bind] at h
      obtain ⟨sum,_,h⟩ := Prog.liftO_bind_returns h
      obtain ⟨rest,_,h⟩ := Prog.liftO_bind_returns h
      have hb1 := hstep.bounds hb
      -- the two ways into the next pass: with a compaction, or with the push offset unchanged
      split_ifs at h with hrest
      · obtain ⟨e,he,_⟩ | ⟨_,s2,hc,h⟩ := Prog.bind_returns h
        · cases (compact_returns hb1.inArena he).1
        have hpacked := (compact_returns hb1.inArena hc).2
        obtain ⟨hsteps,hres⟩ := ih (hpacked.bounds hb1) h
        have hall : SpaceSteps p keep s t := (hstep.tail (.packed hpacked)).trans hsteps
        refine ⟨hall,hres.imp (fun hr => ⟨hr.1,top,htop,hfull⟩) ?_⟩
        rintro ⟨hr,top',htop',hle,hcase⟩
        refine ⟨hr,top',htop',hle,.inr ⟨⟨top,htop,hfull⟩,?_⟩⟩
        obtain rfl | ⟨_,u,hu,hp⟩ := hcase
        · exact ⟨s1,hstep,hpacked⟩
        · exact ⟨u,(hstep.tail (.packed hpacked)).trans hu,hp⟩
      · obtain ⟨hsteps,hres⟩ := ih hb1 h
        refine ⟨hstep.trans hsteps,hres.imp (fun hr => ⟨hr.1,top,htop,hfull⟩) ?_⟩
        rintro ⟨hr,top',htop',hle,hcase⟩
        refine ⟨hr,top',htop',hle,.inr ⟨⟨top,htop,hfull⟩,?_⟩⟩
        obtain rfl | ⟨_,u,hu,hp⟩ := hcase
        · rw [out.push.1,htop] at htop'
          cases htop'
          have hmax := out.push.2
          omega
        · exact ⟨u,hstep.trans hu,hp⟩

theorem ensureSpace_returns {needed : Nat} {force : Bool} {r : Except FileSystemError Bool}
    (hb : Bounds s) (h : ensureSpace p needed keep force s = .ok (r,t)) :
    SpaceSteps p keep s t ∧ ((r = .ok false ∧ Tight p needed s) ∨ (r = .ok true ∧ MadeRoom p needed keep s t)) := by
  simp only [ensureSpace,Prog.run_get_bind] at h
  exact ensureSpaceLoop_returns hb h

/-- A call of ensure_space in state s calls evict_one_keep_alive in state u. -/
inductive EvictsIn (p : Profile) (needed : Nat) (keep : FileNodeHandle) (force : Bool) :
    FileCache M D → FileCache M D → Prop
  | now {s : FileCache M D} (tight : Tight p needed s) : EvictsIn p needed keep force s s
  | later {s v w u : FileCache M D} {n sum rest : Nat} (tight : Tight p needed s)
      (evict : evictOneKeepAlive p keep force s = .ok (.ok n,v)) (some : n ≠ 0)
      (adds : usizeAdd p v.currentMemoryUsed needed = .ok sum) (subtracts : usizeSub p sum n = .ok rest)
      (pack : if rest ≤ v.maxMemory then compact p keep v = .ok (.ok (),w) else w = v)
      (again : EvictsIn p needed keep force w u) : EvictsIn p needed keep force s u

theorem EvictsIn.steps {needed : Nat} {force : Bool} (h : EvictsIn p needed keep force s u) (hb : Bounds s) :
    SpaceSteps p keep s u := by
  induction h with
  | now _ => exact .refl
  | @later s v w u n sum rest _ evict some _ _ pack _ ih =>
    obtain ⟨hr,_⟩ | ⟨hr,_⟩ | ⟨id,f,_,out,_⟩ := evictOneKeepAlive_returns hb evict
    · exact absurd (Except.ok.inj hr) some
    · exact absurd (Except.ok.inj hr) some
    have hstep : SpaceStep p keep s v := .evicted out
    have hbv := hstep.bounds hb
    split_ifs at pack with hle
    · have hpacked := (compact_returns hbv.inArena pack).2
      exact .head hstep (.head (.packed hpacked) (ih (hpacked.bounds hbv)))
    · subst pack
      exact .head hstep (ih hbv)

end MofuOS.Filesystem.FileCache
