import MofuOS.Filesystem.FileCacheSpace
import MofuOS.Filesystem.ByteStore

/-! Which file an eviction takes. The scan looks for the greatest product of priority and age,
so the more important of two files that were used last together goes first. -/
namespace MofuOS.Filesystem
open Lib

/-- The rules let this file go: it is neither pinned nor resident. -/
def CachedFile.evictable (f : CachedFile) : Bool := !f.pinned && f.importance != .resident

namespace FileCache
open FiniteMap (get insert remove iter modify)
variable {M : Type → Type} [FiniteMap FileNodeHandle M] {D : Type} {p : Profile} {s t u : FileCache M D}
  {id keep : FileNodeHandle} {f g : CachedFile} {needed : Nat}

/-- What the scan maximises. -/
def score (tick : UInt64) (f : CachedFile) : Nat := saturatingMul f.importance.evictionPriority (age tick f.lastAccess)

/-- The first file, in the order of iteration, with the greatest score, if that is not zero. -/
def foremost (tick : UInt64) (keep : FileNodeHandle) (l : List (FileNodeHandle × CachedFile)) :
    Option (FileNodeHandle × CachedFile) :=
  l.find? fun e => e.1 != keep && decide (0 < score tick e.2) &&
    l.all fun e' => e'.1 == keep || decide (score tick e'.2 ≤ score tick e.2)

private theorem pickVictim_cons {tick : UInt64} {l : List (FileNodeHandle × CachedFile)} {best : Nat × FileNodeHandle} :
    pickVictim tick keep true ((id,f) :: l) best =
      if id ≠ keep ∧ best.1 < score tick f then pickVictim tick keep true l (score tick f,id)
      else pickVictim tick keep true l best := by
  by_cases hk : id = keep
  · simp [pickVictim,hk]
  · simp [pickVictim,hk,score]

/-- The scan ends with the first entry that beats the best so far and everything else, or with
the best so far. -/
private theorem pickVictim_scan (tick : UInt64) (keep : FileNodeHandle) (l : List (FileNodeHandle × CachedFile))
    (best : Nat × FileNodeHandle) :
    (∃ pre id f post, l = pre ++ (id,f) :: post ∧ id ≠ keep ∧ best.1 < score tick f ∧
        (∀ e ∈ pre, e.1 ≠ keep → score tick e.2 < score tick f) ∧
        (∀ e ∈ post, e.1 ≠ keep → score tick e.2 ≤ score tick f) ∧
        pickVictim tick keep true l best = (score tick f,id)) ∨
      (∀ e ∈ l, e.1 ≠ keep → score tick e.2 ≤ best.1) ∧ pickVictim tick keep true l best = best := by
  induction l generalizing best with
  | nil => exact .inr ⟨nofun,rfl⟩
  | cons e l ih =>
    obtain ⟨id,f⟩ := e
    rw [pickVictim_cons]
    split_ifs with hbeats
    · obtain ⟨pre,id',f',post,rfl,hk,hlt,hpre,hpost,hpick⟩ | ⟨hall,hpick⟩ := ih (score tick f,id)
      · refine .inl ⟨(id,f) :: pre,id',f',post,rfl,hk,Nat.lt_trans hbeats.2 hlt,?_,hpost,hpick⟩
        exact List.forall_mem_cons.mpr ⟨fun _ => hlt,hpre⟩
      · exact .inl ⟨[],id,f,l,rfl,hbeats.1,hbeats.2,nofun,hall,hpick⟩
    · have hhead : id ≠ keep → score tick f ≤ best.1 := fun hk => Nat.not_lt.mp fun hlt => hbeats ⟨hk,hlt⟩
      obtain ⟨pre,id',f',post,rfl,hk,hlt,hpre,hpost,hpick⟩ | ⟨hall,hpick⟩ := ih best
      · refine .inl ⟨(id,f) :: pre,id',f',post,rfl,hk,hlt,?_,hpost,hpick⟩
        exact List.forall_mem_cons.mpr ⟨fun hk => Nat.lt_of_le_of_lt (hhead hk) hlt,hpre⟩
      · exact .inr ⟨List.forall_mem_cons.mpr ⟨hhead,hall⟩,hpick⟩

/-- The scan picks the foremost file. -/
theorem pickVictim_eq_foremost (tick : UInt64) (keep : FileNodeHandle) (l : List (FileNodeHandle × CachedFile)) :
    (pickVictim tick keep true l (0,invalidNodeHandle)).2 = ((foremost tick keep l).map Prod.fst).getD invalidNodeHandle := by
  obtain ⟨pre,id,f,post,rfl,hk,hlt,hpre,hpost,hpick⟩ | ⟨hall,hpick⟩ :=
    pickVictim_scan tick keep l (0,invalidNodeHandle)
  · have hfind : foremost tick keep (pre ++ (id,f) :: post) = some (id,f) := by
      unfold foremost
      rw [List.find?_append,List.find?_eq_none.mpr,Option.none_or,List.find?_cons_of_pos]
      · simp only [Bool.and_eq_true,bne_iff_ne,decide_eq_true_eq,List.all_eq_true,Bool.or_eq_true,beq_iff_eq]
        refine ⟨⟨hk,hlt⟩,fun e hm => ?_⟩
        by_cases he : e.1 = keep
        · exact .inl he
        · rw [List.mem_append,List.mem_cons] at hm
          obtain hm | rfl | hm := hm
          · exact .inr (Nat.le_of_lt (hpre e hm he))
          · exact .inr (Nat.le_refl _)
          · exact .inr (hpost e hm he)
      · intro e hm hpred
        simp only [Bool.and_eq_true,bne_iff_ne,decide_eq_true_eq,List.all_eq_true,Bool.or_eq_true,beq_iff_eq] at hpred
        obtain he | hle := hpred.2 (id,f) (List.mem_append_right _ List.mem_cons_self)
        · exact hk he
        · exact absurd (hpre e hm hpred.1.1) (Nat.not_lt.mpr hle)
    rw [hpick,hfind]
    rfl
  · have hfind : foremost tick keep l = none := by
      apply List.find?_eq_none.mpr
      intro e hm hpred
      simp only [Bool.and_eq_true,bne_iff_ne,decide_eq_true_eq] at hpred
      exact absurd hpred.1.2 (Nat.not_lt.mpr (hall e hm hpred.1.1))
    rw [hpick,hfind]
    rfl

theorem foremost_eq_some {tick : UInt64} {l : List (FileNodeHandle × CachedFile)}
    (h : foremost tick keep l = some (id,f)) : (id,f) ∈ l ∧ id ≠ keep := by
  have hpred := List.find?_some h
  simp only [Bool.and_eq_true,bne_iff_ne] at hpred
  exact ⟨List.mem_of_find?_eq_some h,hpred.1.1⟩

variable [CacheFilesystemDriver D]

/-- The driver takes the file's bytes, or there are none to take. -/
def WritesBack (s : FileCache M D) (id : FileNodeHandle) (f : CachedFile) : Prop :=
  f.isDirty = true → ∃ n d, CacheFilesystemDriver.writeFile id 0 (s.bytesOf f) s.driver = .ok (.ok n,d)

/-- Nothing keeps an eviction from taking the file: its handle is not the one that stands for
no file, its bytes can be written back and its length can be subtracted. -/
def Leaves (p : Profile) (s : FileCache M D) (id : FileNodeHandle) (f : CachedFile) : Prop :=
  id ≠ invalidNodeHandle ∧ WritesBack s id f ∧ ∃ used, usizeSub p s.currentMemoryUsed f.len = .ok used

private theorem writeBack_runs {n : Nat} {d : D} (hb : Bounds s) (hf : get s.files id = some f)
    (hw : CacheFilesystemDriver.writeFile id 0 (s.bytesOf f) s.driver = .ok (.ok n,d)) :
    writeBack p id f s = .ok (.ok n,{ s with driver := d, trace := s.trace ++ [.wrote id (s.bytesOf f)] }) := by
  have hstop := hb.stop_le hf
  have hpush := hb.push_le
  have hlt := hb.push_lt
  have hslice : arenaSlice p f.arenaOffset f.len s = .ok (.ok (s.bytesOf f),s) := by
    simp only [arenaSlice,Prog.run_get_bind,usizeAdd_of_lt p (show f.arenaOffset + f.len < usizeBound by omega),
      Prog.run_liftO_ok_bind,Nat.add_sub_cancel_left,checkRange]
    rw [if_pos ⟨Nat.le_add_right ..,by rw [hb.length]; omega⟩]
    rfl
  have hcall : callDriver (CacheFilesystemDriver.writeFile id 0 (s.bytesOf f)) s = .ok (.ok n,{ s with driver := d }) := by
    rw [callDriver,hw]
  rw [writeBack,Prog.run_bind_ok hslice,Prog.run_bind_ok hcall]
  rfl

theorem evicts_foremost (hb : Bounds s) (hf : foremost s.accessTick keep (iter s.files) = some (id,f))
    (hl : Leaves p s id f) : ∃ t, evictOneKeepAlive p keep true s = .ok (.ok f.len,t) ∧ Evicted p keep id f s t := by
  obtain ⟨hid,hwrite,used,hused⟩ := hl
  obtain ⟨hmem,hne⟩ := foremost_eq_some hf
  have hget : get s.files id = some f := (FiniteMap.mem_iter ..).mp hmem
  have hpick := pickVictim_eq_foremost s.accessTick keep (iter s.files)
  rw [hf,Option.map_some,Option.getD_some] at hpick
  simp only [evictOneKeepAlive,Prog.run_get_bind,hpick,if_neg hid,hget]
  cases hd : f.isDirty with
  | false =>
    have hclean : Prog.attempt (pure 0 : FsProg (FileCache M D) Nat) s = .ok (.ok (.ok 0),s) := rfl
    simp only [Bool.false_eq_true,if_false]
    rw [Prog.run_bind_ok hclean]
    simp only [removeFile,Prog.run_modify_bind,Prog.run_get_bind,hused,Prog.run_liftO_ok_bind,Prog.run_set_bind]
    exact ⟨_,rfl,hget,hne,hid,hused,s.driver,[],used,.inr ⟨hd,rfl,rfl⟩,by simp [hd]⟩
  | true =>
    obtain ⟨n,d,hw⟩ := hwrite hd
    have hback : Prog.attempt (writeBack p id f) s =
        .ok (.ok (.ok n),{ s with driver := d, trace := s.trace ++ [.wrote id (s.bytesOf f)] }) := by
      rw [Prog.attempt,writeBack_runs hb hget hw]
    simp only [if_true]
    rw [Prog.run_bind_ok hback]
    simp only [removeFile,Prog.run_modify_bind,Prog.run_get_bind,hused,Prog.run_liftO_ok_bind,Prog.run_set_bind]
    exact ⟨_,rfl,hget,hne,hid,hused,d,_,used,.inl ⟨hd,rfl,n,hw⟩,rfl⟩

/-- An eviction that removes a file removes the foremost one, and nothing kept it. -/
theorem evicted_foremost {r : Except FileSystemError Nat} (hb : Bounds s)
    (h : evictOneKeepAlive p keep true s = .ok (r,t)) :
    (t.files = s.files ∧ r = .ok 0) ∨ ∃ id f, foremost s.accessTick keep (iter s.files) = some (id,f) ∧
      Leaves p s id f ∧ Evicted p keep id f s t ∧ r = .ok f.len := by
  obtain ⟨hr,rfl⟩ | ⟨hr,id,f,e,d,_,_,_,_,rfl⟩ | ⟨id,f,hr,out,hid,hpick⟩ := evictOneKeepAlive_returns hb h
  · exact .inl ⟨rfl,hr⟩
  · exact .inl ⟨rfl,hr⟩
  · rw [pickVictim_eq_foremost] at hpick
    cases hf : foremost s.accessTick keep (iter s.files) with
    | none =>
      rw [hf] at hpick
      exact absurd hpick.symm hid
    | some e =>
      rw [hf,Option.map_some,Option.getD_some] at hpick
      obtain ⟨id',f'⟩ := e
      obtain rfl : id' = id := hpick
      have hget : get s.files id' = some f' := (FiniteMap.mem_iter ..).mp (foremost_eq_some hf).1
      rw [out.cached] at hget
      cases hget
      refine .inr ⟨id',f,rfl,⟨hid,?_,_,out.used⟩,out,hr⟩
      intro hdirty
      obtain ⟨d,events,used,⟨_,_,n,hw⟩ | ⟨hclean,_⟩,_⟩ := out.out
      · exact ⟨n,d,hw⟩
      · rw [hdirty] at hclean
        cases hclean

/-- An eviction keeps to the rules: it takes no pinned or resident file, none that is more
important than another one it could have taken that was last used with it, and it does take a
file if there is one to take. -/
structure KeepsRules (p : Profile) (keep : FileNodeHandle) (s : FileCache M D) : Prop where
  evictable : ∀ {r t id f}, evictOneKeepAlive p keep true s = .ok (r,t) → get s.files id = some f →
    get t.files id = none → f.evictable = true
  importance : ∀ {r t id f j g}, evictOneKeepAlive p keep true s = .ok (r,t) → get s.files id = some f →
    get t.files id = none → j ≠ keep → get t.files j = some g → g.evictable = true → g.lastAccess = f.lastAccess →
    f.importance.evictionPriority ≤ g.importance.evictionPriority
  progress : ∀ {j g}, j ≠ keep → get s.files j = some g → g.evictable = true → WritesBack s j g →
    ∃ r t id f, evictOneKeepAlive p keep true s = .ok (r,t) ∧ get s.files id = some f ∧ get t.files id = none

/-- The foremost file may go by the rules, or nothing may. -/
def ForemostMayGo (p : Profile) (keep : FileNodeHandle) (s : FileCache M D) : Prop :=
  (∃ id f, foremost s.accessTick keep (iter s.files) = some (id,f) ∧ Leaves p s id f ∧ f.evictable = true ∧
    ∀ j g, j ≠ keep → get s.files j = some g → g.evictable = true → g.lastAccess = f.lastAccess →
      f.importance.evictionPriority ≤ g.importance.evictionPriority) ∨
  (∀ id f, foremost s.accessTick keep (iter s.files) = some (id,f) → ¬ Leaves p s id f) ∧
    ∀ j g, j ≠ keep → get s.files j = some g → g.evictable = true → ¬ WritesBack s j g

theorem keepsRules_iff (hb : Bounds s) : KeepsRules p keep s ↔ ForemostMayGo p keep s := by
  constructor
  · intro h
    by_cases hgo : ∃ id f, foremost s.accessTick keep (iter s.files) = some (id,f) ∧ Leaves p s id f
    · obtain ⟨id,f,hf,hl⟩ := hgo
      obtain ⟨t,ht,out⟩ := evicts_foremost hb hf hl
      have hgone : get t.files id = none := by rw [out.get,if_pos rfl]
      refine .inl ⟨id,f,hf,hl,h.evictable ht out.cached hgone,?_⟩
      intro j g hj hg hev hlast
      by_cases hji : j = id
      · subst hji
        rw [out.cached] at hg
        cases hg
        exact Nat.le_refl _
      · exact h.importance ht out.cached hgone hj (by rw [out.get,if_neg hji,hg]) hev hlast
    · refine .inr ⟨fun id f hf hl => hgo ⟨id,f,hf,hl⟩,?_⟩
      intro j g hj hg hev hw
      obtain ⟨r,t,id,f,ht,hf,hnone⟩ := h.progress hj hg hev hw
      obtain ⟨hfiles,_⟩ | ⟨id',f',hf',hl',_⟩ := evicted_foremost hb ht
      · rw [hfiles,hf] at hnone
        cases hnone
      · exact hgo ⟨id',f',hf',hl'⟩
  · rintro (⟨id,f,hf,hl,hev,himp⟩ | ⟨hstay,hnone⟩)
    · obtain ⟨t,ht,out⟩ := evicts_foremost hb hf hl
      have hself {j : FileNodeHandle} {g : CachedFile} (hg : get s.files j = some g) (hn : get t.files j = none) :
          g = f := by
        rw [out.get] at hn
        split_ifs at hn with hji
        · subst hji
          rw [out.cached] at hg
          exact (Option.some.inj hg).symm
        · rw [hg] at hn
          cases hn
      constructor
      · intro r t' j g ht' hg hn
        rw [ht] at ht'
        cases ht'
        rw [hself hg hn]
        exact hev
      · intro r t' i g j g' ht' hg hn hj hg' hev' hlast
        rw [ht] at ht'
        cases ht'
        rw [hself hg hn] at hlast ⊢
        refine himp j g' hj ?_ hev' hlast
        rw [out.get] at hg'
        split_ifs at hg'
        exact hg'
      · intro j g _ _ _ _
        exact ⟨_,t,id,f,ht,out.cached,by rw [out.get,if_pos rfl]⟩
    · have hsame {r t} (ht : evictOneKeepAlive p keep true s = .ok (r,t)) : t.files = s.files := by
        obtain ⟨hfiles,_⟩ | ⟨id,f,hf,hl,_⟩ := evicted_foremost hb ht
        · exact hfiles
        · exact absurd hl (hstay id f hf)
      constructor
      · intro r t id f ht hf hn
        rw [hsame ht,hf] at hn
        cases hn
      · intro r t id f j g ht hf hn
        rw [hsame ht,hf] at hn
        cases hn
      · intro j g hj hg hev hw
        exact absurd hw (hnone j g hj hg hev)

/-- Every eviction that a call of ensure_space makes keeps to the rules exactly when they allow
what its scores single out. -/
theorem ensureSpace_keepsRules_iff (hb : Bounds s) (h : EvictsIn p needed keep true s u) :
    KeepsRules p keep u ↔ ForemostMayGo p keep u :=
  keepsRules_iff ((h.steps hb).bounds hb)

/-- Two files that fill an arena of four bytes, when a third one is to be loaded. -/
def fullPair (pinned : Bool) (importance : CacheImportance) : FileCache NodeTable ByteDriver :=
  { (empty ⟨fun _ => []⟩ 4 : FileCache NodeTable ByteDriver) with
    arena := [10,11,20,21]
    arenaPushOffset := 4
    currentMemoryUsed := 4
    accessTick := 3
    files := insert (insert FiniteMap.empty 1 { CachedFile.new 0 2 1 importance with pinned := pinned }) 2
      (.new 2 2 2 .normal) }

theorem fullPair_bounds (pinned : Bool) (importance : CacheImportance) : Bounds (fullPair pinned importance) where
  max_lt := by
    show 4 < 2^63
    decide
  length := rfl
  bounded := by
    refine ⟨Nat.le_refl 4,fun {id r} hr => ?_⟩
    obtain ⟨f,hf,rfl⟩ := arenaOf_region_eq_some hr
    simp only [fullPair,FiniteMap.get_insert,FiniteMap.get_empty] at hf
    split_ifs at hf
    · cases hf
      exact Nat.le_refl 4
    · cases hf
      exact (by decide : 2 ≤ 4)

private theorem fullPair_tight (pinned : Bool) (importance : CacheImportance) : Tight .dev 2 (fullPair pinned importance) :=
  ⟨6,rfl,by
    show 4 < 6
    decide⟩

/-- Of two normal files the older one goes. -/
theorem ensureSpace_keepsRules_normal : KeepsRules .dev invalidNodeHandle (fullPair false .normal) := by
  refine (ensureSpace_keepsRules_iff (fullPair_bounds false .normal) (.now (fullPair_tight false .normal))).mpr (.inl ?_)
  refine ⟨1,.new 0 2 1 .normal,by decide,⟨by decide,nofun,2,rfl⟩,rfl,?_⟩
  intro j g _ hg _ _
  simp only [fullPair,FiniteMap.get_insert,FiniteMap.get_empty] at hg
  split_ifs at hg <;> cases hg <;> decide

/-- A pinned file is evicted to load another one. -/
theorem ensureSpace_evicts_pinned : Bounds (fullPair true .resident) ∧
    EvictsIn .dev 2 invalidNodeHandle true (fullPair true .resident) (fullPair true .resident) ∧
    ¬ KeepsRules .dev invalidNodeHandle (fullPair true .resident) := by
  refine ⟨fullPair_bounds true .resident,.now (fullPair_tight true .resident),fun h => ?_⟩
  have hrun : (evictOneKeepAlive .dev invalidNodeHandle true (fullPair true .resident)).toOption.map
      (fun x => (get x.2.files 1).isNone) = some true := by
    decide +kernel
  obtain ⟨⟨r,t⟩,ht,hgone⟩ := Option.map_eq_some_iff.mp hrun
  have hpinned : get (fullPair true .resident).files 1 = some { CachedFile.new 0 2 1 .resident with pinned := true } := rfl
  have hev := h.evictable (of_toOption ht) hpinned (Option.isNone_iff_eq_none.mp hgone)
  exact absurd hev (by decide)

end FileCache
end MofuOS.Filesystem
