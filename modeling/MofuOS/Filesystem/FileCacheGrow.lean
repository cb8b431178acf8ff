import MofuOS.Filesystem.FileCacheLoad

/-! The growth branches of write_file and the patch that follows them. -/
namespace MofuOS.Filesystem.FileCache
open Lib
open Prog (liftO)
open FiniteMap (get insert remove iter modify view)
open CacheFilesystemDriver (readFileInto fileSize getNode)
variable {M : Type → Type} [FiniteMap FileNodeHandle M] {D : Type} [CacheFilesystemDriver D]
  {p : Profile} {s t u v : FileCache M D} {id keep : FileNodeHandle} {f g : CachedFile} {newLen : Nat}

omit [CacheFilesystemDriver D] in
/-- Zeros are appended at the push offset and the file's length is raised, wherever it lies. -/
structure Extended (id : FileNodeHandle) (f : CachedFile) (newLen : Nat) (s t : FileCache M D) : Prop where
  cached : get s.files id = some f
  fits : s.arenaPushOffset + (newLen - f.len) ≤ s.maxMemory
  driver : t.driver = s.driver
  max : t.maxMemory = s.maxMemory
  trace : t.trace = s.trace
  dirty : view CachedFile.isDirty t.files = view CachedFile.isDirty s.files
  used : t.currentMemoryUsed = (s.currentMemoryUsed + (newLen - f.len)) % usizeBound
  arena : arenaOf t = (((arenaOf s).store s.arenaPushOffset (List.replicate (newLen - f.len) 0)).raise
    (newLen - f.len)).assign id ⟨f.arenaOffset,newLen⟩

omit [CacheFilesystemDriver D] in
/-- The file is copied to the push offset and extended by zeros there. -/
structure Relocated (id : FileNodeHandle) (f : CachedFile) (newLen : Nat) (s t : FileCache M D) : Prop where
  cached : get s.files id = some f
  fits : s.arenaPushOffset + newLen ≤ s.maxMemory
  driver : t.driver = s.driver
  max : t.maxMemory = s.maxMemory
  trace : t.trace = s.trace
  dirty : view CachedFile.isDirty t.files = view CachedFile.isDirty s.files
  used : t.currentMemoryUsed = (s.currentMemoryUsed + (newLen - f.len)) % usizeBound
  arena : arenaOf t = ((((arenaOf s).store s.arenaPushOffset (slice s.arena f.arenaOffset f.len)).store
    (s.arenaPushOffset + f.len) (List.replicate (newLen - f.len) 0)).raise newLen).assign id
      ⟨s.arenaPushOffset,newLen⟩

/-- How the growth of a cached file ends, one case a branch. -/
inductive Grown (p : Profile) (id : FileNodeHandle) (f : CachedFile) (newLen : Nat) (s : FileCache M D) :
    Except FileSystemError Unit → FileCache M D → Prop
  | tail {t : FileCache M D} (tail : f.arenaOffset + f.len = s.arenaPushOffset) (out : Extended id f newLen s t) :
      Grown p id f newLen s (.ok ()) t
  | relocated {t : FileCache M D} (out : Relocated id f newLen s t) : Grown p id f newLen s (.ok ()) t
  /-- The branch that trusts a compaction which did not happen. -/
  | inPlace {t : FileCache M D} (unchecked : p.checks = false)
      (not_tail : f.arenaOffset + f.len ≠ s.arenaPushOffset)
      (no_copy : s.maxMemory < s.arenaPushOffset + newLen) (out : Extended id f newLen s t) :
      Grown p id f newLen s (.ok ()) t
  | packed {g : CachedFile} {u v t : FileCache M D} (no_copy : s.maxMemory < s.arenaPushOffset + newLen)
      (full : s.maxMemory < s.arenaPushOffset + (newLen - f.len)) (steps : SpaceSteps p id s u)
      (packed : Packed id u v) (len : g.len = f.len) (tail : g.arenaOffset + g.len = v.arenaPushOffset)
      (out : Extended id g newLen v t) (call : ensureSpace p (newLen - f.len) id true s = .ok (.ok true,v)) :
      Grown p id f newLen s (.ok ()) t
  | full {t : FileCache M D} (no_copy : s.maxMemory < s.arenaPushOffset + newLen)
      (full : s.maxMemory < s.arenaPushOffset + (newLen - f.len)) (steps : SpaceSteps p id s t)
      (call : ensureSpace p (newLen - f.len) id true s = .ok (.ok false,t)) : Grown p id f newLen s (.error .cacheFull) t

/-- The file that is kept stays, with its length and its dirty flag. -/
theorem SpaceSteps.kept (h : SpaceSteps p keep s t) (hf : get s.files keep = some f) :
    ∃ g, get t.files keep = some g ∧ g.len = f.len ∧ g.isDirty = f.isDirty := by
  induction h with
  | refl => exact ⟨f,hf,rfl,rfl⟩
  | @tail u t _ hstep ih =>
    obtain ⟨g,hg,hlen,hdirty⟩ := ih
    cases hstep with
    | refused _ _ _ => exact ⟨g,hg,hlen,hdirty⟩
    | evicted out => exact ⟨g,by rw [out.get,if_neg out.ne_keep.symm,hg],hlen,hdirty⟩
    | packed out =>
      cases hk : get t.files keep with
      | none =>
        rw [out.moved.get_eq_none.mp hk] at hg
        cases hg
      | some g' =>
        obtain ⟨g'',hg'',hl,hd⟩ := out.moved.get_eq_some hk
        rw [hg] at hg''
        cases hg''
        exact ⟨g',rfl,hl.trans hlen,hd.trans hdirty⟩

omit [CacheFilesystemDriver D] in
private theorem extendAtTail_returns {extra : Nat} {r : Except FileSystemError Unit} (hb : Bounds s)
    (hf : get s.files id = some f) (hextra : extra < usizeBound) (hnew : extra = newLen - f.len)
    (h : extendAtTail p id extra newLen s = .ok (r,t)) : r = .ok () ∧ Extended id f newLen s t := by
  simp only [extendAtTail,Prog.run_get_bind] at h
  obtain ⟨e,he,_⟩ | ⟨_,s1,hfill,h⟩ := Prog.bind_returns h
  · cases (fillZero_returns hb.push_lt hextra he).1
  obtain ⟨_,hfit,rfl⟩ := fillZero_returns hb.push_lt hextra hfill
  rw [hb.length] at hfit
  have hmax := hb.max_lt
  simp only [pushAndUse] at h
  obtain ⟨e,he,_⟩ | ⟨_,s2,hpush,h⟩ := Prog.bind_returns h
  · simp only [Prog.run_get_bind] at he
    obtain ⟨_,_,he⟩ := Prog.liftO_bind_returns he
    obtain ⟨_,_,he⟩ := Prog.liftO_bind_returns he
    cases he
  simp only [Prog.run_get_bind] at hpush
  obtain ⟨top,htop,hpush⟩ := Prog.liftO_bind_returns hpush
  obtain ⟨used,hused,hpush⟩ := Prog.liftO_bind_returns hpush
  rw [usizeAdd_of_lt p (by unfold usizeBound; omega)] at htop
  cases htop
  cases hpush
  cases h
  subst hnew
  refine ⟨rfl,hf,hfit,rfl,rfl,rfl,FiniteMap.view_modify_same fun _ => rfl,usizeAdd_eq_mod hused,?_⟩
  simp only [arenaOf,FiniteMap.view_modify _ hf]
  rfl

omit [FiniteMap FileNodeHandle M] [CacheFilesystemDriver D] in
private theorem add_of_add_gt {a b top m : Nat} (h : usizeAdd p a b = .ok top) (hm : m < 2^63) (hlt : m < top) :
    m < a + b := by
  unfold usizeAdd at h
  split_ifs at h with h1 h2
  · cases h; exact hlt
  · unfold usizeBound at h1
    omega

/-- A compaction brought the file to the tail, or none was needed and it lies elsewhere. -/
private theorem growByCompacting_returns {r : Except FileSystemError Unit} (hb : Bounds s)
    (hf : get s.files id = some f) (hbound : newLen < usizeBound)
    (hno : s.maxMemory < s.arenaPushOffset + newLen)
    (htail : f.arenaOffset + f.len = s.arenaPushOffset → ∀ top,
      usizeAdd p s.arenaPushOffset (newLen - f.len) = .ok top → s.maxMemory < top)
    (h : growByCompacting p id (newLen - f.len) newLen s = .ok (r,t)) : Grown p id f newLen s r t := by
  have hextra : newLen - f.len < usizeBound := by omega
  unfold growByCompacting at h
  obtain ⟨e,he,_⟩ | ⟨room,v,hroom,h⟩ := Prog.bind_returns h
  · obtain ⟨_,⟨hr,_⟩ | ⟨hr,_⟩⟩ := ensureSpace_returns hb he <;> cases hr
  obtain ⟨hsteps,⟨hr,top',htop',hgt⟩ | ⟨hr,top,htop,hle,hcase⟩⟩ := ensureSpace_returns hb hroom
  · cases hr
    cases h
    exact .full hno (add_of_add_gt htop' hb.max_lt hgt) hsteps hroom
  cases hr
  have hbv := hsteps.bounds hb
  simp only [Bool.not_true,Bool.false_eq_true,if_false,Prog.run_get_bind,htop,Prog.run_liftO_ok_bind,if_pos hle] at h
  obtain ⟨g,hg,hlen,_⟩ := hsteps.kept hf
  have hstop := hbv.stop_le hg
  have hpush := hbv.push_lt
  simp only [hg,usizeAdd_of_lt p (show g.arenaOffset + g.len < usizeBound by omega),Prog.run_liftO_ok_bind] at h
  obtain ⟨_,hassert,h⟩ := Prog.liftO_bind_returns h
  obtain ⟨rfl,hext⟩ := extendAtTail_returns hbv hg hextra (by rw [hlen]) h
  obtain rfl | ⟨⟨top',htop',hgt⟩,u,hu,hpacked⟩ := hcase
  · rw [hf] at hg
    cases hg
    have hnt : f.arenaOffset + f.len ≠ v.arenaPushOffset := fun he => by
      have := htail he top htop
      omega
    refine .inPlace ?_ hnt hno hext
    cases hc : p.checks with
    | false => rfl
    | true => simp [debugAssert,hc,hnt] at hassert
  · have hbu := hu.bounds hb
    exact .packed hno (add_of_add_gt htop' hb.max_lt hgt) hu hpacked hlen (hpacked.at_tail hbu.inArena hg).1 hext hroom

omit [CacheFilesystemDriver D] in
private theorem growByCopying_returns {r : Except FileSystemError Unit} (hb : Bounds s)
    (hf : get s.files id = some f) (hlt : f.len < newLen) (hroom : newLen ≤ s.maxMemory - s.arenaPushOffset)
    (h : growByCopying p id f newLen s = .ok (r,t)) : r = .ok () ∧ Relocated id f newLen s t := by
  have hmax := hb.max_lt
  have hpush := hb.push_le
  have hstop := hb.stop_le hf
  have hbound : 2^63 < usizeBound := by decide
  simp only [growByCopying,Prog.run_get_bind] at h
  obtain ⟨e,he,_⟩ | ⟨_,s1,hcopy,h⟩ := Prog.bind_returns h
  · cases (copyWithin_returns (by omega) (by omega) he).1
  obtain ⟨_,_,_,rfl⟩ := copyWithin_returns (by omega) (by omega) hcopy
  obtain ⟨e,he,_⟩ | ⟨_,s2,hfill,h⟩ := Prog.bind_returns h
  · cases (fillZero_returns (by omega) (by omega) he).1
  obtain ⟨_,_,rfl⟩ := fillZero_returns (by omega) (by omega) hfill
  simp only [pushAndUse] at h
  obtain ⟨e,he,_⟩ | ⟨_,s3,hup,h⟩ := Prog.bind_returns h
  · simp only [Prog.run_get_bind] at he
    obtain ⟨_,_,he⟩ := Prog.liftO_bind_returns he
    obtain ⟨_,_,he⟩ := Prog.liftO_bind_returns he
    cases he
  simp only [Prog.run_get_bind] at hup
  obtain ⟨top,htop,hup⟩ := Prog.liftO_bind_returns hup
  obtain ⟨used,hused,hup⟩ := Prog.liftO_bind_returns hup
  rw [usizeAdd_of_lt p (by omega)] at htop
  cases htop
  cases hup
  cases h
  refine ⟨rfl,hf,by omega,rfl,rfl,rfl,FiniteMap.view_modify_same fun _ => rfl,usizeAdd_eq_mod hused,?_⟩
  simp only [arenaOf,FiniteMap.view_modify _ hf]
  rfl

theorem growFile_returns {r : Except FileSystemError Unit} (hb : Bounds s) (hf : get s.files id = some f)
    (hlt : f.len < newLen) (hbound : newLen < usizeBound) (h : growFile p id f newLen s = .ok (r,t)) :
    Grown p id f newLen s r t := by
  have hstop := hb.stop_le hf
  have hpush := hb.push_lt
  simp only [growFile,Prog.run_get_bind,usizeAdd_of_lt p (show f.arenaOffset + f.len < usizeBound by omega),
    Prog.run_liftO_ok_bind] at h
  obtain ⟨tailFits,hfits,h⟩ := Prog.liftO_bind_returns h
  cases tailFits with
  | true =>
    simp only [if_true] at h
    obtain ⟨rfl,hext⟩ := extendAtTail_returns hb hf (by omega) rfl h
    split_ifs at hfits with htail
    · exact .tail htail hext
    · cases hfits
  | false =>
    have htail : f.arenaOffset + f.len = s.arenaPushOffset → ∀ top,
        usizeAdd p s.arenaPushOffset (newLen - f.len) = .ok top → s.maxMemory < top := by
      intro he top htop
      rw [if_pos he,htop] at hfits
      simpa [Except.map] using hfits
    simp only [Bool.false_eq_true,if_false,usizeSub_of_le p hb.push_le,Prog.run_liftO_ok_bind] at h
    split_ifs at h with hcopy
    · obtain ⟨rfl,hrel⟩ := growByCopying_returns hb hf hlt hcopy h
      exact .relocated hrel
    · exact growByCompacting_returns hb hf hbound (by omega) htail h

/-- The data is copied in, the file is dirty. -/
structure Patched (p : Profile) (id : FileNodeHandle) (f : CachedFile) (offset : Nat) (data : List UInt8)
    (s : FileCache M D) (r : Except FileSystemError Nat) (t : FileCache M D) : Prop where
  reply : r = .ok data.length ∨ ∃ e d, r = .error e ∧ getNode id s.driver = .ok (.error e,d)
  max : t.maxMemory = s.maxMemory
  trace : t.trace = s.trace
  driver : Query s.driver t.driver
  used : t.currentMemoryUsed = s.currentMemoryUsed
  dirty : view CachedFile.isDirty t.files = Function.update (view CachedFile.isDirty s.files) id (some true)
  arena : ∃ dst, usizeAdd p f.arenaOffset offset = .ok dst ∧ dst + data.length ≤ s.arena.length ∧
    arenaOf t = (arenaOf s).store dst data

theorem patchFile_returns {now : UInt32} {offset writeEnd : Nat} {data : List UInt8} {r : Except FileSystemError Nat}
    (hf : get s.files id = some f) (hdata : data.length < usizeBound) (hend : writeEnd ≤ f.len)
    (h : patchFile p now id offset data writeEnd s = .ok (r,t)) :
    Patched p id f offset data s r t := by
  simp only [patchFile,Prog.run_get_bind,hf] at h
  obtain ⟨dst,hdst,h⟩ := Prog.liftO_bind_returns h
  obtain ⟨e,he,_⟩ | ⟨_,s1,hcopy,h⟩ := Prog.bind_returns h
  · cases (copyFromSlice_returns (usizeAdd_lt hdst) hdata he).1
  obtain ⟨_,hfit,rfl⟩ := copyFromSlice_returns (usizeAdd_lt hdst) hdata hcopy
  simp only [gt_iff_lt,Nat.not_lt.mpr hend,if_false,Prog.run_modify_bind] at h
  have harena : (⟨overwrite s.arena dst data,s.arenaPushOffset,view CachedFile.region (modify s.files id fun f' =>
      { f' with len := Max.max f.len writeEnd, isDirty := true, lastAccess := s.accessTick })⟩ : Arena _ _) =
      (arenaOf s).store dst data := by
    have hsame : Function.update (view CachedFile.region s.files) id (some ⟨f.arenaOffset,Max.max f.len writeEnd⟩) =
        view CachedFile.region s.files := by
      apply Function.update_eq_self_iff.mpr
      rw [Nat.max_eq_left hend]
      simp [view,hf,CachedFile.region]
    rw [FiniteMap.view_modify _ hf]
    simp only [CachedFile.region] at hsame ⊢
    rw [hsame]
    rfl
  obtain ⟨e,d,hnode,rfl,rfl⟩ | ⟨node,d,hnode,h⟩ := callDriver_bind_returns h
  · exact ⟨.inr ⟨e,d,rfl,hnode⟩,rfl,rfl,.node hnode,rfl,FiniteMap.view_modify _ hf,dst,hdst,hfit,harena⟩
  · simp only [Prog.run_modify_bind] at h
    cases h
    exact ⟨.inl rfl,rfl,rfl,.node hnode,rfl,FiniteMap.view_modify _ hf,dst,hdst,hfit,harena⟩

end MofuOS.Filesystem.FileCache
