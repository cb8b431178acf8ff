import MofuOS.Filesystem.FileCacheLayout

/-! What a whole write can do: bring the file in, grow it, patch it. -/
namespace MofuOS.Filesystem.FileCache
open Lib
open Prog (liftO)
open FiniteMap (get insert remove iter modify view)
open CacheFilesystemDriver (readFileInto fileSize)
variable {M : Type → Type} [FiniteMap FileNodeHandle M] {D : Type} [CacheFilesystemDriver D]
  {p : Profile} {s t u v : FileCache M D} {id : FileNodeHandle} {f g : CachedFile}

/-- The file is in the cache: it was there, or the miss path brought it. -/
inductive Brought (p : Profile) (id : FileNodeHandle) (offset dataLen : Nat) (s v : FileCache M D) : Prop
  | hit {f : CachedFile} (cached : get s.files id = some f) (ticked : Ticked s v)
  | missed {u : FileCache M D} (absent : get s.files id = none) (ticked : Ticked s u)
      (missed : WriteMissed p id offset dataLen u (.ok ()) v)

/-- A write in state s that got as far as copying its data in did so in state w. -/
inductive PatchesIn (p : Profile) (id : FileNodeHandle) (offset : Nat) (data : List UInt8) (s : FileCache M D) :
    FileCache M D → Prop
  | inside {v : FileCache M D} {f : CachedFile} {writeEnd : Nat}
      (brought : (if (get s.files id).isNone then writeMiss p id offset data.length else pure ())
        { s with accessTick := s.accessTick + 1 } = .ok (.ok (),v))
      (cached : get v.files id = some f) (sum : usizeAdd p offset data.length = .ok writeEnd)
      (inside : writeEnd ≤ f.len) : PatchesIn p id offset data s v
  | grown {v w : FileCache M D} {f : CachedFile} {writeEnd : Nat}
      (brought : (if (get s.files id).isNone then writeMiss p id offset data.length else pure ())
        { s with accessTick := s.accessTick + 1 } = .ok (.ok (),v))
      (cached : get v.files id = some f) (sum : usizeAdd p offset data.length = .ok writeEnd)
      (grows : f.len < writeEnd) (grow : growFile p id f writeEnd v = .ok (.ok (),w)) : PatchesIn p id offset data s w

/-- How a write ends. -/
inductive Written (p : Profile) (id : FileNodeHandle) (offset : Nat) (data : List UInt8) (s : FileCache M D) :
    Except FileSystemError Nat → FileCache M D → Prop
  | missed {u t : FileCache M D} {e : FileSystemError} (absent : get s.files id = none) (ticked : Ticked s u)
      (missed : WriteMissed p id offset data.length u (.error e) t) : Written p id offset data s (.error e) t
  | refused {v t : FileCache M D} {f : CachedFile} {writeEnd : Nat} {e : FileSystemError}
      (brought : Brought p id offset data.length s v) (cached : get v.files id = some f)
      (sum : usizeAdd p offset data.length = .ok writeEnd) (grows : f.len < writeEnd)
      (grown : Grown p id f writeEnd v (.error e) t) : Written p id offset data s (.error e) t
  | patched {v t : FileCache M D} {f : CachedFile} {writeEnd : Nat} {r : Except FileSystemError Nat}
      (brought : Brought p id offset data.length s v) (cached : get v.files id = some f)
      (sum : usizeAdd p offset data.length = .ok writeEnd) (inside : writeEnd ≤ f.len)
      (patched : Patched p id f offset data v r t) (reached : PatchesIn p id offset data s v) :
      Written p id offset data s r t
  | grown {v w t : FileCache M D} {f g : CachedFile} {writeEnd : Nat} {r : Except FileSystemError Nat}
      (brought : Brought p id offset data.length s v) (cached : get v.files id = some f)
      (sum : usizeAdd p offset data.length = .ok writeEnd) (grows : f.len < writeEnd)
      (grown : Grown p id f writeEnd v (.ok ()) w) (again : get w.files id = some g) (len : g.len = writeEnd)
      (patched : Patched p id g offset data w r t) (reached : PatchesIn p id offset data s w) :
      Written p id offset data s r t

omit [CacheFilesystemDriver D] in
theorem Extended.get_self {newLen : Nat} (h : Extended id f newLen s t) :
    ∃ g, get t.files id = some g ∧ g.region = ⟨f.arenaOffset,newLen⟩ :=
  arenaOf_region_eq_some (by rw [h.arena,Arena.assign_region_self])

theorem Grown.get_self {newLen : Nat} (h : Grown p id f newLen s (.ok ()) t) :
    ∃ g, get t.files id = some g ∧ g.len = newLen := by
  cases h with
  | tail _ out =>
    obtain ⟨g,hg,hr⟩ := out.get_self
    exact ⟨g,hg,congrArg Region.len hr⟩
  | relocated out =>
    obtain ⟨g,hg,hr⟩ := arenaOf_region_eq_some (s := t) (by rw [out.arena,Arena.assign_region_self])
    exact ⟨g,hg,congrArg Region.len hr⟩
  | inPlace _ _ _ out =>
    obtain ⟨g,hg,hr⟩ := out.get_self
    exact ⟨g,hg,congrArg Region.len hr⟩
  | packed _ _ _ _ _ _ out _ =>
    obtain ⟨g,hg,hr⟩ := out.get_self
    exact ⟨g,hg,congrArg Region.len hr⟩

theorem WriteMissed.layout {offset dataLen : Nat} {r : Except FileSystemError Unit}
    (h : WriteMissed p id offset dataLen s r t) (hb : Bounds s) :
    Bounds t ∧ ((arenaOf s).Apart → (arenaOf t).Apart) := by
  have hb' (d : D) : Bounds { s with driver := d } := ⟨hb.max_lt,hb.length,hb.bounded⟩
  cases h with
  | full _ steps _ _ => exact ⟨steps.bounds (hb' _),fun ha => steps.apart ha⟩
  | failed _ steps claimed _ _ => exact ⟨claimed.bounds (steps.bounds (hb' _)),fun ha => claimed.apart (steps.apart ha)⟩
  | loaded _ steps loaded _ _ =>
    have hl := loaded.layout (steps.bounds (hb' _))
    exact ⟨hl.1,fun ha => hl.2 (steps.apart ha)⟩
  | created _ _ _ steps created _ =>
    have hl := created.layout (steps.bounds (hb' _))
    exact ⟨hl.1,fun ha => hl.2 (steps.apart ha)⟩

theorem WriteMissed.get_self {offset dataLen : Nat} (h : WriteMissed p id offset dataLen s (.ok ()) t) :
    ∃ g, get t.files id = some g := by
  cases h with
  | loaded _ _ loaded _ _ =>
    obtain ⟨_,n,_,_,_,_,_,_,harena⟩ := loaded.out
    obtain ⟨g,hg,_⟩ := arenaOf_region_eq_some (s := t) (by rw [harena,Arena.assign_region_self])
    exact ⟨g,hg⟩
  | created _ _ _ _ created _ =>
    obtain ⟨g,hg,_⟩ := arenaOf_region_eq_some (s := t) (by rw [created.arena,Arena.assign_region_self])
    exact ⟨g,hg⟩

theorem Brought.bounds {offset dataLen : Nat} (h : Brought p id offset dataLen s v) (hb : Bounds s) : Bounds v := by
  cases h with
  | hit _ ticked => exact ticked.noted.bounds hb
  | missed _ ticked missed => exact (missed.layout (ticked.noted.bounds hb)).1

private theorem writeCached_returns {now : UInt32} {offset : Nat} {data : List UInt8} {r : Except FileSystemError Nat}
    (hb : Bounds s) (hdata : data.length < usizeBound) (hv : Brought p id offset data.length s v)
    (hrun : (if (get s.files id).isNone then writeMiss p id offset data.length else pure ())
      { s with accessTick := s.accessTick + 1 } = .ok (.ok (),v))
    (h : writeCached p now id offset data v = .ok (r,t)) (hf : get v.files id = some f) :
    Written p id offset data s r t := by
  unfold writeCached at h
  obtain ⟨writeEnd,hsum,h⟩ := Prog.liftO_bind_returns h
  simp only [Prog.run_get_bind,hf] at h
  have hbv := hv.bounds hb
  split_ifs at h with hgrow
  · obtain ⟨e,he,rfl⟩ | ⟨_,w,hgrown,h⟩ := Prog.bind_returns h
    · exact .refused hv hf hsum hgrow (growFile_returns hbv hf hgrow (usizeAdd_lt hsum) he)
    · have hg := growFile_returns hbv hf hgrow (usizeAdd_lt hsum) hgrown
      obtain ⟨g,hget,hlen⟩ := hg.get_self
      exact .grown hv hf hsum hgrow hg hget hlen (patchFile_returns hget hdata (Nat.le_of_eq hlen.symm) h)
        (.grown hrun hf hsum hgrow hgrown)
  · have hin := Nat.not_lt.mp hgrow
    exact .patched hv hf hsum hin (patchFile_returns hf hdata hin h) (.inside hrun hf hsum hin)

theorem writeFile_returns {now : UInt32} {offset : Nat} {data : List UInt8} {r : Except FileSystemError Nat}
    (hb : Bounds s) (hdata : data.length < usizeBound) (h : writeFile p now id offset data s = .ok (r,t)) :
    Written p id offset data s r t := by
  simp only [writeFile,bumpTick,Prog.run_modify_bind,Prog.run_get_bind] at h
  have hticked : Ticked s { s with accessTick := s.accessTick + 1 } := rfl
  cases hf : get s.files id with
  | some f =>
    simp only [hf,Option.isNone_some,Bool.false_eq_true,if_false] at h
    refine writeCached_returns hb hdata (.hit hf hticked) ?_ h hf
    rw [hf]
    rfl
  | none =>
    simp only [hf,Option.isNone_none,if_true] at h
    obtain ⟨e,he,rfl⟩ | ⟨_,v,hmiss,h⟩ := Prog.bind_returns h
    · exact .missed hf hticked (writeMiss_returns (hticked.noted.bounds hb) he)
    · have hv := writeMiss_returns (hticked.noted.bounds hb) hmiss
      obtain ⟨g,hg⟩ := hv.get_self
      refine writeCached_returns hb hdata (.missed hf hticked hv) ?_ h hg
      rw [hf]
      exact hmiss

/-- What a write did before it copied its data in, and what it has left to do. -/
theorem PatchesIn.reached {offset : Nat} {data : List UInt8} (hb : Bounds s) (h : PatchesIn p id offset data s u) :
    ∃ v f g writeEnd, Brought p id offset data.length s v ∧ get v.files id = some f ∧
      usizeAdd p offset data.length = .ok writeEnd ∧ get u.files id = some g ∧
      (writeEnd ≤ f.len ∧ u = v ∨ f.len < writeEnd ∧ Grown p id f writeEnd v (.ok ()) u ∧ g.len = writeEnd) ∧
      ∀ now, writeFile p now id offset data s = patchFile p now id offset data writeEnd u := by
  have hbrought {v : FileCache M D} (hrun : (if (get s.files id).isNone then writeMiss p id offset data.length else pure ())
      { s with accessTick := s.accessTick + 1 } = .ok (.ok (),v)) : Brought p id offset data.length s v := by
    have hticked : Ticked s { s with accessTick := s.accessTick + 1 } := rfl
    cases hf : get s.files id with
    | some f =>
      simp only [hf,Option.isNone_some,Bool.false_eq_true,if_false] at hrun
      cases hrun
      exact .hit hf hticked
    | none =>
      simp only [hf,Option.isNone_none,if_true] at hrun
      exact .missed hf hticked (writeMiss_returns (hticked.noted.bounds hb) hrun)
  have hwrite {v : FileCache M D} (now : UInt32)
      (hrun : (if (get s.files id).isNone then writeMiss p id offset data.length else pure ())
        { s with accessTick := s.accessTick + 1 } = .ok (.ok (),v)) :
      writeFile p now id offset data s = writeCached p now id offset data v := by
    simp only [writeFile,bumpTick,Prog.run_modify_bind,Prog.run_get_bind]
    cases hf : get s.files id with
    | some f =>
      simp only [hf,Option.isNone_some,Bool.false_eq_true,if_false] at hrun ⊢
      cases hrun
      rfl
    | none =>
      simp only [hf,Option.isNone_none,if_true] at hrun ⊢
      exact Prog.run_bind_ok hrun
  cases h with
  | inside brought cached sum inside =>
    refine ⟨_,_,_,_,hbrought brought,cached,sum,cached,.inl ⟨inside,rfl⟩,fun now => ?_⟩
    rw [hwrite now brought]
    simp only [writeCached,sum,Prog.run_liftO_ok_bind,Prog.run_get_bind,cached,if_neg (Nat.not_lt.mpr inside)]
  | grown brought cached sum grows grow =>
    have hv := hbrought brought
    have hg := growFile_returns (hv.bounds hb) cached grows (usizeAdd_lt sum) grow
    obtain ⟨g,hget,hlen⟩ := hg.get_self
    refine ⟨_,_,g,_,hv,cached,sum,hget,.inr ⟨grows,hg,hlen⟩,fun now => ?_⟩
    rw [hwrite now brought]
    simp only [writeCached,sum,Prog.run_liftO_ok_bind,Prog.run_get_bind,cached,if_pos grows]
    exact Prog.run_bind_ok grow

omit [CacheFilesystemDriver D] in
/-- Nothing lies behind a file that was just placed at the push offset. -/
private theorem roomBehind_of_placed {A : Arena FileNodeHandle UInt8} {n newLen : Nat} (hb : Bounds u)
    (harena : arenaOf v = A.assign id ⟨u.arenaPushOffset,n⟩) (hA : A.region = (arenaOf u).region)
    (hf : get v.files id = some f) : RoomBehind v id f newLen := by
  have hreg := arenaOf_region hf
  rw [harena,Arena.assign_region_self] at hreg
  have hoff : u.arenaPushOffset = f.arenaOffset := congrArg Region.off (Option.some.inj hreg)
  intro e hm hne
  have he := arenaOf_region ((FiniteMap.mem_iter v.files e.1 e.2).mp hm)
  rw [harena,Arena.assign_region_of_ne hne,hA] at he
  have hstop := hb.bounded.stop_le he
  simp only [Region.Apart,Region.stop,CachedFile.region,arenaOf] at *
  omega

theorem WriteMissed.roomBehind {offset dataLen newLen : Nat} (h : WriteMissed p id offset dataLen s (.ok ()) v)
    (hb : Bounds s) (hf : get v.files id = some f) : RoomBehind v id f newLen := by
  have hb' (d : D) : Bounds { s with driver := d } := ⟨hb.max_lt,hb.length,hb.bounded⟩
  cases h with
  | loaded _ steps loaded _ _ =>
    obtain ⟨_,n,_,_,_,_,_,_,harena⟩ := loaded.out
    exact roomBehind_of_placed (steps.bounds (hb' _)) harena rfl hf
  | created _ _ _ steps created _ => exact roomBehind_of_placed (steps.bounds (hb' _)) created.arena rfl hf

end MofuOS.Filesystem.FileCache
