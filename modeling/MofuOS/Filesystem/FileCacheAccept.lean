import MofuOS.Filesystem.FileCacheEnsure

/-! Which writes are accepted. A write makes room for the bytes on disk or for a new file, and
makes room again for the growth, of which the first call has already taken the bytes. Both can be
followed in the ledger of the state in which the write is called. -/
namespace MofuOS.Filesystem.FileCache
open Lib
open Prog (liftO)
open FiniteMap (get insert remove iter modify view map)
open CacheFilesystemDriver (readFileInto fileSize getNode)
open ByteStore (content)
variable {M : Type → Type} [FiniteMap FileNodeHandle M] {D : Type} {p : Profile} {s t u v : FileCache M D}
  {id keep : FileNodeHandle} {f g : CachedFile} {needed offset len max : Nat} {tick : UInt64} {L L' : Ledger M Unit}

/-- Where the arithmetic is checked, no more is counted than there is. -/
structure Tallied (p : Profile) (s : FileCache M D) : Prop extends Covered s where
  used_le : p.checks = true → s.currentMemoryUsed ≤ usedTotal s.files

namespace Tallied
variable (h : Tallied p s)
include h

/-- What still fits can be counted. -/
theorem counts {n : Nat} (hn : s.arenaPushOffset + n ≤ s.maxMemory) : ∃ used, usizeAdd p s.currentMemoryUsed n = .ok used := by
  apply usizeAdd_runs
  intro hp
  have hused := h.used_le hp
  have htotal := h.total_le
  have hmax := h.bounds.max_lt
  unfold usizeBound
  omega

theorem of_same (hc : Covered t) (hr : (arenaOf t).region = (arenaOf s).region)
    (hused : t.currentMemoryUsed = s.currentMemoryUsed) : Tallied p t :=
  ⟨hc,by rw [hused,usedTotal_of_region hr]; exact h.used_le⟩

/-- Nothing but what the count and the layout do not see. -/
theorem of_rest (hmax : t.maxMemory = s.maxMemory) (hused : t.currentMemoryUsed = s.currentMemoryUsed)
    (harena : arenaOf t = arenaOf s) : Tallied p t := by
  have hcells : t.arena = s.arena := congrArg Arena.cells harena
  have hpush : t.arenaPushOffset = s.arenaPushOffset := congrArg Arena.top harena
  have hb : Bounds t := ⟨hmax ▸ h.bounds.max_lt,by rw [hcells,hmax,h.bounds.length],by rw [harena]; exact h.bounds.bounded⟩
  exact h.of_same (h.toCovered.of_same hb (by rw [harena]) (Nat.le_of_eq hpush.symm)) (by rw [harena]) hused

/-- A file goes, and no less than its length is subtracted. -/
theorem removed {n : Nat} (hc : Covered t) (hf : get s.files id = some f) (hfiles : t.files = remove s.files id)
    (hused : usizeSub p s.currentMemoryUsed n = .ok t.currentMemoryUsed) (hn : p.checks = true → f.len ≤ n) :
    Tallied p t := by
  refine ⟨hc,fun hp => ?_⟩
  have hle := h.used_le hp
  have hsum := FiniteMap.sumOf_remove (v := CachedFile.len) hf
  unfold usizeSub at hused
  split_ifs at hused with hsub
  have := Except.ok.inj hused
  have := hn hp
  unfold usedTotal at *
  rw [hfiles]
  omega

/-- A file gets longer by no less than the count rises. -/
theorem assigned {A : Arena FileNodeHandle UInt8} {r : Region} (extra : Nat) (hc : Covered t)
    (harena : arenaOf t = A.assign id r) (hA : A.region = (arenaOf s).region)
    (hlen : r.len = ((get s.files id).map CachedFile.len).getD 0 + extra)
    (hused : t.currentMemoryUsed ≤ s.currentMemoryUsed + extra) : Tallied p t := by
  refine ⟨hc,fun hp => ?_⟩
  have htotal := usedTotal_assign harena hA
  have hle := h.used_le hp
  omega

end Tallied

theorem tallied_of_no_files (hmax : s.maxMemory < 2^63) (hlen : s.arena.length = s.maxMemory)
    (hpush : s.arenaPushOffset = 0) (hfiles : s.files = FiniteMap.empty) (hused : s.currentMemoryUsed = 0) : Tallied p s where
  toCovered := (exact_of_no_files hmax hlen hpush hfiles hused).toCovered
  used_le _ := by rw [hused]; exact Nat.zero_le _

theorem Dropped.covered (h : Dropped id f s t) (hc : Covered s) : Covered t := by
  have hb := h.bounds hc.bounds
  obtain ⟨hf,_,rfl⟩ := h
  exact hc.removed hb hf rfl rfl

theorem Dropped.tallied {n : Nat} (h : Dropped id f s t) (ht : Tallied p s)
    (hused : usizeSub p s.currentMemoryUsed n = .ok t.currentMemoryUsed) (hn : p.checks = true → f.len ≤ n) : Tallied p t := by
  have hc := h.covered ht.toCovered
  obtain ⟨hf,_,rfl⟩ := h
  exact ht.removed hc hf rfl hused hn

private theorem evictChildren_tallied {children : List FileNodeHandle} {freed : Nat} {r : Except FileSystemError Nat}
    (ht : Tallied p s) (h : evictChildren p children freed s = .ok (r,t)) : Tallied p t := by
  induction children generalizing s freed with
  | nil =>
    cases h
    exact ht
  | cons c children ih =>
    simp only [evictChildren,Prog.run_get_bind] at h
    cases hf : get s.files c with
    | none =>
      simp only [hf] at h
      exact ih ht h
    | some f =>
      simp only [hf] at h
      split_ifs at h with hp
      · exact ih ht h
      obtain ⟨freed',hfreed,h⟩ := Prog.liftO_bind_returns h
      simp only [removeFile,Prog.run_modify_bind,Prog.run_get_bind] at h
      obtain ⟨used,hused,h⟩ := Prog.liftO_bind_returns h
      simp only [Prog.run_set_bind] at h
      refine ih (Dropped.tallied ⟨hf,used,rfl⟩ ht hused fun hp => ?_) h
      unfold usizeAdd at hfreed
      split_ifs at hfreed
      have := Except.ok.inj hfreed
      omega

variable [CacheFilesystemDriver D]

private theorem SpaceStep.tallied (h : SpaceStep p keep s t) (ht : Tallied p s) : Tallied p t := by
  have hc := h.covered ht.toCovered
  cases h with
  | refused _ _ _ => exact ht.of_same hc rfl rfl
  | evicted out => exact ht.removed hc out.cached out.files out.used fun _ => Nat.le_refl _
  | packed out => exact ⟨hc,by rw [out.moved.used,out.usedTotal]; exact ht.used_le⟩

/-- Every transaction that returns counts no more than there is. -/
theorem tallied_closed : ClosedWrite p (Tallied p : FileCache M D → Prop) where
  bounds h := h.bounds
  noted h ht := ht.of_same ((covered_closed (p := p)).noted h ht.toCovered) (by rw [h.arena]) h.used
  queried h ht := by
    have hc := (covered_closed (p := p)).queried h ht.toCovered
    obtain ⟨d,_,rfl⟩ := h
    exact ht.of_same hc rfl rfl
  space h ht := h.tallied ht
  claimed h ht := ht.of_same ((covered_closed (p := p)).claimed h ht.toCovered) (view_of_core Prod.fst h.core) h.used
  loaded hf h ht := by
    have hc := (covered_closed (p := p)).loaded hf h ht.toCovered
    obtain ⟨buf,n,data,d,hbuf,hread,_,hcount,harena⟩ := h.out
    refine ht.assigned n hc harena rfl (by simp [hf]) ?_
    obtain hcount | ⟨hcount,_⟩ := hcount
    · rw [hcount]
      exact Nat.mod_le _ _
    · rw [hcount]
      exact Nat.le_add_right _ _
  flush h ht := by
    refine ht.of_same ((covered_closed (p := p)).flush h ht.toCovered) (by rw [h.arena]) ?_
    cases h with
    | refused _ _ _ => rfl
    | flushed _ _ _ => rfl
  created hf h ht := ht.assigned 0 ((covered_closed (p := p)).created hf h ht.toCovered) h.arena rfl (by simp [hf])
    (Nat.le_of_eq h.used)
  extended hlt h ht := by
    refine ht.assigned _ ((covered_closed (p := p)).extended hlt h ht.toCovered) h.arena rfl ?_
      (by rw [h.used]; exact Nat.mod_le _ _)
    rw [h.cached,Option.map_some,Option.getD_some]
    exact (Nat.add_sub_cancel' (Nat.le_of_lt hlt)).symm
  relocated hlt h ht := by
    refine ht.assigned _ ((covered_closed (p := p)).relocated hlt h ht.toCovered) h.arena rfl ?_
      (by rw [h.used]; exact Nat.mod_le _ _)
    rw [h.cached,Option.map_some,Option.getD_some]
    exact (Nat.add_sub_cancel' (Nat.le_of_lt hlt)).symm
  patched hf h ht := by
    have hc := (covered_closed (p := p)).patched hf h ht.toCovered
    obtain ⟨dst,_,_,harena⟩ := h.arena
    exact ht.of_same hc (by rw [harena]; rfl) h.used

private theorem exec_tallied {op : CacheOp} {r : Except FileSystemError CacheReply} (ht : Tallied p s)
    (h : exec p op s = .ok (r,t)) : Tallied p t := by
  refine tallied_closed.toClosed.exec (c := fun _ _ => true) ?_ ?_ ?_ ?_ rfl ht h
  · intro now id offset data s r t _ ht h
    exact tallied_closed.write ht h
  · intro id s r t _ ht h
    simp only [evictDirectory,Prog.run_get_bind,Prog.run_set_bind] at h
    have hb : Tallied p { s with directoryChildren := remove s.directoryChildren id } := ht.of_rest rfl rfl rfl
    obtain ⟨e,he,_⟩ | ⟨n,u,hu,h⟩ := Prog.bind_returns h
    · exact evictChildren_tallied hb he
    · cases h
      exact (evictChildren_tallied hb hu).of_rest rfl rfl rfl
  · intro id s r t _ ht h
    simp only [invalidate,Prog.run_get_bind] at h
    cases hf : get s.files id with
    | none =>
      simp only [hf] at h
      cases h
      exact ht.of_rest rfl rfl rfl
    | some f =>
      simp only [hf,removeFile,Prog.run_modify_bind,Prog.run_get_bind] at h
      obtain ⟨used,hused,h⟩ := Prog.liftO_bind_returns h
      cases h
      exact (Dropped.tallied ⟨hf,used,rfl⟩ ht hused fun _ => Nat.le_refl _).of_rest rfl rfl rfl
  · intro s r t _ ht h
    cases h
    exact tallied_of_no_files ht.bounds.max_lt ht.bounds.length rfl rfl rfl

/-- The count is bounded in every run, whatever the driver answers. -/
theorem execAll_tallied {d : D} {max : Nat} {ops : List CacheOp} {rs : List (Except FileSystemError CacheReply)}
    (hnew : new d max = .ok s) (h : execAll p ops s = .ok (rs,t)) : Tallied p t := by
  have hs : Tallied p s := by
    unfold new at hnew
    split_ifs at hnew with hmax
    cases hnew
    exact tallied_of_no_files hmax List.length_replicate rfl rfl rfl
  exact runAll_invariant (c := fun _ _ => true) (fun _ ht h => exec_tallied ht h) (meets_of_forall fun _ _ _ => rfl) hs h

/-- The file, which has len bytes and ends at stop, can be made newLen bytes long: it has as many,
there is room for the others at the push offset and the file ends there, there is room for all of
them there, or files can go until there is room for the others. The last of these relies on a
compaction, which where assertions are checked has to be made. -/
def Grows (p : Profile) (tick : UInt64) (max : Nat) (id : FileNodeHandle) (stop len newLen : Nat) (L : Ledger M Unit) : Prop :=
  len < newLen → max < L.push + newLen → (stop = L.push → max < L.push + (newLen - len)) →
    (∃ L', Frees alwaysSaved p tick max (newLen - len) id L L') ∧ (p.checks = true → max < L.push + (newLen - len))

/-- The ledger after a miss has brought in a file of size bytes, to which it gave room. -/
def Ledger.brought (L : Ledger M Unit) (id : FileNodeHandle) (room size : Nat) (tick : UInt64) (importance : CacheImportance) :
    Ledger M Unit where
  files := insert L.files id (CachedFile.new L.push size tick importance)
  push := L.push + room
  used := if size = 0 then L.used else (L.used + size) % usizeBound
  disk := ()

section Basics
omit [FiniteMap FileNodeHandle M] [CacheFilesystemDriver D]

private theorem tight_iff (hmax : s.maxMemory < 2^63) (hpush : s.arenaPushOffset ≤ s.maxMemory) (hn : needed ≤ s.maxMemory) :
    Tight p needed s ↔ s.maxMemory < s.arenaPushOffset + needed := by
  have htop : usizeAdd p s.arenaPushOffset needed = .ok (s.arenaPushOffset + needed) :=
    usizeAdd_of_lt p (by unfold usizeBound; omega)
  constructor
  · rintro ⟨top,h,hlt⟩
    rw [htop] at h
    cases h
    exact hlt
  · exact fun hlt => ⟨_,htop,hlt⟩

private theorem fillZero_runs {a n : Nat} (hlen : s.arena.length < usizeBound) (h : a + n ≤ s.arena.length) :
    fillZero p a n s = .ok (.ok (),{ s with arena := overwrite s.arena a (List.replicate n 0) }) := by
  simp only [fillZero,Prog.run_get_bind,usizeAdd_of_lt p (show a + n < usizeBound by omega),Prog.run_liftO_ok_bind,
    Nat.add_sub_cancel_left,checkRange]
  rw [if_pos ⟨Nat.le_add_right ..,h⟩]
  rfl

private theorem callDriver_bind_runs {α β : Type} {x : FsProg D α} {k : α → FsProg (FileCache M D) β} {b : β}
    (hx : ∃ a d, x s.driver = .ok (.ok a,d)) (hk : ∀ a d, ∃ t, k a { s with driver := d } = .ok (.ok b,t)) :
    ∃ t, (callDriver x >>= k) s = .ok (.ok b,t) := by
  obtain ⟨a,d,h⟩ := hx
  rw [Prog.run_bind_ok (show callDriver x s = .ok (.ok a,{ s with driver := d }) by simp only [callDriver,h])]
  exact hk a d

private theorem arenaSlice_runs {a n : Nat} (hlen : s.arena.length < usizeBound) (h : a + n ≤ s.arena.length) :
    arenaSlice p a n s = .ok (.ok (slice s.arena a n),s) := by
  simp only [arenaSlice,Prog.run_get_bind,usizeAdd_of_lt p (show a + n < usizeBound by omega),Prog.run_liftO_ok_bind,
    Nat.add_sub_cancel_left,checkRange]
  rw [if_pos ⟨Nat.le_add_right ..,h⟩]
  rfl

private theorem copyFromSlice_runs {a : Nat} {data : List UInt8} (hlen : s.arena.length < usizeBound)
    (h : a + data.length ≤ s.arena.length) :
    copyFromSlice p a data s = .ok (.ok (),{ s with arena := overwrite s.arena a data }) := by
  simp only [copyFromSlice,Prog.run_get_bind,usizeAdd_of_lt p (show a + data.length < usizeBound by omega),
    Prog.run_liftO_ok_bind,checkRange]
  rw [if_pos ⟨Nat.le_add_right ..,h⟩]
  rfl

/-- What was asked for can be taken once ensure_space has succeeded. -/
private theorem arenaPushAlloc_runs (hfit : s.arenaPushOffset + needed ≤ s.maxMemory) (hmax : s.maxMemory < 2^63) :
    arenaPushAlloc p needed s =
      .ok (.ok (some s.arenaPushOffset),{ s with arenaPushOffset := s.arenaPushOffset + needed }) := by
  simp only [arenaPushAlloc,Prog.run_get_bind,Prog.run_liftO_ok_bind,if_pos hfit,
    usizeAdd_of_lt p (show s.arenaPushOffset + needed < usizeBound by unfold usizeBound; omega)]
  rfl

end Basics

section Grow
omit [CacheFilesystemDriver D]

private theorem length_lt (hb : Bounds s) : s.arena.length < usizeBound := by
  have hmax := hb.max_lt
  rw [hb.length]
  unfold usizeBound
  omega

private theorem pushAndUse_runs {a b : Nat} (hb : Bounds s) (hfit : s.arenaPushOffset + a ≤ s.maxMemory)
    (hcount : ∃ used, usizeAdd p s.currentMemoryUsed b = .ok used) : ∃ t, pushAndUse p a b s = .ok (.ok (),t) := by
  obtain ⟨used,hused⟩ := hcount
  have hmax := hb.max_lt
  simp only [pushAndUse,Prog.run_get_bind,Prog.run_liftO_ok_bind,hused,
    usizeAdd_of_lt p (show s.arenaPushOffset + a < usizeBound by unfold usizeBound; omega)]
  exact ⟨_,rfl⟩

private theorem bounds_overwrite (a : Nat) (data : List UInt8) (hb : Bounds s) (hfit : a + data.length ≤ s.maxMemory) :
    Bounds { s with arena := overwrite s.arena a data } := by
  have hcells : a + data.length ≤ s.arena.length := by rw [hb.length]; exact hfit
  exact ⟨hb.max_lt,(length_overwrite hcells).trans hb.length,hb.bounded.store hcells⟩

private theorem extendAtTail_runs {extra newLen : Nat} (ht : Tallied p s) (hfit : s.arenaPushOffset + extra ≤ s.maxMemory) :
    ∃ t, extendAtTail p id extra newLen s = .ok (.ok (),t) := by
  have hb := bounds_overwrite s.arenaPushOffset (List.replicate extra 0) ht.bounds
    (by rw [List.length_replicate]; exact hfit)
  obtain ⟨t,hpush⟩ := pushAndUse_runs hb hfit (ht.counts hfit)
  simp only [extendAtTail,Prog.run_get_bind]
  rw [Prog.run_bind_ok (fillZero_runs (length_lt ht.bounds) (by rw [ht.bounds.length]; exact hfit)),Prog.run_bind_ok hpush]
  exact ⟨_,rfl⟩

private theorem growByCopying_runs {newLen : Nat} (ht : Tallied p s) (hf : get s.files id = some f) (hlt : f.len < newLen)
    (hfit : s.arenaPushOffset + newLen ≤ s.maxMemory) : ∃ t, growByCopying p id f newLen s = .ok (.ok (),t) := by
  have hstop := ht.bounds.stop_le hf
  have hlen := ht.bounds.length
  have hpush := ht.bounds.push_le
  have hcopied := bounds_overwrite s.arenaPushOffset (slice s.arena f.arenaOffset f.len) ht.bounds
    (by rw [length_slice (by omega)]; omega)
  have hfilled := bounds_overwrite (s.arenaPushOffset + f.len) (List.replicate (newLen - f.len) 0) hcopied
    (by rw [List.length_replicate,Nat.add_assoc,Nat.add_sub_cancel' (Nat.le_of_lt hlt)]; exact hfit)
  obtain ⟨t,hup⟩ := pushAndUse_runs hfilled hfit (ht.counts (n := newLen - f.len) (by omega))
  simp only [growByCopying,Prog.run_get_bind]
  rw [Prog.run_bind_ok (copyWithin_runs (length_lt ht.bounds) (by omega) (by omega)),
    Prog.run_bind_ok (fillZero_runs (length_lt hcopied) (by rw [hcopied.length]; simp only; omega)),Prog.run_bind_ok hup]
  exact ⟨_,rfl⟩

end Grow

/-- Making room for a growth succeeds when there is room, and the file is where the extension
expects it when a compaction was needed. -/
private theorem growByCompacting_iff {newLen : Nat} (ht : Tallied p s) (hw : WritesSucceed D) (hL : Follows tick max L s)
    (hf : get s.files id = some f) (hlt : f.len < newLen) (hn : newLen ≤ s.maxMemory)
    (htail : f.arenaOffset + f.len = s.arenaPushOffset → s.maxMemory < s.arenaPushOffset + (newLen - f.len)) :
    (∃ t, growByCompacting p id (newLen - f.len) newLen s = .ok (.ok (),t)) ↔
      (∃ L', Frees alwaysSaved p tick max (newLen - f.len) id L L') ∧
        (p.checks = true → s.maxMemory < s.arenaPushOffset + (newLen - f.len)) := by
  have hiff : (∃ t, ensureSpace p (newLen - f.len) id true s = .ok (.ok true,t)) ↔ _ := ensureSpace_iff hw hL
  have hmax := ht.bounds.max_lt
  have htight : Tight p (newLen - f.len) s ↔ s.maxMemory < s.arenaPushOffset + (newLen - f.len) :=
    tight_iff hmax ht.bounds.push_le (by omega)
  rw [← htight,← hiff]
  unfold growByCompacting
  constructor
  · rintro ⟨t,hgrow⟩
    obtain ⟨room,v,hroom,h⟩ := Prog.bind_returns_ok hgrow
    cases room with
    | false => cases h
    | true =>
      simp only [Bool.not_true,Bool.false_eq_true,if_false,Prog.run_get_bind] at h
      refine ⟨⟨v,hroom⟩,fun hp => ?_⟩
      obtain ⟨hsteps,⟨hr,_⟩ | ⟨_,top,htop,hle,hcase⟩⟩ := ensureSpace_returns ht.bounds hroom
      · cases hr
      obtain rfl | ⟨htight,_⟩ := hcase
      swap
      · exact htight
      -- no compaction was made, so that the assertion fails
      have hstop := ht.bounds.stop_le hf
      have hpush := ht.bounds.push_lt
      rw [htight]
      rw [htop,Prog.run_liftO_ok_bind,if_pos hle] at h
      simp only [hf,usizeAdd_of_lt p (show f.arenaOffset + f.len < usizeBound by omega),Prog.run_liftO_ok_bind] at h
      obtain ⟨_,hassert,_⟩ := Prog.liftO_bind_returns h
      simp only [debugAssert,hp,Bool.true_and,Bool.not_eq_true'] at hassert
      split_ifs at hassert with hself
      exact htail (by simpa using hself)
  · rintro ⟨⟨v,hv⟩,hfull⟩
    obtain ⟨hsteps,⟨hr,_⟩ | ⟨_,top,htop,hle,hcase⟩⟩ := ensureSpace_returns ht.bounds hv
    · cases hr
    have htv : Tallied p v := tallied_closed.steps hsteps ht
    obtain ⟨g,hg,hlen,_⟩ := hsteps.kept hf
    have hstop := htv.bounds.stop_le hg
    have hpush := htv.bounds.push_lt
    have hfit : v.arenaPushOffset + (newLen - f.len) ≤ v.maxMemory := by
      have hvmax := htv.bounds.max_lt
      have hvpush := htv.bounds.push_le
      rw [usizeAdd_of_lt p (by unfold usizeBound; omega)] at htop
      cases htop
      exact hle
    have hassert : debugAssert p (g.arenaOffset + g.len == v.arenaPushOffset) = .ok () := by
      cases hp : p.checks with
      | false => simp [debugAssert,hp]
      | true =>
        obtain rfl | ⟨_,u,hu,hpacked⟩ := hcase
        · obtain ⟨top',htop',hgt⟩ := hfull hp
          rw [htop] at htop'
          cases htop'
          omega
        · have hself := (hpacked.at_tail (hu.bounds ht.bounds).inArena hg).1
          simp [debugAssert,hself]
    rw [Prog.run_bind_ok hv]
    simp only [Bool.not_true,Bool.false_eq_true,if_false,Prog.run_get_bind,htop,Prog.run_liftO_ok_bind,if_pos hle,hg,
      usizeAdd_of_lt p (show g.arenaOffset + g.len < usizeBound by omega),hassert]
    exact extendAtTail_runs htv hfit

/-- A growth succeeds in place, by a copy, or when there is room for it. -/
private theorem growFile_iff {newLen : Nat} (ht : Tallied p s) (hw : WritesSucceed D) (hL : Follows tick max L s)
    (hf : get s.files id = some f) (hlt : f.len < newLen) (hn : newLen ≤ s.maxMemory) :
    (∃ t, growFile p id f newLen s = .ok (.ok (),t)) ↔ Grows p tick max id (f.arenaOffset + f.len) f.len newLen L := by
  unfold Grows
  rw [hL.push,← hL.max]
  have hstop := ht.bounds.stop_le hf
  have hpush := ht.bounds.push_lt
  have hmax := ht.bounds.max_lt
  have hple := ht.bounds.push_le
  have hbound : 2^64 = usizeBound := rfl
  simp only [growFile,Prog.run_get_bind,Prog.run_liftO_ok_bind,usizeSub_of_le p hple,
    usizeAdd_of_lt p (show f.arenaOffset + f.len < usizeBound by omega),
    usizeAdd_of_lt p (show s.arenaPushOffset + (newLen - f.len) < usizeBound by omega)]
  by_cases htail : f.arenaOffset + f.len = s.arenaPushOffset ∧ s.arenaPushOffset + (newLen - f.len) ≤ s.maxMemory
  · rw [if_pos htail.1]
    simp only [Except.map,htail.2,decide_true,Prog.run_liftO_ok_bind,if_true]
    refine iff_of_true (extendAtTail_runs ht htail.2) fun _ _ hfull => ?_
    exact absurd (hfull htail.1) (Nat.not_lt.mpr htail.2)
  · have hfalse : (if f.arenaOffset + f.len = s.arenaPushOffset then
        (Except.ok (s.arenaPushOffset + (newLen - f.len)) : Outcome Nat).map fun top => decide (top ≤ s.maxMemory)
        else .ok false) = .ok false := by
      split_ifs with he
      · simp only [Except.map,Except.ok.injEq,decide_eq_false_iff_not]
        exact fun hle => htail ⟨he,hle⟩
      · rfl
    rw [hfalse]
    simp only [Prog.run_liftO_ok_bind,Bool.false_eq_true,if_false]
    split_ifs with hcopy
    · refine iff_of_true (growByCopying_runs ht hf hlt (by omega)) fun _ hfull _ => ?_
      omega
    · have hfull : f.arenaOffset + f.len = s.arenaPushOffset → s.maxMemory < s.arenaPushOffset + (newLen - f.len) :=
        fun he => Nat.not_le.mp fun hle => htail ⟨he,hle⟩
      rw [growByCompacting_iff ht hw hL hf hlt hn hfull,← hL.max]
      exact ⟨fun h _ _ _ => h,fun h => h hlt (by omega) hfull⟩

variable [ByteStore D]

theorem writesSucceed_byteStore : WritesSucceed D := by
  intro id offset bytes d
  obtain ⟨d',h,_⟩ := ByteStore.writeFile_eq id offset bytes d
  exact ⟨_,d',h⟩

private theorem rememberNode_runs (id : FileNodeHandle) (s : FileCache M D) :
    ∃ d nodes, rememberNode id s = .ok (.ok (),{ s with driver := d, fileNodes := nodes }) := by
  obtain ⟨node,d,hnode,_⟩ := ByteStore.getNode_eq id s.driver
  simp only [rememberNode,bind,Prog.bind,callDriver,hnode]
  exact ⟨_,_,rfl⟩

omit [FiniteMap FileNodeHandle M] [ByteStore D] in
private theorem loadInto_runs {off n k : Nat} {data : List UInt8} {d : D} (hlen : s.arena.length < usizeBound)
    (h : off + n ≤ s.arena.length) (hread : readFileInto id (slice s.arena off n) s.driver = .ok (.ok k,data,d)) :
    loadInto p id off n s = .ok (.ok k,{ s with driver := d, arena := overwrite s.arena off data }) := by
  refine (Prog.run_bind_ok (arenaSlice_runs hlen h)).trans ?_
  simp only [hread]

/-- Making room for one file leaves the others' bytes, and those on disk, as long as they were. -/
private theorem SpaceSteps.content (h : SpaceSteps p keep s t) (hf : get s.files id = none) :
    content t.driver id = content s.driver id := by
  induction h with
  | refl => rfl
  | @tail u t hsteps step ih =>
    have hu := SpaceSteps.absent hsteps hf
    rw [← ih]
    cases step with
    | @refused j g e d hj _ hw =>
      obtain ⟨d',heq,_⟩ := ByteStore.writeFile_eq j 0 (u.bytesOf g) u.driver
      rw [heq] at hw
      cases hw
    | @evicted _ j g out =>
      have hj : id ≠ j := by
        rintro rfl
        rw [out.cached] at hu
        cases hu
      obtain ⟨d,events,used,⟨_,_,n,hw⟩ | ⟨_,_,rfl⟩,rfl⟩ := out.out
      · obtain ⟨d',heq,hc⟩ := ByteStore.writeFile_eq j 0 (u.bytesOf g) u.driver
        rw [heq] at hw
        cases hw
        exact (congrFun hc id).trans (Function.update_of_ne hj ..)
      · rfl
    | packed out => rw [out.moved.driver]

omit [ByteStore D] in
private theorem SpaceSteps.hints (h : SpaceSteps p keep s t) :
    t.directoryHints = s.directoryHints ∧ t.maxMemory = s.maxMemory := by
  induction h with
  | refl => exact ⟨rfl,rfl⟩
  | tail _ step ih =>
    rw [← ih.1,← ih.2]
    cases step with
    | refused _ _ _ => exact ⟨rfl,rfl⟩
    | evicted out =>
      obtain ⟨d,events,used,_,rfl⟩ := out.out
      exact ⟨rfl,rfl⟩
    | packed out => exact ⟨out.moved.hints,out.moved.max⟩

omit [CacheFilesystemDriver D] [ByteStore D] in
/-- A miss that found room brings the file in at the push offset. -/
structure Brings (id : FileNodeHandle) (room size : Nat) (v t : FileCache M D) : Prop where
  tick : t.accessTick = v.accessTick
  max : t.maxMemory = v.maxMemory
  files : t.files = insert v.files id (CachedFile.new v.arenaPushOffset size v.accessTick (v.getEffectiveImportance id))
  push : t.arenaPushOffset = v.arenaPushOffset + room
  used : t.currentMemoryUsed = if size = 0 then v.currentMemoryUsed else (v.currentMemoryUsed + size) % usizeBound

omit [CacheFilesystemDriver D] [ByteStore D] in
private theorem Brings.follows {room size : Nat} (h : Brings id room size v t) (hc : Covered t) (hL : Follows tick max L v) :
    Follows tick max (L.brought id room size tick (v.getEffectiveImportance id)) t where
  covered := hc
  tick := h.tick.trans hL.tick
  max := h.max.trans hL.max
  files := by
    rw [h.files,Ledger.brought,FiniteMap.map_insert,FiniteMap.map_insert,hL.files,hL.tick]
    rfl
  push := by rw [h.push,← hL.push]; rfl
  used := by rw [h.used,← hL.used]; rfl
  disk := trivial

omit [ByteStore D] in
/-- Once ensure_space has succeeded there is room. -/
private theorem room_of_ensured (ht : Tallied p s) (hn : needed ≤ s.maxMemory)
    (hv : ensureSpace p needed keep true s = .ok (.ok true,v)) :
    SpaceSteps p keep s v ∧ Tallied p v ∧ v.arenaPushOffset + needed ≤ v.maxMemory := by
  obtain ⟨hsteps,⟨hr,_⟩ | ⟨_,top,htop,hle,_⟩⟩ := ensureSpace_returns ht.bounds hv
  · cases hr
  have htv : Tallied p v := tallied_closed.steps hsteps ht
  have hmax := ht.bounds.max_lt
  have hvmax := htv.bounds.max_lt
  have hvpush := htv.bounds.push_le
  rw [usizeAdd_of_lt p (by unfold usizeBound; omega)] at htop
  cases htop
  exact ⟨hsteps,htv,hle⟩

private theorem loadMissing_brings {n : Nat} (ht : Tallied p s) (hf : get s.files id = none)
    (hsize : (content s.driver id).length = n) (hpos : n ≠ 0) (hn : n ≤ s.maxMemory)
    (hv : ensureSpace p n invalidNodeHandle true s = .ok (.ok true,v)) :
    ∃ t, loadMissing p id n s = .ok (.ok (),t) ∧ Brings id n n v t := by
  obtain ⟨hsteps,htv,hfit⟩ := room_of_ensured ht hn hv
  have hlen := htv.bounds.length
  have hbound := length_lt htv.bounds
  have hslice : (slice v.arena v.arenaPushOffset n).length = n := length_slice (by omega)
  obtain ⟨d,hread,_⟩ := ByteStore.readFileInto_eq id (slice v.arena v.arenaPushOffset n) v.driver
    (by rw [hslice,hsteps.content hf,hsize])
  rw [hslice] at hread
  obtain ⟨used,hused⟩ := htv.counts (n := n) hfit
  unfold loadMissing
  rw [Prog.run_bind_ok hv]
  simp only [Bool.not_true,Bool.false_eq_true,if_false]
  rw [Prog.run_bind_ok (arenaPushAlloc_runs hfit htv.bounds.max_lt)]
  simp only
  rw [Prog.run_bind_ok (loadInto_runs (s := { v with arenaPushOffset := v.arenaPushOffset + n }) hbound
    (by rw [hlen]; exact hfit) hread)]
  simp only [insertFile,Prog.run_modify_bind]
  obtain ⟨d',nodes,hnode⟩ := rememberNode_runs id { v with
    driver := d
    arena := overwrite v.arena v.arenaPushOffset (content v.driver id)
    arenaPushOffset := v.arenaPushOffset + n
    files := insert v.files id (CachedFile.new v.arenaPushOffset n v.accessTick (v.getEffectiveImportance id)) }
  refine ⟨{ v with
    driver := d'
    arena := overwrite v.arena v.arenaPushOffset (content v.driver id)
    arenaPushOffset := v.arenaPushOffset + n
    currentMemoryUsed := used
    files := insert v.files id (CachedFile.new v.arenaPushOffset n v.accessTick (v.getEffectiveImportance id))
    fileNodes := nodes },(Prog.run_bind_ok hnode).trans ?_,rfl,rfl,rfl,rfl,?_⟩
  · simp only [Prog.run_get_bind,hused,Prog.run_liftO_ok_bind]
    rfl
  · rw [if_neg hpos]
    exact usizeAdd_eq_mod hused

private theorem createMissing_brings (ht : Tallied p s) (hn : offset + len ≤ s.maxMemory)
    (hv : ensureSpace p (offset + len) invalidNodeHandle true s = .ok (.ok true,v)) :
    ∃ t, createMissing p id offset len s = .ok (.ok (),t) ∧ Brings id (offset + len) 0 v t := by
  obtain ⟨_,htv,hfit⟩ := room_of_ensured ht hn hv
  have hbound := length_lt htv.bounds
  have hmax := ht.bounds.max_lt
  unfold createMissing
  rw [usizeAdd_of_lt p (by unfold usizeBound; omega),Prog.run_liftO_ok_bind,Prog.run_bind_ok hv]
  simp only [Bool.not_true,Bool.false_eq_true,if_false]
  rw [Prog.run_bind_ok (arenaPushAlloc_runs hfit htv.bounds.max_lt)]
  simp only
  rw [Prog.run_bind_ok (fillZero_runs (s := { v with arenaPushOffset := v.arenaPushOffset + (offset + len) })
    hbound (by rw [htv.bounds.length]; exact hfit))]
  simp only [insertFile,Prog.run_modify_bind]
  obtain ⟨d,nodes,hnode⟩ := rememberNode_runs id { v with
    arena := overwrite v.arena v.arenaPushOffset (List.replicate (offset + len) 0)
    arenaPushOffset := v.arenaPushOffset + (offset + len)
    files := insert v.files id (CachedFile.new v.arenaPushOffset 0 v.accessTick (v.getEffectiveImportance id)) }
  exact ⟨_,hnode,rfl,rfl,rfl,rfl,rfl⟩

omit [ByteStore D] in
private theorem ensured_of_load {n : Nat} (h : loadMissing p id n s = .ok (.ok (),t)) :
    ∃ v, ensureSpace p n invalidNodeHandle true s = .ok (.ok true,v) := by
  obtain ⟨room,v,hroom,h'⟩ := Prog.bind_returns_ok h
  cases room with
  | false => cases h'
  | true => exact ⟨v,hroom⟩

omit [ByteStore D] in
private theorem ensured_of_create (hn : offset + len < usizeBound) (h : createMissing p id offset len s = .ok (.ok (),t)) :
    ∃ v, ensureSpace p (offset + len) invalidNodeHandle true s = .ok (.ok true,v) := by
  unfold createMissing at h
  rw [usizeAdd_of_lt p hn,Prog.run_liftO_ok_bind] at h
  obtain ⟨room,v,hroom,h'⟩ := Prog.bind_returns_ok h
  cases room with
  | false => cases h'
  | true => exact ⟨v,hroom⟩

/-- The room that a miss asks for: the bytes on disk, or all of the write if there are none. -/
def missRoom (offset len size : Nat) : Nat := if size = 0 then offset + len else size

/-- A miss brings the file in exactly when ensure_space finds the room that it asks for. -/
private theorem writeMiss_brings (offset len : Nat) (ht : Tallied p s) (hf : get s.files id = none)
    (hlen : (content s.driver id).length ≤ s.maxMemory) (hn : offset + len ≤ s.maxMemory) :
    ∃ d, (∀ t, writeMiss p id offset len s = .ok (.ok (),t) → ∃ v,
        ensureSpace p (missRoom offset len (content s.driver id).length) invalidNodeHandle true { s with driver := d } =
          .ok (.ok true,v)) ∧
      ∀ v, ensureSpace p (missRoom offset len (content s.driver id).length) invalidNodeHandle true { s with driver := d } =
          .ok (.ok true,v) → ∃ t, writeMiss p id offset len s = .ok (.ok (),t) ∧
        Brings id (missRoom offset len (content s.driver id).length) (content s.driver id).length v t := by
  have hmax := ht.bounds.max_lt
  obtain ⟨d,hsize,hsame⟩ := ByteStore.fileSize_eq id s.driver (by unfold usizeBound; omega)
  have htd : Tallied p { s with driver := d } := ht.of_rest rfl rfl rfl
  have hcontent : (content d id).length = (content s.driver id).length := by rw [hsame]
  generalize (content s.driver id).length = n at *
  have hquery : Prog.attempt (callDriver (fileSize id)) s = .ok (.ok (.ok n),{ s with driver := d }) := by
    simp only [Prog.attempt,callDriver,hsize]
  refine ⟨d,?_⟩
  unfold writeMiss missRoom
  rw [Prog.run_bind_ok hquery]
  simp only
  by_cases hzero : n = 0
  · simp only [hzero,gt_iff_lt,Nat.lt_irrefl,if_false,if_true]
    exact ⟨fun t h => ensured_of_create (by unfold usizeBound; omega) h,fun v hv => createMissing_brings htd hn hv⟩
  · simp only [gt_iff_lt,Nat.pos_of_ne_zero hzero,if_true,hzero,if_false]
    exact ⟨fun t h => ensured_of_load h,fun v hv => loadMissing_brings htd hf hcontent hzero hlen hv⟩

private theorem patchFile_runs {now : UInt32} {data : List UInt8} (hb : Bounds s)
    (hf : get s.files id = some f) (hle : offset + data.length ≤ f.len) :
    ∃ t, patchFile p now id offset data (offset + data.length) s = .ok (.ok data.length,t) := by
  have hstop := hb.stop_le hf
  have hpush := hb.push_le
  have hlen := hb.length
  have hbound := length_lt hb
  simp only [patchFile,Prog.run_get_bind,hf,usizeAdd_of_lt p (show f.arenaOffset + offset < usizeBound by omega),
    Prog.run_liftO_ok_bind]
  rw [Prog.run_bind_ok (copyFromSlice_runs hbound (by omega))]
  simp only [gt_iff_lt,Nat.not_lt.mpr hle,if_false,Prog.run_modify_bind]
  refine callDriver_bind_runs ?_ fun _ _ => ⟨_,rfl⟩
  obtain ⟨node,d,hnode,_⟩ := ByteStore.getNode_eq id s.driver
  exact ⟨node,d,hnode⟩

private theorem writeCached_iff {now : UInt32} {data : List UInt8} (ht : Tallied p v) (hL : Follows tick max L v)
    (hn : offset + data.length ≤ v.maxMemory) (hf : get v.files id = some f) :
    (∃ t, writeCached p now id offset data v = .ok (.ok data.length,t)) ↔
      Grows p tick max id (f.arenaOffset + f.len) f.len (offset + data.length) L := by
  have hmax := ht.bounds.max_lt
  simp only [writeCached,usizeAdd_of_lt p (show offset + data.length < usizeBound by unfold usizeBound; omega),
    Prog.run_liftO_ok_bind,Prog.run_get_bind,hf]
  split_ifs with hgrow
  swap
  · exact iff_of_true (patchFile_runs ht.bounds hf (Nat.not_lt.mp hgrow)) fun h => absurd h hgrow
  rw [← growFile_iff ht writesSucceed_byteStore hL hf hgrow hn]
  constructor
  · intro h
    obtain ⟨t,h⟩ := h
    obtain ⟨_,w,hw,_⟩ := Prog.bind_returns_ok h
    exact ⟨w,hw⟩
  · rintro ⟨w,hw⟩
    have hg := growFile_returns ht.bounds hf hgrow (by unfold usizeBound; omega) hw
    obtain ⟨g,hget,hlen⟩ := hg.get_self
    rw [Prog.run_bind_ok hw]
    exact patchFile_runs (tallied_closed.grown hgrow ht hg).bounds hget (Nat.le_of_eq hlen.symm)

/-- The file's length as a write sees it: in the cache, or else on disk. -/
def fileLength (s : FileCache M D) (id : FileNodeHandle) : Nat :=
  match get s.files id with
  | some f => f.len
  | none => (content s.driver id).length

/-- The ledger of the state has room for the write: a cached file can grow to the end of it, or
files can go for the miss, and the file that the miss brings in can grow after that. -/
def Accepts (p : Profile) (id : FileNodeHandle) (offset len : Nat) (s : FileCache M D) : Prop :=
  let tick := s.accessTick + 1
  match get s.files id with
  | some f => Grows p tick s.maxMemory id (f.arenaOffset + f.len) f.len (offset + len) (ledger s ())
  | none =>
    let size := (content s.driver id).length
    let room := missRoom offset len size
    ∃ L, Frees alwaysSaved p tick s.maxMemory room invalidNodeHandle (ledger s ()) L ∧
      Grows p tick s.maxMemory id (L.push + size) size (offset + len)
        (L.brought id room size tick (s.getEffectiveImportance id))

/-- In every run over a driver that never fails, a write that fits is accepted exactly when the
ledger of the state in which it is called has room for it. -/
theorem writeFile_accepts_iff {d : D} {max : Nat} {ops : List CacheOp} {rs : List (Except FileSystemError CacheReply)}
    {now : UInt32} {data : List UInt8} (hnew : new d max = .ok s) (hrun : execAll p ops s = .ok (rs,t))
    (hfits : Nat.max (fileLength t id) (offset + data.length) ≤ t.maxMemory) :
    (∃ u, writeFile p now id offset data t = .ok (.ok data.length,u)) ↔ Accepts p id offset data.length t := by
  obtain ⟨hlen,hn⟩ := Nat.max_le.mp hfits
  have ht : Tallied p { t with accessTick := t.accessTick + 1 } := (execAll_tallied hnew hrun).of_rest rfl rfl rfl
  have hL : Follows (t.accessTick + 1) t.maxMemory (ledger t ()) { t with accessTick := t.accessTick + 1 } :=
    booked_ledger ht.toCovered trivial
  simp only [writeFile,bumpTick,Prog.run_modify_bind,Prog.run_get_bind]
  unfold Accepts
  unfold fileLength at hlen
  cases hf : get t.files id with
  | some f =>
    simp only [Option.isNone_some,Bool.false_eq_true,if_false]
    exact writeCached_iff ht hL hn hf
  | none =>
    simp only [hf] at hlen
    simp only [Option.isNone_none,if_true]
    obtain ⟨d,hroom,hbrings⟩ := writeMiss_brings offset data.length ht hf hlen hn
    have htd : Tallied p { t with accessTick := t.accessTick + 1, driver := d } := ht.of_rest rfl rfl rfl
    have hLd : Follows (t.accessTick + 1) t.maxMemory (ledger t ()) { t with accessTick := t.accessTick + 1, driver := d } :=
      booked_ledger htd.toCovered trivial
    have hroomLe : missRoom offset data.length (content t.driver id).length ≤ t.maxMemory := by
      unfold missRoom
      split_ifs
      · exact hn
      · exact hlen
    -- the growth starts from the ledger after the miss
    have hgrowth {v w : FileCache M D} {L : Ledger M Unit} (hmiss : writeMiss p id offset data.length
          { t with accessTick := t.accessTick + 1 } = .ok (.ok (),w))
        (hv : ensureSpace p (missRoom offset data.length (content t.driver id).length) invalidNodeHandle true
          { t with accessTick := t.accessTick + 1, driver := d } = .ok (.ok true,v))
        (hb : Brings id (missRoom offset data.length (content t.driver id).length) (content t.driver id).length v w)
        (hLv : Follows (t.accessTick + 1) t.maxMemory L v) :
        (∃ u, writeCached p now id offset data w = .ok (.ok data.length,u)) ↔
          Grows p (t.accessTick + 1) t.maxMemory id (L.push + (content t.driver id).length) (content t.driver id).length
            (offset + data.length) (L.brought id (missRoom offset data.length (content t.driver id).length)
              (content t.driver id).length (t.accessTick + 1) (t.getEffectiveImportance id)) := by
      have hft : get { t with accessTick := t.accessTick + 1 }.files id = none := hf
      have htw : Tallied p w := tallied_closed.writeMiss hft ht hmiss
      have hLw := hb.follows htw.toCovered hLv
      have hget : get w.files id = _ := (congrArg (get · id) hb.files).trans (FiniteMap.get_insert_self ..)
      have himportance : v.getEffectiveImportance id = t.getEffectiveImportance id := by
        unfold getEffectiveImportance
        rw [(room_of_ensured htd hroomLe hv).1.hints.1]
      rw [himportance] at hLw
      rw [writeCached_iff htw hLw (by rw [hLw.max]; exact hn) hget,hLv.push]
      rfl
    constructor
    · rintro ⟨u,hu⟩
      obtain ⟨_,w,hmiss,hcached⟩ := Prog.bind_returns_ok hu
      obtain ⟨v,hv⟩ := hroom w hmiss
      obtain ⟨w',hmiss',hb⟩ := hbrings v hv
      rw [hmiss] at hmiss'
      cases hmiss'
      obtain ⟨L,hfrees,hLv⟩ := ensureSpace_follows writesSucceed_byteStore hLd hv
      exact ⟨L,hfrees,(hgrowth hmiss hv hb hLv).mp ⟨u,hcached⟩⟩
    · rintro ⟨L,hfrees,hgrows⟩
      obtain ⟨v,hv,hLv⟩ := hfrees.follows writesSucceed_byteStore hLd
      obtain ⟨w,hmiss,hb⟩ := hbrings v hv
      obtain ⟨u,hu⟩ := (hgrowth hmiss hv hb hLv).mpr hgrows
      exact ⟨u,(Prog.run_bind_ok hmiss).trans hu⟩

/-- A new file of four bytes takes an arena of eight. -/
theorem writeFile_accepts_half : ∃ s u : FileCache NodeTable ByteDriver,
    new ⟨fun _ => []⟩ 8 = .ok s ∧ execAll .dev [] s = .ok ([],s) ∧ Nat.max (fileLength s 1) 4 ≤ s.maxMemory ∧
      writeFile .dev 0 1 0 [1,2,3,4] s = .ok (.ok 4,u) ∧ Accepts .dev 1 0 4 s := by
  have hrun : ((writeFile .dev 0 1 0 [1,2,3,4] (empty ⟨fun _ => []⟩ 8 :
      FileCache NodeTable ByteDriver)).toOption.map Prod.fst) = some (.ok 4) := by
    decide +kernel
  obtain ⟨⟨r,u⟩,hu,hr⟩ := Option.map_eq_some_iff.mp hrun
  cases hr
  have hfits : Nat.max (fileLength (empty ⟨fun _ => []⟩ 8 : FileCache NodeTable ByteDriver) 1)
      (0 + [1,2,3,4].length) ≤ 8 := by
    decide +kernel
  have hempty : execAll .dev [] (empty ⟨fun _ => []⟩ 8 : FileCache NodeTable ByteDriver) = .ok ([],_) := rfl
  have hnew : new ⟨fun _ => []⟩ 8 = .ok (empty ⟨fun _ => []⟩ 8 : FileCache NodeTable ByteDriver) := rfl
  exact ⟨_,u,hnew,hempty,hfits,of_toOption hu,(writeFile_accepts_iff hnew hempty hfits).mp ⟨u,of_toOption hu⟩⟩

/-- A new file of five bytes is refused by an empty arena of eight. -/
theorem writeFile_refuses_new : ∃ s u : FileCache NodeTable ByteDriver,
    new ⟨fun _ => []⟩ 8 = .ok s ∧ execAll .release [] s = .ok ([],s) ∧ iter s.files = [] ∧
      Nat.max (fileLength s 1) (0 + [1,2,3,4,5].length) ≤ s.maxMemory ∧
      writeFile .release 0 1 0 [1,2,3,4,5] s = .ok (.error .cacheFull,u) := by
  have hrun : ((writeFile .release 0 1 0 [1,2,3,4,5] (empty ⟨fun _ => []⟩ 8 :
      FileCache NodeTable ByteDriver)).toOption.map Prod.fst) = some (.error .cacheFull) := by
    decide +kernel
  obtain ⟨⟨r,u⟩,hu,hr⟩ := Option.map_eq_some_iff.mp hrun
  cases hr
  exact ⟨_,u,rfl,rfl,rfl,by decide +kernel,of_toOption hu⟩

end MofuOS.Filesystem.FileCache
