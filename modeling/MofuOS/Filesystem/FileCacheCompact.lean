import MofuOS.Filesystem.FileCacheSteps
import MofuOS.Lib.ArenaPack

/-! Compaction packs the arena. The order in which it visits the files decides whether
their bytes survive, never whether the regions end up apart. -/
namespace MofuOS.Filesystem

/-- A cached file without its place. -/
def CachedFile.settled (f : CachedFile) : CachedFile := { f with arenaOffset := 0 }

namespace FileCache
open Lib
open Prog (liftO)
open FiniteMap (get insert remove iter modify)
variable {M : Type → Type} [FiniteMap FileNodeHandle M] {D : Type} {p : Profile} {s t u : FileCache M D}

/-- The two states differ in where the files lie and in nothing else. -/
structure Moved (s t : FileCache M D) : Prop where
  driver : t.driver = s.driver
  max : t.maxMemory = s.maxMemory
  trace : t.trace = s.trace
  used : t.currentMemoryUsed = s.currentMemoryUsed
  tick : t.accessTick = s.accessTick
  hints : t.directoryHints = s.directoryHints
  settled : FiniteMap.map CachedFile.settled t.files = FiniteMap.map CachedFile.settled s.files

theorem Moved.files (h : Moved s t) : FiniteMap.view CachedFile.settled t.files = FiniteMap.view CachedFile.settled s.files :=
  FiniteMap.view_of_map h.settled

theorem Moved.refl (s : FileCache M D) (push : Nat) : Moved s { s with arenaPushOffset := push } :=
  ⟨rfl,rfl,rfl,rfl,rfl,rfl,rfl⟩

theorem Moved.trans (h : Moved s t) (h' : Moved t u) : Moved s u where
  driver := h'.driver.trans h.driver
  max := h'.max.trans h.max
  trace := h'.trace.trans h.trace
  used := h'.used.trans h.used
  tick := h'.tick.trans h.tick
  hints := h'.hints.trans h.hints
  settled := h'.settled.trans h.settled

theorem Moved.get_eq_some (h : Moved s t) {id : FileNodeHandle} {g : CachedFile} (hg : get t.files id = some g) :
    ∃ f, get s.files id = some f ∧ g.len = f.len ∧ g.isDirty = f.isDirty := by
  have hi := congrFun h.files id
  rw [FiniteMap.view,hg,FiniteMap.view,Option.map_some,eq_comm,Option.map_eq_some_iff] at hi
  obtain ⟨f,hf,he⟩ := hi
  simp only [CachedFile.settled,CachedFile.mk.injEq] at he
  exact ⟨f,hf,he.2.1.symm,he.2.2.2.1.symm⟩

theorem Moved.get_eq_none (h : Moved s t) {id : FileNodeHandle} : get t.files id = none ↔ get s.files id = none := by
  have hi := congrFun h.files id
  unfold FiniteMap.view at hi
  rw [← Option.map_eq_none_iff (f := CachedFile.settled),hi,Option.map_eq_none_iff]

/-- The regions lie within the arena, which is a byte vector. -/
structure InArena (s : FileCache M D) : Prop where
  length_lt : s.arena.length < 2^63
  stop_le : ∀ {id f}, get s.files id = some f → f.arenaOffset + f.len ≤ s.arena.length

theorem Bounds.inArena (hb : Bounds s) : InArena s where
  length_lt := hb.length ▸ hb.max_lt
  stop_le h := Nat.le_trans (hb.stop_le h) (hb.length ▸ hb.push_le)

/-- An entry of the list compact works through, as a region. -/
def liveRegion (e : FileNodeHandle × Nat × Nat) : FileNodeHandle × Region := (e.1,⟨e.2.1,e.2.2⟩)

/-- The list still says where its files lie. -/
def Snapshot (live : List (FileNodeHandle × Nat × Nat)) (s : FileCache M D) : Prop :=
  ∀ {id o n}, (id,o,n) ∈ live → ∃ f, get s.files id = some f ∧ f.region = ⟨o,n⟩

private theorem moved_modify (a : List UInt8) (id : FileNodeHandle) (w : Nat) :
    Moved s { s with arena := a, files := modify s.files id fun f => { f with arenaOffset := w } } where
  driver := rfl
  max := rfl
  trace := rfl
  used := rfl
  tick := rfl
  hints := rfl
  settled := FiniteMap.map_modify _ _ _ fun _ => rfl

private theorem arenaOf_move {id : FileNodeHandle} {f : CachedFile} {w : Nat} {d : List UInt8}
    (hf : get s.files id = some f) :
    arenaOf { s with
      arena := overwrite s.arena w d
      files := modify s.files id fun f => { f with arenaOffset := w } } =
    ((arenaOf s).store w d).assign id ⟨w,f.len⟩ := by
  simp only [arenaOf,FiniteMap.view_modify _ hf]
  rfl

private theorem arenaOf_stay {id : FileNodeHandle} {f : CachedFile} (hf : get s.files id = some f)
    (hle : f.arenaOffset + f.len ≤ s.arena.length) :
    ((arenaOf s).store f.arenaOffset (slice s.arena f.arenaOffset f.len)).assign id ⟨f.arenaOffset,f.len⟩ =
      arenaOf s := by
  unfold arenaOf Arena.assign Arena.store
  simp only [overwrite_slice_self hle]
  congr 1
  apply Function.update_eq_self_iff.mpr
  simp [FiniteMap.view,hf,CachedFile.region]

/-- The loop of compact packs the listed files upwards from the write offset. -/
theorem compactLoop_returns {live : List (FileNodeHandle × Nat × Nat)} {w : Nat} {r : Except FileSystemError Unit}
    (hmax : s.arena.length < usizeBound) (hsnap : Snapshot live s) (hn : (live.map Prod.fst).Nodup)
    (hstop : ∀ {id o n}, (id,o,n) ∈ live → o + n ≤ s.arena.length) (hw : w ≤ s.arena.length)
    (h : compactLoop p live w s = .ok (r,t)) :
    r = .ok () ∧ w + Arena.total (live.map liveRegion) ≤ s.arena.length ∧
      arenaOf t = Arena.pack (live.map liveRegion) w (arenaOf s) ∧ Moved s t := by
  induction live generalizing s w with
  | nil =>
    cases h
    exact ⟨rfl,by simpa using hw,rfl,Moved.refl s w⟩
  | cons e live ih =>
    obtain ⟨id,o,n⟩ := e
    obtain ⟨f,hf,hreg⟩ := hsnap List.mem_cons_self
    have hsf := hstop List.mem_cons_self
    obtain ⟨rfl,rfl⟩ : f.arenaOffset = o ∧ f.len = n := by simpa [CachedFile.region] using hreg
    rw [List.map_cons,List.nodup_cons] at hn
    have hne {e} (hm : e ∈ live) : e.1 ≠ id := fun he =>
      hn.1 (List.mem_map.mpr ⟨e,hm,he⟩)
    simp only [compactLoop] at h
    rw [List.map_cons,Arena.pack,Arena.total_cons]
    by_cases how : f.arenaOffset = w
    · subst how
      simp only [ne_eq,not_true_eq_false,if_false,usizeAdd_of_lt p
        (show f.arenaOffset + f.len < usizeBound by omega),Prog.run_liftO_ok_bind] at h
      obtain ⟨hr,hle,hpack,hmv⟩ := ih hmax (fun hm => hsnap (List.mem_cons_of_mem _ hm)) hn.2
        (fun hm => hstop (List.mem_cons_of_mem _ hm)) hsf h
      refine ⟨hr,by simp only [liveRegion]; omega,?_,hmv⟩
      simp only [liveRegion]
      rw [show (arenaOf s).cells = s.arena from rfl,arenaOf_stay hf hsf]
      exact hpack
    · rw [if_pos how] at h
      obtain ⟨e,he,_⟩ | ⟨_,s',hc,h⟩ := Prog.bind_returns h
      · cases (copyWithin_returns (by omega) (by omega) he).1
      obtain ⟨_,_,hd,rfl⟩ := copyWithin_returns (by omega) (by omega) hc
      simp only [Prog.run_modify_bind,usizeAdd_of_lt p (show w + f.len < usizeBound by omega),Prog.run_liftO_ok_bind] at h
      have hlen : (overwrite s.arena w (slice s.arena f.arenaOffset f.len)).length = s.arena.length :=
        length_overwrite (by rwa [length_slice hsf])
      have hsnap' : Snapshot live { s with
          arena := overwrite s.arena w (slice s.arena f.arenaOffset f.len)
          files := modify s.files id fun f => { f with arenaOffset := w } } := by
        intro j o n hm
        obtain ⟨g,hg,hr⟩ := hsnap (List.mem_cons_of_mem _ hm)
        exact ⟨g,by simp only [FiniteMap.get_modify,if_neg (hne hm),hg],hr⟩
      obtain ⟨hr,hle,hpack,hmv⟩ := ih (by simpa only [hlen] using hmax) hsnap' hn.2
        (fun hm => by simpa only [hlen] using hstop (List.mem_cons_of_mem _ hm)) (by simpa only [hlen] using hd) h
      simp only [hlen] at hle
      refine ⟨hr,by simp only [liveRegion]; omega,?_,(moved_modify _ id w).trans hmv⟩
      rw [hpack,arenaOf_move hf]
      rfl

omit [FiniteMap FileNodeHandle M] in
theorem copyWithin_runs {src n dest : Nat} (hlen : s.arena.length < usizeBound)
    (hs : src + n ≤ s.arena.length) (hd : dest + n ≤ s.arena.length) :
    copyWithin p src n dest s = .ok (.ok (),{ s with arena := overwrite s.arena dest (slice s.arena src n) }) := by
  simp only [copyWithin,Prog.run_get_bind,usizeAdd_of_lt p (show src + n < usizeBound by omega),
    Prog.run_liftO_ok_bind,Nat.add_sub_cancel_left,checkRange]
  rw [if_pos ⟨Nat.le_add_right ..,hs⟩,if_pos ⟨Nat.le_add_right ..,hd⟩]
  rfl

/-- The loop never faults while what is left fits behind the write offset. -/
theorem compactLoop_runs {live : List (FileNodeHandle × Nat × Nat)} {w : Nat} (hlen : s.arena.length < usizeBound)
    (hstop : ∀ {id o n}, (id,o,n) ∈ live → o + n ≤ s.arena.length)
    (hw : w + Arena.total (live.map liveRegion) ≤ s.arena.length) : ∃ t, compactLoop p live w s = .ok (.ok (),t) := by
  induction live generalizing s w with
  | nil => exact ⟨_,rfl⟩
  | cons e live ih =>
    obtain ⟨id,o,n⟩ := e
    rw [List.map_cons,Arena.total_cons] at hw
    simp only [liveRegion] at hw
    have hs := hstop List.mem_cons_self
    have hrest : ∀ {id o n}, (id,o,n) ∈ live → o + n ≤ s.arena.length := fun hm => hstop (List.mem_cons_of_mem _ hm)
    by_cases how : o = w
    · simp only [compactLoop,how,ne_eq,not_true_eq_false,if_false,usizeAdd_of_lt p (show w + n < usizeBound by omega),
        Prog.run_liftO_ok_bind]
      exact ih hlen hrest (by omega)
    · have hmoved : (overwrite s.arena w (slice s.arena o n)).length = s.arena.length :=
        length_overwrite (by rw [length_slice hs]; omega)
      simp only [compactLoop,ne_eq,how,not_false_eq_true,if_true]
      rw [Prog.run_bind_ok (copyWithin_runs hlen hs (by omega))]
      simp only [Prog.run_modify_bind,usizeAdd_of_lt p (show w + n < usizeBound by omega),Prog.run_liftO_ok_bind]
      apply ih
      · rwa [hmoved]
      · intro id o n hm
        rw [hmoved]
        exact hrest hm
      · rw [hmoved]
        omega

section Live
variable {k : FileNodeHandle} {f : CachedFile}

theorem liveSorted_perm :
    (liveSorted s.files k).Perm ((iter s.files).map fun e => (e.1,e.2.arenaOffset,e.2.len)) :=
  List.perm_insertionSort ..

theorem mem_liveSorted {e : FileNodeHandle × Nat × Nat} :
    e ∈ liveSorted s.files k ↔ ∃ f, get s.files e.1 = some f ∧ f.region = ⟨e.2.1,e.2.2⟩ := by
  obtain ⟨id,o,n⟩ := e
  rw [liveSorted_perm.mem_iff,List.mem_map]
  constructor
  · rintro ⟨⟨j,f⟩,hm,he⟩
    cases he
    exact ⟨f,(FiniteMap.mem_iter ..).mp hm,rfl⟩
  · rintro ⟨f,hf,he⟩
    cases he
    exact ⟨(id,f),(FiniteMap.mem_iter ..).mpr hf,rfl⟩

theorem liveSorted_nodup : ((liveSorted s.files k).map Prod.fst).Nodup := by
  have hp := (liveSorted_perm (s := s) (k := k)).map Prod.fst
  rw [List.map_map] at hp
  exact hp.nodup_iff.mpr (FiniteMap.iter_nodup s.files)

theorem liveSorted_pairwise : (liveSorted s.files k).Pairwise fun a b => liveKey k a ≤ liveKey k b := by
  have : Std.Total fun a b : FileNodeHandle × Nat × Nat => liveKey k a ≤ liveKey k b := ⟨fun _ _ => Nat.le_total ..⟩
  have : IsTrans _ fun a b : FileNodeHandle × Nat × Nat => liveKey k a ≤ liveKey k b := ⟨fun _ _ _ => Nat.le_trans⟩
  exact List.pairwise_insertionSort ..

/-- The bytes held by the files other than k. -/
def usedExcept (files : M CachedFile) (k : FileNodeHandle) : Nat :=
  (((iter files).filter fun e => e.1 ≠ k).map fun e => e.2.len).sum

/-- The file that is sorted last comes last, and what precedes it is everything else. -/
theorem liveSorted_last (hi : InArena s) (hf : get s.files k = some f) :
    ∃ pre, liveSorted s.files k = pre ++ [(k,f.arenaOffset,f.len)] ∧ (∀ e ∈ pre, e.1 ≠ k) ∧
      Arena.total (pre.map liveRegion) = usedExcept s.files k := by
  obtain ⟨pre,post,hl⟩ := List.append_of_mem (mem_liveSorted (k := k) (e := (k,f.arenaOffset,f.len)) |>.mpr ⟨f,hf,rfl⟩)
  have hn := liveSorted_nodup (s := s) (k := k)
  have hs := liveSorted_pairwise (s := s) (k := k)
  have hperm := liveSorted_perm (s := s) (k := k)
  rw [hl] at hn hs
  rw [List.map_append,List.map_cons,List.nodup_append,List.nodup_cons] at hn
  have hpost {e} (hm : e ∈ post) : e.1 ≠ k := fun he => hn.2.1.1 (List.mem_map.mpr ⟨e,hm,he⟩)
  have hpre {e} (hm : e ∈ pre) : e.1 ≠ k := hn.2.2 _ (List.mem_map_of_mem hm) _ List.mem_cons_self
  have hnil : post = [] := by
    -- a file behind k would start past the end of the address space
    apply List.eq_nil_iff_forall_not_mem.mpr
    intro e hm
    have hle := List.rel_of_pairwise_cons (List.pairwise_append.mp hs).2.1 hm
    obtain ⟨g,hg,hr⟩ := mem_liveSorted (s := s) (k := k) (e := e) |>.mp (by simp [hl,hm])
    have hstop := hi.stop_le hg
    have hlen := hi.length_lt
    have hoff : e.2.1 = g.arenaOffset := (congrArg Region.off hr).symm
    simp only [liveKey,ne_eq,not_true_eq_false,if_false,hpost hm,not_false_eq_true,if_true,usizeMax] at hle
    omega
  subst hnil
  refine ⟨pre,hl,fun e hm => hpre hm,?_⟩
  have hfilter := hperm.filter fun e => e.1 ≠ k
  rw [hl,List.filter_append,List.filter_map] at hfilter
  rw [List.filter_eq_self.mpr (fun e hm => by simpa using hpre hm)] at hfilter
  have hsum := (hfilter.map fun e => e.2.2).sum_eq
  rw [List.map_map] at hsum
  simpa [Arena.total,usedExcept,List.map_map,Function.comp_def,liveRegion] using hsum

theorem before_of_sorted {l : List (FileNodeHandle × Nat × Nat)} (ha : (arenaOf s).Apart)
    (hl : ∀ e ∈ l, e.1 ≠ k ∧ e ∈ liveSorted s.files k) (hs : l.Pairwise fun a b => liveKey k a ≤ liveKey k b)
    (hn : (l.map Prod.fst).Nodup) : (l.map liveRegion).Pairwise fun e e' => e.2.Before e'.2 := by
  rw [List.pairwise_map]
  apply (hs.and (List.pairwise_map.mp hn)).imp_of_mem
  intro e e' hm hm' ⟨hle,hne⟩
  obtain ⟨hk,hlive⟩ := hl e hm
  obtain ⟨hk',hlive'⟩ := hl e' hm'
  obtain ⟨f,hf,hr⟩ := mem_liveSorted.mp hlive
  obtain ⟨f',hf',hr'⟩ := mem_liveSorted.mp hlive'
  simp only [liveKey,ne_eq,hk,hk',not_false_eq_true,if_true] at hle
  have hapart := ha hne (arenaOf_region hf) (arenaOf_region hf')
  rw [hr,hr'] at hapart
  exact hapart.before hle

/-- The other files' bytes all fit in front of file k, so that compacting with k
last moves k, like every other file, towards the front. -/
def packsBelow (s : FileCache M D) (k : FileNodeHandle) : Bool :=
  (get s.files k).all fun f => f.len == 0 || usedExcept s.files k ≤ f.arenaOffset

private theorem liveSorted_fits (hi : InArena s) (ha : (arenaOf s).Apart) (hk : packsBelow s k = true) :
    Arena.Fits ((liveSorted s.files k).map liveRegion) 0 := by
  have hn := liveSorted_nodup (s := s) (k := k)
  have hs := liveSorted_pairwise (s := s) (k := k)
  cases hf : get s.files k with
  | none =>
    apply Arena.fits_of_before _ fun _ => .inr (Nat.zero_le _)
    refine before_of_sorted ha (fun e hm => ⟨?_,hm⟩) hs hn
    intro he
    obtain ⟨f,hf',_⟩ := mem_liveSorted.mp hm
    rw [he,hf] at hf'
    cases hf'
  | some f =>
    obtain ⟨pre,hl,hpre,htotal⟩ := liveSorted_last hi hf
    simp only [packsBelow,hf,Option.all_some,Bool.or_eq_true,beq_iff_eq,decide_eq_true_eq] at hk
    have hmem {e} (hm : e ∈ pre) : e ∈ liveSorted s.files k := by
      rw [hl]
      exact List.mem_append_left _ hm
    rw [hl] at hn hs ⊢
    rw [List.map_append,List.nodup_append] at hn
    rw [List.map_append,List.map_singleton,liveRegion,Arena.fits_concat,htotal,Nat.zero_add]
    refine ⟨?_,hk⟩
    apply Arena.fits_of_before _ fun _ => .inr (Nat.zero_le _)
    exact before_of_sorted ha (fun e hm => ⟨hpre e hm,hmem hm⟩) (List.pairwise_append.mp hs).1 hn.1

/-- Files that end below b take no more than b bytes together. -/
theorem usedExcept_le {b : Nat} (hi : InArena s) (ha : (arenaOf s).Apart) (hf : get s.files k = some f)
    (hstop : ∀ {j g}, j ≠ k → get s.files j = some g → g.arenaOffset + g.len ≤ b) : usedExcept s.files k ≤ b := by
  obtain ⟨pre,hl,hpre,htotal⟩ := liveSorted_last hi hf
  have hn := liveSorted_nodup (s := s) (k := k)
  have hs := liveSorted_pairwise (s := s) (k := k)
  have hmem {e} (hm : e ∈ pre) : e ∈ liveSorted s.files k := by
    rw [hl]
    exact List.mem_append_left _ hm
  rw [hl] at hn hs
  rw [List.map_append,List.nodup_append] at hn
  have hbefore := before_of_sorted ha (fun e hm => ⟨hpre e hm,hmem hm⟩) (List.pairwise_append.mp hs).1 hn.1
  have hle := Arena.total_le_of_before (w := 0) (b := b) hbefore (Nat.zero_le _) (fun {j r} hm => by
    obtain ⟨e,he,hr⟩ := List.mem_map.mp hm
    obtain ⟨g,hg,hreg⟩ := mem_liveSorted.mp (hmem he)
    cases hr
    rw [← hreg]
    exact .inr ⟨Nat.zero_le _,hstop (hpre e he) hg⟩)
  rwa [Nat.zero_add,htotal] at hle

end Live

/-- What compact does. -/
structure Packed (k : FileNodeHandle) (s t : FileCache M D) : Prop where
  arena : arenaOf t = Arena.pack ((liveSorted s.files k).map liveRegion) 0 (arenaOf s)
  moved : Moved s t
  total_le : Arena.total ((liveSorted s.files k).map liveRegion) ≤ s.arena.length

theorem compact_returns {k : FileNodeHandle} {r : Except FileSystemError Unit} (hi : InArena s)
    (h : compact p k s = .ok (r,t)) : r = .ok () ∧ Packed k s t := by
  have hlen := hi.length_lt
  simp only [compact,Prog.run_get_bind] at h
  obtain ⟨hr,hle,hpack,hmv⟩ := compactLoop_returns (by simp only [usizeBound]; omega)
    (fun hm => mem_liveSorted.mp hm) liveSorted_nodup
    (fun {id o n} hm => by
      obtain ⟨f,hf,hreg⟩ := mem_liveSorted.mp hm
      have hstop := hi.stop_le hf
      simp only [CachedFile.region,Region.mk.injEq] at hreg
      omega)
    (Nat.zero_le _) h
  rw [Nat.zero_add] at hle
  exact ⟨hr,hpack,hmv,hle⟩

private theorem live_stop_le {k : FileNodeHandle} (hi : InArena s) {id o n : Nat}
    (hm : (id,o,n) ∈ liveSorted s.files k) : o + n ≤ s.arena.length := by
  obtain ⟨f,hf,hreg⟩ := mem_liveSorted.mp hm
  have hstop := hi.stop_le hf
  simp only [CachedFile.region,Region.mk.injEq] at hreg
  omega

/-- Compaction of files that have room in the arena together never faults. -/
theorem compact_runs_of_total {k : FileNodeHandle} (hi : InArena s)
    (htotal : Arena.total ((liveSorted s.files k).map liveRegion) ≤ s.arena.length) :
    ∃ t, compact p k s = .ok (.ok (),t) := by
  have hlen := hi.length_lt
  simp only [compact,Prog.run_get_bind]
  apply compactLoop_runs (by unfold usizeBound; omega) (live_stop_le hi)
  rwa [Nat.zero_add]

/-- Compaction of files that share no byte never faults. -/
theorem compact_runs {k : FileNodeHandle} (hi : InArena s) (ha : (arenaOf s).Apart) :
    ∃ t, compact p k s = .ok (.ok (),t) := by
  apply compact_runs_of_total hi
  apply Arena.total_le_of_apart
  · rw [List.pairwise_map]
    apply (List.pairwise_map.mp liveSorted_nodup).imp_of_mem
    intro e e' hm hm' hne
    obtain ⟨f,hf,hr⟩ := mem_liveSorted.mp hm
    obtain ⟨f',hf',hr'⟩ := mem_liveSorted.mp hm'
    have hapart := ha hne (arenaOf_region hf) (arenaOf_region hf')
    rwa [hr,hr'] at hapart
  · intro id r hm
    obtain ⟨e,he,hr⟩ := List.mem_map.mp hm
    cases hr
    exact live_stop_le hi he

namespace Packed
variable {k : FileNodeHandle} (h : Packed k s t) (hi : InArena s)

theorem nodup : (((liveSorted s.files k).map liveRegion).map Prod.fst).Nodup := by
  rw [List.map_map]
  exact liveSorted_nodup

theorem stop_le (hi : InArena s) {id : FileNodeHandle} {r : Region}
    (hm : (id,r) ∈ (liveSorted s.files k).map liveRegion) : r.stop ≤ (arenaOf s).cells.length := by
  obtain ⟨e,he,hr⟩ := List.mem_map.mp hm
  obtain ⟨f,hf,hreg⟩ := mem_liveSorted.mp he
  cases hr
  rw [← hreg]
  exact hi.stop_le hf

theorem mem_of_region {id : FileNodeHandle} {r : Region} (hr : (arenaOf s).region id = some r) :
    (id,r) ∈ (liveSorted s.files k).map liveRegion := by
  obtain ⟨f,hf,rfl⟩ := arenaOf_region_eq_some hr
  exact List.mem_map.mpr ⟨(id,f.arenaOffset,f.len),mem_liveSorted.mpr ⟨f,hf,rfl⟩,rfl⟩

include h in
theorem region_of_region {id : FileNodeHandle} {r : Region} (hr : (arenaOf t).region id = some r) :
    ∃ q, (id,q) ∈ (liveSorted s.files k).map liveRegion := by
  cases hs : (arenaOf s).region id with
  | some q => exact ⟨q,mem_of_region hs⟩
  | none =>
    obtain ⟨g,hg,_⟩ := arenaOf_region_eq_some hr
    obtain ⟨f,hf,_⟩ := h.moved.get_eq_some hg
    rw [arenaOf_region hf] at hs
    cases hs

include h in
/-- Whatever order the files are visited in, their new regions share no byte. -/
theorem apart : (arenaOf t).Apart := by
  intro i j ri rj hij hi hj
  obtain ⟨qi,hqi⟩ := h.region_of_region hi
  obtain ⟨qj,hqj⟩ := h.region_of_region hj
  rw [h.arena] at hi hj
  exact Arena.pack_apart_of_mem nodup hij hqi hqj hi hj

include h

include hi in
theorem length_cells : (arenaOf t).cells.length = s.arena.length := by
  rw [h.arena]
  exact Arena.length_pack_cells (stop_le hi) (by rw [Nat.zero_add]; exact h.total_le)

theorem bounds (hb : Bounds s) : Bounds t where
  max_lt := h.moved.max ▸ hb.max_lt
  length := by
    rw [h.moved.max]
    exact (h.length_cells hb.inArena).trans hb.length
  bounded := by
    constructor
    · rw [h.length_cells hb.inArena,h.arena,Arena.pack_top,Nat.zero_add]
      exact h.total_le
    · intro id r hr
      obtain ⟨q,hq⟩ := h.region_of_region hr
      rw [h.arena] at hr ⊢
      obtain ⟨o,ho,_,hle⟩ := Arena.pack_region_of_mem (w := 0) (A := arenaOf s) nodup hq
      rw [ho] at hr
      cases hr
      rw [Arena.pack_top]
      exact hle

include hi

/-- The file sorted last ends at the new push offset, behind everything else. -/
theorem at_tail {g : CachedFile} (hg : get t.files k = some g) :
    g.arenaOffset + g.len = t.arenaPushOffset ∧ g.arenaOffset = usedExcept s.files k := by
  obtain ⟨f,hf,hlen,_⟩ := h.moved.get_eq_some hg
  obtain ⟨pre,hl,_,htotal⟩ := liveSorted_last hi hf
  have hreg := arenaOf_region hg
  have htop : (arenaOf t).top = _ := congrArg Arena.top h.arena
  have hn := nodup (s := s) (k := k)
  rw [h.arena,hl,List.map_append,List.map_singleton,liveRegion] at hreg
  rw [hl,List.map_append,List.map_singleton,liveRegion] at hn
  rw [Arena.pack_region_concat hn,htotal] at hreg
  rw [Arena.pack_top,hl,List.map_append,List.map_singleton,liveRegion,Arena.total_append,htotal] at htop
  have hoff : usedExcept s.files k = g.arenaOffset := by
    have := congrArg (Option.map Region.off) hreg
    simpa [CachedFile.region] using this
  have hpush : t.arenaPushOffset = usedExcept s.files k + f.len := by
    simpa [arenaOf] using htop
  exact ⟨by omega,hoff.symm⟩

/-- A compaction that moves every file towards the front loses nothing. -/
theorem content (ha : (arenaOf s).Apart) (hk : packsBelow s k = true) (id : FileNodeHandle) :
    (arenaOf t).content id = (arenaOf s).content id := by
  cases hs : (arenaOf s).region id with
  | some r =>
    rw [h.arena,Arena.pack_content (stop_le hi) (by rw [Nat.zero_add]; exact h.total_le)
      (liveSorted_fits hi ha hk) nodup (mem_of_region hs),Arena.content_eq hs]
  | none =>
    have hf : get s.files id = none := by simpa [arenaOf,FiniteMap.view] using hs
    have hg := h.moved.get_eq_none.mpr hf
    simp [Arena.content,arenaOf,FiniteMap.view,hf,hg]

end Packed

end FileCache
end MofuOS.Filesystem
