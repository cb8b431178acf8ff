import MofuOS.Filesystem.FileCacheRun
import MofuOS.Filesystem.ByteStore

/-! The layout of the arena over whole runs: files never share a byte, unless a growing
write takes the one branch that extends a file without having moved it to the tail. -/
namespace MofuOS.Filesystem.FileCache
open Lib
open FiniteMap (get insert remove iter modify view)
variable {M : Type → Type} [FiniteMap FileNodeHandle M] {D : Type} [CacheFilesystemDriver D]
  {p : Profile} {s t u v : FileCache M D} {id : FileNodeHandle} {f g : CachedFile}

/-- Where a write ends, as release computes it. -/
def wrappedEnd (offset : UInt64) (data : ByteSlice) : Nat := (offset.toNat + data.1.length) % usizeBound

/-- A write that grows a cached file does not extend it in place over another file. The
branch that could is the one that finds room behind the push offset for the extension but
not for a copy, while the file is not the last one. Debug assertions stop it there. -/
def growsClear (p : Profile) : CacheOp → FileCache M D → Bool
  | .write _ id offset data, s => (get s.files id).all fun f =>
    p.checks || wrappedEnd offset data ≤ f.len || f.arenaOffset + f.len == s.arenaPushOffset ||
      s.arenaPushOffset + wrappedEnd offset data ≤ s.maxMemory ||
      s.maxMemory < s.arenaPushOffset + (wrappedEnd offset data - f.len) ||
      (iter s.files).all fun e =>
        e.1 == id || decide ((⟨f.arenaOffset + f.len,wrappedEnd offset data - f.len⟩ : Region).Apart e.2.region)
  | _, _ => true

/-- The invariant of a run: the arena's bounds, and no byte in two files. -/
def Layout (s : FileCache M D) : Prop := Bounds s ∧ (arenaOf s).Apart

omit [CacheFilesystemDriver D] in
theorem Noted.layout (h : Noted s t) (hl : Layout s) : Layout t := ⟨h.bounds hl.1,by rw [h.arena]; exact hl.2⟩

omit [CacheFilesystemDriver D] in
private theorem roomBehind_noted {newLen : Nat} (h : Noted s t) (hr : RoomBehind s id f newLen) :
    RoomBehind t id f newLen := by
  intro e hm hne
  have he := arenaOf_region ((FiniteMap.mem_iter t.files e.1 e.2).mp hm)
  rw [h.arena] at he
  obtain ⟨g,hg,heq⟩ := arenaOf_region_eq_some he
  rw [← heq]
  exact hr (e.1,g) ((FiniteMap.mem_iter s.files e.1 g).mpr hg) hne

private theorem Brought.apart {offset dataLen : Nat} (h : Brought p id offset dataLen s v) (hl : Layout s) :
    (arenaOf v).Apart := by
  cases h with
  | hit _ ticked => exact (ticked.noted.layout hl).2
  | missed _ ticked missed => exact (missed.layout (ticked.noted.bounds hl.1)).2 (ticked.noted.layout hl).2

/-- The growth that follows keeps the regions apart, for a file that was cached by the
condition on the write, for any other because it was just placed. -/
private theorem Brought.grow {now : UInt32} {offset : UInt64} {data : ByteSlice} {writeEnd : Nat}
    {r : Except FileSystemError Unit} (h : Brought p id offset.toNat data.1.length s v) (hl : Layout s)
    (hc : growsClear p (.write now id offset data) s = true) (hf : get v.files id = some f)
    (hsum : usizeAdd p offset.toNat data.1.length = .ok writeEnd) (hlt : f.len < writeEnd)
    (hg : Grown p id f writeEnd v r t) : Layout t := by
  have hbv := h.bounds hl.1
  refine ⟨hg.bounds hbv hlt,hg.apart hbv hlt (h.apart hl) ?_⟩
  intro hp htail hno hfit
  cases h with
  | missed _ ticked missed => exact missed.roomBehind (ticked.noted.bounds hl.1) hf
  | @hit g hcached ticked =>
    have noted := ticked.noted
    have hreg := arenaOf_region hf
    rw [noted.arena,arenaOf_region hcached,Option.some.injEq] at hreg
    obtain ⟨hoff,hlen⟩ : g.arenaOffset = f.arenaOffset ∧ g.len = f.len := by
      simpa [CachedFile.region] using hreg
    have hend : wrappedEnd offset data = writeEnd := by
      unfold usizeAdd at hsum
      unfold wrappedEnd
      split_ifs at hsum with h1 h2
      · rw [Nat.mod_eq_of_lt h1]
        exact Except.ok.inj hsum
      · exact Except.ok.inj hsum
    have hpush := noted.push
    have hmax := noted.max
    simp only [growsClear,hcached,Option.all_some,hend,hp,hoff,hlen,Bool.false_or,Bool.or_eq_true,decide_eq_true_eq,
      beq_iff_eq,List.all_eq_true] at hc
    rw [hpush] at htail hno hfit
    rw [hmax] at hno hfit
    obtain (((h1 | h1) | h1) | h1) | hroom := hc
    · omega
    · exact absurd h1 htail
    · omega
    · omega
    · apply roomBehind_noted noted
      intro e hm hne
      exact (hroom e hm).resolve_left hne

private theorem writeFile_layout {now : UInt32} {offset : UInt64} {data : ByteSlice} {r : Except FileSystemError Nat}
    (hl : Layout s) (hc : growsClear p (.write now id offset data) s = true)
    (h : writeFile p now id offset.toNat data s = .ok (r,t)) : Layout t := by
  have hdata : data.1.length < usizeBound := Nat.lt_trans data.2 (by decide)
  cases writeFile_returns hl.1 hdata h with
  | missed _ ticked missed =>
    have hm := missed.layout (ticked.noted.bounds hl.1)
    exact ⟨hm.1,hm.2 (ticked.noted.layout hl).2⟩
  | refused brought cached sum grows grown => exact brought.grow hl hc cached sum grows grown
  | patched brought _ _ _ patched _ => exact ⟨patched.bounds (brought.bounds hl.1),patched.apart (brought.apart hl)⟩
  | grown brought cached sum grows grown _ _ patched _ =>
    have hg := brought.grow hl hc cached sum grows grown
    exact ⟨patched.bounds hg.1,patched.apart hg.2⟩

private theorem layout_closed : Closed p (Layout : FileCache M D → Prop) where
  bounds h := h.1
  noted h hl := h.layout hl
  queried h hl := ⟨h.bounds hl.1,by rw [h.arena]; exact hl.2⟩
  space h hl := ⟨h.bounds hl.1,h.apart hl.2⟩
  claimed h hl := ⟨h.bounds hl.1,h.apart hl.2⟩
  loaded _ h hl := ⟨(h.layout hl.1).1,(h.layout hl.1).2 hl.2⟩
  flush h hl := ⟨h.bounds hl.1,by rw [h.arena]; exact hl.2⟩

omit [CacheFilesystemDriver D] in
private theorem Dropped.layout (h : Dropped id f s t) (hl : Layout s) : Layout t :=
  ⟨h.bounds hl.1,by rw [h.arena]; exact Arena.Apart.free hl.2⟩

omit [CacheFilesystemDriver D] in
private theorem DropSteps.layout {files : M CachedFile} {children : List FileNodeHandle}
    (h : Relation.ReflTransGen (DropStep files children) s t) (hl : Layout s) : Layout t := by
  induction h with
  | refl => exact hl
  | tail _ step ih =>
    cases step with
    | noted noted => exact noted.layout ih
    | dropped _ _ _ out => exact out.layout ih

omit [CacheFilesystemDriver D] in
private theorem layout_of_no_files (hmax : s.maxMemory < 2^63) (hlen : s.arena.length = s.maxMemory)
    (hpush : s.arenaPushOffset = 0) (hfiles : s.files = FiniteMap.empty) : Layout s := by
  refine ⟨bounds_of_no_files hmax hlen hpush hfiles,fun {i j r r'} _ hr _ => ?_⟩
  simp [arenaOf,view,hfiles] at hr

/-- Every call keeps the layout, a write under its condition. -/
theorem exec_layout {op : CacheOp} {r : Except FileSystemError CacheReply} (hc : growsClear p op s = true)
    (hl : Layout s) (h : exec p op s = .ok (r,t)) : Layout t := by
  refine layout_closed.exec (c := growsClear p) ?_ ?_ ?_ ?_ hc hl h
  · intro now id offset data s r t hc hl h
    exact writeFile_layout hl hc h
  · intro id s r t _ hl h
    exact DropSteps.layout (evictDirectory_returns h) hl
  · intro id s r t _ hl h
    obtain ⟨u,rfl | ⟨f,hd⟩,hn⟩ := invalidate_returns h
    · exact hn.layout hl
    · exact hn.layout (hd.layout hl)
  · intro s r t _ hl h
    cases h
    exact layout_of_no_files hl.1.max_lt hl.1.length rfl rfl

omit [CacheFilesystemDriver D] in
theorem new_layout {d : D} {max : Nat} (h : new d max = .ok s) : Layout s := by
  unfold new at h
  split_ifs at h with hmax
  cases h
  exact layout_of_no_files hmax List.length_replicate rfl rfl

/-- The regions of the non-empty cached files share no byte and end at or below the push
offset, which does not pass the end of the arena. -/
def WellPacked (s : FileCache M D) : Prop :=
  (∀ i j f g, i ≠ j → get s.files i = some f → get s.files j = some g → 0 < f.len → 0 < g.len →
    f.arenaOffset + f.len ≤ g.arenaOffset ∨ g.arenaOffset + g.len ≤ f.arenaOffset) ∧
  (∀ i f, get s.files i = some f → 0 < f.len → f.arenaOffset + f.len ≤ s.arenaPushOffset) ∧
  s.arenaPushOffset ≤ s.maxMemory

omit [CacheFilesystemDriver D] in
theorem Layout.wellPacked (h : Layout s) : WellPacked s := by
  refine ⟨?_,fun i f hf _ => h.1.stop_le hf,h.1.push_le⟩
  intro i j f g hij hf hg hf0 hg0
  have hapart := h.2 hij (arenaOf_region hf) (arenaOf_region hg)
  simp only [Region.Apart,Region.stop,CachedFile.region] at hapart
  omega

/-- The layout of every run whose growing writes do not extend a file over another one. -/
theorem execAll_wellPacked {d : D} {max : Nat} {s t : FileCache M D} {ops : List CacheOp}
    {rs : List (Except FileSystemError CacheReply)} (hnew : new d max = .ok s)
    (hc : runMeets (growsClear p) p ops s = true) (h : execAll p ops s = .ok (rs,t)) : WellPacked t :=
  (runAll_invariant exec_layout hc (new_layout hnew) h).wellPacked

/-- Two files of two bytes each. -/
def twoFiles : ByteDriver := ⟨fun h => if h = 1 then [10,11] else if h = 2 then [20,21] else []⟩

/-- A growth by copying, one at the tail and an eviction with its compaction. -/
def oneByte : ByteSlice := ⟨[12],by decide⟩

def growthRun : List CacheOp :=
  [.read 1 0 2,.read 2 0 2,.write 0 1 2 oneByte,.write 0 1 3 ⟨[13],by decide⟩,.write 0 3 0 ⟨[30,31],by decide⟩]

theorem execAll_wellPacked_growth : ∃ (s t : FileCache NodeTable ByteDriver)
    (rs : List (Except FileSystemError CacheReply)), new twoFiles 8 = .ok s ∧
    runMeets (growsClear .release) .release growthRun s = true ∧ execAll .release growthRun s = .ok (rs,t) ∧
    WellPacked t := by
  have hrun : ((execAll .release growthRun (empty twoFiles 8 : FileCache NodeTable ByteDriver)).toOption.map
      fun x => x.2.arenaPushOffset) = some 8 := by
    decide +kernel
  obtain ⟨rs,t,h,_⟩ := runAll_of_view hrun
  have hc : runMeets (growsClear .release) .release growthRun
      (empty twoFiles 8 : FileCache NodeTable ByteDriver) = true := by
    decide +kernel
  have hnew : new twoFiles 8 = .ok (empty twoFiles 8 : FileCache NodeTable ByteDriver) := rfl
  exact ⟨empty twoFiles 8,t,rs,hnew,hc,h,execAll_wellPacked hnew hc h⟩

/-- In release, a file is extended over the one behind it. -/
theorem grow_overlaps : ∃ (s t : FileCache NodeTable ByteDriver)
    (rs : List (Except FileSystemError CacheReply)), new twoFiles 5 = .ok s ∧
    execAll .release [.read 1 0 2,.read 2 0 2,.write 0 1 2 ⟨[12],by decide⟩] s = .ok (rs,t) ∧ ¬ WellPacked t := by
  have hregions : ((execAll .release [.read 1 0 2,.read 2 0 2,.write 0 1 2 ⟨[12],by decide⟩]
      (empty twoFiles 5 : FileCache NodeTable ByteDriver)).toOption.map fun x =>
        ((get x.2.files 1).map CachedFile.region,(get x.2.files 2).map CachedFile.region)) =
      some (some ⟨0,3⟩,some ⟨2,2⟩) := by
    decide +kernel
  obtain ⟨rs,t,h,hview⟩ := runAll_of_view hregions
  refine ⟨empty twoFiles 5,t,rs,rfl,h,?_⟩
  intro hpacked
  obtain ⟨hf,hg⟩ := Prod.mk.inj hview
  obtain ⟨f,hf,hfr⟩ := Option.map_eq_some_iff.mp hf
  obtain ⟨g,hg,hgr⟩ := Option.map_eq_some_iff.mp hg
  simp only [CachedFile.region,Region.mk.injEq] at hfr hgr
  have hapart := hpacked.1 1 2 f g (by decide) hf hg (by omega) (by omega)
  omega

end MofuOS.Filesystem.FileCache
