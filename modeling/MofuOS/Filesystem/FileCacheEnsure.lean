import MofuOS.Filesystem.FileCacheLedger
import MofuOS.Filesystem.FileCacheWellPacked

/-! When ensure_space succeeds. Its loop gives up on the first victim without bytes, and its
estimate of the space left counts the victim as gone twice. -/
namespace MofuOS.Filesystem.FileCache
open Lib
open FiniteMap (get insert remove iter modify)
variable {M : Type → Type} [FiniteMap FileNodeHandle M] {D : Type} {p : Profile} {s t u v : FileCache M D}
  {id keep : FileNodeHandle} {f g : CachedFile} {needed max : Nat} {tick : UInt64} {L L' : Ledger M Unit}

/-- Every write-back succeeds, and nothing is remembered of it. -/
def alwaysSaved (_ : FileNodeHandle) (_ : Bool) (_ _ : Unit) : Prop := True

variable [CacheFilesystemDriver D]

/-- The driver takes every write. -/
def WritesSucceed (D : Type) [CacheFilesystemDriver D] : Prop :=
  ∀ (id : FileNodeHandle) (offset : Nat) (bytes : List UInt8) (d : D),
    ∃ n d', CacheFilesystemDriver.writeFile id offset bytes d = .ok (.ok n,d')

/-- ensure_space returns true without a panic, there is room, and the kept file is still there.
The checks are those of dev, so that nothing wrapped around. -/
def MakesRoom (needed : Nat) (keep : FileNodeHandle) (s : FileCache M D) : Prop :=
  ∃ t, ensureSpace .dev needed keep true s = .ok (.ok true,t) ∧ t.arenaPushOffset + needed ≤ t.maxMemory ∧
    ((get s.files keep).isSome → (get t.files keep).isSome)

/-- The ledger follows the state of a cache whose driver takes every write. -/
abbrev Follows (tick : UInt64) (max : Nat) (L : Ledger M Unit) (s : FileCache M D) : Prop :=
  Booked (fun (_ : FileCache M D) (_ : Unit) => True) tick max L s

private theorem tracks_alwaysSaved (hw : WritesSucceed D) :
    Tracks (fun (_ : FileCache M D) (_ : Unit) => True) alwaysSaved p keep where
  packed _ _ _ := trivial
  evicted _ _ _ := ⟨(),trivial⟩
  saves _ _ _ _ _ := ⟨fun _ => hw _ 0 _ _,fun _ _ => trivial⟩

theorem ensureSpace_follows (hw : WritesSucceed D) (hL : Follows tick max L s)
    (h : ensureSpace p needed keep true s = .ok (.ok true,t)) :
    ∃ L', Frees alwaysSaved p tick max needed keep L L' ∧ Follows tick max L' t :=
  ensureSpace_frees (tracks_alwaysSaved hw) hL h

theorem Frees.follows (hw : WritesSucceed D) (h : Frees alwaysSaved p tick max needed keep L L')
    (hL : Follows tick max L s) :
    ∃ t, ensureSpace p needed keep true s = .ok (.ok true,t) ∧ Follows tick max L' t :=
  h.runs (tracks_alwaysSaved hw) hL

/-- ensure_space succeeds exactly when the ledger finds room. -/
theorem ensureSpace_iff (hw : WritesSucceed D) (hL : Follows tick max L s) :
    (∃ t, ensureSpace p needed keep true s = .ok (.ok true,t)) ↔
      ∃ L', Frees alwaysSaved p tick max needed keep L L' := by
  constructor
  · rintro ⟨t,ht⟩
    obtain ⟨L',hfrees,_⟩ := ensureSpace_follows hw hL ht
    exact ⟨L',hfrees⟩
  · rintro ⟨L',hfrees⟩
    obtain ⟨t,ht,_⟩ := hfrees.follows hw hL
    exact ⟨t,ht⟩

/-- ensure_space makes room exactly when files can go, in the order of their scores, until there is
room: what is packed in between, and the estimate that decides it, are those of the ledger. -/
theorem ensureSpace_makesRoom_iff (hl : Layout s) (hw : WritesSucceed D) :
    MakesRoom needed keep s ↔ ∃ L, Frees alwaysSaved .dev s.accessTick s.maxMemory needed keep (ledger s ()) L := by
  rw [← ensureSpace_iff hw (booked_ledger hl.covered trivial)]
  constructor
  · rintro ⟨t,ht,_⟩
    exact ⟨t,ht⟩
  · rintro ⟨t,ht⟩
    obtain ⟨hsteps,⟨hr,_⟩ | ⟨_,top,htop,hle,_⟩⟩ := ensureSpace_returns hl.1 ht
    · cases hr
    refine ⟨t,ht,?_,?_⟩
    · rw [usizeAdd_of_lt .dev (usizeAdd_checked htop rfl)] at htop
      cases htop
      exact hle
    · intro hsome
      obtain ⟨f,hf⟩ := Option.isSome_iff_exists.mp hsome
      obtain ⟨g,hg,_⟩ := hsteps.kept hf
      rw [hg]
      rfl

theorem writesSucceed_byteDriver : WritesSucceed ByteDriver := fun _ _ _ _ => ⟨_,_,rfl⟩

/-- One eviction and a compaction make room for two bytes. -/
theorem ensureSpace_makesRoom_pair : MakesRoom 2 invalidNodeHandle (fullPair false .normal) ∧
    ∃ L, Frees alwaysSaved .dev (fullPair false .normal).accessTick (fullPair false .normal).maxMemory 2 invalidNodeHandle
      (ledger (fullPair false .normal) ()) L := by
  have hl : Layout (fullPair false .normal) := by
    refine ⟨fullPair_bounds false .normal,?_⟩
    have hall : ∀ e ∈ iter (fullPair false .normal).files, ∀ e' ∈ iter (fullPair false .normal).files,
        e.1 ≠ e'.1 → e.2.region.Apart e'.2.region := by
      decide
    intro i j r r' hij hr hr'
    obtain ⟨f,hf,rfl⟩ := arenaOf_region_eq_some hr
    obtain ⟨g,hg,rfl⟩ := arenaOf_region_eq_some hr'
    exact hall (i,f) ((FiniteMap.mem_iter ..).mpr hf) (j,g) ((FiniteMap.mem_iter ..).mpr hg) hij
  have hrun : ((ensureSpace .dev 2 invalidNodeHandle true (fullPair false .normal)).toOption.map fun x =>
      (x.1,decide (x.2.arenaPushOffset + 2 ≤ x.2.maxMemory))) = some (.ok true,true) := by
    decide +kernel
  obtain ⟨⟨r,t⟩,ht,hview⟩ := Option.map_eq_some_iff.mp hrun
  obtain ⟨rfl,hroom⟩ := Prod.mk.inj hview
  have hmakes : MakesRoom 2 invalidNodeHandle (fullPair false .normal) :=
    ⟨t,of_toOption ht,of_decide_eq_true hroom,fun h => absurd h (by decide)⟩
  exact ⟨hmakes,(ensureSpace_makesRoom_iff hl writesSucceed_byteDriver).mp hmakes⟩

/-- One file that fills an arena of five bytes. -/
def fullSingle : FileCache NodeTable ByteDriver :=
  { (empty ⟨fun _ => []⟩ 5 : FileCache NodeTable ByteDriver) with
    arena := [10,11,12,13,14]
    arenaPushOffset := 5
    currentMemoryUsed := 5
    accessTick := 2
    files := insert FiniteMap.empty 1 (.new 0 5 1 .normal) }

/-- For one more byte the file is evicted, and the estimate subtracts its five bytes from the
one that is needed. -/
theorem ensureSpace_underflows : Layout fullSingle ∧ WritesSucceed ByteDriver ∧ 1 ≤ fullSingle.maxMemory ∧
    get fullSingle.files invalidNodeHandle = none ∧ ¬ MakesRoom 1 invalidNodeHandle fullSingle := by
  have honly {j : FileNodeHandle} {f : CachedFile} (hf : get fullSingle.files j = some f) : j = 1 ∧ f = .new 0 5 1 .normal := by
    simp only [fullSingle,FiniteMap.get_insert,FiniteMap.get_empty] at hf
    split_ifs at hf with hj
    cases hf
    exact ⟨hj,rfl⟩
  refine ⟨⟨⟨by decide,rfl,⟨Nat.le_refl 5,?_⟩⟩,?_⟩,writesSucceed_byteDriver,by decide,by decide,?_⟩
  · intro j r hr
    obtain ⟨f,hf,rfl⟩ := arenaOf_region_eq_some hr
    rw [(honly hf).2]
    exact Nat.le_refl 5
  · intro i j r r' hij hr hr'
    obtain ⟨f,hf,rfl⟩ := arenaOf_region_eq_some hr
    obtain ⟨g,hg,rfl⟩ := arenaOf_region_eq_some hr'
    exact absurd ((honly hf).1.trans (honly hg).1.symm) hij
  · rintro ⟨t,ht,_⟩
    have hpanic : (ensureSpace .dev 1 invalidNodeHandle true fullSingle).toOption.isNone = true := by
      decide +kernel
    rw [ht] at hpanic
    cases hpanic

end MofuOS.Filesystem.FileCache
