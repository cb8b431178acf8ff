import MofuOS.Filesystem.FileCache

/-! What each part of the cache can do, said once. Every lemma inverts a call that
returned; the invariants of the later modules are derived from these alone. -/
namespace MofuOS.Filesystem.FileCache
open Lib
open Prog (liftO)
open FiniteMap (get insert remove iter modify)
variable {M : Type → Type} {D : Type} {p : Profile} {s t : FileCache M D}

private theorem range_of_slice {a n b l : Nat} {u : Unit} (ha : a < usizeBound) (hn : n < usizeBound)
    (hadd : usizeAdd p a n = .ok b) (hr : checkRange a b l = .ok u) : b = a + n ∧ a + n ≤ l := by
  obtain ⟨h1,h2⟩ := checkRange_eq_ok hr
  obtain rfl := usizeAdd_of_le ha hn hadd h1
  exact ⟨rfl,h2⟩

theorem fillZero_returns {a n : Nat} {r : Except FileSystemError Unit} (ha : a < usizeBound)
    (hn : n < usizeBound) (h : fillZero p a n s = .ok (r,t)) :
    r = .ok () ∧ a + n ≤ s.arena.length ∧ t = { s with arena := overwrite s.arena a (List.replicate n 0) } := by
  simp only [fillZero,Prog.run_get_bind] at h
  obtain ⟨b,hb,h⟩ := Prog.liftO_bind_returns h
  obtain ⟨u,hu,h⟩ := Prog.liftO_bind_returns h
  obtain ⟨rfl,hle⟩ := range_of_slice ha hn hb hu
  cases h
  exact ⟨rfl,hle,by simp⟩

theorem copyWithin_returns {src n dest : Nat} {r : Except FileSystemError Unit} (hs : src < usizeBound)
    (hn : n < usizeBound) (h : copyWithin p src n dest s = .ok (r,t)) :
    r = .ok () ∧ src + n ≤ s.arena.length ∧ dest + n ≤ s.arena.length ∧
      t = { s with arena := overwrite s.arena dest (slice s.arena src n) } := by
  simp only [copyWithin,Prog.run_get_bind] at h
  obtain ⟨b,hb,h⟩ := Prog.liftO_bind_returns h
  obtain ⟨u,hu,h⟩ := Prog.liftO_bind_returns h
  obtain ⟨v,hv,h⟩ := Prog.liftO_bind_returns h
  obtain ⟨rfl,hle⟩ := range_of_slice hs hn hb hu
  have hd := (checkRange_eq_ok hv).2
  simp only [Nat.add_sub_cancel_left] at hd h
  cases h
  exact ⟨rfl,hle,hd,rfl⟩

theorem arenaSlice_returns {a n : Nat} {r : Except FileSystemError (List UInt8)} (ha : a < usizeBound)
    (hn : n < usizeBound) (h : arenaSlice p a n s = .ok (r,t)) :
    r = .ok (slice s.arena a n) ∧ a + n ≤ s.arena.length ∧ t = s := by
  simp only [arenaSlice,Prog.run_get_bind] at h
  obtain ⟨b,hb,h⟩ := Prog.liftO_bind_returns h
  obtain ⟨u,hu,h⟩ := Prog.liftO_bind_returns h
  obtain ⟨rfl,hle⟩ := range_of_slice ha hn hb hu
  cases h
  exact ⟨by simp,hle,rfl⟩

theorem copyFromSlice_returns {a : Nat} {data : List UInt8} {r : Except FileSystemError Unit}
    (ha : a < usizeBound) (hn : data.length < usizeBound) (h : copyFromSlice p a data s = .ok (r,t)) :
    r = .ok () ∧ a + data.length ≤ s.arena.length ∧ t = { s with arena := overwrite s.arena a data } := by
  simp only [copyFromSlice,Prog.run_get_bind] at h
  obtain ⟨b,hb,h⟩ := Prog.liftO_bind_returns h
  obtain ⟨u,hu,h⟩ := Prog.liftO_bind_returns h
  obtain ⟨_,hle⟩ := range_of_slice ha hn hb hu
  cases h
  exact ⟨rfl,hle,rfl⟩

theorem callDriver_returns {α : Type} {x : FsProg D α} {r : Except FileSystemError α}
    (h : callDriver x s = .ok (r,t)) : ∃ d, x s.driver = .ok (r,d) ∧ t = { s with driver := d } := by
  unfold callDriver at h
  split at h
  · cases h
    exact ⟨_,‹_›,rfl⟩
  · cases h

theorem callDriver_bind_returns {α β : Type} {x : FsProg D α} {f : α → FsProg (FileCache M D) β}
    {r : Except FileSystemError β} (h : (callDriver x >>= f) s = .ok (r,t)) :
    (∃ e d, x s.driver = .ok (.error e,d) ∧ r = .error e ∧ t = { s with driver := d }) ∨
      ∃ a d, x s.driver = .ok (.ok a,d) ∧ f a { s with driver := d } = .ok (r,t) := by
  obtain ⟨e,he,hr⟩ | ⟨a,s',ha,hf⟩ := Prog.bind_returns h
  · obtain ⟨d,hd,ht⟩ := callDriver_returns he
    exact .inl ⟨e,d,hd,hr,ht⟩
  · obtain ⟨d,hd,rfl⟩ := callDriver_returns ha
    exact .inr ⟨a,d,hd,hf⟩

section Layout
variable [FiniteMap FileNodeHandle M]

/-- The cache as an arena of named regions. -/
def arenaOf (s : FileCache M D) : Arena FileNodeHandle UInt8 :=
  ⟨s.arena,s.arenaPushOffset,FiniteMap.view CachedFile.region s.files⟩

/-- What holds in every run: regions end below the push offset, which stays in the arena. -/
structure Bounds (s : FileCache M D) : Prop where
  max_lt : s.maxMemory < 2^63
  length : s.arena.length = s.maxMemory
  bounded : (arenaOf s).Bounded

theorem arenaOf_region {id : FileNodeHandle} {f : CachedFile} (h : get s.files id = some f) :
    (arenaOf s).region id = some f.region := by
  simp [arenaOf,FiniteMap.view,h]

theorem arenaOf_region_eq_some {id : FileNodeHandle} {r : Region} (h : (arenaOf s).region id = some r) :
    ∃ f, get s.files id = some f ∧ f.region = r := Option.map_eq_some_iff.mp h

theorem arenaOf_content {id : FileNodeHandle} {f : CachedFile} (h : get s.files id = some f) :
    (arenaOf s).content id = some (s.bytesOf f) := Arena.content_eq (arenaOf_region h)

namespace Bounds
variable {id : FileNodeHandle} {f : CachedFile} (hb : Bounds s)
include hb

theorem push_le : s.arenaPushOffset ≤ s.maxMemory := Nat.le_trans hb.bounded.top_le (Nat.le_of_eq hb.length)

theorem stop_le (h : get s.files id = some f) : f.arenaOffset + f.len ≤ s.arenaPushOffset :=
  hb.bounded.stop_le (arenaOf_region h)

theorem push_lt : s.arenaPushOffset < usizeBound := by
  have := hb.push_le
  have := hb.max_lt
  unfold usizeBound
  omega

theorem off_lt (h : get s.files id = some f) : f.arenaOffset < usizeBound := by
  have := hb.stop_le h
  have := hb.push_lt
  omega

theorem len_lt (h : get s.files id = some f) : f.len < usizeBound := by
  have := hb.stop_le h
  have := hb.push_lt
  omega

theorem length_bytesOf (h : get s.files id = some f) : (s.bytesOf f).length = f.len :=
  hb.bounded.length_slice (arenaOf_region h)

end Bounds
end Layout

section Eviction
variable [CacheFilesystemDriver D]

/-- A write-back hands the driver the file's bytes and nothing else changes. -/
theorem writeBack_returns {id : FileNodeHandle} {f : CachedFile} {r : Except FileSystemError Nat}
    (ho : f.arenaOffset < usizeBound) (hl : f.len < usizeBound) (h : writeBack p id f s = .ok (r,t)) :
    (∃ e d, CacheFilesystemDriver.writeFile id 0 (s.bytesOf f) s.driver = .ok (.error e,d) ∧
        r = .error e ∧ t = { s with driver := d }) ∨
      ∃ n d, CacheFilesystemDriver.writeFile id 0 (s.bytesOf f) s.driver = .ok (.ok n,d) ∧ r = .ok n ∧
        t = { s with driver := d, trace := s.trace ++ [.wrote id (s.bytesOf f)] } := by
  simp only [writeBack] at h
  obtain ⟨e,he,_⟩ | ⟨bytes,s',hb,h⟩ := Prog.bind_returns h
  · cases (arenaSlice_returns ho hl he).1
  obtain ⟨hbytes,_,rfl⟩ := arenaSlice_returns ho hl hb
  cases hbytes
  obtain ⟨e,d,hd,hr,ht⟩ | ⟨n,d,hd,h⟩ := callDriver_bind_returns h
  · exact .inl ⟨e,d,hd,hr,ht⟩
  · cases h
    exact .inr ⟨n,d,hd,rfl,rfl⟩

/-- The scan only ever picks a cached file that it was not told to keep. -/
theorem pickVictim_mem (tick : UInt64) (keep : FileNodeHandle) (force : Bool)
    (l : List (FileNodeHandle × CachedFile)) (best : Nat × FileNodeHandle) :
    (pickVictim tick keep force l best).2 = best.2 ∨
      ∃ f, ((pickVictim tick keep force l best).2,f) ∈ l ∧ (pickVictim tick keep force l best).2 ≠ keep := by
  induction l generalizing best with
  | nil => exact .inl rfl
  | cons e l ih =>
    obtain ⟨id,f⟩ := e
    have skip (b : Nat × FileNodeHandle) : (pickVictim tick keep force l b).2 = b.2 ∨
        ∃ g, ((pickVictim tick keep force l b).2,g) ∈ (id,f) :: l ∧ (pickVictim tick keep force l b).2 ≠ keep := by
      obtain he | ⟨g,hg,hne⟩ := ih b
      · exact .inl he
      · exact .inr ⟨g,List.mem_cons_of_mem _ hg,hne⟩
    simp only [pickVictim]
    split_ifs with h1 h2 h3
    · exact skip best
    · exact skip best
    · obtain he | hg := skip (saturatingMul f.importance.evictionPriority (age tick f.lastAccess),id)
      · refine .inr ⟨f,?_,?_⟩
        · rw [he]
          exact List.mem_cons_self
        · rw [he]
          rintro rfl
          simp at h1
      · exact .inr hg
    · exact skip best

variable [FiniteMap FileNodeHandle M]

/-- File id leaves the cache: its write-back, if it was dirty, has succeeded. -/
structure Evicted (p : Profile) (keep id : FileNodeHandle) (f : CachedFile) (s t : FileCache M D) : Prop where
  cached : get s.files id = some f
  ne_keep : id ≠ keep
  named : id ≠ invalidNodeHandle
  used : usizeSub p s.currentMemoryUsed f.len = .ok t.currentMemoryUsed
  out : ∃ d events used,
    ((f.isDirty = true ∧ events = [.wrote id (s.bytesOf f)] ∧
        ∃ n, CacheFilesystemDriver.writeFile id 0 (s.bytesOf f) s.driver = .ok (.ok n,d)) ∨
      (f.isDirty = false ∧ events = [] ∧ d = s.driver)) ∧
    t = { s with
      driver := d
      files := remove s.files id
      currentMemoryUsed := used
      trace := s.trace ++ events ++ [.dropped id f.isDirty (s.bytesOf f)] }

/-- Eviction either does nothing, fails to write one file back, or evicts it. -/
theorem evictOneKeepAlive_returns {keep : FileNodeHandle} {force : Bool} {r : Except FileSystemError Nat}
    (hb : Bounds s) (h : evictOneKeepAlive p keep force s = .ok (r,t)) :
    (r = .ok 0 ∧ t = s) ∨
      (r = .ok 0 ∧ ∃ id f e d, get s.files id = some f ∧ id ≠ keep ∧ f.isDirty = true ∧
        CacheFilesystemDriver.writeFile id 0 (s.bytesOf f) s.driver = .ok (.error e,d) ∧
        t = { s with driver := d }) ∨
      ∃ id f, r = .ok f.len ∧ Evicted p keep id f s t ∧ id ≠ invalidNodeHandle ∧
        (pickVictim s.accessTick keep force (iter s.files) (0,invalidNodeHandle)).2 = id := by
  simp only [evictOneKeepAlive,Prog.run_get_bind] at h
  split_ifs at h with hid
  · cases h
    exact .inl ⟨rfl,rfl⟩
  generalize hbest : (pickVictim s.accessTick keep force (iter s.files) (0,invalidNodeHandle)).2 = best at h hid
  cases hf : get s.files best with
  | none =>
    simp only [hf] at h
    cases h
    exact .inl ⟨rfl,rfl⟩
  | some f =>
    have hne : best ≠ keep := by
      obtain he | ⟨g,_,hk⟩ := pickVictim_mem s.accessTick keep force (iter s.files) (0,invalidNodeHandle)
      · exact absurd (hbest.symm.trans he) hid
      · rwa [hbest] at hk
    simp only [hf] at h
    obtain ⟨e,he,_⟩ | ⟨res,s',hs',h⟩ := Prog.bind_returns h
    · obtain ⟨_,hc,_⟩ := Prog.attempt_returns he
      cases hc
    obtain ⟨res',hres,hw⟩ := Prog.attempt_returns hs'
    cases hres
    cases hd : f.isDirty with
    | false =>
      simp only [hd,Bool.false_eq_true,if_false] at hw
      cases hw
      simp only [removeFile,Prog.run_modify_bind,Prog.run_get_bind] at h
      obtain ⟨used,hused,h⟩ := Prog.liftO_bind_returns h
      cases h
      exact .inr (.inr ⟨best,f,rfl,⟨hf,hne,hid,hused,s.driver,[],used,.inr ⟨hd,rfl,rfl⟩,by simp⟩,hid,rfl⟩)
    | true =>
      simp only [hd,if_true] at hw
      obtain ⟨e,d,hwr,rfl,rfl⟩ | ⟨n,d,hwr,rfl,rfl⟩ := writeBack_returns (hb.off_lt hf) (hb.len_lt hf) hw
      · cases h
        exact .inr (.inl ⟨rfl,best,f,e,d,hf,hne,hd,hwr,rfl⟩)
      · simp only [removeFile,Prog.run_modify_bind,Prog.run_get_bind] at h
        obtain ⟨used,hused,h⟩ := Prog.liftO_bind_returns h
        cases h
        exact .inr (.inr ⟨best,f,rfl,⟨hf,hne,hid,hused,d,_,used,.inl ⟨hd,rfl,n,hwr⟩,rfl⟩,hid,rfl⟩)

end Eviction
end MofuOS.Filesystem.FileCache
