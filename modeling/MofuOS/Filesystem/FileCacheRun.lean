import MofuOS.Filesystem.FileCacheWrite
import MofuOS.Filesystem.FileCacheUpkeep
import MofuOS.Lib.Run

/-! The operations of the cache as one step function, its runs, and the rule that carries
an invariant through them from what the single transactions keep. -/
namespace MofuOS.Filesystem

inductive CacheOp where
  | read (id : FileNodeHandle) (offset outLen : UInt64)
  | write (now : UInt32) (id : FileNodeHandle) (offset : UInt64) (data : ByteSlice)
  | getNode (id : FileNodeHandle)
  | flushFile (id : FileNodeHandle)
  | flushNodes (ids : List FileNodeHandle)
  | flushAll
  | pinFile (id : FileNodeHandle)
  | unpinFile (id : FileNodeHandle)
  | reserveCache (id : FileNodeHandle) (importance : CacheImportance)
  | registerFileInDirectory (dir file : FileNodeHandle)
  | evictDirectory (id : FileNodeHandle)
  | invalidate (id : FileNodeHandle)
  | clear
  deriving DecidableEq

inductive CacheReply where
  | bytes (bs : List UInt8)
  | count (n : Nat)
  | node (n : FileNode)
  | done
  deriving DecidableEq, Repr

namespace FileCache
open Lib
open Prog (liftO)
open FiniteMap (get insert remove iter modify view)
open CacheFilesystemDriver (readFileInto fileSize)
variable {M : Type → Type} [FiniteMap FileNodeHandle M] {D : Type} [CacheFilesystemDriver D]
  {p : Profile} {s t u v : FileCache M D} {id : FileNodeHandle} {f g : CachedFile}

def exec (p : Profile) : CacheOp → FsProg (FileCache M D) CacheReply
  | .read id offset outLen => do
    let bs ← readFileRange p id offset.toNat outLen.toNat
    pure (.bytes bs)
  | .write now id offset data => do
    let n ← writeFile p now id offset.toNat data
    pure (.count n)
  | .getNode id => do
    let n ← getNodeCached id
    pure (.node n)
  | .flushFile id => do
    let _ ← flushFile p id
    pure .done
  | .flushNodes ids => do
    let _ ← flushNodes p ids
    pure .done
  | .flushAll => do
    let _ ← flushAll p
    pure .done
  | .pinFile id => do
    let _ ← pinFile p id
    pure .done
  | .unpinFile id => do
    let _ ← unpinFile id
    pure .done
  | .reserveCache id importance => do
    let _ ← reserveCache id importance
    pure .done
  | .registerFileInDirectory dir file => do
    let _ ← registerFileInDirectory dir file
    pure .done
  | .evictDirectory id => do
    let n ← evictDirectory p id
    pure (.count n)
  | .invalidate id => do
    let _ ← invalidate p id
    pure .done
  | .clear => do
    let _ ← clear
    pure .done

/-- A call of op in state s may call ensure_space in state u, to make room for needed bytes.
For a growth the tests of the branches that find room elsewhere are left out. -/
inductive CallsEnsureSpace (p : Profile) (s : FileCache M D) :
    CacheOp → Nat → FileNodeHandle → FileCache M D → Prop
  | read {id : FileNodeHandle} {offset outLen : UInt64} {n : Nat} {d : D} (absent : get s.files id = none)
      (size : fileSize id s.driver = .ok (.ok n,d)) (pos : n ≠ 0) :
      CallsEnsureSpace p s (.read id offset outLen) n invalidNodeHandle
        { s with accessTick := s.accessTick + 1, driver := d }
  | pin {id : FileNodeHandle} {m n : Nat} {d d' : D} (absent : get s.files id = none)
      (probe : fileSize id s.driver = .ok (.ok m,d)) (pos : m > 0) (size : fileSize id d = .ok (.ok n,d'))
      (again : n ≠ 0) :
      CallsEnsureSpace p s (.pinFile id) n invalidNodeHandle { s with accessTick := s.accessTick + 1, driver := d' }
  | load {now : UInt32} {id : FileNodeHandle} {offset : UInt64} {data : ByteSlice} {n : Nat} {d : D}
      (absent : get s.files id = none) (size : fileSize id s.driver = .ok (.ok n,d)) (pos : n > 0) :
      CallsEnsureSpace p s (.write now id offset data) n invalidNodeHandle
        { s with accessTick := s.accessTick + 1, driver := d }
  | create {now : UInt32} {id : FileNodeHandle} {offset : UInt64} {data : ByteSlice} {needed : Nat} {d : D}
      {q : Except FileSystemError Nat} (absent : get s.files id = none) (size : fileSize id s.driver = .ok (q,d))
      (zero : ∀ n, q = .ok n → n = 0) (sum : usizeAdd p offset.toNat data.1.length = .ok needed) :
      CallsEnsureSpace p s (.write now id offset data) needed invalidNodeHandle
        { s with accessTick := s.accessTick + 1, driver := d }
  | grow {now : UInt32} {id : FileNodeHandle} {offset : UInt64} {data : ByteSlice} {writeEnd : Nat}
      {v : FileCache M D} {f : CachedFile}
      (brought : (if (get s.files id).isNone then writeMiss p id offset.toNat data.1.length else pure ())
        { s with accessTick := s.accessTick + 1 } = .ok (.ok (),v))
      (cached : get v.files id = some f) (sum : usizeAdd p offset.toNat data.1.length = .ok writeEnd)
      (grows : f.len < writeEnd) : CallsEnsureSpace p s (.write now id offset data) (writeEnd - f.len) id v

/-- A run: the result of every call, and the state it leaves. A fault ends the run. -/
abbrev execAll (p : Profile) : List CacheOp → FileCache M D → Outcome (List (Except FileSystemError CacheReply) × FileCache M D) :=
  runAll (exec p)

/-- Every call of the run starts from a state that meets c. -/
abbrev runMeets (c : CacheOp → FileCache M D → Bool) (p : Profile) : List CacheOp → FileCache M D → Bool :=
  meets (exec p) c

/-- What a transaction of a read, a flush or a pin keeps. -/
structure Closed (p : Profile) (I : FileCache M D → Prop) : Prop where
  bounds : ∀ {s}, I s → Bounds s
  noted : ∀ {s t}, Noted s t → I s → I t
  queried : ∀ {s t}, Queried s t → I s → I t
  space : ∀ {keep s t}, SpaceStep p keep s t → I s → I t
  claimed : ∀ {id n s t}, Claimed id n s t → I s → I t
  loaded : ∀ {id n s t}, get s.files id = none → Loaded id n s t → I s → I t
  flush : ∀ {s t}, FlushStep s t → I s → I t

/-- What the transactions of a write keep as well. -/
structure ClosedWrite (p : Profile) (I : FileCache M D → Prop) : Prop extends Closed p I where
  created : ∀ {id n s t}, get s.files id = none → Created id n s t → I s → I t
  extended : ∀ {id f n s t}, f.len < n → Extended id f n s t → I s → I t
  relocated : ∀ {id f n s t}, f.len < n → Relocated id f n s t → I s → I t
  patched : ∀ {id f o data s r t}, get s.files id = some f → Patched p id f o data s r t → I s → I t

theorem SpaceSteps.absent {keep : FileNodeHandle} (h : SpaceSteps p keep s t) (hf : get s.files id = none) :
    get t.files id = none := by
  induction h with
  | refl => exact hf
  | tail _ step ih =>
    cases step with
    | refused _ _ _ => exact ih
    | evicted out =>
      rw [out.get]
      split_ifs
      · rfl
      · exact ih
    | packed out => exact out.moved.get_eq_none.mpr ih

omit [CacheFilesystemDriver D] in
theorem Noted.absent (h : Noted s t) (hf : get s.files id = none) : get t.files id = none := by
  have hi := congrFun h.core id
  rw [view,view,hf,Option.map_none,Option.map_eq_none_iff] at hi
  exact hi

namespace Closed
variable {I : FileCache M D → Prop} (hI : Closed p I)
include hI

theorem steps {keep : FileNodeHandle} (h : SpaceSteps p keep s t) (hs : I s) : I t := by
  induction h with
  | refl => exact hs
  | tail _ step ih => exact hI.space step ih

theorem flushes (h : FlushSteps s t) (hs : I s) : I t := by
  induction h with
  | refl => exact hs
  | tail _ step ih => exact hI.flush step ih

private theorem asked {q : Except FileSystemError Nat} {d : D} (h : fileSize id s.driver = .ok (q,d)) (hs : I s) :
    I { s with driver := d } := hI.queried ⟨d,.single (.size h),rfl⟩ hs

theorem read {offset outLen : Nat} {r : Except FileSystemError (List UInt8)} (hs : I s)
    (h : readFileRange p id offset outLen s = .ok (r,t)) : I t := by
  obtain ⟨f,_,hnoted,_⟩ | ⟨u,habsent,hticked,hmissed⟩ := readFileRange_returns (hI.bounds hs) h
  · exact hI.noted hnoted hs
  have hu := hI.noted hticked.noted hs
  cases hmissed with
  | refused size => exact hI.asked size hu
  | empty size => exact hI.asked size hu
  | full size steps _ => exact hI.steps steps (hI.asked size hu)
  | failed size steps claimed _ => exact hI.claimed claimed (hI.steps steps (hI.asked size hu))
  | loaded _ size steps loaded _ _ =>
    exact hI.loaded (steps.absent (hticked.noted.absent habsent)) loaded (hI.steps steps (hI.asked size hu))

/-- A call keeps I when the four calls that can change more do. -/
theorem exec {c : CacheOp → FileCache M D → Bool}
    (write : ∀ {now id offset data s r t}, c (.write now id offset data) s = true → I s →
      writeFile p now id offset.toNat data.1 s = .ok (r,t) → I t)
    (evict : ∀ {id s r t}, c (.evictDirectory id) s = true → I s → evictDirectory p id s = .ok (r,t) → I t)
    (invalid : ∀ {id s r t}, c (.invalidate id) s = true → I s → invalidate p id s = .ok (r,t) → I t)
    (clear : ∀ {s r t}, c .clear s = true → I s → FileCache.clear s = .ok (r,t) → I t)
    {op : CacheOp} {s t : FileCache M D} {r : Except FileSystemError CacheReply} (hc : c op s = true) (hs : I s)
    (h : FileCache.exec p op s = .ok (r,t)) : I t := by
  cases op with
  | read id offset outLen =>
    obtain ⟨r',h,_⟩ := Prog.map_returns h
    exact hI.read hs h
  | write now id offset data =>
    obtain ⟨r',h,_⟩ := Prog.map_returns h
    exact write hc hs h
  | getNode id =>
    obtain ⟨r',h,_⟩ := Prog.map_returns h
    obtain ⟨u,hq,hn⟩ := getNodeCached_returns h
    exact hI.noted hn (hI.queried hq hs)
  | flushFile id =>
    obtain ⟨r',h,_⟩ := Prog.map_returns h
    exact hI.flushes (flushFile_returns (hI.bounds hs) h) hs
  | flushNodes ids =>
    obtain ⟨r',h,_⟩ := Prog.map_returns h
    exact hI.flushes (flushNodes_returns (hI.bounds hs) h) hs
  | flushAll =>
    obtain ⟨r',h,_⟩ := Prog.map_returns h
    exact hI.flushes (flushAll_returns (hI.bounds hs) h) hs
  | pinFile id =>
    obtain ⟨r',h,_⟩ := Prog.map_returns h
    obtain ⟨u,hq,hn | ⟨v,r'',hread,hn⟩⟩ := pinFile_returns h
    · exact hI.noted hn (hI.queried hq hs)
    · exact hI.noted hn (hI.read (hI.queried hq hs) hread)
  | unpinFile id =>
    obtain ⟨r',h,_⟩ := Prog.map_returns h
    cases h
    exact hI.noted (.of_modify fun _ => rfl) hs
  | reserveCache id importance =>
    obtain ⟨r',h,_⟩ := Prog.map_returns h
    exact hI.noted (reserveCache_returns h) hs
  | registerFileInDirectory dir file =>
    have hn : Noted s t := by
      cases h
      exact ⟨rfl,rfl,rfl,rfl,rfl,rfl,rfl⟩
    exact hI.noted hn hs
  | evictDirectory id =>
    obtain ⟨r',h,_⟩ := Prog.map_returns h
    exact evict hc hs h
  | invalidate id =>
    obtain ⟨r',h,_⟩ := Prog.map_returns h
    exact invalid hc hs h
  | clear =>
    obtain ⟨r',h,_⟩ := Prog.map_returns h
    exact clear hc hs h

end Closed

namespace ClosedWrite
variable {I : FileCache M D → Prop} (hI : ClosedWrite p I)
include hI

private theorem missed {offset dataLen : Nat} {r : Except FileSystemError Unit} (hf : get s.files id = none) (hs : I s)
    (h : WriteMissed p id offset dataLen s r t) : I t := by
  have asked {q : Except FileSystemError Nat} {d : D} (h : fileSize id s.driver = .ok (q,d)) :
      I { s with driver := d } := hI.queried ⟨d,.single (.size h),rfl⟩ hs
  cases h with
  | full size steps _ _ => exact hI.steps steps (asked size)
  | failed size steps claimed _ _ => exact hI.claimed claimed (hI.steps steps (asked size))
  | loaded size steps loaded _ _ => exact hI.loaded (steps.absent hf) loaded (hI.steps steps (asked size))
  | created size _ _ steps created _ => exact hI.created (steps.absent hf) created (hI.steps steps (asked size))

theorem writeMiss {offset dataLen : Nat} {r : Except FileSystemError Unit} (hf : get s.files id = none) (hs : I s)
    (h : FileCache.writeMiss p id offset dataLen s = .ok (r,t)) : I t :=
  hI.missed hf hs (writeMiss_returns (hI.bounds hs) h)

private theorem brought {offset dataLen : Nat} (hs : I s) (h : Brought p id offset dataLen s v) : I v := by
  cases h with
  | hit _ ticked => exact hI.noted ticked.noted hs
  | missed absent ticked missed => exact hI.missed (ticked.noted.absent absent) (hI.noted ticked.noted hs) missed

theorem grown {newLen : Nat} {r : Except FileSystemError Unit} (hlt : f.len < newLen) (hs : I s)
    (h : Grown p id f newLen s r t) : I t := by
  cases h with
  | tail _ out => exact hI.extended hlt out hs
  | relocated out => exact hI.relocated hlt out hs
  | inPlace _ _ _ out => exact hI.extended hlt out hs
  | packed _ _ steps packed len _ out _ =>
    exact hI.extended (by rw [len]; exact hlt) out (hI.space (.packed packed) (hI.steps steps hs))
  | full _ _ steps _ => exact hI.steps steps hs

theorem write {now : UInt32} {offset : UInt64} {data : ByteSlice} {r : Except FileSystemError Nat} (hs : I s)
    (h : writeFile p now id offset.toNat data.1 s = .ok (r,t)) : I t := by
  have hdata : data.1.length < usizeBound := Nat.lt_trans data.2 (by decide)
  cases writeFile_returns (hI.bounds hs) hdata h with
  | missed absent ticked missed => exact hI.missed (ticked.noted.absent absent) (hI.noted ticked.noted hs) missed
  | refused brought _ _ grows grown => exact hI.grown grows (hI.brought hs brought) grown
  | patched brought cached _ _ patched _ => exact hI.patched cached patched (hI.brought hs brought)
  | grown brought _ _ grows grown again _ patched _ =>
    exact hI.patched again patched (hI.grown grows (hI.brought hs brought) grown)

end ClosedWrite

omit [CacheFilesystemDriver D] in
theorem bounds_of_no_files (hmax : s.maxMemory < 2^63) (hlen : s.arena.length = s.maxMemory)
    (hpush : s.arenaPushOffset = 0) (hfiles : s.files = FiniteMap.empty) : Bounds s := by
  refine ⟨hmax,hlen,⟨by simp [arenaOf,hpush],fun {k r} hr => ?_⟩⟩
  simp [arenaOf,view,hfiles] at hr

end FileCache
end MofuOS.Filesystem
