import MofuOS.Filesystem.FileCacheSpace

/-! The miss paths: how a file gets into the cache. Each lemma names the states between
the driver's answers, the room that was made and the file that was placed. -/
namespace MofuOS.Filesystem

/-- A cached file as the arena and the write-back see it. -/
def CachedFile.core (f : CachedFile) : Lib.Region × Bool := (f.region,f.isDirty)

namespace FileCache
open Lib
open Prog (liftO)
open FiniteMap (get insert remove iter modify view)
open CacheFilesystemDriver (readFileInto fileSize getNode)
variable {M : Type → Type} [FiniteMap FileNodeHandle M] {D : Type} [CacheFilesystemDriver D]
  {p : Profile} {s t u : FileCache M D} {id : FileNodeHandle} {f : CachedFile}

omit [CacheFilesystemDriver D] in
/-- Only bookkeeping changed: ticks, pins, importance, side tables. -/
structure Noted (s t : FileCache M D) : Prop where
  driver : t.driver = s.driver
  max : t.maxMemory = s.maxMemory
  trace : t.trace = s.trace
  cells : t.arena = s.arena
  push : t.arenaPushOffset = s.arenaPushOffset
  used : t.currentMemoryUsed = s.currentMemoryUsed
  core : view CachedFile.core t.files = view CachedFile.core s.files

omit [CacheFilesystemDriver D] in
theorem view_of_core {α : Type} (v : Region × Bool → α)
    (h : view CachedFile.core t.files = view CachedFile.core s.files) :
    view (v ∘ CachedFile.core) t.files = view (v ∘ CachedFile.core) s.files := by
  funext j
  have hj := congrArg (Option.map v) (congrFun h j)
  rwa [view,view,Option.map_map,Option.map_map] at hj

namespace Noted
omit [CacheFilesystemDriver D]

theorem arena (h : Noted s t) : arenaOf t = arenaOf s := by
  have hr : view CachedFile.region t.files = view CachedFile.region s.files := view_of_core Prod.fst h.core
  rw [arenaOf,h.cells,h.push,hr,arenaOf]

theorem dirty (h : Noted s t) : view CachedFile.isDirty t.files = view CachedFile.isDirty s.files :=
  view_of_core Prod.snd h.core

theorem bounds (h : Noted s t) (hb : Bounds s) : Bounds t where
  max_lt := h.max ▸ hb.max_lt
  length := by rw [h.max,h.cells,hb.length]
  bounded := by rw [h.arena]; exact hb.bounded

theorem refl (s : FileCache M D) : Noted s s := ⟨rfl,rfl,rfl,rfl,rfl,rfl,rfl⟩

/-- A change to one file that its core does not see. -/
theorem of_modify {g : CachedFile → CachedFile} (hg : ∀ f, (g f).core = f.core) :
    Noted s { s with files := modify s.files id g } :=
  ⟨rfl,rfl,rfl,rfl,rfl,rfl,FiniteMap.view_modify_same hg⟩

end Noted

omit [FiniteMap FileNodeHandle M] [CacheFilesystemDriver D] in
/-- A call begins with the next tick. -/
def Ticked (s t : FileCache M D) : Prop := t = { s with accessTick := s.accessTick + 1 }

omit [CacheFilesystemDriver D] in
theorem Ticked.noted (h : Ticked s t) : Noted s t := by
  rw [h]
  exact ⟨rfl,rfl,rfl,rfl,rfl,rfl,rfl⟩

/-- A driver call that asks and does not write. -/
inductive Query : D → D → Prop
  | size {h : FileNodeHandle} {r : Except FileSystemError Nat} {d d' : D} (ok : fileSize h d = .ok (r,d')) :
      Query d d'
  | node {h : FileNodeHandle} {r : Except FileSystemError FileNode} {d d' : D} (ok : getNode h d = .ok (r,d')) :
      Query d d'

abbrev Queries : D → D → Prop := Relation.ReflTransGen Query

/-- The top of the arena is taken for a file whose bytes then could not be read. -/
structure Claimed (id : FileNodeHandle) (size : Nat) (s t : FileCache M D) : Prop where
  fits : s.arenaPushOffset + size ≤ s.maxMemory
  max : t.maxMemory = s.maxMemory
  trace : t.trace = s.trace
  used : t.currentMemoryUsed = s.currentMemoryUsed
  core : view CachedFile.core t.files = view CachedFile.core s.files
  out : ∃ buf data e, buf.length = size ∧ readFileInto id buf s.driver = .ok (.error e,data,t.driver) ∧
    t.arena = overwrite s.arena s.arenaPushOffset data ∧ t.arenaPushOffset = s.arenaPushOffset + size

/-- A file is read to the top of the arena, and counted if the driver then tells its node. -/
structure Loaded (id : FileNodeHandle) (size : Nat) (s t : FileCache M D) : Prop where
  fits : s.arenaPushOffset + size ≤ s.maxMemory
  max : t.maxMemory = s.maxMemory
  trace : t.trace = s.trace
  dirty : view CachedFile.isDirty t.files = Function.update (view CachedFile.isDirty s.files) id (some false)
  out : ∃ buf n data d, buf.length = size ∧ readFileInto id buf s.driver = .ok (.ok n,data,d) ∧
    Queries d t.driver ∧
    (t.currentMemoryUsed = (s.currentMemoryUsed + n) % usizeBound ∨
      t.currentMemoryUsed = s.currentMemoryUsed ∧ ∃ e, getNode id d = .ok (.error e,t.driver)) ∧
    arenaOf t = (((arenaOf s).store s.arenaPushOffset data).raise size).assign id ⟨s.arenaPushOffset,n⟩

/-- An empty file is given zeroed room at the top of the arena. -/
structure Created (id : FileNodeHandle) (size : Nat) (s t : FileCache M D) : Prop where
  fits : s.arenaPushOffset + size ≤ s.maxMemory
  max : t.maxMemory = s.maxMemory
  trace : t.trace = s.trace
  dirty : view CachedFile.isDirty t.files = Function.update (view CachedFile.isDirty s.files) id (some false)
  used : t.currentMemoryUsed = s.currentMemoryUsed
  driver : Queries s.driver t.driver
  arena : arenaOf t = (((arenaOf s).store s.arenaPushOffset (List.replicate size 0)).raise size).assign id
    ⟨s.arenaPushOffset,0⟩

omit [FiniteMap FileNodeHandle M] [CacheFilesystemDriver D] in
/-- After ensure_space succeeded, taking the top cannot fail. -/
private theorem arenaPushAlloc_of_room {size : Nat} {r : Except FileSystemError (Option Nat)} {top : Nat}
    (htop : usizeAdd p s.arenaPushOffset size = .ok top) (hle : top ≤ s.maxMemory)
    (h : arenaPushAlloc p size s = .ok (r,t)) :
    r = .ok (some s.arenaPushOffset) ∧ t = { s with arenaPushOffset := top } := by
  simp only [arenaPushAlloc,Prog.run_get_bind,htop,Prog.run_liftO_ok_bind,if_pos hle,Prog.run_set_bind] at h
  cases h
  exact ⟨rfl,rfl⟩

/-- The load of a whole file into the room that was made for it. -/
private theorem loadInto_returns {size top : Nat} {r : Except FileSystemError Nat} (hb : Bounds s)
    (hsize : size < usizeBound) (htop : usizeAdd p s.arenaPushOffset size = .ok top) (hle : top ≤ s.maxMemory)
    (h : loadInto p id s.arenaPushOffset size { s with arenaPushOffset := top } = .ok (r,t)) :
    s.arenaPushOffset + size ≤ s.maxMemory ∧ top = s.arenaPushOffset + size ∧
      ∃ buf data d, buf.length = size ∧ readFileInto id buf s.driver = .ok (r,data,d) ∧
        t = { s with
          driver := d
          arena := overwrite s.arena s.arenaPushOffset data
          arenaPushOffset := s.arenaPushOffset + size } := by
  unfold loadInto at h
  obtain ⟨e,he,_⟩ | ⟨buf,s',hbuf,h⟩ := Prog.bind_returns h
  · cases (arenaSlice_returns hb.push_lt hsize he).1
  obtain ⟨hres,hlen,rfl⟩ := arenaSlice_returns hb.push_lt hsize hbuf
  cases hres
  have hsum : top = s.arenaPushOffset + size := by
    have hbound := hb.max_lt
    simp only [hb.length] at hlen
    rw [usizeAdd_of_lt p (by unfold usizeBound; omega)] at htop
    exact (Except.ok.inj htop).symm
  subst hsum
  split at h
  · cases h
    exact ⟨hle,rfl,_,_,_,length_slice hlen,‹_›,rfl⟩
  · cases h

omit [CacheFilesystemDriver D] in
/-- Placing a clean file in the room that was filled for it. -/
private theorem arenaOf_placed {size n : Nat} {data : List UInt8} {tick : UInt64} {imp : CacheImportance} :
    (⟨overwrite s.arena s.arenaPushOffset data,s.arenaPushOffset + size,
      view CachedFile.region (insert s.files id (CachedFile.new s.arenaPushOffset n tick imp))⟩ : Arena _ _) =
    (((arenaOf s).store s.arenaPushOffset data).raise size).assign id ⟨s.arenaPushOffset,n⟩ := by
  rw [FiniteMap.view_insert]
  rfl

theorem readMiss_returns {offset outLen size : Nat} {r : Except FileSystemError (List UInt8)} (hb : Bounds s)
    (hsize : size < usizeBound) (h : readMiss p id offset outLen size s = .ok (r,t)) :
    ∃ u room, ensureSpace p size invalidNodeHandle true s = .ok (.ok room,u) ∧ SpaceSteps p invalidNodeHandle s u ∧
      (room = false ∧ r = .error .cacheFull ∧ t = u ∨ room = true ∧ ((∃ e, r = .error e) ∧ Claimed id size u t ∨
        Loaded id size u t ∧ ∀ bs, r = .ok bs → ∃ g, get t.files id = some g ∧
          bs = slice (t.bytesOf g) offset outLen)) := by
  unfold readMiss at h
  obtain ⟨e,he,_⟩ | ⟨room,u,hroom,h⟩ := Prog.bind_returns h
  · obtain ⟨_,⟨hr,_⟩ | ⟨hr,_⟩⟩ := ensureSpace_returns hb he <;> cases hr
  obtain ⟨hsteps,⟨hr,_⟩ | ⟨hr,top,htop,hle,_⟩⟩ := ensureSpace_returns hb hroom
  · cases hr
    cases h
    exact ⟨_,false,hroom,hsteps,.inl ⟨rfl,rfl,rfl⟩⟩
  cases hr
  have hbu := hsteps.bounds hb
  refine ⟨u,true,hroom,hsteps,.inr ⟨rfl,?_⟩⟩
  simp only [Bool.not_true,Bool.false_eq_true,if_false] at h
  obtain ⟨e,he,_⟩ | ⟨a,v,ha,h⟩ := Prog.bind_returns h
  · cases (arenaPushAlloc_of_room htop hle he).1
  obtain ⟨hr,rfl⟩ := arenaPushAlloc_of_room htop hle ha
  cases hr
  simp only at h
  obtain ⟨e,he,rfl⟩ | ⟨n,v,hload,h⟩ := Prog.bind_returns h
  · obtain ⟨hfit,rfl,buf,data,d,hbuf,hread,rfl⟩ := loadInto_returns hbu hsize htop hle he
    exact .inl ⟨⟨e,rfl⟩,hfit,rfl,rfl,rfl,rfl,buf,data,e,hbuf,hread,rfl,rfl⟩
  right
  obtain ⟨hfit,rfl,buf,data,d,hbuf,hread,rfl⟩ := loadInto_returns hbu hsize htop hle hload
  have hdata := CacheFilesystemDriver.readFileInto_length hread
  have hn := CacheFilesystemDriver.readFileInto_le hread
  simp only [insertFile,Prog.run_modify_bind] at h
  obtain ⟨e,d',hnode,rfl,rfl⟩ | ⟨node,d',hnode,h⟩ := callDriver_bind_returns h
  · refine ⟨⟨hfit,rfl,rfl,FiniteMap.view_insert ..,buf,n,data,d,hbuf,hread,.single (.node hnode),.inr ⟨rfl,e,hnode⟩,
      arenaOf_placed⟩,?_⟩
    intro bs hbs
    cases hbs
  · simp only [Prog.run_modify_bind,Prog.run_get_bind] at h
    obtain ⟨used,hused,h⟩ := Prog.liftO_bind_returns h
    simp only [Prog.run_set_bind] at h
    split_ifs at h with hoff
    · cases h
      refine ⟨⟨hfit,rfl,rfl,FiniteMap.view_insert ..,buf,n,data,d,hbuf,hread,.single (.node hnode),
        .inl (usizeAdd_eq_mod hused),arenaOf_placed⟩,?_⟩
      intro bs hbs
      cases hbs
      refine ⟨_,FiniteMap.get_insert_self ..,?_⟩
      rw [bytesOf,slice_slice_min]
      simp [slice,CachedFile.new,Nat.sub_eq_zero_of_le hoff]
    · have hmax := hbu.max_lt
      obtain ⟨rfl,_,rfl⟩ := arenaSlice_returns (by unfold usizeBound; omega) (by unfold usizeBound; omega) h
      refine ⟨⟨hfit,rfl,rfl,FiniteMap.view_insert ..,buf,n,data,d,hbuf,hread,.single (.node hnode),
        .inl (usizeAdd_eq_mod hused),arenaOf_placed⟩,?_⟩
      intro bs hbs
      cases hbs
      refine ⟨_,FiniteMap.get_insert_self ..,?_⟩
      rw [bytesOf,slice_slice_min]
      rfl

/-- How a read of an uncached file ends. -/
inductive ReadMissed (p : Profile) (id : FileNodeHandle) (offset outLen : Nat) (s : FileCache M D) :
    Except FileSystemError (List UInt8) → FileCache M D → Prop
  | refused {e : FileSystemError} {d : D} (size : fileSize id s.driver = .ok (.error e,d)) :
      ReadMissed p id offset outLen s (.error e) { s with driver := d }
  | empty {d : D} (size : fileSize id s.driver = .ok (.ok 0,d)) :
      ReadMissed p id offset outLen s (.ok []) { s with driver := d }
  | full {n : Nat} {d : D} {t : FileCache M D} (size : fileSize id s.driver = .ok (.ok n,d))
      (steps : SpaceSteps p invalidNodeHandle { s with driver := d } t)
      (call : ensureSpace p n invalidNodeHandle true { s with driver := d } = .ok (.ok false,t)) :
      ReadMissed p id offset outLen s (.error .cacheFull) t
  | failed {n : Nat} {d : D} {e : FileSystemError} {u t : FileCache M D} (size : fileSize id s.driver = .ok (.ok n,d))
      (steps : SpaceSteps p invalidNodeHandle { s with driver := d } u) (claimed : Claimed id n u t)
      (call : ensureSpace p n invalidNodeHandle true { s with driver := d } = .ok (.ok true,u)) :
      ReadMissed p id offset outLen s (.error e) t
  | loaded {n : Nat} {d : D} {r : Except FileSystemError (List UInt8)} {u t : FileCache M D} (pos : 0 < n)
      (size : fileSize id s.driver = .ok (.ok n,d))
      (steps : SpaceSteps p invalidNodeHandle { s with driver := d } u) (loaded : Loaded id n u t)
      (bytes : ∀ bs, r = .ok bs → ∃ g, get t.files id = some g ∧ bs = slice (t.bytesOf g) offset outLen)
      (call : ensureSpace p n invalidNodeHandle true { s with driver := d } = .ok (.ok true,u)) :
      ReadMissed p id offset outLen s r t

theorem readFileRange_returns {offset outLen : Nat} {r : Except FileSystemError (List UInt8)} (hb : Bounds s)
    (h : readFileRange p id offset outLen s = .ok (r,t)) :
    (∃ f, get s.files id = some f ∧ Noted s t ∧ r = .ok (slice (s.bytesOf f) offset outLen)) ∨
      ∃ u, get s.files id = none ∧ Ticked s u ∧ ReadMissed p id offset outLen u r t := by
  simp only [readFileRange,bumpTick,Prog.run_modify_bind,Prog.run_get_bind] at h
  cases hf : get s.files id with
  | some f =>
    simp only [hf,Prog.run_set_bind] at h
    refine .inl ⟨f,rfl,?_⟩
    have hnoted : Noted s { s with
        accessTick := s.accessTick + 1
        files := modify s.files id fun f => { f with lastAccess := s.accessTick + 1 } } :=
      ⟨rfl,rfl,rfl,rfl,rfl,rfl,FiniteMap.view_modify_same fun _ => rfl⟩
    rw [bytesOf,slice_slice_min]
    split_ifs at h with hoff
    · cases h
      exact ⟨hnoted,by simp [slice,Nat.sub_eq_zero_of_le hoff]⟩
    · have hstop := hb.stop_le hf
      have hpush := hb.push_lt
      rw [usizeAdd_of_lt p (by omega),Prog.run_liftO_ok_bind] at h
      obtain ⟨rfl,_,rfl⟩ := arenaSlice_returns (by omega) (by omega) h
      exact ⟨hnoted,rfl⟩
  | none =>
    simp only [hf] at h
    refine .inr ⟨{ s with accessTick := s.accessTick + 1 },rfl,rfl,?_⟩
    obtain ⟨e,d,hsize,rfl,rfl⟩ | ⟨n,d,hsize,h⟩ := callDriver_bind_returns h
    · exact .refused hsize
    split_ifs at h with hn
    · subst hn
      cases h
      exact .empty hsize
    · have hb' : Bounds { s with accessTick := s.accessTick + 1, driver := d } := ⟨hb.max_lt,hb.length,hb.bounded⟩
      obtain ⟨u,room,hroom,hsteps,⟨rfl,rfl,rfl⟩ | ⟨rfl,⟨⟨e,rfl⟩,hc⟩ | ⟨hl,hbytes⟩⟩⟩ :=
        readMiss_returns hb' (CacheFilesystemDriver.fileSize_lt hsize) h
      · exact .full hsize hsteps hroom
      · exact .failed hsize hsteps hc hroom
      · exact .loaded (Nat.pos_of_ne_zero hn) hsize hsteps hl hbytes hroom

/-- The room that the miss path of a write asks for, by what the driver says about the size. -/
inductive Asks (p : Profile) (offset dataLen : Nat) : Except FileSystemError Nat → Nat → Prop
  | loads {n : Nat} (pos : 0 < n) : Asks p offset dataLen (.ok n) n
  | creates {q : Except FileSystemError Nat} {needed : Nat} (zero : ∀ n, q = .ok n → n = 0)
      (sum : usizeAdd p offset dataLen = .ok needed) : Asks p offset dataLen q needed

omit [CacheFilesystemDriver D] in
theorem Asks.eq {offset dataLen needed needed' : Nat} {q : Except FileSystemError Nat} (h : Asks p offset dataLen q needed)
    (h' : Asks p offset dataLen q needed') : needed' = needed := by
  cases h with
  | loads pos =>
    cases h' with
    | loads _ => rfl
    | creates zero _ => exact absurd (zero _ rfl) (Nat.ne_of_gt pos)
  | creates zero sum =>
    cases h' with
    | loads pos => exact absurd (zero _ rfl) (Nat.ne_of_gt pos)
    | creates _ sum' => exact Except.ok.inj (sum'.symm.trans sum)

/-- How the miss path of a write ends. -/
inductive WriteMissed (p : Profile) (id : FileNodeHandle) (offset dataLen : Nat) (s : FileCache M D) :
    Except FileSystemError Unit → FileCache M D → Prop
  | full {q : Except FileSystemError Nat} {needed : Nat} {d : D} {t : FileCache M D} (size : fileSize id s.driver = .ok (q,d))
      (steps : SpaceSteps p invalidNodeHandle { s with driver := d } t) (asks : Asks p offset dataLen q needed)
      (call : ensureSpace p needed invalidNodeHandle true { s with driver := d } = .ok (.ok false,t)) :
      WriteMissed p id offset dataLen s (.error .cacheFull) t
  | failed {n : Nat} {d : D} {e : FileSystemError} {u t : FileCache M D} (size : fileSize id s.driver = .ok (.ok n,d))
      (steps : SpaceSteps p invalidNodeHandle { s with driver := d } u) (claimed : Claimed id n u t) (pos : 0 < n)
      (call : ensureSpace p n invalidNodeHandle true { s with driver := d } = .ok (.ok true,u)) :
      WriteMissed p id offset dataLen s (.error e) t
  | loaded {n : Nat} {d : D} {r : Except FileSystemError Unit} {u t : FileCache M D}
      (size : fileSize id s.driver = .ok (.ok n,d))
      (steps : SpaceSteps p invalidNodeHandle { s with driver := d } u) (loaded : Loaded id n u t) (pos : 0 < n)
      (call : ensureSpace p n invalidNodeHandle true { s with driver := d } = .ok (.ok true,u)) :
      WriteMissed p id offset dataLen s r t
  | created {q : Except FileSystemError Nat} {needed : Nat} {d : D} {r : Except FileSystemError Unit}
      {u t : FileCache M D} (size : fileSize id s.driver = .ok (q,d)) (zero : ∀ n, q = .ok n → n = 0)
      (sum : usizeAdd p offset dataLen = .ok needed)
      (steps : SpaceSteps p invalidNodeHandle { s with driver := d } u) (created : Created id needed u t)
      (call : ensureSpace p needed invalidNodeHandle true { s with driver := d } = .ok (.ok true,u)) :
      WriteMissed p id offset dataLen s r t

private theorem rememberNode_returns {r : Except FileSystemError Unit} (h : rememberNode id s = .ok (r,t)) :
    ∃ d nodes, Query s.driver d ∧ t = { s with driver := d, fileNodes := nodes } ∧
      ∀ e, r = .error e → getNode id s.driver = .ok (.error e,d) := by
  unfold rememberNode at h
  obtain ⟨e,d,hnode,rfl,rfl⟩ | ⟨node,d,hnode,h⟩ := callDriver_bind_returns h
  · exact ⟨d,_,.node hnode,rfl,fun e he => by cases he; exact hnode⟩
  · cases h
    exact ⟨d,_,.node hnode,rfl,nofun⟩

private theorem loadMissing_returns {n : Nat} {d : D} {offset dataLen : Nat} {r : Except FileSystemError Unit} (hb : Bounds s)
    (hsize : fileSize id s.driver = .ok (.ok n,d)) (hpos : 0 < n)
    (h : loadMissing p id n { s with driver := d } = .ok (r,t)) :
    WriteMissed p id offset dataLen s r t := by
  have hn := CacheFilesystemDriver.fileSize_lt hsize
  have hb' : Bounds { s with driver := d } := ⟨hb.max_lt,hb.length,hb.bounded⟩
  unfold loadMissing at h
  obtain ⟨e,he,_⟩ | ⟨room,u,hroom,h⟩ := Prog.bind_returns h
  · obtain ⟨_,⟨hr,_⟩ | ⟨hr,_⟩⟩ := ensureSpace_returns hb' he <;> cases hr
  obtain ⟨hsteps,⟨hr,_⟩ | ⟨hr,top,htop,hle,_⟩⟩ := ensureSpace_returns hb' hroom
  · cases hr
    cases h
    exact .full hsize hsteps (.loads hpos) hroom
  cases hr
  have hbu := hsteps.bounds hb'
  simp only [Bool.not_true,Bool.false_eq_true,if_false] at h
  obtain ⟨e,he,_⟩ | ⟨a,v,ha,h⟩ := Prog.bind_returns h
  · cases (arenaPushAlloc_of_room htop hle he).1
  obtain ⟨hr,rfl⟩ := arenaPushAlloc_of_room htop hle ha
  cases hr
  simp only at h
  obtain ⟨e,he,rfl⟩ | ⟨k,v,hload,h⟩ := Prog.bind_returns h
  · obtain ⟨hfit,rfl,buf,data,d',hbuf,hread,rfl⟩ := loadInto_returns hbu hn htop hle he
    exact .failed hsize hsteps ⟨hfit,rfl,rfl,rfl,rfl,buf,data,e,hbuf,hread,rfl,rfl⟩ hpos hroom
  obtain ⟨hfit,rfl,buf,data,d',hbuf,hread,rfl⟩ := loadInto_returns hbu hn htop hle hload
  simp only [insertFile,Prog.run_modify_bind] at h
  refine .loaded hsize hsteps ?_ hpos hroom
  obtain ⟨e,he,rfl⟩ | ⟨_,v,hv,h⟩ := Prog.bind_returns h
  · obtain ⟨d2,nodes,hq,rfl,hfailed⟩ := rememberNode_returns he
    exact ⟨hfit,rfl,rfl,FiniteMap.view_insert ..,buf,k,data,d',hbuf,hread,.single hq,.inr ⟨rfl,e,hfailed e rfl⟩,
      arenaOf_placed⟩
  · obtain ⟨d2,nodes,hq,rfl,_⟩ := rememberNode_returns hv
    simp only [Prog.run_get_bind] at h
    obtain ⟨used,hused,h⟩ := Prog.liftO_bind_returns h
    cases h
    exact ⟨hfit,rfl,rfl,FiniteMap.view_insert ..,buf,k,data,d',hbuf,hread,.single hq,.inl (usizeAdd_eq_mod hused),
      arenaOf_placed⟩

private theorem createMissing_returns {q : Except FileSystemError Nat} {d : D} {offset dataLen : Nat}
    {r : Except FileSystemError Unit} (hb : Bounds s) (hsize : fileSize id s.driver = .ok (q,d))
    (hzero : ∀ n, q = .ok n → n = 0)
    (h : createMissing p id offset dataLen { s with driver := d } = .ok (r,t)) :
    WriteMissed p id offset dataLen s r t := by
  have hb' : Bounds { s with driver := d } := ⟨hb.max_lt,hb.length,hb.bounded⟩
  unfold createMissing at h
  obtain ⟨needed,hsum,h⟩ := Prog.liftO_bind_returns h
  obtain ⟨e,he,_⟩ | ⟨room,u,hroom,h⟩ := Prog.bind_returns h
  · obtain ⟨_,⟨hr,_⟩ | ⟨hr,_⟩⟩ := ensureSpace_returns hb' he <;> cases hr
  obtain ⟨hsteps,⟨hr,_⟩ | ⟨hr,top,htop,hle,_⟩⟩ := ensureSpace_returns hb' hroom
  · cases hr
    cases h
    exact .full hsize hsteps (.creates hzero hsum) hroom
  cases hr
  have hbu := hsteps.bounds hb'
  simp only [Bool.not_true,Bool.false_eq_true,if_false] at h
  obtain ⟨e,he,_⟩ | ⟨a,v,ha,h⟩ := Prog.bind_returns h
  · cases (arenaPushAlloc_of_room htop hle he).1
  obtain ⟨hr,rfl⟩ := arenaPushAlloc_of_room htop hle ha
  cases hr
  simp only at h
  obtain ⟨e,he,_⟩ | ⟨_,v,hfill,h⟩ := Prog.bind_returns h
  · cases (fillZero_returns hbu.push_lt (usizeAdd_lt hsum) he).1
  obtain ⟨_,hfit,rfl⟩ := fillZero_returns hbu.push_lt (usizeAdd_lt hsum) hfill
  simp only [hbu.length] at hfit
  have hmax := hbu.max_lt
  rw [usizeAdd_of_lt p (by unfold usizeBound; omega)] at htop
  cases htop
  simp only [insertFile,Prog.run_modify_bind] at h
  obtain ⟨d2,nodes,hq,rfl,_⟩ := rememberNode_returns h
  exact .created hsize hzero hsum hsteps
    ⟨hfit,rfl,rfl,FiniteMap.view_insert ..,rfl,.single hq,arenaOf_placed⟩ hroom

theorem writeMiss_returns {offset dataLen : Nat} {r : Except FileSystemError Unit} (hb : Bounds s)
    (h : writeMiss p id offset dataLen s = .ok (r,t)) : WriteMissed p id offset dataLen s r t := by
  unfold writeMiss at h
  obtain ⟨e,he,_⟩ | ⟨q,u,hq,h⟩ := Prog.bind_returns h
  · obtain ⟨_,hr,_⟩ := Prog.attempt_returns he
    cases hr
  obtain ⟨q',hr,hq⟩ := Prog.attempt_returns hq
  cases hr
  obtain ⟨d,hsize,rfl⟩ := callDriver_returns hq
  cases q with
  | error e =>
    simp only [gt_iff_lt,Nat.lt_irrefl,if_false] at h
    exact createMissing_returns hb hsize (fun n hn => by cases hn) h
  | ok n =>
    simp only at h
    split_ifs at h with hn
    · exact loadMissing_returns hb hsize hn h
    · exact createMissing_returns hb hsize (fun m hm => by cases hm; omega) h

end FileCache
end MofuOS.Filesystem
