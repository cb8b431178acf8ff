import MofuOS.Filesystem.FileCacheRun
import MofuOS.Filesystem.ByteStore

/-! What becomes of dirty files: an eviction writes them back first, evicting a directory
and clearing the cache do not. -/
namespace MofuOS.Filesystem.FileCache
open Lib
open FiniteMap (get insert remove iter modify view)
variable {M : Type → Type} [FiniteMap FileNodeHandle M] {D : Type} [CacheFilesystemDriver D]
  {p : Profile} {s t u : FileCache M D} {id : FileNodeHandle} {f : CachedFile}

/-- Whenever a dirty file leaves the map, its bytes have been written to the driver. -/
def Saved (trace : List CacheEvent) : Prop :=
  ∀ pre post id bytes, trace = pre ++ .dropped id true bytes :: post → .wrote id bytes ∈ pre

theorem saved_nil : Saved [] := by
  intro pre post id bytes h
  simp at h

theorem Saved.concat {trace : List CacheEvent} {e : CacheEvent} (h : Saved trace)
    (he : ∀ {id bytes}, e = .dropped id true bytes → .wrote id bytes ∈ trace) : Saved (trace ++ [e]) := by
  intro pre post id bytes heq
  obtain rfl | ⟨post',x,rfl⟩ := List.eq_nil_or_concat post
  · obtain ⟨rfl,hd⟩ := List.append_inj' heq rfl
    exact he (List.cons.inj hd).1
  · rw [List.concat_eq_append,← List.cons_append,← List.append_assoc] at heq
    obtain ⟨htrace,_⟩ := List.append_inj' heq rfl
    exact h pre post' id bytes htrace

omit [CacheFilesystemDriver D] in
theorem Saved.clean {trace : List CacheEvent} (h : Saved trace) (hd : f.isDirty = false) (bytes : List UInt8) :
    Saved (trace ++ [.dropped id f.isDirty bytes]) := by
  apply h.concat
  intro id' bytes' he
  rw [hd] at he
  cases he

theorem Saved.wrote {trace : List CacheEvent} (h : Saved trace) (bytes : List UInt8) :
    Saved (trace ++ [.wrote id bytes]) := by
  apply h.concat
  intro id' bytes' he
  cases he

private theorem SpaceStep.saved {keep : FileNodeHandle} (h : SpaceStep p keep s t) (hs : Saved s.trace) :
    Saved t.trace := by
  cases h with
  | refused _ _ _ => exact hs
  | packed out =>
    rw [out.moved.trace]
    exact hs
  | evicted out =>
    obtain ⟨d,events,used,hcase,rfl⟩ := out.out
    obtain ⟨hd,rfl,_⟩ | ⟨hd,rfl,_⟩ := hcase
    · apply (hs.wrote _).concat
      intro id bytes he
      rw [CacheEvent.dropped.injEq] at he
      obtain ⟨rfl,_,rfl⟩ := he
      exact List.mem_append_right _ List.mem_cons_self
    · rw [List.append_nil]
      exact hs.clean hd _

private theorem saved_closed : ClosedWrite p fun s : FileCache M D => Bounds s ∧ Saved s.trace where
  bounds h := h.1
  noted h hs := ⟨h.bounds hs.1,by rw [h.trace]; exact hs.2⟩
  queried h hs := by
    refine ⟨h.bounds hs.1,?_⟩
    obtain ⟨d,_,rfl⟩ := h
    exact hs.2
  space h hs := ⟨h.bounds hs.1,h.saved hs.2⟩
  claimed h hs := ⟨h.bounds hs.1,by rw [h.trace]; exact hs.2⟩
  loaded _ h hs := ⟨(h.layout hs.1).1,by rw [h.trace]; exact hs.2⟩
  flush h hs := by
    refine ⟨h.bounds hs.1,?_⟩
    cases h with
    | refused _ _ _ => exact hs.2
    | flushed _ _ _ => exact hs.2.wrote _
  created _ h hs := ⟨(h.layout hs.1).1,by rw [h.trace]; exact hs.2⟩
  extended hlt h hs := ⟨h.bounds hs.1 hlt,by rw [h.trace]; exact hs.2⟩
  relocated hlt h hs := ⟨(h.layout hs.1 hlt).1,by rw [h.trace]; exact hs.2⟩
  patched _ h hs := ⟨h.bounds hs.1,by rw [h.trace]; exact hs.2⟩

/-- Nothing dirty is dropped without a write-back. Evicting a directory may then find only
clean or pinned children cached, and the cache may only be cleared when it is clean.
Invalidation discards by design. -/
def dropsClean : CacheOp → FileCache M D → Bool
  | .evictDirectory id, s => ((get s.directoryChildren id).getD []).all fun c =>
    (get s.files c).all fun f => f.pinned || !f.isDirty
  | .clear, s => (iter s.files).all fun e => !e.2.isDirty
  | .invalidate _, _ => false
  | _, _ => true

omit [CacheFilesystemDriver D] in
private theorem evictDirectory_saved {r : Except FileSystemError Nat}
    (hc : dropsClean (.evictDirectory id) s = true) (hs : Bounds s ∧ Saved s.trace)
    (h : evictDirectory p id s = .ok (r,t)) : Bounds t ∧ Saved t.trace := by
  have hsteps := evictDirectory_returns h
  clear h
  induction hsteps with
  | refl => exact hs
  | tail _ step ih =>
    cases step with
    | noted noted => exact ⟨noted.bounds ih.1,by rw [noted.trace]; exact ih.2⟩
    | @dropped c f child cached unpinned out =>
      refine ⟨out.bounds ih.1,?_⟩
      have hclean : f.isDirty = false := by
        simp only [dropsClean,List.all_eq_true] at hc
        have hf := hc c child
        simpa [cached,unpinned] using hf
      obtain ⟨_,_,rfl⟩ := out
      exact ih.2.clean hclean _

omit [FiniteMap FileNodeHandle M] [CacheFilesystemDriver D] in
private theorem Saved.all_clean {trace : List CacheEvent} (h : Saved trace) (s : FileCache M D)
    (l : List (FileNodeHandle × CachedFile)) (hl : ∀ e ∈ l, e.2.isDirty = false) :
    Saved (trace ++ l.map fun e => .dropped e.1 e.2.isDirty (s.bytesOf e.2)) := by
  induction l generalizing trace with
  | nil => simpa using h
  | cons e l ih =>
    rw [List.map_cons,← List.singleton_append,← List.append_assoc]
    exact ih (h.clean (hl e List.mem_cons_self) _) fun e he => hl e (List.mem_cons_of_mem _ he)

private theorem exec_saved {op : CacheOp} {r : Except FileSystemError CacheReply} (hc : dropsClean op s = true)
    (hs : Bounds s ∧ Saved s.trace) (h : exec p op s = .ok (r,t)) : Bounds t ∧ Saved t.trace := by
  refine saved_closed.toClosed.exec (c := dropsClean) ?_ ?_ ?_ ?_ hc hs h
  · intro now id offset data s r t _ hs h
    exact saved_closed.write hs h
  · intro id s r t hc hs h
    exact evictDirectory_saved hc hs h
  · intro id s r t hc
    cases hc
  · intro s r t hc hs h
    have hclean : ∀ e ∈ iter s.files, e.2.isDirty = false := by
      simpa [dropsClean,List.all_eq_true] using hc
    cases h
    exact ⟨bounds_of_no_files hs.1.max_lt hs.1.length rfl rfl,hs.2.all_clean s _ hclean⟩

/-- Every file that left the map since s left a record of it. -/
def Accounted (s t : FileCache M D) : Prop :=
  ∃ events, t.trace = s.trace ++ events ∧ ∀ id f, get s.files id = some f → get t.files id = none →
    ∃ dirty bytes, CacheEvent.dropped id dirty bytes ∈ events

omit [CacheFilesystemDriver D] in
private theorem Accounted.trans (h : Accounted s t) (h' : Accounted t u) : Accounted s u := by
  obtain ⟨ev,htrace,hev⟩ := h
  obtain ⟨ev',htrace',hev'⟩ := h'
  refine ⟨ev ++ ev',by rw [htrace',htrace,List.append_assoc],?_⟩
  intro id f hf hu
  cases ht : get t.files id with
  | none =>
    obtain ⟨dirty,bytes,hm⟩ := hev id f hf ht
    exact ⟨dirty,bytes,List.mem_append_left _ hm⟩
  | some g =>
    obtain ⟨dirty,bytes,hm⟩ := hev' id g ht hu
    exact ⟨dirty,bytes,List.mem_append_right _ hm⟩

omit [CacheFilesystemDriver D] in
/-- A step that records something else or nothing, and after which every file is still there. -/
private theorem Accounted.of_kept (events : List CacheEvent) (htrace : t.trace = s.trace ++ events)
    (hkept : ∀ id, get t.files id = none → get s.files id = none) : Accounted s t := by
  refine ⟨events,htrace,?_⟩
  intro id f hf ht
  rw [hkept id ht] at hf
  cases hf

omit [CacheFilesystemDriver D] in
private theorem Accounted.of_same (htrace : t.trace = s.trace)
    (hkept : ∀ id, get t.files id = none → get s.files id = none) : Accounted s t :=
  Accounted.of_kept [] (by rw [htrace,List.append_nil]) hkept

omit [CacheFilesystemDriver D] in
private theorem absent_of_view {α : Type} {v : CachedFile → α} (h : view v t.files = view v s.files)
    (hid : get t.files id = none) : get s.files id = none := by
  have hi := congrFun h id
  rwa [view,view,hid,Option.map_none,eq_comm,Option.map_eq_none_iff] at hi

omit [CacheFilesystemDriver D] in
private theorem absent_of_update {α : Type} {v : CachedFile → α} {k : FileNodeHandle} {a : α}
    (h : view v t.files = Function.update (view v s.files) k (some a)) (hid : get t.files id = none) :
    get s.files id = none := by
  have hi := congrFun h id
  by_cases hk : id = k
  · subst hk
    rw [Function.update_self,view,hid] at hi
    cases hi
  · rwa [Function.update_of_ne hk,view,view,hid,Option.map_none,eq_comm,Option.map_eq_none_iff] at hi

omit [CacheFilesystemDriver D] in
private theorem accounted_remove (events : List CacheEvent) {dirty : Bool} {bytes : List UInt8}
    (htrace : t.trace = s.trace ++ events ++ [.dropped id dirty bytes])
    (hget : ∀ j, get t.files j = if j = id then none else get s.files j) : Accounted s t := by
  refine ⟨events ++ [.dropped id dirty bytes],by rw [htrace,List.append_assoc],?_⟩
  intro j f hf ht
  rw [hget] at ht
  split_ifs at ht with hj
  · subst hj
    exact ⟨dirty,bytes,List.mem_append_right _ List.mem_cons_self⟩
  · rw [hf] at ht
    cases ht

private theorem SpaceStep.accounted {keep : FileNodeHandle} (h : SpaceStep p keep s t) : Accounted s t := by
  cases h with
  | refused _ _ _ => exact .of_same rfl fun _ hj => hj
  | packed out => exact .of_same out.moved.trace fun _ hj => out.moved.get_eq_none.mp hj
  | evicted out =>
    have hget := out.get
    obtain ⟨d,events,used,_,rfl⟩ := out.out
    exact accounted_remove events rfl hget

private theorem FlushStep.accounted (h : FlushStep s t) : Accounted s t := by
  have hregions : view CachedFile.region t.files = view CachedFile.region s.files := congrArg Arena.region h.arena
  cases h with
  | refused _ _ _ => exact .of_same rfl fun _ hj => hj
  | flushed _ _ _ => exact .of_kept _ rfl fun _ hj => absent_of_view hregions hj

private theorem accounted_closed (s₀ : FileCache M D) :
    ClosedWrite p fun s : FileCache M D => Bounds s ∧ Accounted s₀ s where
  bounds h := h.1
  noted h hs := ⟨h.bounds hs.1,hs.2.trans (.of_same h.trace fun _ hj => absent_of_view h.core hj)⟩
  queried h hs := by
    refine ⟨h.bounds hs.1,hs.2.trans ?_⟩
    obtain ⟨d,_,rfl⟩ := h
    exact .of_same rfl fun _ hj => hj
  space h hs := ⟨h.bounds hs.1,hs.2.trans h.accounted⟩
  claimed h hs := ⟨h.bounds hs.1,hs.2.trans (.of_same h.trace fun _ hj => absent_of_view h.core hj)⟩
  loaded _ h hs := ⟨(h.layout hs.1).1,hs.2.trans (.of_same h.trace fun _ hj => absent_of_update h.dirty hj)⟩
  flush h hs := ⟨h.bounds hs.1,hs.2.trans h.accounted⟩
  created _ h hs := ⟨(h.layout hs.1).1,hs.2.trans (.of_same h.trace fun _ hj => absent_of_update h.dirty hj)⟩
  extended hlt h hs := ⟨h.bounds hs.1 hlt,hs.2.trans (.of_same h.trace fun _ hj => absent_of_view h.dirty hj)⟩
  relocated hlt h hs := ⟨(h.layout hs.1 hlt).1,hs.2.trans (.of_same h.trace fun _ hj => absent_of_view h.dirty hj)⟩
  patched _ h hs := ⟨h.bounds hs.1,hs.2.trans (.of_same h.trace fun _ hj => absent_of_update h.dirty hj)⟩

omit [CacheFilesystemDriver D] in
private theorem Dropped.accounted (h : Dropped id f s t) : Accounted s t := by
  obtain ⟨_,_,rfl⟩ := h
  exact accounted_remove [] (by rw [List.append_nil]) fun j => FiniteMap.get_remove ..

/-- No call makes a file disappear from the map without a record. -/
theorem exec_accounted {op : CacheOp} {r : Except FileSystemError CacheReply} (hb : Bounds s)
    (h : exec p op s = .ok (r,t)) : Accounted s t := by
  have hstart : Bounds s ∧ Accounted s s := ⟨hb,.of_same rfl fun _ hj => hj⟩
  have hnoted {u v : FileCache M D} (h : Noted u v) : Accounted u v :=
    .of_same h.trace fun _ hj => absent_of_view h.core hj
  refine ((accounted_closed s).toClosed.exec (c := fun _ _ => true) ?_ ?_ ?_ ?_ rfl hstart h).2
  · intro now id offset data u r v _ hs h
    exact (accounted_closed s).write hs h
  · intro id u r v _ hs h
    have hsteps := evictDirectory_returns h
    clear h
    induction hsteps with
    | refl => exact hs
    | tail _ step ih =>
      cases step with
      | noted noted => exact ⟨noted.bounds ih.1,ih.2.trans (hnoted noted)⟩
      | dropped _ _ _ out => exact ⟨out.bounds ih.1,ih.2.trans out.accounted⟩
  · intro id u r v _ hs h
    obtain ⟨w,rfl | ⟨f,hd⟩,hn⟩ := invalidate_returns h
    · exact ⟨hn.bounds hs.1,hs.2.trans (hnoted hn)⟩
    · exact ⟨hn.bounds (hd.bounds hs.1),hs.2.trans (hd.accounted.trans (hnoted hn))⟩
  · intro u r v _ hs h
    cases h
    refine ⟨bounds_of_no_files hs.1.max_lt hs.1.length rfl rfl,hs.2.trans ⟨_,rfl,?_⟩⟩
    intro id f hf _
    exact ⟨f.isDirty,u.bytesOf f,List.mem_map.mpr ⟨(id,f),(FiniteMap.mem_iter ..).mpr hf,rfl⟩⟩

/-- In every run that drops only clean files on request, whatever the driver answers: the
bytes of a dirty file have been written when it leaves the map, and no file leaves it unseen. -/
theorem execAll_saved {d : D} {max : Nat} {s t : FileCache M D} {ops : List CacheOp}
    {rs : List (Except FileSystemError CacheReply)} (hnew : new d max = .ok s)
    (hc : runMeets dropsClean p ops s = true) (h : execAll p ops s = .ok (rs,t)) :
    Saved t.trace ∧ ∀ {op r u}, exec p op t = .ok (r,u) → Accounted t u := by
  have hstart : Bounds s ∧ Saved s.trace := by
    unfold new at hnew
    split_ifs at hnew with hmax
    cases hnew
    exact ⟨bounds_of_no_files hmax List.length_replicate rfl rfl,saved_nil⟩
  have ht := runAll_invariant exec_saved hc hstart h
  exact ⟨ht.2,fun hop => exec_accounted ht.1 hop⟩

/-- Writes, an eviction by a later miss, and a directory eviction that finds its child clean. -/
def savingRun : List CacheOp :=
  [.write 0 1 0 ⟨[1],by decide⟩,.write 0 2 0 ⟨[2],by decide⟩,.registerFileInDirectory 9 2,
    .write 0 3 0 ⟨[3],by decide⟩,.flushFile 2,.evictDirectory 9,.flushAll,.clear]

theorem execAll_saved_mixed : ∃ (s t : FileCache NodeTable ByteDriver)
    (rs : List (Except FileSystemError CacheReply)), new ⟨fun _ => []⟩ 4 = .ok s ∧
    runMeets dropsClean .dev savingRun s = true ∧ execAll .dev savingRun s = .ok (rs,t) ∧
    .dropped 1 true [1] ∈ t.trace ∧ Saved t.trace := by
  have htrace : ((execAll .dev savingRun
      (empty ⟨fun _ => []⟩ 4 : FileCache NodeTable ByteDriver)).toOption.map fun x =>
        decide (.dropped 1 true [1] ∈ x.2.trace)) = some true := by
    decide +kernel
  obtain ⟨rs,t,h,ht⟩ := runAll_of_view htrace
  have hc : runMeets dropsClean .dev savingRun
      (empty ⟨fun _ => []⟩ 4 : FileCache NodeTable ByteDriver) = true := by
    decide +kernel
  have hnew : new ⟨fun _ => []⟩ 4 = .ok (empty ⟨fun _ => []⟩ 4 : FileCache NodeTable ByteDriver) := rfl
  exact ⟨_,t,rs,hnew,hc,h,of_decide_eq_true ht,(execAll_saved hnew hc h).1⟩

/-- Evicting the directory of a dirty file loses its bytes, and so does clearing the cache. -/
theorem evictDirectory_loses : (∃ (s t : FileCache NodeTable ByteDriver)
    (rs : List (Except FileSystemError CacheReply)), new ⟨fun _ => []⟩ 8 = .ok s ∧
      execAll .dev [.write 0 1 0 ⟨[7],by decide⟩,.registerFileInDirectory 9 1,.evictDirectory 9] s = .ok (rs,t) ∧
      ¬ Saved t.trace) ∧
    ∃ (s t : FileCache NodeTable ByteDriver) (rs : List (Except FileSystemError CacheReply)),
      new ⟨fun _ => []⟩ 8 = .ok s ∧ execAll .dev [.write 0 1 0 ⟨[7],by decide⟩,.clear] s = .ok (rs,t) ∧
      ¬ Saved t.trace := by
  have hlost {trace : List CacheEvent} (h : trace = [.dropped 1 true [7]]) : ¬ Saved trace := by
    intro hs
    have hm := hs [] [] 1 [7] h
    cases hm
  have hevict : ((execAll .dev [.write 0 1 0 ⟨[7],by decide⟩,.registerFileInDirectory 9 1,.evictDirectory 9]
      (empty ⟨fun _ => []⟩ 8 : FileCache NodeTable ByteDriver)).toOption.map fun x => x.2.trace) =
      some [.dropped 1 true [7]] := by
    decide +kernel
  have hclear : ((execAll .dev [.write 0 1 0 ⟨[7],by decide⟩,.clear]
      (empty ⟨fun _ => []⟩ 8 : FileCache NodeTable ByteDriver)).toOption.map fun x => x.2.trace) =
      some [.dropped 1 true [7]] := by
    decide +kernel
  obtain ⟨rs,t,h,ht⟩ := runAll_of_view hevict
  obtain ⟨rs',t',h',ht'⟩ := runAll_of_view hclear
  exact ⟨⟨_,t,rs,rfl,h,hlost ht⟩,_,t',rs',rfl,h',hlost ht'⟩

end MofuOS.Filesystem.FileCache
