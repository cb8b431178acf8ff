import MofuOS.Filesystem.FileCacheCalls

/-! Transparency: over a byte store, every read of a run returns the bytes that the writes
before it left, as long as no growing write meets a compaction that copies over the file. -/
namespace MofuOS.Filesystem.FileCache
open Lib
open FiniteMap (get insert remove iter modify view)
open CacheFilesystemDriver (readFileInto fileSize getNode)
open ByteStore (content)
variable {M : Type → Type} [FiniteMap FileNodeHandle M] {D : Type} [CacheFilesystemDriver D] [ByteStore D]
  {p : Profile} {s t u : FileCache M D} {id : FileNodeHandle} {A : FileNodeHandle → List UInt8}

/-- The files after a call: a write that returned Ok is spliced in, the gap before it zeroed. -/
def afterOp (A : FileNodeHandle → List UInt8) :
    CacheOp → Except FileSystemError CacheReply → FileNodeHandle → List UInt8
  | .write _ id offset data, .ok _ => Function.update A id (splice (A id) offset.toNat data.1)
  | _, _ => A

/-- A read that returned Ok has the bytes of the file from the offset on, up to its end. -/
def ReplyOk (A : FileNodeHandle → List UInt8) : CacheOp → Except FileSystemError CacheReply → Prop
  | .read id offset outLen, .ok (.bytes bs) =>
    bs.length = min outLen.toNat ((A id).length - offset.toNat) ∧ bs = slice (A id) offset.toNat outLen.toNat
  | _, _ => True

/-- Every reply of a run is right for the files as the calls before it left them. -/
def Faithful (A : FileNodeHandle → List UInt8) : List CacheOp → List (Except FileSystemError CacheReply) → Prop
  | op :: ops, r :: rs => ReplyOk A op r ∧ Faithful (afterOp A op r) ops rs
  | _, _ => True

/-- Every compaction of the call moves each file towards the front. A miss compacts with the
invalid handle last, a growing write with its own file, and that only when the extension does
not fit above the push offset. Where it does fit but a copy does not, and the file is not the
last one, the file is extended in place, which debug assertions stop. A sum of offset and length
that is no usize is stopped by overflow checks only. -/
def movesDown (p : Profile) : CacheOp → FileCache M D → Bool
  | .read id _ _, s => (get s.files id).isSome || packsBelow s invalidNodeHandle
  | .pinFile id, s => (get s.files id).isSome || packsBelow s invalidNodeHandle
  | .write _ id offset data, s =>
    let newLen := offset.toNat + data.1.length
    (p.checks || newLen < usizeBound) && match get s.files id with
      | none => packsBelow s invalidNodeHandle
      | some f =>
        newLen ≤ f.len || f.arenaOffset + f.len == s.arenaPushOffset && s.arenaPushOffset + (newLen - f.len) ≤ s.maxMemory ||
          s.arenaPushOffset + newLen ≤ s.maxMemory ||
          if s.arenaPushOffset + (newLen - f.len) ≤ s.maxMemory then p.checks else packsBelow s id
  | .registerFileInDirectory _ _, _ => false
  | .evictDirectory _, _ => false
  | .invalidate _, _ => false
  | .clear, _ => false
  | _, _ => true

omit [ByteStore D] in
/-- Where every file moves towards the front the room made by a call spares it. -/
private theorem readSpares_of_movesDown (hc : (get s.files id).isSome = true ∨ packsBelow s invalidNodeHandle = true) :
    ReadSpares A p id s := by
  intro hf n d _
  rw [hf] at hc
  exact roomSpares_of_packsBelow (hc.resolve_left (by simp))

omit [ByteStore D] in
private theorem writeSpares_of_movesDown {now : UInt32} {offset : UInt64} {data : ByteSlice} (hl : Layout s)
    (hsized : ∀ e d, fileSize id s.driver ≠ .ok (.error e,d)) (hc : movesDown p (.write now id offset data) s = true) :
    InStep p id offset.toNat data.1.length s ∧ WriteSpares A p id offset.toNat data.1.length s := by
  have hsum : p.checks = true ∨ offset.toNat + data.1.length < usizeBound := by
    simp only [movesDown,Bool.and_eq_true,Bool.or_eq_true,decide_eq_true_eq] at hc
    exact hc.1
  cases hf : get s.files id with
  | none =>
    simp only [movesDown,hf,Bool.and_eq_true] at hc
    refine ⟨⟨hsum,fun f hcached => ?_⟩,?_⟩
    · rw [hf] at hcached
      cases hcached
    · simp only [WriteSpares,hf]
      exact ⟨fun _ _ _ _ _ => roomSpares_of_packsBelow hc.2,fun e d _ hq => absurd hq (hsized e d)⟩
  | some f =>
    simp only [movesDown,hf,Bool.and_eq_true,Bool.or_eq_true,decide_eq_true_eq,beq_iff_eq] at hc
    have hin : InStep p id offset.toNat data.1.length s := by
      refine ⟨hsum,fun g hcached hlt hunchecked hnt hno => ?_⟩
      rw [hf] at hcached
      cases hcached
      obtain ⟨_,((h1 | h1) | h1) | h1⟩ := hc
      · omega
      · exact absurd h1.1 hnt
      · exact absurd h1 (Nat.not_le.mpr hno)
      · split_ifs at h1 with hfit
        · rw [hunchecked] at h1
          cases h1
        · exact Nat.not_le.mp hfit
    have hb : Bounds { s with accessTick := s.accessTick + 1 } := ⟨hl.1.max_lt,hl.1.length,hl.1.bounded⟩
    refine ⟨hin,?_⟩
    simp only [WriteSpares,hf]
    intro writeEnd hend hlt
    obtain rfl := hin.sum_eq hend
    obtain ⟨_,((h1 | h1) | h1) | h1⟩ := hc
    · omega
    · exact roomSpares_of_fits hb h1.2
    · refine roomSpares_of_fits hb ?_
      simp only
      omega
    · split_ifs at h1 with hfit
      · exact roomSpares_of_fits hb hfit
      · exact roomSpares_of_packsBelow h1

/-- Every call of the interface keeps the simulation and replies as it says. -/
private theorem exec_sim {op : CacheOp} {r : Except FileSystemError CacheReply} (h : Sim A s)
    (hc : movesDown p op s = true) (hop : exec p op s = .ok (r,t)) : ReplyOk A op r ∧ Sim (afterOp A op r) t := by
  cases op with
  | read id offset outLen =>
    obtain ⟨r',hr,rfl⟩ := Prog.map_returns hop
    obtain ⟨ht,hbs⟩ := readFileRange_sim h (readSpares_of_movesDown (by simpa [movesDown] using hc)) hr
    refine ⟨?_,ht⟩
    cases r' with
    | error e => trivial
    | ok bs =>
      have heq := hbs bs rfl
      exact ⟨by rw [heq]; simp [slice],heq⟩
  | write now id offset data =>
    obtain ⟨r',hw,rfl⟩ := Prog.map_returns hop
    have hsized (e : FileSystemError) (d : D) : fileSize id s.driver ≠ .ok (.error e,d) := by
      intro hq
      obtain ⟨d',heq,_⟩ := ByteStore.fileSize_eq id s.driver (h.sized id)
      rw [heq] at hq
      cases hq
    obtain ⟨hin,hs⟩ := writeSpares_of_movesDown h.layout hsized hc
    obtain ⟨e,rfl,ht⟩ | ⟨ht,rfl | ⟨w,e,d,_,hnode⟩⟩ := writeFile_sim h (Nat.lt_trans data.2 (by decide)) hs hin hw
    · exact ⟨trivial,ht⟩
    · exact ⟨trivial,ht⟩
    · obtain ⟨node,d',heq,_⟩ := ByteStore.getNode_eq id w.driver
      rw [heq] at hnode
      cases hnode
  | getNode id =>
    obtain ⟨r',hg,_⟩ := Prog.map_returns hop
    obtain ⟨u,hq,hn⟩ := getNodeCached_returns hg
    exact ⟨trivial,(h.queried hq).noted hn⟩
  | flushFile id =>
    obtain ⟨r',hf,_⟩ := Prog.map_returns hop
    exact ⟨trivial,h.flushed (flushFile_returns h.layout.1 hf)⟩
  | flushNodes ids =>
    obtain ⟨r',hf,_⟩ := Prog.map_returns hop
    exact ⟨trivial,h.flushed (flushNodes_returns h.layout.1 hf)⟩
  | flushAll =>
    obtain ⟨r',hf,_⟩ := Prog.map_returns hop
    exact ⟨trivial,h.flushed (flushAll_returns h.layout.1 hf)⟩
  | pinFile id =>
    obtain ⟨r',hp,_⟩ := Prog.map_returns hop
    refine ⟨trivial,?_⟩
    obtain ⟨u,hq,hn | ⟨v,r'',hread,hn⟩⟩ := pinFile_returns hp
    · exact (h.queried hq).noted hn
    · have hu := h.queried hq
      obtain ⟨d,_,rfl⟩ := hq
      simp only [movesDown,Bool.or_eq_true] at hc
      exact (readFileRange_sim hu (readSpares_of_movesDown hc) hread).1.noted hn
  | unpinFile id =>
    obtain ⟨r',hu,_⟩ := Prog.map_returns hop
    cases hu
    exact ⟨trivial,h.noted (.of_modify fun _ => rfl)⟩
  | reserveCache id importance =>
    obtain ⟨r',hr,_⟩ := Prog.map_returns hop
    exact ⟨trivial,h.noted (reserveCache_returns hr)⟩
  | registerFileInDirectory dir file => cases hc
  | evictDirectory id => cases hc
  | invalidate id => cases hc
  | clear => cases hc

private theorem execAll_sim {ops : List CacheOp} {rs : List (Except FileSystemError CacheReply)} (h : Sim A s)
    (hc : runMeets (movesDown p) p ops s = true) (hops : execAll p ops s = .ok (rs,t)) : Faithful A ops rs := by
  induction ops generalizing A s rs with
  | nil => trivial
  | cons op ops ih =>
    obtain ⟨r,u,rs',hop,hrest,rfl⟩ := runAll_cons hops
    obtain ⟨hcs,hcu⟩ := meets_cons hc hop
    obtain ⟨hreply,hu⟩ := exec_sim h hcs hop
    exact ⟨hreply,ih hu hcu hrest⟩

/-- The cache over a byte store is transparent in every run whose calls move files down only. -/
theorem execAll_faithful {d : D} {max : Nat} {s t : FileCache M D} {ops : List CacheOp}
    {rs : List (Except FileSystemError CacheReply)} (hsized : ∀ id, (content d id).length < usizeBound)
    (hnew : new d max = .ok s) (hc : runMeets (movesDown p) p ops s = true) (h : execAll p ops s = .ok (rs,t)) :
    Faithful (content d) ops rs := by
  have hl := new_layout hnew
  unfold new at hnew
  split_ifs at hnew
  cases hnew
  refine execAll_sim ⟨hl,hsized,fun id => ?_⟩ hc h
  simp [Agrees,view,empty,FallibleStore.content]

/-- Three files that fill an arena of five bytes. -/
def threeFiles : ByteDriver :=
  ⟨fun h => if h = 1 then [10,11] else if h = 2 then [20,21] else if h = 3 then [30] else []⟩

/-- The last file grows through an eviction and a compaction. -/
def growingRun : List CacheOp :=
  [.read 1 0 2,.read 2 0 2,.read 3 0 1,.read 1 0 2,.write 0 3 1 ⟨[31],by decide⟩,.read 3 0 4,.flushAll,.read 2 1 5]

theorem execAll_faithful_growing : ∃ (s t : FileCache NodeTable ByteDriver)
    (rs : List (Except FileSystemError CacheReply)), new threeFiles 5 = .ok s ∧
    runMeets (movesDown .dev) .dev growingRun s = true ∧ execAll .dev growingRun s = .ok (rs,t) ∧
    .ok (.bytes [30,31]) ∈ rs ∧ Faithful (content threeFiles) growingRun rs := by
  have hreplies : ((execAll .dev growingRun
      (empty threeFiles 5 : FileCache NodeTable ByteDriver)).toOption.map fun x =>
        decide (.ok (.bytes [30,31]) ∈ x.1)) = some true := by
    decide +kernel
  obtain ⟨rs,t,h,hrs⟩ := runAll_of_view hreplies
  have hc : runMeets (movesDown .dev) .dev growingRun
      (empty threeFiles 5 : FileCache NodeTable ByteDriver) = true := by
    decide +kernel
  have hnew : new threeFiles 5 = .ok (empty threeFiles 5 : FileCache NodeTable ByteDriver) := rfl
  have hsized (id : FileNodeHandle) : (content threeFiles id).length < usizeBound := by
    simp only [content,threeFiles]
    split_ifs <;> decide
  exact ⟨_,t,rs,hnew,hc,h,of_decide_eq_true hrs,execAll_faithful hsized hnew hc h⟩

/-- The last file loaded is the least recently used one when the first file grows. -/
def packingRun : List CacheOp :=
  [.read 1 0 2,.read 2 0 2,.read 3 0 1,.read 1 0 2,.read 2 0 2,.write 0 1 2 oneByte,.read 1 0 3]

/-- Compacting with the growing file last copies the file behind it over its bytes. -/
theorem packing_overwrites : ∃ (s t : FileCache NodeTable ByteDriver)
    (rs : List (Except FileSystemError CacheReply)), new threeFiles 5 = .ok s ∧
    execAll .dev packingRun s = .ok (rs,t) ∧ ¬ Faithful (content threeFiles) packingRun rs := by
  have hreplies : ((execAll .dev packingRun
      (empty threeFiles 5 : FileCache NodeTable ByteDriver)).toOption.map fun x => x.1) =
      some [.ok (.bytes [10,11]),.ok (.bytes [20,21]),.ok (.bytes [30]),.ok (.bytes [10,11]),.ok (.bytes [20,21]),
        .ok (.count 1),.ok (.bytes [20,21,12])] := by
    decide +kernel
  obtain ⟨rs,t,h,hrs⟩ := runAll_of_view hreplies
  refine ⟨empty threeFiles 5,t,rs,rfl,h,?_⟩
  simp only at hrs
  subst hrs
  rintro ⟨_,_,_,_,_,_,hlast,_⟩
  exact absurd hlast.2 (by decide)

end MofuOS.Filesystem.FileCache
