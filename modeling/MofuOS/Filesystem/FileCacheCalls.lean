import MofuOS.Filesystem.FileCacheSpares

/-! What one read and one write do to the files of the simulation, whichever of the driver's
calls fail. -/
namespace MofuOS.Filesystem.FileCache
open Lib
open FiniteMap (get insert remove iter modify view)
open CacheFilesystemDriver (readFileInto fileSize getNode)
open FallibleStore (content)
variable {M : Type → Type} [FiniteMap FileNodeHandle M] {D : Type} [CacheFilesystemDriver D] [FallibleStore D]
  {p : Profile} {s t u v : FileCache M D} {id j : FileNodeHandle} {f g : CachedFile}
  {A : FileNodeHandle → List UInt8} {size newLen : Nat}

section Beside
omit [FallibleStore D]

theorem Claimed.content (h : Claimed id size s t) (hb : Bounds s) (j : FileNodeHandle) :
    (arenaOf t).content j = (arenaOf s).content j := by
  obtain ⟨data,_,harena⟩ := h.arena
  rw [harena]
  exact hb.bounded.content_store (Nat.le_refl _) hb.bounded.top_le

theorem Loaded.content (h : Loaded id size s t) (hb : Bounds s) (hj : j ≠ id) :
    (arenaOf t).content j = (arenaOf s).content j := by
  obtain ⟨_,_,_,_,_,_,_,_,harena⟩ := h.out
  rw [harena,Arena.content_assign_of_ne hj]
  exact hb.bounded.content_store (Nat.le_refl _) hb.bounded.top_le

theorem Created.content (h : Created id size s t) (hb : Bounds s) (hj : j ≠ id) :
    (arenaOf t).content j = (arenaOf s).content j := by
  rw [h.arena,Arena.content_assign_of_ne hj]
  exact hb.bounded.content_store (Nat.le_refl _) hb.bounded.top_le

end Beside

section Asked
variable {q : Except FileSystemError Nat} {d : D}

private theorem Sim.asked (h : Sim A s) (hq : fileSize id s.driver = .ok (q,d)) : Sim A { s with driver := d } :=
  h.queried ⟨d,.single (.size hq),rfl⟩

private theorem Sim.size_eq (h : Sim A s) (hf : get s.files id = none) (hq : fileSize id s.driver = .ok (q,d)) (n : Nat)
    (hn : q = .ok n) : n = (A id).length := by
  rw [← h.absent hf]
  exact (FallibleStore.fileSize_returns hq (h.sized id)).2 n hn

end Asked

omit [CacheFilesystemDriver D] [FallibleStore D] in
/-- A file whose bytes in the cache are wrong is cached. -/
private theorem Damaged.ne_of_absent (h : Damaged A j s) (hf : get s.files id = none) : j ≠ id := by
  rintro rfl
  obtain ⟨bytes,_,hcontent⟩ := h
  simp [Arena.content,arenaOf,view,hf] at hcontent

section Read
variable {offset outLen : Nat} {r : Except FileSystemError (List UInt8)}

/-- Where the file is not cached, the room made for it costs no file its bytes. -/
def ReadSpares (A : FileNodeHandle → List UInt8) (p : Profile) (id : FileNodeHandle) (s : FileCache M D) : Prop :=
  get s.files id = none → ∀ n d, fileSize id s.driver = .ok (.ok n,d) →
    RoomSpares A p n invalidNodeHandle { s with accessTick := s.accessTick + 1, driver := d }

/-- A read returns what the file holds. -/
theorem readFileRange_sim (h : Sim A s) (hs : ReadSpares A p id s) (hr : readFileRange p id offset outLen s = .ok (r,t)) :
    Sim A t ∧ ∀ bs, r = .ok bs → bs = slice (A id) offset outLen := by
  obtain ⟨f,hf,hnoted,rfl⟩ | ⟨u,hf,rfl,hmissed⟩ := readFileRange_returns h.layout.1 hr
  · refine ⟨h.noted hnoted,?_⟩
    intro bs hbs
    cases hbs
    rw [h.cached hf]
  have hu : Sim A { s with accessTick := s.accessTick + 1 } := h.noted (Ticked.noted rfl)
  have herr {e : FileSystemError} (bs : List UInt8) (hbs : (.error e : Except FileSystemError (List UInt8)) = .ok bs) :
      bs = slice (A id) offset outLen := by cases hbs
  cases hmissed with
  | refused hq => exact ⟨hu.asked hq,herr⟩
  | empty hq =>
    have hsize := hu.size_eq hf hq 0 rfl
    have hnil : A id = [] := List.eq_nil_of_length_eq_zero hsize.symm
    refine ⟨hu.asked hq,?_⟩
    intro bs hbs
    cases hbs
    rw [hnil]
    simp [slice]
  | full hq steps call => exact ⟨(hu.asked hq).spared (hs hf _ _ hq) call,herr⟩
  | failed hq steps claimed call =>
    have hw := (hu.asked hq).spared (hs hf _ _ hq) call
    exact ⟨hw.claimed (steps.absent hf) (hu.size_eq hf hq _ rfl) claimed,herr⟩
  | loaded _ hq steps loaded hbytes call =>
    have hw := (hu.asked hq).spared (hs hf _ _ hq) call
    have ht := hw.loaded (steps.absent hf) (hu.size_eq hf hq _ rfl) loaded
    refine ⟨ht,?_⟩
    intro bs hbs
    obtain ⟨g,hg,rfl⟩ := hbytes bs hbs
    rw [ht.cached hg]

/-- A file that lost its bytes when room was made has lost them when the read returns. -/
theorem readFileRange_damages (h : Sim A s) (hs : ¬ ReadSpares A p id s) (hr : readFileRange p id offset outLen s = .ok (r,t)) :
    Damaged A invalidNodeHandle t := by
  simp only [ReadSpares,Classical.not_imp,not_forall] at hs
  obtain ⟨hf,n,d,hsize,hspares⟩ := hs
  have hasked {q : Except FileSystemError Nat} {d' : D} (hq : fileSize id s.driver = .ok (q,d')) : .ok n = q ∧ d = d' := by
    rw [hsize] at hq
    cases hq
    exact ⟨rfl,rfl⟩
  obtain ⟨f,hcached,_,_⟩ | ⟨u,_,rfl,hmissed⟩ := readFileRange_returns h.layout.1 hr
  · rw [hf] at hcached
    cases hcached
  have hu : Sim A { s with accessTick := s.accessTick + 1 } := h.noted (Ticked.noted rfl)
  have hd := hu.asked hsize
  cases hmissed with
  | refused hq => cases (hasked hq).1
  | empty hq =>
    cases (hasked hq).1
    exact absurd (roomSpares_of_fits hd.layout.1 hd.layout.1.push_le) hspares
  | full hq _ call =>
    obtain ⟨hn,rfl⟩ := hasked hq
    cases hn
    exact hd.damaged hspares call
  | failed hq steps claimed call =>
    obtain ⟨hn,rfl⟩ := hasked hq
    cases hn
    exact (hd.damaged hspares call).of_content (claimed.content (steps.bounds hd.layout.1) _)
  | loaded _ hq steps loaded _ call =>
    obtain ⟨hn,rfl⟩ := hasked hq
    cases hn
    have hdamaged := hd.damaged hspares call
    exact hdamaged.of_content (loaded.content (steps.bounds hd.layout.1) (hdamaged.ne_of_absent (steps.absent hf)))

end Read

section Miss
variable {offset dataLen : Nat} {r : Except FileSystemError Unit}

/-- The room made for a file that is written costs no file its bytes, and a file whose size the
driver cannot tell is not taken for an empty one, unless it is one or there is no room for it. -/
structure MissSpares (A : FileNodeHandle → List UInt8) (p : Profile) (id : FileNodeHandle) (offset dataLen : Nat)
    (s : FileCache M D) : Prop where
  room : ∀ q d needed, fileSize id s.driver = .ok (q,d) → Asks p offset dataLen q needed →
    RoomSpares A p needed invalidNodeHandle { s with driver := d }
  sized : ∀ e d needed, fileSize id s.driver = .ok (.error e,d) → usizeAdd p offset dataLen = .ok needed → A id ≠ [] →
    ∀ L, ¬ Frees (savedAs A) p s.accessTick s.maxMemory needed invalidNodeHandle (ledger { s with driver := d } d) L

omit [FallibleStore D] in
/-- The room that the miss path made, and the files beside the one it brought. -/
private theorem WriteMissed.made (h : WriteMissed p id offset dataLen s r t) (hb : Bounds s) : ∃ q d needed room u,
    fileSize id s.driver = .ok (q,d) ∧ Asks p offset dataLen q needed ∧ SpaceSteps p invalidNodeHandle { s with driver := d } u ∧
      ensureSpace p needed invalidNodeHandle true { s with driver := d } = .ok (.ok room,u) ∧
      ∀ j, j ≠ id → (arenaOf t).content j = (arenaOf u).content j := by
  have hasked (d : D) : Bounds { s with driver := d } := ⟨hb.max_lt,hb.length,hb.bounded⟩
  cases h with
  | full hq steps asks call => exact ⟨_,_,_,_,_,hq,asks,steps,call,fun _ _ => rfl⟩
  | failed hq steps claimed pos call =>
    exact ⟨_,_,_,_,_,hq,.loads pos,steps,call,fun _ _ => claimed.content (steps.bounds (hasked _)) _⟩
  | loaded hq steps loaded pos call =>
    exact ⟨_,_,_,_,_,hq,.loads pos,steps,call,fun _ => loaded.content (steps.bounds (hasked _))⟩
  | created hq zero sum steps created call =>
    exact ⟨_,_,_,_,_,hq,.creates zero sum,steps,call,fun _ => created.content (steps.bounds (hasked _))⟩

/-- A file is created where the ledger finds room for it, and there alone. -/
private theorem Sim.frees {room : Bool} {needed : Nat} {d : D} (h : Sim A { s with driver := d })
    (call : ensureSpace p needed invalidNodeHandle true { s with driver := d } = .ok (.ok room,u)) :
    room = true ↔ ∃ L, Frees (savedAs A) p s.accessTick s.maxMemory needed invalidNodeHandle (ledger { s with driver := d } d) L := by
  constructor
  · rintro rfl
    obtain ⟨L,hfrees,_⟩ := ensureSpace_frees (holding_tracks A p invalidNodeHandle) (h.booked _) call
    exact ⟨L,hfrees⟩
  · rintro ⟨L,hfrees⟩
    obtain ⟨v,hv,_⟩ := hfrees.runs (holding_tracks A p invalidNodeHandle) (h.booked _)
    rw [hv] at call
    cases call
    rfl

/-- The miss path of a write that spares the files. -/
private theorem WriteMissed.sim (hm : WriteMissed p id offset dataLen s r t) (h : Sim A s) (hf : get s.files id = none)
    (hs : MissSpares A p id offset dataLen s) : Sim A t := by
  cases hm with
  | full hq steps asks call => exact (h.asked hq).spared (hs.room _ _ _ hq asks) call
  | failed hq steps claimed pos call =>
    have hw := (h.asked hq).spared (hs.room _ _ _ hq (.loads pos)) call
    exact hw.claimed (steps.absent hf) (h.size_eq hf hq _ rfl) claimed
  | loaded hq steps loaded pos call =>
    have hw := (h.asked hq).spared (hs.room _ _ _ hq (.loads pos)) call
    exact hw.loaded (steps.absent hf) (h.size_eq hf hq _ rfl) loaded
  | @created q _ _ _ _ _ hq zero sum steps created call =>
    have hw := (h.asked hq).spared (hs.room _ _ _ hq (.creates zero sum)) call
    have hempty : A id = [] := by
      cases q with
      | ok n => exact List.eq_nil_of_length_eq_zero ((h.size_eq hf hq n rfl).symm.trans (zero n rfl))
      | error e =>
        by_contra hne
        obtain ⟨L,hfrees⟩ := ((h.asked hq).frees call).mp rfl
        exact hs.sized e _ _ hq sum hne L hfrees
    exact hw.created (steps.absent hf) hempty created

/-- The miss path of a write that does not spare them. -/
private theorem WriteMissed.damages (hm : WriteMissed p id offset dataLen s r t) (h : Sim A s) (hf : get s.files id = none)
    (hs : ¬ MissSpares A p id offset dataLen s) :
    Damaged A invalidNodeHandle t ∧ id ≠ invalidNodeHandle ∨ A id ≠ [] ∧ (arenaOf t).content id = some [] := by
  by_cases hroom : ∀ q d needed, fileSize id s.driver = .ok (q,d) → Asks p offset dataLen q needed →
      RoomSpares A p needed invalidNodeHandle { s with driver := d }
  · right
    have hsized := mt (MissSpares.mk hroom) hs
    simp only [not_forall,not_not] at hsized
    obtain ⟨e,d,needed,hsize,hsum,hne,L,hfrees⟩ := hsized
    have hd := h.asked hsize
    refine ⟨hne,?_⟩
    cases hm with
    | full hq _ asks call =>
      rw [hsize] at hq
      cases hq
      cases asks with
      | creates _ sum =>
        rw [hsum] at sum
        cases sum
        exact absurd ((hd.frees call).mpr ⟨L,hfrees⟩) Bool.false_ne_true
    | failed hq _ _ _ _ =>
      rw [hsize] at hq
      cases hq
    | loaded hq _ _ _ _ =>
      rw [hsize] at hq
      cases hq
    | created _ _ _ _ created _ =>
      rw [created.arena,Arena.content_eq Arena.assign_region_self]
      simp [slice]
  · left
    simp only [not_forall] at hroom
    obtain ⟨q,d,needed,hsize,hasks,hspares⟩ := hroom
    obtain ⟨q',d',needed',room,u,hq,asks,steps,call,hbeside⟩ := hm.made h.layout.1
    rw [hsize] at hq
    cases hq
    rw [hasks.eq asks] at call
    have hdamaged := (h.asked hsize).damaged hspares call
    have hne := hdamaged.ne_of_absent (steps.absent hf)
    exact ⟨hdamaged.of_content (hbeside _ hne),hne.symm⟩

omit [CacheFilesystemDriver D] [FallibleStore D] in
private theorem usedExcept_placed {B : Arena FileNodeHandle UInt8} {n : Nat} (hb : Bounds u) (hv : Layout v)
    (harena : arenaOf v = B.assign id ⟨u.arenaPushOffset,n⟩) (hB : B.region = (arenaOf u).region)
    (hf : get v.files id = some f) : usedExcept v.files id ≤ u.arenaPushOffset := by
  apply usedExcept_le hv.1.inArena hv.2 hf
  intro j g hj hg
  have hreg := arenaOf_region hg
  rw [harena,Arena.assign_region_of_ne hj,hB] at hreg
  exact hb.bounded.stop_le hreg

/-- A file that a miss brought in lies at the tail, or is empty with its room behind it;
either way a later compaction moves it down. -/
private theorem WriteMissed.fresh (hm : WriteMissed p id offset dataLen s (.ok ()) v) (h : Sim A s) (hf : get s.files id = none)
    (hs : MissSpares A p id offset dataLen s) (hg : get v.files id = some f) :
    (f.arenaOffset + f.len = v.arenaPushOffset ∨ f.len = 0) ∧ packsBelow v id = true := by
  have hv := hm.sim h hf hs
  cases hm with
  | loaded hq steps loaded pos call =>
    have hw := (h.asked hq).spared (hs.room _ _ _ hq (.loads pos)) call
    obtain ⟨buf,n,data,d,hbuf,hread,_,_,harena⟩ := loaded.out
    obtain ⟨_,hn⟩ := FallibleStore.readFileInto_returns hread
      (by rw [hw.absent (steps.absent hf),hbuf]; exact h.size_eq hf hq _ rfl)
    obtain ⟨rfl,rfl⟩ := hn n rfl
    have hreg := arenaOf_region hg
    rw [harena,Arena.assign_region_self,Option.some.injEq] at hreg
    have htop : v.arenaPushOffset = _ := congrArg Arena.top harena
    have hused := usedExcept_placed hw.layout.1 hv.layout harena rfl hg
    obtain ⟨hoff,hlen⟩ : _ = f.arenaOffset ∧ buf.length = f.len := by simpa [CachedFile.region] using hreg
    simp only [Arena.assign_top,Arena.raise_top,Arena.store_top,arenaOf] at htop
    refine ⟨.inl (by omega),?_⟩
    simp only [packsBelow,hg,Option.all_some,Bool.or_eq_true,beq_iff_eq,decide_eq_true_eq]
    exact .inr (by omega)
  | created _ _ _ _ created _ =>
    have hreg := arenaOf_region hg
    rw [created.arena,Arena.assign_region_self,Option.some.injEq] at hreg
    have hlen : 0 = f.len := congrArg Region.len hreg
    exact ⟨.inr hlen.symm,by simp [packsBelow,hg,← hlen]⟩

end Miss

section Growth

/-- A growth that is refused, where the room it made spared the file. -/
private theorem Grown.refused {e : FileSystemError} (hg : Grown p id f newLen s (.error e) t) (h : Sim A s)
    (hs : RoomSpares A p (newLen - f.len) id s) : Sim A t := by
  cases hg with
  | full _ _ _ call => exact h.spared hs call

private theorem Grown.damages {e : FileSystemError} (hg : Grown p id f newLen s (.error e) t) (h : Sim A s)
    (hs : ¬ RoomSpares A p (newLen - f.len) id s) : Damaged A id t := by
  cases hg with
  | full _ _ _ call => exact h.damaged hs call

/-- The growth that keeps the file's bytes: not the branch that trusts a compaction which
did not happen, and not a compaction that copies other files over this one. -/
private theorem Grown.sim (hg : Grown p id f newLen s (.ok ()) t) (h : Sim A s) (hlt : f.len < newLen)
    (hplace : p.checks = false → f.arenaOffset + f.len ≠ s.arenaPushOffset →
      s.maxMemory < s.arenaPushOffset + newLen → s.maxMemory < s.arenaPushOffset + (newLen - f.len))
    (hs : RoomSpares A p (newLen - f.len) id s) : Grew A id newLen t := by
  cases hg with
  | tail tail out => exact h.extended hlt tail out
  | relocated out => exact h.relocated hlt out
  | inPlace unchecked not_tail no_copy out =>
    have hfull := hplace unchecked not_tail no_copy
    have hfits := out.fits
    omega
  | packed no_copy full steps packed len tail out call =>
    exact (h.spared hs call).extended (by rw [len]; exact hlt) tail out

end Growth

section Write
variable {offset : Nat} {data : List UInt8}

/-- The room made by the write costs no file its bytes, and no file is taken for an empty one. -/
def WriteSpares (A : FileNodeHandle → List UInt8) (p : Profile) (id : FileNodeHandle) (offset dataLen : Nat)
    (s : FileCache M D) : Prop :=
  match get s.files id with
  | none => MissSpares A p id offset dataLen { s with accessTick := s.accessTick + 1 }
  | some f => ∀ writeEnd, usizeAdd p offset dataLen = .ok writeEnd → f.len < writeEnd →
      RoomSpares A p (writeEnd - f.len) id { s with accessTick := s.accessTick + 1 }

/-- The sum of offset and length is a usize, and a file that is not the last one is not extended
where it lies. Checks stop both. -/
structure InStep (p : Profile) (id : FileNodeHandle) (offset dataLen : Nat) (s : FileCache M D) : Prop where
  sum : p.checks = true ∨ offset + dataLen < usizeBound
  place : ∀ f, get s.files id = some f → f.len < offset + dataLen → p.checks = false →
    f.arenaOffset + f.len ≠ s.arenaPushOffset → s.maxMemory < s.arenaPushOffset + (offset + dataLen) →
    s.maxMemory < s.arenaPushOffset + (offset + dataLen - f.len)

/-- The write copies its data in, and the driver cannot tell the node after that. -/
def CopiedIn (p : Profile) (id : FileNodeHandle) (offset : Nat) (data : List UInt8) (s : FileCache M D) : Prop :=
  ∃ w e d, PatchesIn p id offset data s w ∧ getNode id w.driver = .ok (.error e,d)

omit [FiniteMap FileNodeHandle M] [CacheFilesystemDriver D] [FallibleStore D] in
theorem InStep.sum_eq {_ : FiniteMap FileNodeHandle M} {dataLen writeEnd : Nat} (h : InStep p id offset dataLen s)
    (hsum : usizeAdd p offset dataLen = .ok writeEnd) : writeEnd = offset + dataLen := by
  unfold usizeAdd at hsum
  split_ifs at hsum with h1 h2
  · exact (Except.ok.inj hsum).symm
  · exact absurd (h.sum.resolve_left h2) h1

private theorem Brought.sim {dataLen : Nat} (hb : Brought p id offset dataLen s v) (h : Sim A s)
    (hs : WriteSpares A p id offset dataLen s) : Sim A v := by
  cases hb with
  | hit _ ticked => exact h.noted ticked.noted
  | missed absent ticked missed =>
    simp only [WriteSpares,absent] at hs
    obtain rfl := ticked
    exact missed.sim (h.noted (Ticked.noted rfl)) absent hs

/-- The side conditions of the growth, from those on the write. -/
private theorem Brought.clear {dataLen writeEnd : Nat} (hb : Brought p id offset dataLen s v) (h : Sim A s)
    (hs : WriteSpares A p id offset dataLen s) (hf : get v.files id = some f) (hsum : usizeAdd p offset dataLen = .ok writeEnd)
    (hlt : f.len < writeEnd) : RoomSpares A p (writeEnd - f.len) id v ∧
      (InStep p id offset dataLen s → p.checks = false → f.arenaOffset + f.len ≠ v.arenaPushOffset →
        v.maxMemory < v.arenaPushOffset + writeEnd → v.maxMemory < v.arenaPushOffset + (writeEnd - f.len)) := by
  cases hb with
  | missed absent ticked missed =>
    simp only [WriteSpares,absent] at hs
    obtain rfl := ticked
    obtain ⟨htail,hpack⟩ := missed.fresh (h.noted (Ticked.noted rfl)) absent hs hf
    refine ⟨roomSpares_of_packsBelow hpack,fun _ _ hnt hno => ?_⟩
    have hzero := htail.resolve_left hnt
    omega
  | hit cached ticked =>
    simp only [WriteSpares,cached] at hs
    obtain rfl := ticked
    rw [cached] at hf
    cases hf
    refine ⟨hs _ hsum hlt,fun hp => ?_⟩
    obtain rfl := hp.sum_eq hsum
    exact hp.place _ cached hlt

/-- Where the data are copied in the file is long enough for them, and the files are those
from before but for zeros at its end. -/
theorem PatchesIn.grew (hw : PatchesIn p id offset data s u) (h : Sim A s) (hs : WriteSpares A p id offset data.length s)
    (hp : InStep p id offset data.length s) : ∃ g newLen, get u.files id = some g ∧
      offset + data.length ≤ g.len ∧ g.len = max (A id).length newLen ∧
      newLen ≤ max (A id).length (offset + data.length) ∧ Grew A id newLen u ∧
      ∀ now, writeFile p now id offset data s = patchFile p now id offset data (offset + data.length) u := by
  obtain ⟨v,f,g,writeEnd,brought,cached,sum,again,hcase,hrun⟩ := hw.reached h.layout.1
  have hv := brought.sim h hs
  have hlen := hv.layout.1.length_bytesOf cached
  rw [hv.cached cached] at hlen
  obtain ⟨inside,rfl⟩ | ⟨grows,grown,hg⟩ := hcase
  · obtain rfl := hp.sum_eq sum
    rw [cached] at again
    cases again
    exact ⟨f,_,cached,inside,by omega,by omega,hv.grew cached inside,hrun⟩
  · obtain ⟨hroom,hplace⟩ := brought.clear h hs cached sum grows
    have hgrew := grown.sim hv grows (hplace hp) hroom
    obtain rfl := hp.sum_eq sum
    exact ⟨g,_,again,by omega,by omega,by omega,hgrew,hrun⟩

/-- How a write changes the files: not at all before it copies its data in, and by the splice
after that, also where the driver then cannot tell the node. -/
theorem writeFile_sim {now : UInt32} {r : Except FileSystemError Nat} (h : Sim A s) (hdata : data.length < usizeBound)
    (hs : WriteSpares A p id offset data.length s) (hp : InStep p id offset data.length s)
    (hw : writeFile p now id offset data s = .ok (r,t)) :
    (∃ e, r = .error e ∧ Sim A t) ∨
      (Sim (Function.update A id (splice (A id) offset data)) t ∧ (r = .ok data.length ∨ CopiedIn p id offset data s)) := by
  have hpatched {w : FileCache M D} {f : CachedFile} (out : Patched p id f offset data w r t)
      (hf : get w.files id = some f) (hw : PatchesIn p id offset data s w) :
      Sim (Function.update A id (splice (A id) offset data)) t ∧ (r = .ok data.length ∨ CopiedIn p id offset data s) := by
    obtain ⟨g,newLen,hg,hle,hnew,hge,hgrew,_⟩ := hw.grew h hs hp
    rw [hf] at hg
    cases hg
    exact ⟨hgrew.patched hf rfl hnew hle hge out,out.reply.imp_right fun ⟨e,d,_,hnode⟩ => ⟨w,e,d,hw,hnode⟩⟩
  cases writeFile_returns h.layout.1 hdata hw with
  | missed absent ticked missed =>
    simp only [WriteSpares,absent] at hs
    obtain rfl := ticked
    exact .inl ⟨_,rfl,missed.sim (h.noted (Ticked.noted rfl)) absent hs⟩
  | refused brought cached sum grows grown =>
    exact .inl ⟨_,rfl,grown.refused (brought.sim h hs) (brought.clear h hs cached sum grows).1⟩
  | patched _ cached _ _ patched reached => exact .inr (hpatched patched cached reached)
  | grown _ _ _ _ _ again _ patched reached => exact .inr (hpatched patched again reached)

omit [FallibleStore D] in
/-- A write that fails in its last part has copied its data in. -/
private theorem Patched.copiedIn {w : FileCache M D} {e : FileSystemError} (out : Patched p id f offset data w (.error e) t)
    (hw : PatchesIn p id offset data s w) : CopiedIn p id offset data s := by
  obtain hr | ⟨e,d,_,hnode⟩ := out.reply
  · cases hr
  · exact ⟨w,e,d,hw,hnode⟩

/-- A write that fails before it copies its data in keeps the files where its room spares them. -/
theorem writeFile_refused {now : UInt32} {e : FileSystemError} (h : Sim A s) (hdata : data.length < usizeBound)
    (hc : ¬ CopiedIn p id offset data s) (hs : WriteSpares A p id offset data.length s)
    (hw : writeFile p now id offset data s = .ok (.error e,t)) : Sim A t := by
  cases writeFile_returns h.layout.1 hdata hw with
  | missed absent ticked missed =>
    simp only [WriteSpares,absent] at hs
    obtain rfl := ticked
    exact missed.sim (h.noted (Ticked.noted rfl)) absent hs
  | refused brought cached sum grows grown =>
    exact grown.refused (brought.sim h hs) (brought.clear h hs cached sum grows).1
  | patched _ _ _ _ patched reached => exact absurd (patched.copiedIn reached) hc
  | grown _ _ _ _ _ _ _ patched reached => exact absurd (patched.copiedIn reached) hc

/-- A write that fails before it copies its data in leaves a file with other bytes where its room
does not spare them. -/
theorem writeFile_damages {now : UInt32} {e : FileSystemError} (h : Sim A s) (hdata : data.length < usizeBound)
    (hc : ¬ CopiedIn p id offset data s) (hs : ¬ WriteSpares A p id offset data.length s)
    (hw : writeFile p now id offset data s = .ok (.error e,t)) : ∃ j, Damaged A j t := by
  have hempty {t : FileCache M D} (hne : A id ≠ []) (hcontent : (arenaOf t).content id = some []) : Damaged A id t :=
    ⟨[],hne.symm,hcontent⟩
  cases writeFile_returns h.layout.1 hdata hw with
  | missed absent ticked missed =>
    simp only [WriteSpares,absent] at hs
    obtain rfl := ticked
    obtain ⟨hdamaged,_⟩ | ⟨hne,hcontent⟩ := missed.damages (h.noted (Ticked.noted rfl)) absent hs
    · exact ⟨_,hdamaged⟩
    · exact ⟨_,hempty hne hcontent⟩
  | @refused v _ _ _ _ brought cached sum grows grown =>
    cases brought with
    | hit hit ticked =>
      simp only [WriteSpares,hit] at hs
      obtain rfl := ticked
      rw [hit] at cached
      cases cached
      refine ⟨_,grown.damages (h.noted (Ticked.noted rfl)) fun hspares => hs fun writeEnd' sum' _ => ?_⟩
      rw [sum] at sum'
      cases sum'
      exact hspares
    | missed absent ticked missed =>
      simp only [WriteSpares,absent] at hs
      obtain rfl := ticked
      have hu : Sim A { s with accessTick := s.accessTick + 1 } := h.noted (Ticked.noted rfl)
      have hlayout := missed.layout hu.layout.1
      have hl : Layout v := ⟨hlayout.1,hlayout.2 hu.layout.2⟩
      cases grown with
      | full _ _ steps _ =>
        obtain ⟨hdamaged,hne⟩ | ⟨hne,hcontent⟩ := missed.damages hu absent hs
        · exact ⟨_,hdamaged.of_content (steps.content_invalid hl hne.symm).1⟩
        · have hlen := hl.1.length_bytesOf cached
          rw [arenaOf_content cached,Option.some.injEq] at hcontent
          rw [hcontent,List.length_nil] at hlen
          have hbelow : packsBelow v id = true := by simp [packsBelow,cached,← hlen]
          have hkept := (steps.content_keep hl hbelow).1
          rw [arenaOf_content cached,hcontent] at hkept
          exact ⟨_,hempty hne hkept⟩
  | patched _ _ _ _ patched reached => exact absurd (patched.copiedIn reached) hc
  | grown _ _ _ _ _ _ _ patched reached => exact absurd (patched.copiedIn reached) hc

end Write
end MofuOS.Filesystem.FileCache
