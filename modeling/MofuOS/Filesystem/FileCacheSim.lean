import MofuOS.Filesystem.FileCacheWellPacked

/-! The simulation between the cache over a store whose calls may fail and the files it stands
for, kept by every transaction that moves no byte it should not. -/
namespace MofuOS.Filesystem.FileCache
open Lib
open FiniteMap (get insert remove iter modify view)
open CacheFilesystemDriver (readFileInto fileSize getNode)
open FallibleStore (content)
variable {M : Type → Type} [FiniteMap FileNodeHandle M] {D : Type} [CacheFilesystemDriver D] [FallibleStore D]
  {p : Profile} {s t u v : FileCache M D} {id keep : FileNodeHandle} {f g : CachedFile}
  {A : FileNodeHandle → List UInt8} {size newLen : Nat}

/-- What the cache and the driver say about one file agrees with its bytes: an uncached or
clean file is on disk, a cached one in the arena, and a dirty one is no shorter than on disk. -/
def Agrees (dirty : Option Bool) (cached : Option (List UInt8)) (stored bytes : List UInt8) : Prop :=
  match dirty with
  | none => stored = bytes
  | some false => stored = bytes ∧ cached = some bytes
  | some true => stored.length ≤ bytes.length ∧ cached = some bytes

structure Sim (A : FileNodeHandle → List UInt8) (s : FileCache M D) : Prop where
  layout : Layout s
  sized : ∀ id, (content s.driver id).length < usizeBound
  node : ∀ id, Agrees (view CachedFile.isDirty s.files id) ((arenaOf s).content id) (content s.driver id) (A id)

theorem Query.content_eq {d d' : D} (h : Query d d') (hsized : ∀ id, (content d id).length < usizeBound) :
    content d' = content d := by
  cases h with
  | @size h _ _ _ hok => exact (FallibleStore.fileSize_returns hok (hsized h)).1
  | node hok => exact FallibleStore.getNode_returns hok

theorem Queries.content_eq {d d' : D} (h : Queries d d') (hsized : ∀ id, (content d id).length < usizeBound) :
    content d' = content d := by
  induction h with
  | refl => rfl
  | tail _ step ih => exact (step.content_eq (by rw [ih]; exact hsized)).trans ih

namespace Sim

theorem absent (h : Sim A s) (hf : get s.files id = none) : content s.driver id = A id := by
  have hn := h.node id
  rw [view,hf] at hn
  exact hn

theorem cached (h : Sim A s) (hf : get s.files id = some f) : s.bytesOf f = A id := by
  have hn := h.node id
  rw [arenaOf_content hf,view,hf,Option.map_some] at hn
  cases hd : f.isDirty with
  | false =>
    rw [hd] at hn
    exact Option.some.inj hn.2
  | true =>
    rw [hd] at hn
    exact Option.some.inj hn.2

theorem stored_le (h : Sim A s) (hf : get s.files id = some f) : (content s.driver id).length ≤ (A id).length := by
  have hn := h.node id
  rw [view,hf,Option.map_some] at hn
  cases hd : f.isDirty with
  | false =>
    rw [hd] at hn
    exact Nat.le_of_eq (congrArg List.length hn.1)
  | true =>
    rw [hd] at hn
    exact hn.1

/-- A step after which flags, contents and disk are as before. -/
theorem of_same (h : Sim A s) (hl : Layout t)
    (hdirty : view CachedFile.isDirty t.files = view CachedFile.isDirty s.files)
    (hcontent : ∀ id, (arenaOf t).content id = (arenaOf s).content id)
    (hstored : content t.driver = content s.driver) : Sim A t where
  layout := hl
  sized id := by rw [hstored]; exact h.sized id
  node id := by rw [hdirty,hcontent,hstored]; exact h.node id

theorem noted (h : Sim A s) (hn : Noted s t) : Sim A t :=
  h.of_same (hn.layout h.layout) hn.dirty (fun id => by rw [hn.arena]) (by rw [hn.driver])

theorem queried (h : Sim A s) (hq : Queried s t) : Sim A t := by
  have hl : Layout t := ⟨hq.bounds h.layout.1,by rw [hq.arena]; exact h.layout.2⟩
  obtain ⟨d,hd,rfl⟩ := hq
  exact h.of_same hl rfl (fun _ => rfl) (hd.content_eq h.sized)

/-- Writing a cached file back makes the disk agree with it, and touches no other file. -/
theorem written (h : Sim A s) (hf : get s.files id = some f) {n : Nat} {d : D}
    (hw : CacheFilesystemDriver.writeFile id 0 (s.bytesOf f) s.driver = .ok (.ok n,d)) :
    content d = Function.update (content s.driver) id (A id) := by
  rw [FallibleStore.writeFile_ok hw,h.cached hf,splice_zero_of_le (h.stored_le hf)]

theorem sized_of_update (h : Sim A s) (hf : get s.files id = some f) {d : D}
    (hc : content d = Function.update (content s.driver) id (A id)) (j : FileNodeHandle) :
    (content d j).length < usizeBound := by
  rw [hc]
  by_cases hj : j = id
  · subst hj
    rw [Function.update_self,← h.cached hf,h.layout.1.length_bytesOf hf]
    exact h.layout.1.len_lt hf
  · rw [Function.update_of_ne hj]
    exact h.sized j

/-- Whatever a failed write-back left of a dirty file on disk, the file is still cached. -/
theorem refused (h : Sim A s) (hf : get s.files id = some f) (hd : f.isDirty = true) {e : FileSystemError} {d : D}
    (hw : CacheFilesystemDriver.writeFile id 0 (s.bytesOf f) s.driver = .ok (.error e,d)) :
    Sim A { s with driver := d } := by
  obtain ⟨bytes,hlen,hc⟩ := FallibleStore.writeFile_error hw
  rw [h.cached hf,splice_zero_of_le (h.stored_le hf)] at hlen
  have hbytes := h.layout.1.length_bytesOf hf
  rw [h.cached hf] at hbytes
  have hb := h.layout.1
  have hlt := hb.len_lt hf
  refine ⟨⟨⟨hb.max_lt,hb.length,hb.bounded⟩,h.layout.2⟩,?_,?_⟩
  · intro j
    rw [hc]
    by_cases hj : j = id
    · rw [hj,Function.update_self]
      omega
    · rw [Function.update_of_ne hj]
      exact h.sized j
  · intro j
    have hn := h.node j
    rw [hc]
    by_cases hj : j = id
    · subst hj
      rw [view,hf,Option.map_some,hd] at hn ⊢
      rw [Function.update_self]
      exact ⟨hlen,hn.2⟩
    · rw [Function.update_of_ne hj]
      exact hn

theorem evicted (h : Sim A s) (out : Evicted p keep id f s t) : Sim A t := by
  have hl : Layout t := by
    have hs : SpaceStep p keep s t := .evicted out
    exact ⟨hs.bounds h.layout.1,hs.apart h.layout.2⟩
  have harena := out.arena
  have hf := out.cached
  obtain ⟨d,events,used,hcase,rfl⟩ := out.out
  have hstored : content d = Function.update (content s.driver) id (A id) := by
    obtain ⟨_,_,n,hw⟩ | ⟨hclean,_,rfl⟩ := hcase
    · exact h.written hf hw
    · have hn := h.node id
      rw [view,hf,Option.map_some,hclean] at hn
      exact (Function.update_eq_self_iff.mpr hn.1.symm).symm
  refine ⟨hl,h.sized_of_update hf hstored,?_⟩
  intro j
  rw [harena,FiniteMap.view_remove]
  simp only [hstored]
  by_cases hj : j = id
  · subst hj
    rw [Function.update_self,Function.update_self]
    rfl
  · rw [Function.update_of_ne hj,Function.update_of_ne hj,Arena.content_free_of_ne hj]
    exact h.node j

/-- A compaction that leaves every file its bytes. -/
theorem packed (h : Sim A s) (out : Packed keep s t) (hc : ∀ id, (arenaOf t).content id = (arenaOf s).content id) :
    Sim A t := by
  have hdirty : view CachedFile.isDirty t.files = view CachedFile.isDirty s.files := by
    funext j
    have hj := congrArg (Option.map CachedFile.isDirty) (congrFun out.moved.files j)
    rwa [view,view,Option.map_map,Option.map_map] at hj
  exact h.of_same ⟨out.bounds h.layout.1,out.apart⟩ hdirty hc (by rw [out.moved.driver])

/-- Making room keeps the files, as long as the file that is kept is packed downwards. -/
theorem steps (h : Sim A s) (hk : packsBelow s keep = true) (hsteps : SpaceSteps p keep s t) :
    Sim A t ∧ packsBelow t keep = true := by
  induction hsteps with
  | refl => exact ⟨h,hk⟩
  | tail _ step ih =>
    refine ⟨?_,step.packsBelow ih.1.layout.1 ih.2⟩
    cases step with
    | refused cached dirty write => exact ih.1.refused cached dirty write
    | evicted out => exact ih.1.evicted out
    | packed out => exact ih.1.packed out (out.content ih.1.layout.1.inArena ih.1.layout.2 ih.2)

theorem flushed (h : Sim A s) (hsteps : FlushSteps s t) : Sim A t := by
  induction hsteps with
  | refl => exact h
  | @tail u t _ step ih =>
    have hl : Layout t := ⟨step.bounds ih.layout.1,by rw [step.arena]; exact ih.layout.2⟩
    have harena := step.arena
    cases step with
    | refused cached dirty write => exact ih.refused cached dirty write
    | @flushed id f n d hf _ hw =>
      have hstored := ih.written hf hw
      refine ⟨hl,ih.sized_of_update hf hstored,?_⟩
      intro j
      rw [harena]
      simp only [hstored]
      rw [FiniteMap.view_modify _ hf]
      by_cases hj : j = id
      · subst hj
        rw [Function.update_self,Function.update_self,arenaOf_content hf,ih.cached hf]
        exact ⟨rfl,rfl⟩
      · rw [Function.update_of_ne hj,Function.update_of_ne hj]
        exact ih.node j

/-- A file that was placed clean at the push offset, its bytes in the cells written there. -/
private theorem placed (h : Sim A s) (hl : Layout t) {data : List UInt8} {n : Nat}
    (hfit : s.arenaPushOffset ≤ s.arena.length)
    (hdirty : view CachedFile.isDirty t.files = Function.update (view CachedFile.isDirty s.files) id (some false))
    (hstored : content t.driver = content s.driver) (hself : content s.driver id = A id)
    (harena : arenaOf t = (((arenaOf s).store s.arenaPushOffset data).raise size).assign id ⟨s.arenaPushOffset,n⟩)
    (hbytes : slice (overwrite s.arena s.arenaPushOffset data) s.arenaPushOffset n = A id) : Sim A t := by
  refine ⟨hl,fun j => by rw [hstored]; exact h.sized j,?_⟩
  intro j
  rw [hdirty,hstored,harena]
  by_cases hj : j = id
  · subst hj
    rw [Function.update_self,Arena.content_eq Arena.assign_region_self]
    exact ⟨hself,congrArg some hbytes⟩
  · rw [Function.update_of_ne hj,Arena.content_assign_of_ne hj]
    have hcontent : (((arenaOf s).store s.arenaPushOffset data).raise size).content j = (arenaOf s).content j :=
      h.layout.1.bounded.content_store (Nat.le_refl _) hfit
    rw [hcontent]
    exact h.node j

theorem loaded (h : Sim A s) (hf : get s.files id = none) (hsize : size = (A id).length)
    (out : Loaded id size s t) : Sim A t := by
  have hl : Layout t := ⟨(out.layout h.layout.1).1,(out.layout h.layout.1).2 h.layout.2⟩
  have hself := h.absent hf
  obtain ⟨buf,n,data,d,hbuf,hread,hq,_,harena⟩ := out.out
  obtain ⟨hc,hn⟩ := FallibleStore.readFileInto_returns hread (by rw [hself,hbuf,hsize])
  obtain ⟨rfl,rfl⟩ := hn n rfl
  have hstored : content t.driver = content s.driver := (hq.content_eq (by rw [hc]; exact h.sized)).trans hc
  have hpush := h.layout.1.bounded.top_le
  apply h.placed hl hpush out.dirty hstored hself harena
  rw [hself,hbuf,hsize]
  exact slice_overwrite_self hpush

theorem created (h : Sim A s) (hf : get s.files id = none) (hempty : A id = []) (out : Created id size s t) :
    Sim A t := by
  have hl : Layout t := ⟨(out.layout h.layout.1).1,(out.layout h.layout.1).2 h.layout.2⟩
  apply h.placed hl h.layout.1.bounded.top_le out.dirty (out.driver.content_eq h.sized) (h.absent hf) out.arena
  rw [hempty]
  simp [slice]

/-- A file whose bytes could not be read is not cached, and its room holds no other file. -/
theorem claimed (h : Sim A s) (hf : get s.files id = none) (hsize : size = (A id).length)
    (out : Claimed id size s t) : Sim A t := by
  have hl : Layout t := ⟨out.bounds h.layout.1,out.apart h.layout.2⟩
  obtain ⟨buf,data,e,hbuf,hread,_⟩ := out.out
  obtain ⟨hc,_⟩ := FallibleStore.readFileInto_returns hread (by rw [h.absent hf,hbuf,hsize])
  obtain ⟨data,_,harena⟩ := out.arena
  refine h.of_same hl (view_of_core Prod.snd out.core) (fun j => ?_) hc
  rw [harena]
  exact h.layout.1.bounded.content_store (Nat.le_refl _) h.layout.1.bounded.top_le

end Sim

/-- Between growth and patch: file id holds its bytes and zeros up to newLen, every other
file is as in the simulation. -/
structure Grew (A : FileNodeHandle → List UInt8) (id : FileNodeHandle) (newLen : Nat) (s : FileCache M D) : Prop where
  layout : Layout s
  sized : ∀ j, (content s.driver j).length < usizeBound
  others : ∀ j, j ≠ id →
    Agrees (view CachedFile.isDirty s.files j) ((arenaOf s).content j) (content s.driver j) (A j)
  stored : (content s.driver id).length ≤ (A id).length
  self : (arenaOf s).content id = some (A id ++ List.replicate (newLen - (A id).length) 0)

theorem Sim.grew (h : Sim A s) (hf : get s.files id = some f) (hlen : newLen ≤ f.len) : Grew A id newLen s where
  layout := h.layout
  sized := h.sized
  others j _ := h.node j
  stored := h.stored_le hf
  self := by
    have hbytes := h.layout.1.length_bytesOf hf
    rw [h.cached hf] at hbytes
    rw [arenaOf_content hf,h.cached hf,Nat.sub_eq_zero_of_le (by omega),List.replicate_zero,List.append_nil]

omit [CacheFilesystemDriver D] [FallibleStore D] in
private theorem slice_append {l : List UInt8} {o m n : Nat} {x y : List UInt8} (hx : slice l o m = x)
    (hy : slice l (o + m) n = y) : slice l o (m + n) = x ++ y := by
  rw [← slice_append_slice,hx,hy]

/-- Extending the last file in place. -/
theorem Sim.extended (h : Sim A s) (hlt : f.len < newLen) (htail : f.arenaOffset + f.len = s.arenaPushOffset)
    (out : Extended id f newLen s t) : Grew A id newLen t := by
  have hb := h.layout.1
  have hl : Layout t := ⟨out.bounds hb hlt,out.apart hlt h.layout.2 (roomBehind_of_tail hb htail)⟩
  have hpush := hb.bounded.top_le
  have hlen := hb.length_bytesOf out.cached
  rw [h.cached out.cached] at hlen
  refine ⟨hl,fun j => by rw [out.driver]; exact h.sized j,?_,by rw [out.driver]; exact h.stored_le out.cached,?_⟩
  · intro j hj
    rw [out.dirty,out.driver,out.arena,Arena.content_assign_of_ne hj]
    have hcontent := hb.bounded.content_store (k := j) (d := List.replicate (newLen - f.len) 0) (Nat.le_refl _) hpush
    exact hcontent.symm ▸ h.node j
  · rw [out.arena,Arena.content_eq Arena.assign_region_self]
    simp only [Arena.assign_cells,Arena.raise_cells,Arena.store_cells]
    have hsplit : newLen = f.len + (newLen - f.len) := by omega
    have hold := slice_overwrite_of_disjoint (l := s.arena) (d := List.replicate (newLen - f.len) 0)
      (o := s.arenaPushOffset) (a := f.arenaOffset) (n := f.len) hpush (.inl (Nat.le_of_eq htail))
    have hnew := slice_overwrite_self (l := s.arena) (d := List.replicate (newLen - f.len) (0 : UInt8)) hpush
    rw [List.length_replicate] at hnew
    rw [show slice s.arena f.arenaOffset f.len = A id from h.cached out.cached] at hold
    rw [hlen]
    refine congrArg some ?_
    nth_rewrite 2 [hsplit]
    exact slice_append hold (by rw [htail]; exact hnew)

/-- Copying the file to the tail and extending it there. -/
theorem Sim.relocated (h : Sim A s) (hlt : f.len < newLen) (out : Relocated id f newLen s t) : Grew A id newLen t := by
  have hb := h.layout.1
  have hl : Layout t := ⟨(out.layout hb hlt).1,(out.layout hb hlt).2 h.layout.2⟩
  have hfits := out.fits
  have harenaLen := hb.length
  have hstop := hb.stop_le out.cached
  have hpush := hb.push_le
  have hlen := hb.length_bytesOf out.cached
  have hbytes : slice s.arena f.arenaOffset f.len = A id := h.cached out.cached
  rw [h.cached out.cached] at hlen
  have h1 : s.arenaPushOffset + (A id).length ≤ s.arena.length := by omega
  have hl1 : (overwrite s.arena s.arenaPushOffset (A id)).length = s.arena.length := length_overwrite h1
  refine ⟨hl,fun j => by rw [out.driver]; exact h.sized j,?_,by rw [out.driver]; exact h.stored_le out.cached,?_⟩
  · intro j hj
    rw [out.dirty,out.driver,out.arena,Arena.content_assign_of_ne hj,hbytes]
    have hbs : ((arenaOf s).store s.arenaPushOffset (A id)).Bounded := hb.bounded.store h1
    have hcontent : (((arenaOf s).store s.arenaPushOffset (A id)).store (s.arenaPushOffset + f.len)
        (List.replicate (newLen - f.len) 0)).content j = (arenaOf s).content j := by
      have hroom : s.arenaPushOffset + f.len ≤ (overwrite s.arena s.arenaPushOffset (A id)).length := by omega
      exact (hbs.content_store (Nat.le_add_right ..) hroom).trans
        (hb.bounded.content_store (Nat.le_refl _) hb.bounded.top_le)
    exact hcontent.symm ▸ h.node j
  · rw [out.arena,Arena.content_eq Arena.assign_region_self,hbytes]
    simp only [Arena.assign_cells,Arena.raise_cells,Arena.store_cells]
    have hsplit : newLen = f.len + (newLen - f.len) := by omega
    have hold := slice_overwrite_of_disjoint (l := overwrite s.arena s.arenaPushOffset (A id))
      (d := List.replicate (newLen - f.len) (0 : UInt8)) (o := s.arenaPushOffset + f.len) (a := s.arenaPushOffset)
      (n := f.len) (by omega) (.inl (Nat.le_refl _))
    have hself := slice_overwrite_self (l := s.arena) (d := A id) (o := s.arenaPushOffset) (by omega)
    rw [hlen] at hself
    have hnew := slice_overwrite_self (l := overwrite s.arena s.arenaPushOffset (A id))
      (d := List.replicate (newLen - f.len) (0 : UInt8)) (o := s.arenaPushOffset + f.len) (by omega)
    rw [List.length_replicate] at hnew
    rw [hlen]
    refine congrArg some ?_
    nth_rewrite 2 [hsplit]
    exact slice_append (hold.trans hself) hnew

/-- The patch turns the padded bytes into the splice, whether or not the driver then tells the node. -/
theorem Grew.patched {offset writeEnd : Nat} {data : List UInt8} {r : Except FileSystemError Nat}
    (h : Grew A id newLen s) (hf : get s.files id = some f) (hend : offset + data.length = writeEnd)
    (hnew : f.len = max (A id).length newLen) (hle : writeEnd ≤ f.len) (hge : newLen ≤ max (A id).length writeEnd)
    (out : Patched p id f offset data s r t) :
    Sim (Function.update A id (splice (A id) offset data)) t := by
  have hb := h.layout.1
  have hl : Layout t := ⟨out.bounds hb,out.apart h.layout.2⟩
  have hstop := hb.stop_le hf
  have hpush := hb.push_lt
  have hstored := out.driver.content_eq h.sized
  obtain ⟨dst,hdst,hfit,harena⟩ := out.arena
  rw [usizeAdd_of_lt p (by omega)] at hdst
  cases hdst
  refine ⟨hl,fun j => by rw [hstored]; exact h.sized j,?_⟩
  intro j
  rw [out.dirty,hstored,harena]
  by_cases hj : j = id
  · subst hj
    rw [Function.update_self,Function.update_self,Arena.content_eq (A := (arenaOf s).store _ data) (arenaOf_region hf)]
    refine ⟨?_,congrArg some ?_⟩
    · rw [length_splice]
      exact Nat.le_trans h.stored (Nat.le_max_left ..)
    · have hpad : slice s.arena f.arenaOffset f.len = A j ++ List.replicate (newLen - (A j).length) 0 :=
        Option.some.inj ((arenaOf_content hf).symm.trans h.self)
      have hin := slice_overwrite_within (l := s.arena) (d := data) (o := f.arenaOffset + offset) (a := f.arenaOffset)
        (n := f.len) (by omega) (by omega) (by have := hb.push_le; have := hb.length; omega)
      rw [Nat.add_sub_cancel_left,hpad] at hin
      exact hin.trans (overwrite_pad (by omega))
  · rw [Function.update_of_ne hj,Function.update_of_ne hj]
    have hcontent : ((arenaOf s).store (f.arenaOffset + offset) data).content j = (arenaOf s).content j := by
      by_cases hdata : data = []
      · rw [hdata,Arena.store,overwrite_nil]
      have hpos := List.length_pos_iff.mpr hdata
      apply Arena.content_store_of_disjoint
      · simp only [arenaOf]
        omega
      · intro r' hr'
        have hapart := h.layout.2 (Ne.symm hj) (arenaOf_region hf) hr'
        simp only [Region.Apart,Region.stop,CachedFile.region] at hapart ⊢
        omega
    rw [hcontent]
    exact h.others j hj

end MofuOS.Filesystem.FileCache
