import MofuOS.Filesystem.FileCacheCompact
import MofuOS.Filesystem.ByteStore

/-! What a compaction preserves, exactly. The files other than the one sorted last are slid
to the front first, so what that one holds is only read once they lie there. -/
namespace MofuOS.Filesystem.FileCache
open Lib
open FiniteMap (get insert remove iter modify view)
variable {M : Type → Type} [FiniteMap FileNodeHandle M] {D : Type} {p : Profile} {s t : FileCache M D}
  {k : FileNodeHandle} {f : CachedFile}

/-- The bytes of the files other than k, in the order of their offsets. -/
def slidBytes (s : FileCache M D) (k : FileNodeHandle) : List UInt8 :=
  ((liveSorted s.files k).filter fun e => e.1 ≠ k).flatMap fun e => slice s.arena e.2.1 e.2.2

/-- Laid out from the front of the arena, the other files' bytes stop short of file k, or
are the very bytes of file k where they reach into it. -/
def slidesClear (s : FileCache M D) (k : FileNodeHandle) : Bool :=
  (get s.files k).all fun f => (slice (slidBytes s k) f.arenaOffset f.len).isPrefixOf (s.bytesOf f)

/-- Every file is as it was, and the files fill the arena up to the push offset, file k at
the end. -/
structure Compacted (k : FileNodeHandle) (s t : FileCache M D) : Prop where
  bytes : ∀ id, (get t.files id).map t.bytesOf = (get s.files id).map s.bytesOf
  apart : ∀ i j f g, i ≠ j → get t.files i = some f → get t.files j = some g → f.region.Apart g.region
  stop_le : ∀ id f, get t.files id = some f → f.region.stop ≤ t.arenaPushOffset
  covers : ∀ c < t.arenaPushOffset, ∃ id f, get t.files id = some f ∧ f.region.off ≤ c ∧ c < f.region.stop
  last : ∀ f, get t.files k = some f → f.region.stop = t.arenaPushOffset ∧
    ∀ id g, id ≠ k → get t.files id = some g → g.region.stop ≤ f.region.off

private theorem content_eq_map (s : FileCache M D) (id : FileNodeHandle) :
    (arenaOf s).content id = (get s.files id).map s.bytesOf := by
  cases hf : get s.files id with
  | none => simp [Arena.content,arenaOf,view,hf]
  | some f => rw [arenaOf_content hf,Option.map_some]

/-- The files other than k end where file k starts. -/
theorem liveSorted_split (hi : InArena s) (hf : get s.files k = some f) :
    ∃ pre, liveSorted s.files k = pre ++ [(k,f.arenaOffset,f.len)] ∧ (∀ e ∈ pre, e.1 ≠ k) ∧
      slidBytes s k = Arena.gather s.arena (pre.map liveRegion) := by
  obtain ⟨pre,hl,hpre,_⟩ := liveSorted_last hi hf
  refine ⟨pre,hl,hpre,?_⟩
  have hfilter : (pre ++ [(k,f.arenaOffset,f.len)]).filter (fun e => e.1 ≠ k) = pre := by
    rw [List.filter_append,List.filter_eq_self.mpr fun e hm => by simpa using hpre e hm]
    simp
  rw [slidBytes,hl,hfilter,Arena.gather,List.flatMap_map]
  rfl

namespace Packed
variable (h : Packed k s t) (hi : InArena s) (ha : (arenaOf s).Apart)
include h hi ha

/-- With file k sorted last, the others keep their bytes and file k gets what they left in its place. -/
theorem content_last (hf : get s.files k = some f) (id : FileNodeHandle) :
    (arenaOf t).content id = if id = k then some (slice (overwrite s.arena 0 (slidBytes s k)) f.arenaOffset f.len)
      else (arenaOf s).content id := by
  obtain ⟨pre,hl,hpre,hslid⟩ := liveSorted_split hi hf
  have hsorted := liveSorted_pairwise (s := s) (k := k)
  have hstop : ∀ {j q}, (j,q) ∈ (liveSorted s.files k).map liveRegion → q.stop ≤ (arenaOf s).cells.length :=
    fun hm => stop_le hi hm
  have hn := nodup (s := s) (k := k)
  have hw : 0 + Arena.total ((liveSorted s.files k).map liveRegion) ≤ (arenaOf s).cells.length := by
    rw [Nat.zero_add]
    exact h.total_le
  have hmem {e} (hm : e ∈ pre) : e ∈ liveSorted s.files k := by
    rw [hl]
    exact List.mem_append_left _ hm
  have hkeys := liveSorted_nodup (s := s) (k := k)
  rw [hl] at hsorted hkeys
  rw [List.map_append,List.nodup_append] at hkeys
  have hfits : Arena.Fits (pre.map liveRegion) 0 := Arena.fits_of_before
    (before_of_sorted ha (fun e hm => ⟨hpre e hm,hmem hm⟩) (List.pairwise_append.mp hsorted).1 hkeys.1)
    fun _ => .inr (Nat.zero_le _)
  have hlive : (liveSorted s.files k).map liveRegion = pre.map liveRegion ++ [(k,f.region)] := by
    rw [hl,List.map_append]
    rfl
  rw [h.arena]
  simp only [hlive] at hstop hn hw ⊢
  split_ifs with hid
  · rw [hid,Arena.pack_concat_content_self hstop hw hfits,hslid]
    rfl
  · cases hr : (arenaOf s).region id with
    | some r =>
      have hm : (id,r) ∈ (liveSorted s.files k).map liveRegion := mem_of_region hr
      rw [hlive,List.mem_append,List.mem_singleton] at hm
      obtain hm | he := hm
      · rw [Arena.pack_concat_content_of_mem hstop hw hn hfits hm,Arena.content_eq hr]
      · exact absurd (congrArg Prod.fst he) hid
    | none =>
      have hnone : (arenaOf t).region id = none := by
        rw [Option.eq_none_iff_forall_ne_some]
        intro q hq
        obtain ⟨g,hg,_⟩ := arenaOf_region_eq_some hq
        obtain ⟨f',hf',_⟩ := h.moved.get_eq_some hg
        rw [arenaOf_region hf'] at hr
        cases hr
      rw [h.arena,hlive] at hnone
      rw [Arena.content,hnone,Arena.content,hr]
      rfl

/-- What the files hold is the same exactly when the slid bytes spare file k. -/
theorem content_iff : (∀ id, (arenaOf t).content id = (arenaOf s).content id) ↔ slidesClear s k = true := by
  cases hf : get s.files k with
  | none =>
    have hk : packsBelow s k = true := by simp [packsBelow,hf]
    simp only [slidesClear,hf,Option.all_none,iff_true]
    exact h.content hi ha hk
  | some f =>
    simp only [slidesClear,hf,Option.all_some,List.isPrefixOf_iff_prefix]
    rw [bytesOf,← slice_overwrite_zero_eq_iff]
    constructor
    · intro hall
      have hk := hall k
      rw [h.content_last hi ha hf,if_pos rfl,arenaOf_content hf] at hk
      exact Option.some.inj hk
    · intro hsame id
      rw [h.content_last hi ha hf]
      split_ifs with hid
      · rw [hid,arenaOf_content hf,hsame]
        rfl
      · rfl

omit ha in
/-- Whatever the order, the files fill the arena up to the push offset. -/
theorem compacted (hb : ∀ id, (arenaOf t).content id = (arenaOf s).content id) : Compacted k s t where
  bytes id := by rw [← content_eq_map,← content_eq_map,hb]
  apart i j f g hij hf hg := h.apart hij (arenaOf_region hf) (arenaOf_region hg)
  stop_le id g hg := by
    have hr := arenaOf_region hg
    obtain ⟨q,hq⟩ := h.region_of_region hr
    have htop : t.arenaPushOffset = (arenaOf t).top := rfl
    rw [h.arena] at hr htop
    obtain ⟨o,ho,_,hle⟩ := Arena.pack_region_of_mem (w := 0) (A := arenaOf s) nodup hq
    rw [ho] at hr
    rw [htop,Arena.pack_top,← Option.some.inj hr]
    exact hle
  covers c hc := by
    have htop : t.arenaPushOffset = (arenaOf t).top := rfl
    rw [htop,h.arena,Arena.pack_top] at hc
    obtain ⟨id,r,hr,hle,hlt⟩ := Arena.pack_covers (A := arenaOf s) nodup (Nat.zero_le c) hc
    rw [← h.arena] at hr
    obtain ⟨g,hg,hreg⟩ := arenaOf_region_eq_some hr
    rw [← hreg] at hle hlt
    exact ⟨id,g,hg,hle,hlt⟩
  last f hf := by
    obtain ⟨htail,hoff⟩ := h.at_tail hi hf
    refine ⟨htail,fun id g hid hg => ?_⟩
    obtain ⟨f',hf',_⟩ := h.moved.get_eq_some hf
    obtain ⟨pre,hl,_,htotal⟩ := liveSorted_last hi hf'
    have hr := arenaOf_region hg
    obtain ⟨q,hq⟩ := h.region_of_region hr
    have hn := nodup (s := s) (k := k)
    rw [h.arena] at hr
    rw [hl,List.map_append,List.map_singleton,liveRegion] at hr hq hn
    rw [List.mem_append,List.mem_singleton] at hq
    obtain hq | he := hq
    · obtain ⟨q',hq',hle⟩ := Arena.pack_concat_region_of_mem (w := 0) (A := arenaOf s) hn hq
      rw [hr,Option.some.injEq] at hq'
      rw [Nat.zero_add,htotal,← hoff,← hq'] at hle
      exact hle
    · exact absurd (congrArg Prod.fst he) hid

end Packed

/-- Compaction preserves every file and packs the arena exactly when the slid bytes spare
the file it sorts last. -/
theorem compact_preserves_iff {p : Profile} (hi : InArena s) (ha : (arenaOf s).Apart) :
    (∃ t, compact p k s = .ok (.ok (),t) ∧ Compacted k s t) ↔ slidesClear s k = true := by
  obtain ⟨t,ht⟩ := compact_runs (p := p) (k := k) hi ha
  have hp := (compact_returns hi ht).2
  rw [← hp.content_iff hi ha]
  constructor
  · rintro ⟨t',ht',hc⟩ id
    rw [ht] at ht'
    cases ht'
    rw [content_eq_map,content_eq_map,hc.bytes]
  · exact fun hb => ⟨t,ht,hp.compacted hi hb⟩

/-- Three files with a hole between the first two, in an arena of eight bytes. -/
def scattered : FileCache NodeTable ByteDriver :=
  { (empty ⟨fun _ => []⟩ 8 : FileCache NodeTable ByteDriver) with
    arena := [10,11,0,0,20,21,22,30]
    arenaPushOffset := 8
    currentMemoryUsed := 6
    files := insert (insert (insert FiniteMap.empty 1 (.new 0 2 1 .normal)) 2 (.new 4 3 2 .normal)) 3
      (.new 7 1 3 .normal) }

private theorem scattered_inArena : InArena scattered where
  length_lt := by decide
  stop_le {id f} hf := by
    have hall : ∀ e ∈ iter scattered.files, e.2.arenaOffset + e.2.len ≤ scattered.arena.length := by decide
    exact hall (id,f) ((FiniteMap.mem_iter ..).mpr hf)

private theorem scattered_apart : (arenaOf scattered).Apart := by
  have hall : ∀ e ∈ iter scattered.files, ∀ e' ∈ iter scattered.files, e.1 ≠ e'.1 → e.2.region.Apart e'.2.region := by
    decide
  intro i j r r' hij hr hr'
  obtain ⟨f,hf,rfl⟩ := arenaOf_region_eq_some hr
  obtain ⟨g,hg,rfl⟩ := arenaOf_region_eq_some hr'
  exact hall (i,f) ((FiniteMap.mem_iter ..).mpr hf) (j,g) ((FiniteMap.mem_iter ..).mpr hg) hij

/-- With file 3 last, every file moves towards the front. -/
theorem compact_preserves_scattered : ∃ t, compact .dev 3 scattered = .ok (.ok (),t) ∧ Compacted 3 scattered t :=
  (compact_preserves_iff scattered_inArena scattered_apart).mpr (by decide)

/-- With file 1 last, files 2 and 3 are slid over it before it is copied. -/
theorem compact_overwrites : InArena scattered ∧ (arenaOf scattered).Apart ∧
    ¬ ∃ t, compact .dev 1 scattered = .ok (.ok (),t) ∧ Compacted 1 scattered t := by
  refine ⟨scattered_inArena,scattered_apart,?_⟩
  rintro ⟨t,ht,hc⟩
  have hread : (compact .dev 1 scattered).toOption.map (fun x => (get x.2.files 1).map x.2.bytesOf) =
      some (some [20,21]) := by
    decide +kernel
  rw [ht] at hread
  have hbytes := hc.bytes 1
  have hlost : (get t.files 1).map t.bytesOf = some [20,21] := Option.some.inj hread
  rw [hlost] at hbytes
  exact absurd hbytes (by decide)

end MofuOS.Filesystem.FileCache
