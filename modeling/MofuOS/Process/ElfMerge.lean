import MofuOS.Process.ElfLoader
import Mathlib.Order.MinMax

/-! What the merging of load segments returns: a segment for each group of segments without a gap. -/
namespace MofuOS.Process
open Lib

variable {p : Profile} {segments rest seen : List LoadSegment} {s n c : LoadSegment} {a b x : Nat}

namespace LoadSegment

/-- The data are the file part. -/
def Filled (s : LoadSegment) : Prop := s.data.length = s.inFileSize

def Covers (s : LoadSegment) (x : Nat) : Prop := s.vaddr ≤ x ∧ x < s.memoryEnd

/-- What the segment wants at the address: a byte of its data, or zero behind them. -/
def byteAt (s : LoadSegment) (x : Nat) : UInt8 := (s.data[x - s.vaddr]?).getD 0

/-- What the merging of two segments comes to when no number wraps. -/
def joinNext (c n : LoadSegment) : LoadSegment where
  vaddr := c.vaddr
  inFileSize := max n.fileEnd c.fileEnd - c.vaddr
  inMemorySize := max n.memoryEnd c.memoryEnd - c.vaddr
  flags := c.flags ||| n.flags
  data := if n.inFileSize > 0 then splice c.data (n.vaddr - c.vaddr) n.data else c.data

theorem memoryEnd_joinNext (c n : LoadSegment) : (joinNext c n).memoryEnd = max n.memoryEnd c.memoryEnd := by
  simp only [joinNext,memoryEnd]
  omega

theorem fileEnd_joinNext (c n : LoadSegment) : (joinNext c n).fileEnd = max n.fileEnd c.fileEnd := by
  simp only [joinNext,fileEnd]
  omega

/-- The bytes of the next segment replace what was there. -/
theorem byteAt_joinNext (c n : LoadSegment) (hle : c.vaddr ≤ n.vaddr) (hn : n.Filled) (hx : c.vaddr ≤ x) :
    (joinNext c n).byteAt x = if n.vaddr ≤ x ∧ x < n.fileEnd then n.byteAt x else c.byteAt x := by
  rw [Filled] at hn
  rw [byteAt,joinNext]
  dsimp only
  by_cases hpos : n.inFileSize > 0
  · rw [if_pos hpos,getD_splice,hn]
    refine if_congr (by rw [fileEnd]; omega) ?_ rfl
    rw [byteAt,Nat.sub_sub_sub_cancel_right hle]
  · rw [if_neg hpos,if_neg (by rw [fileEnd]; omega),byteAt]

end LoadSegment

open LoadSegment

def joinLoop (c : LoadSegment) : List LoadSegment → List LoadSegment
  | [] => [c]
  | n :: rest => if n.vaddr ≤ c.memoryEnd then joinLoop (joinNext c n) rest else c :: joinLoop n rest

section Words

private theorem copyFromSlice_padded {data src : List UInt8} {o : Nat} :
    copyFromSlice (data ++ List.replicate (o + src.length - data.length) 0) o (o + src.length) src = .ok (splice data o src) := by
  have hlen : o + src.length ≤ (data ++ List.replicate (o + src.length - data.length) (0 : UInt8)).length := by
    rw [List.length_append,List.length_replicate]
    omega
  rw [copyFromSlice,if_pos ⟨by omega,hlen,by omega⟩]
  exact congrArg _ (overwrite_pad (by omega))

/-- In range, both profiles merge as numbers do. -/
theorem mergeNext_of_lt (hle : c.vaddr ≤ n.vaddr) (hn : n.Filled) (hnm : n.memoryEnd < usizeBound) (hnf : n.fileEnd < usizeBound)
    (hcf : c.fileEnd < usizeBound) : mergeNext p c n c.memoryEnd = .ok (joinNext c n) := by
  have hdata : mergeData p c n = .ok (joinNext c n).data := by
    unfold mergeData
    simp only [joinNext]
    split_ifs with hfile
    · have hsize : n.vaddr - c.vaddr + n.data.length < usizeBound := by
        rw [hn]
        exact Nat.lt_of_le_of_lt (by rw [fileEnd]; omega) hnf
      rw [usizeSub_of_le p hle,ok_bind,usizeAdd_of_lt p hsize,ok_bind]
      exact copyFromSlice_padded
    · rfl
  have hsize : mergeFileSize p c n = .ok (joinNext c n).inFileSize := by
    rw [mergeFileSize,usizeAdd_of_lt p hnf,ok_bind,usizeAdd_of_lt p hcf,ok_bind]
    simp only [joinNext,fileEnd]
    split_ifs with hgt
    · rw [usizeSub_of_le p (by omega)]
      exact congrArg _ (by omega)
    · exact congrArg _ (by omega)
  have hmem : c.vaddr ≤ max n.memoryEnd c.memoryEnd := by
    rw [memoryEnd,memoryEnd]
    omega
  rw [mergeNext,usizeAdd_of_lt p hnm,ok_bind]
  simp only [← memoryEnd.eq_def]
  rw [usizeSub_of_le p hmem,ok_bind,hdata,ok_bind,hsize,ok_bind]
  rfl

/-- With the overflow checks on, a merge that returns did so in range. -/
theorem mergeNext_dev {m : LoadSegment} (hle : c.vaddr ≤ n.vaddr) (hn : n.Filled)
    (h : mergeNext .dev c n c.memoryEnd = .ok m) :
    m = joinNext c n := by
  obtain ⟨nextEnd,hnext,h'⟩ := bind_eq_ok h
  obtain ⟨inMemorySize,-,h'⟩ := bind_eq_ok h'
  obtain ⟨data,-,h'⟩ := bind_eq_ok h'
  obtain ⟨inFileSize,hsize,-⟩ := bind_eq_ok h'
  obtain ⟨fileEnd,hfile,hsize⟩ := bind_eq_ok hsize
  obtain ⟨currFileEnd,hcurr,-⟩ := bind_eq_ok hsize
  have hall := mergeNext_of_lt (p := .dev) hle hn (usizeAdd_checked hnext rfl) (usizeAdd_checked hfile rfl) (usizeAdd_checked hcurr rfl)
  exact Except.ok.inj (h.symm.trans hall)

/-- Sorted behind the current segment, each with its data. -/
structure Behind (c : LoadSegment) (rest : List LoadSegment) : Prop where
  least : ∀ n ∈ rest, c.vaddr ≤ n.vaddr
  sorted : rest.Pairwise fun n n' => n.vaddr ≤ n'.vaddr
  filled : ∀ n ∈ rest, n.Filled

namespace Behind

theorem next (h : Behind c (n :: rest)) : Behind n rest :=
  ⟨(List.pairwise_cons.mp h.sorted).1,(List.pairwise_cons.mp h.sorted).2,fun m hm => h.filled m (List.mem_cons_of_mem _ hm)⟩

theorem join (h : Behind c (n :: rest)) : Behind (joinNext c n) rest :=
  ⟨fun m hm => h.least m (List.mem_cons_of_mem _ hm),h.next.sorted,h.next.filled⟩

end Behind

theorem mergeLoop_of_lt (h : Behind c rest) (hc : c.memoryEnd < usizeBound ∧ c.fileEnd < usizeBound)
    (hrest : ∀ n ∈ rest, n.memoryEnd < usizeBound ∧ n.fileEnd < usizeBound) : mergeLoop p c rest = .ok (joinLoop c rest) := by
  induction rest generalizing c with
  | nil => rfl
  | cons n rest ih =>
    obtain ⟨hn,hrest⟩ := List.forall_mem_cons.mp hrest
    rw [mergeLoop,usizeAdd_of_lt p hc.1,ok_bind,joinLoop]
    simp only [← memoryEnd.eq_def]
    split_ifs
    · rw [mergeNext_of_lt (h.least n List.mem_cons_self) (h.filled n List.mem_cons_self) hn.1 hn.2 hc.2,ok_bind]
      refine ih h.join ⟨?_,?_⟩ hrest
      · rw [memoryEnd_joinNext]
        exact max_lt hn.1 hc.1
      · rw [fileEnd_joinNext]
        exact max_lt hn.2 hc.2
    · rw [ih h.next hn hrest]
      rfl

theorem mergeLoop_dev {merged : List LoadSegment} (h : Behind c rest) (hok : mergeLoop .dev c rest = .ok merged) :
    merged = joinLoop c rest := by
  induction rest generalizing c merged with
  | nil => exact (Except.ok.inj hok).symm
  | cons n rest ih =>
    obtain ⟨currEnd,hend,hok⟩ := bind_eq_ok hok
    have hcurr : currEnd = c.memoryEnd := by
      rw [usizeAdd_of_lt .dev (usizeAdd_checked hend rfl)] at hend
      exact (Except.ok.inj hend).symm
    subst hcurr
    rw [joinLoop]
    split_ifs at hok ⊢
    · obtain ⟨m,hm,hok⟩ := bind_eq_ok hok
      rw [mergeNext_dev (h.least n List.mem_cons_self) (h.filled n List.mem_cons_self) hm] at hok
      exact ih h.join hok
    · obtain ⟨merged',hm,hok⟩ := bind_eq_ok hok
      cases hok
      rw [ih h.next hm]

end Words

/-- The segments do not overlap, and the file part of each lies in its memory. -/
structure Apart (segments : List LoadSegment) : Prop where
  disjoint : segments.Pairwise fun s s' => ∀ x, s.Covers x → ¬ s'.Covers x
  fits : ∀ s ∈ segments, s.inFileSize ≤ s.inMemorySize

/-- The merged segment wants the bytes that its segments want, and zero where there is none. -/
structure Holds (seen : List LoadSegment) (c : LoadSegment) : Prop where
  on : ∀ s ∈ seen, ∀ x, s.Covers x → c.byteAt x = s.byteAt x
  off : ∀ x, c.vaddr ≤ x → (∀ s ∈ seen, ¬ s.Covers x) → c.byteAt x = 0

/-- What the merging of the segments seen so far keeps. -/
structure Joins (seen : List LoadSegment) (c : LoadSegment) : Prop where
  least : ∀ s ∈ seen, c.vaddr ≤ s.vaddr
  memory : ∀ s ∈ seen, s.memoryEnd ≤ c.memoryEnd
  memoryReached : ∃ s ∈ seen, s.memoryEnd = c.memoryEnd
  covered : ∀ x, c.Covers x → ∃ s ∈ seen, s.Covers x
  file : ∀ s ∈ seen, s.fileEnd ≤ c.fileEnd
  fileReached : ∃ s ∈ seen, s.fileEnd = c.fileEnd
  data : ∀ s ∈ seen, 0 < s.inFileSize → s.fileEnd ≤ c.vaddr + c.data.length
  dataReached : c.data.length = 0 ∨ ∃ s ∈ seen, 0 < s.inFileSize ∧ s.fileEnd = c.vaddr + c.data.length
  holds : Apart seen → Holds seen c

section Joins

private theorem byteAt_eq_zero (hs : s.Filled) (hfits : s.inFileSize ≤ s.inMemorySize) (hle : s.vaddr ≤ x) (hx : ¬ s.Covers x) :
    s.byteAt x = 0 := by
  rw [Filled] at hs
  rw [LoadSegment.Covers,memoryEnd] at hx
  rw [byteAt,List.getElem?_eq_none (by omega)]
  rfl

private theorem Holds.next (h : Holds seen c) (hapart : Apart (seen ++ [n])) (hle : c.vaddr ≤ n.vaddr) (hleast : ∀ s ∈ seen, c.vaddr ≤ s.vaddr)
    (hn : n.Filled) : Holds (seen ++ [n]) (joinNext c n) := by
  have hfits := hapart.fits n (by simp)
  have hdisjoint : ∀ s ∈ seen, ∀ x, s.Covers x → ¬ n.Covers x := fun s hs =>
    (List.pairwise_append.mp hapart.disjoint).2.2 s hs n List.mem_cons_self
  have hfile : ∀ x, n.vaddr ≤ x ∧ x < n.fileEnd → n.Covers x := by
    rintro x ⟨hlo,hhi⟩
    refine ⟨hlo,?_⟩
    rw [fileEnd] at hhi
    rw [memoryEnd]
    omega
  refine ⟨fun s hs x hx => ?_,fun x hlo hx => ?_⟩
  · obtain hs | hs := List.mem_append.mp hs
    · rw [byteAt_joinNext c n hle hn ((hleast s hs).trans hx.1),if_neg fun hin => hdisjoint s hs x hx (hfile x hin),h.on s hs x hx]
    · rw [List.mem_singleton.mp hs] at hx ⊢
      rw [byteAt_joinNext c n hle hn (hle.trans hx.1)]
      split_ifs with hin
      · rfl
      · rw [h.off x (hle.trans hx.1) fun s hs hcov => hdisjoint s hs x hcov hx,byteAt,List.getElem?_eq_none]
        · rfl
        · have := hx.1
          rw [fileEnd] at hin
          rw [hn]
          omega
  · have hne : ¬ n.Covers x := hx n (by simp)
    rw [byteAt_joinNext c n hle hn hlo,if_neg fun hin => hne (hfile x hin)]
    exact h.off x hlo fun s hs => hx s (by simp [hs])

theorem joins_single (h : s.Filled) : Joins [s] s := by
  have hdata : s.fileEnd = s.vaddr + s.data.length := by rw [fileEnd,h]
  refine ⟨by simp,by simp,by simp,fun x hx => ⟨s,by simp,hx⟩,by simp,by simp,?_,?_,fun hapart => ?_⟩
  · intro r hr _
    rw [List.mem_singleton.mp hr,hdata]
  · rcases Nat.eq_zero_or_pos s.inFileSize with hzero | hpos
    · exact .inl (h.trans hzero)
    · exact .inr ⟨s,by simp,hpos,hdata⟩
  · refine ⟨by simp,fun x hle hx => byteAt_eq_zero h (hapart.fits s (by simp)) hle (hx s (by simp))⟩

theorem Joins.next (h : Joins seen c) (hle : c.vaddr ≤ n.vaddr) (htouch : n.vaddr ≤ c.memoryEnd) (hn : n.Filled) :
    Joins (seen ++ [n]) (joinNext c n) := by
  have hlength : 0 < n.inFileSize → (joinNext c n).vaddr + (joinNext c n).data.length = max n.fileEnd (c.vaddr + c.data.length) := by
    intro hpos
    simp only [joinNext,if_pos hpos,length_splice,fileEnd]
    rw [hn]
    omega
  have hsame : n.inFileSize = 0 → (joinNext c n).data = c.data := fun hzero => if_neg (by omega)
  refine ⟨?_,?_,?_,?_,?_,?_,?_,?_,?_⟩
  · rintro s hs
    obtain hs | hs := List.mem_append.mp hs
    · exact h.least s hs
    · exact List.mem_singleton.mp hs ▸ hle
  · intro s hs
    rw [memoryEnd_joinNext]
    obtain hs | hs := List.mem_append.mp hs
    · exact le_max_of_le_right (h.memory s hs)
    · exact List.mem_singleton.mp hs ▸ le_max_left _ _
  · rw [memoryEnd_joinNext]
    obtain ⟨s,hs,hreach⟩ := h.memoryReached
    rcases max_choice n.memoryEnd c.memoryEnd with hmax | hmax
    · exact ⟨n,by simp,hmax.symm⟩
    · exact ⟨s,by simp [hs],hreach.trans hmax.symm⟩
  · rintro x ⟨hlo,hhi⟩
    rw [memoryEnd_joinNext] at hhi
    by_cases hx : x < c.memoryEnd
    · obtain ⟨s,hs,hcov⟩ := h.covered x ⟨hlo,hx⟩
      exact ⟨s,by simp [hs],hcov⟩
    · exact ⟨n,by simp,by omega,by omega⟩
  · intro s hs
    rw [fileEnd_joinNext]
    obtain hs | hs := List.mem_append.mp hs
    · exact le_max_of_le_right (h.file s hs)
    · exact List.mem_singleton.mp hs ▸ le_max_left _ _
  · rw [fileEnd_joinNext]
    obtain ⟨s,hs,hreach⟩ := h.fileReached
    rcases max_choice n.fileEnd c.fileEnd with hmax | hmax
    · exact ⟨n,by simp,hmax.symm⟩
    · exact ⟨s,by simp [hs],hreach.trans hmax.symm⟩
  · intro s hs hpos
    rcases Nat.eq_zero_or_pos n.inFileSize with hzero | hn'
    · rw [hsame hzero]
      obtain hs | hs := List.mem_append.mp hs
      · exact h.data s hs hpos
      · rw [List.mem_singleton.mp hs] at hpos
        omega
    · rw [hlength hn']
      obtain hs | hs := List.mem_append.mp hs
      · exact le_max_of_le_right (h.data s hs hpos)
      · exact List.mem_singleton.mp hs ▸ le_max_left _ _
  · rcases Nat.eq_zero_or_pos n.inFileSize with hzero | hn'
    · rw [hsame hzero]
      exact h.dataReached.imp_right fun ⟨s,hs,hreach⟩ => ⟨s,by simp [hs],hreach⟩
    · right
      rw [hlength hn']
      rcases max_choice n.fileEnd (c.vaddr + c.data.length) with hmax | hmax
      · exact ⟨n,by simp,hn',hmax.symm⟩
      · rw [hmax]
        obtain hnone | ⟨s,hs,hpos,hreach⟩ := h.dataReached
        · refine ⟨n,by simp,hn',?_⟩
          rw [fileEnd] at *
          omega
        · exact ⟨s,by simp [hs],hpos,hreach⟩
  · intro hapart
    refine (h.holds ⟨(List.pairwise_append.mp hapart.disjoint).1,fun s hs => hapart.fits s (by simp [hs])⟩).next hapart hle
      h.least hn

end Joins

/-- The segments in their groups, each with what it is merged to. -/
structure Grouped (segments merged : List LoadSegment) (groups : List (List LoadSegment × LoadSegment)) : Prop where
  segments : (groups.map Prod.fst).flatten = segments
  merged : groups.map Prod.snd = merged
  joins : ∀ g ∈ groups, Joins g.1 g.2
  separate : groups.Pairwise fun g g' => g.2.memoryEnd < g'.2.vaddr

section Groups
variable {merged : List LoadSegment} {groups : List (List LoadSegment × LoadSegment)} {g : List LoadSegment × LoadSegment}

theorem joinLoop_grouped (hc : Joins seen c) (h : Behind c rest) :
    ∃ groups, Grouped (seen ++ rest) (joinLoop c rest) groups ∧ ∀ g ∈ groups, c.vaddr ≤ g.2.vaddr := by
  induction rest generalizing seen c with
  | nil => exact ⟨[(seen,c)],⟨by simp,rfl,by simpa using hc,List.pairwise_singleton _ _⟩,by simp⟩
  | cons n rest ih =>
    have hle := h.least n List.mem_cons_self
    have hn := h.filled n List.mem_cons_self
    rw [joinLoop]
    split_ifs with htouch
    · obtain ⟨groups,hgroups,hleast⟩ := ih (hc.next hle htouch hn) h.join
      rw [List.append_assoc] at hgroups
      exact ⟨groups,hgroups,hleast⟩
    · obtain ⟨groups,⟨hsegments,hmerged,hjoins,hseparate⟩,hleast⟩ := ih (joins_single hn) h.next
      refine ⟨(seen,c) :: groups,⟨?_,?_,?_,?_⟩,?_⟩
      · rw [List.map_cons,List.flatten_cons,hsegments]
        rfl
      · rw [List.map_cons,hmerged]
      · exact List.forall_mem_cons.mpr ⟨hc,hjoins⟩
      · exact List.pairwise_cons.mpr ⟨fun g hg => Nat.lt_of_lt_of_le (Nat.not_le.mp htouch) (hleast g hg),hseparate⟩
      · exact List.forall_mem_cons.mpr ⟨Nat.le_refl _,fun g hg => hle.trans (hleast g hg)⟩

/-- No address between the two is left out. -/
def Joined (segments : List LoadSegment) (a b : Nat) : Prop := ∀ x, min a b ≤ x → x < max a b → ∃ s ∈ segments, s.Covers x

namespace Grouped

theorem mem_segments (h : Grouped segments merged groups) : s ∈ segments ↔ ∃ g ∈ groups, s ∈ g.1 := by
  rw [← h.segments]
  simp

theorem mem_merged (h : Grouped segments merged groups) : c ∈ merged ↔ ∃ g ∈ groups, g.2 = c := by
  rw [← h.merged,List.mem_map]

private theorem apart (h : Grouped segments merged groups) :
    ∀ g ∈ groups, ∀ g' ∈ groups, g = g' ∨ g.2.memoryEnd < g'.2.vaddr ∨ g'.2.memoryEnd < g.2.vaddr := fun _ hg _ hg' =>
  List.Pairwise.forall_of_forall_of_flip (R := fun g g' => g = g' ∨ g.2.memoryEnd < g'.2.vaddr ∨ g'.2.memoryEnd < g.2.vaddr)
    (fun _ _ => .inl rfl) (h.separate.imp fun hlt => .inr (.inl hlt)) (h.separate.imp fun hlt => .inr (.inr hlt)) hg hg'

/-- The range of a group ends in a gap. -/
private theorem gap (h : Grouped segments merged groups) (hg : g ∈ groups) (hs : s ∈ segments) : ¬ s.Covers g.2.memoryEnd := by
  rintro ⟨hlo,hhi⟩
  obtain ⟨g',hg',hs⟩ := h.mem_segments.mp hs
  have hleast := (h.joins g' hg').least s hs
  have hmem := (h.joins g' hg').memory s hs
  have hend : g.2.vaddr ≤ g.2.memoryEnd := Nat.le_add_right _ _
  rcases h.apart g hg g' hg' with rfl | hlt | hlt
  all_goals omega

/-- Joined segments are in one group, and those of one group are joined. -/
theorem joined_iff (h : Grouped segments merged groups) (hg : g ∈ groups) (hs : s ∈ g.1) (hn : n ∈ segments) :
    Joined segments s.vaddr n.vaddr ↔ n ∈ g.1 := by
  have hjoins := h.joins g hg
  have hself : ∀ r : LoadSegment, r.vaddr ≤ r.memoryEnd := fun r => Nat.le_add_right _ _
  constructor
  · intro hjoined
    obtain ⟨g',hg',hn'⟩ := h.mem_segments.mp hn
    have hleast := hjoins.least s hs
    have hmem := hjoins.memory s hs
    have hleast' := (h.joins g' hg').least n hn'
    have hmem' := (h.joins g' hg').memory n hn'
    have hss := hself s
    have hsn := hself n
    rcases h.apart g hg g' hg' with rfl | hlt | hlt
    · exact hn'
    · obtain ⟨r,hr,hcov⟩ := hjoined g.2.memoryEnd (by omega) (by omega)
      exact absurd hcov (h.gap hg hr)
    · obtain ⟨r,hr,hcov⟩ := hjoined g'.2.memoryEnd (by omega) (by omega)
      exact absurd hcov (h.gap hg' hr)
  · intro hn' x hlo hhi
    have hs1 := hjoins.least s hs
    have hs2 := hjoins.memory s hs
    have hn1 := hjoins.least n hn'
    have hn2 := hjoins.memory n hn'
    have hss := hself s
    have hsn := hself n
    obtain ⟨r,hr,hcov⟩ := hjoins.covered x ⟨by omega,by omega⟩
    exact ⟨r,h.mem_segments.mpr ⟨g,hg,hr⟩,hcov⟩

end Grouped

/-- Where no file part is, a segment begins no later than the file part of a segment joined to it ends, unless
no segment reaches it from the front. -/
def FilesReach (segments : List LoadSegment) : Prop :=
  ∀ s ∈ segments, s.inFileSize = 0 → (∃ r ∈ segments, r.vaddr < s.vaddr ∧ s.vaddr ≤ r.memoryEnd) →
    ∃ n ∈ segments, 0 < n.inFileSize ∧ s.vaddr ≤ n.fileEnd ∧ Joined segments s.vaddr n.vaddr

/-- The file part of every segment lies in the memory of the segments joined to it. -/
def FilesFit (segments : List LoadSegment) : Prop :=
  ∀ s ∈ segments, ∃ n ∈ segments, s.fileEnd ≤ n.memoryEnd ∧ Joined segments s.vaddr n.vaddr

namespace Grouped

private theorem data_le (h : Joins seen c) : c.vaddr + c.data.length ≤ c.fileEnd := by
  obtain hzero | ⟨s,hs,-,hreach⟩ := h.dataReached
  · rw [hzero,fileEnd]
    omega
  · exact hreach ▸ h.file s hs

/-- The data of a merged segment reach as far as its file part exactly when no segment without a file part
begins behind them. -/
private theorem filled_iff (h : Joins seen c) : c.Filled ↔ ∀ s ∈ seen, s.inFileSize = 0 → s.vaddr ≤ c.vaddr + c.data.length := by
  constructor
  · intro hfilled s hs hzero
    have := h.file s hs
    rw [fileEnd,hzero,fileEnd,← hfilled] at this
    exact this
  · intro hall
    have hle := data_le h
    obtain ⟨s,hs,hreach⟩ := h.fileReached
    have hge : c.fileEnd ≤ c.vaddr + c.data.length := by
      rw [← hreach]
      rcases Nat.eq_zero_or_pos s.inFileSize with hzero | hpos
      · rw [fileEnd,hzero]
        exact hall s hs hzero
      · exact h.data s hs hpos
    rw [fileEnd] at hle hge
    exact Nat.add_left_cancel (Nat.le_antisymm hle hge)

theorem filled_iff_filesReach (h : Grouped segments merged groups) : (∀ m ∈ merged, m.Filled) ↔ FilesReach segments := by
  constructor
  · rintro hfilled s hs hzero ⟨r,hr,hlt,hreach⟩
    obtain ⟨g,hg,hsg⟩ := h.mem_segments.mp hs
    have hjoins := h.joins g hg
    have hle := (filled_iff hjoins).mp (hfilled g.2 (h.mem_merged.mpr ⟨g,hg,rfl⟩)) s hsg hzero
    -- a segment that reaches s from the front is in its group
    have hrg : r ∈ g.1 := (h.joined_iff hg hsg hr).mp fun x hlo hhi => ⟨r,hr,by omega,by omega⟩
    have hrv := hjoins.least r hrg
    obtain hnone | ⟨n,hn,hpos,hend⟩ := hjoins.dataReached
    · omega
    · have hns := h.mem_segments.mpr ⟨g,hg,hn⟩
      exact ⟨n,hns,hpos,hend ▸ hle,(h.joined_iff hg hsg hns).mpr hn⟩
  · intro hreach m hm
    obtain ⟨g,hg,rfl⟩ := h.mem_merged.mp hm
    have hjoins := h.joins g hg
    refine (filled_iff hjoins).mpr fun s hs hzero => ?_
    have hsm := h.mem_segments.mpr ⟨g,hg,hs⟩
    have hse := hjoins.memory s hs
    have hself : s.vaddr ≤ s.memoryEnd := Nat.le_add_right _ _
    obtain hlt | heq := Nat.lt_or_eq_of_le (hjoins.least s hs)
    · obtain ⟨r,hr,hrlo,hrhi⟩ := hjoins.covered (s.vaddr - 1) ⟨by omega,by omega⟩
      obtain ⟨n,hn,hpos,hle,hjoined⟩ := hreach s hsm hzero ⟨r,h.mem_segments.mpr ⟨g,hg,hr⟩,by omega,by omega⟩
      exact hle.trans (hjoins.data n ((h.joined_iff hg hs hn).mp hjoined) hpos)
    · omega

theorem fits_iff_filesFit (h : Grouped segments merged groups) :
    (∀ m ∈ merged, m.inFileSize ≤ m.inMemorySize) ↔ FilesFit segments := by
  have hfits : ∀ m : LoadSegment, m.inFileSize ≤ m.inMemorySize ↔ m.fileEnd ≤ m.memoryEnd := by
    intro m
    rw [fileEnd,memoryEnd]
    omega
  constructor
  · intro hle s hs
    obtain ⟨g,hg,hsg⟩ := h.mem_segments.mp hs
    obtain ⟨n,hn,hreach⟩ := (h.joins g hg).memoryReached
    have hns := h.mem_segments.mpr ⟨g,hg,hn⟩
    refine ⟨n,hns,?_,(h.joined_iff hg hsg hns).mpr hn⟩
    rw [hreach]
    exact ((h.joins g hg).file s hsg).trans ((hfits g.2).mp (hle g.2 (h.mem_merged.mpr ⟨g,hg,rfl⟩)))
  · intro hfit m hm
    obtain ⟨g,hg,rfl⟩ := h.mem_merged.mp hm
    obtain ⟨s,hs,hreach⟩ := (h.joins g hg).fileReached
    obtain ⟨n,hn,hle,hjoined⟩ := hfit s (h.mem_segments.mpr ⟨g,hg,hs⟩)
    rw [hfits,← hreach]
    exact hle.trans ((h.joins g hg).memory n ((h.joined_iff hg hs hn).mp hjoined))

end Grouped

theorem mem_sortByVaddr : s ∈ sortByVaddr segments ↔ s ∈ segments := List.mem_insertionSort _

private theorem sorted_sortByVaddr (segments : List LoadSegment) :
    (sortByVaddr segments).Pairwise fun a b => a.vaddr ≤ b.vaddr := by
  have : Std.Total fun a b : LoadSegment => a.vaddr ≤ b.vaddr := ⟨fun a b => Nat.le_total a.vaddr b.vaddr⟩
  have : IsTrans LoadSegment fun a b => a.vaddr ≤ b.vaddr := ⟨fun _ _ _ => Nat.le_trans⟩
  exact List.pairwise_insertionSort _ _

/-- The merging in numbers, which both profiles follow while the ends are in range, and which any merging
with overflow checks that returns has followed. -/
theorem mergeSegments_grouped (hne : segments ≠ []) (hfilled : ∀ s ∈ segments, s.Filled) :
    ∃ merged groups, Grouped (sortByVaddr segments) merged groups ∧
      ((∀ s ∈ segments, s.memoryEnd < usizeBound ∧ s.fileEnd < usizeBound) → ∀ p, mergeSegments p segments = .ok merged) ∧
      ∀ merged', mergeSegments .dev segments = .ok merged' → merged' = merged := by
  have hmem : ∀ s, s ∈ sortByVaddr segments ↔ s ∈ segments := fun s => mem_sortByVaddr
  have hsorted := sorted_sortByVaddr segments
  simp only [mergeSegments]
  generalize sortByVaddr segments = sorted at *
  cases sorted with
  | nil =>
    obtain ⟨s,hs⟩ := List.exists_mem_of_ne_nil segments hne
    cases (hmem s).mpr hs
  | cons c rest =>
    obtain ⟨hleast,hsorted⟩ := List.pairwise_cons.mp hsorted
    have hbehind : Behind c rest := ⟨hleast,hsorted,fun n hn => hfilled n ((hmem n).mp (List.mem_cons_of_mem _ hn))⟩
    obtain ⟨groups,hgroups,-⟩ := joinLoop_grouped (joins_single (hfilled c ((hmem c).mp List.mem_cons_self))) hbehind
    refine ⟨joinLoop c rest,groups,hgroups,fun hrange p => ?_,fun merged' => mergeLoop_dev hbehind⟩
    exact mergeLoop_of_lt hbehind (hrange c ((hmem c).mp List.mem_cons_self)) fun n hn =>
      hrange n ((hmem n).mp (List.mem_cons_of_mem _ hn))

theorem joined_sortByVaddr : Joined (sortByVaddr segments) a b ↔ Joined segments a b := by
  simp only [Joined,mem_sortByVaddr]

theorem filesReach_sortByVaddr : FilesReach (sortByVaddr segments) ↔ FilesReach segments := by
  simp only [FilesReach,mem_sortByVaddr,joined_sortByVaddr]

theorem filesFit_sortByVaddr : FilesFit (sortByVaddr segments) ↔ FilesFit segments := by
  simp only [FilesFit,mem_sortByVaddr,joined_sortByVaddr]

end Groups
end MofuOS.Process
