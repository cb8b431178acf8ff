import MofuOS.Process.CreateWithElf
import MofuOS.Process.ElfMerge
import MofuOS.Process.RegionMirror

/-! What the pages of a new process hold. -/
namespace MofuOS.Memory.UserMemory
open Lib
variable {F : Type} {s t u : UserMemory F} {page x n : Nat} {flags : PageTableFlags} {b : UInt8}

/-- The byte that a user address reads. -/
def readByte (s : UserMemory F) (x : Nat) : Option UInt8 :=
  (s.leaves (x / pageSize)).map fun entry => s.bytes entry.frame (x % pageSize)

/-- Each page has a frame of its own, and no frame is free twice. -/
structure Sole (s : UserMemory F) : Prop where
  intact : s.Intact
  own : ∀ page page' entry entry', s.leaves page = some entry → s.leaves page' = some entry' → entry.frame = entry'.frame →
    page = page'
  held : ∀ page entry, s.leaves page = some entry → entry.frame ∉ s.available
  nodup : s.available.Nodup

/-- Reads that were possible read the same. -/
def Keeps (s t : UserMemory F) : Prop := ∀ x b, s.readByte x = some b → t.readByte x = some b

theorem keeps_of_frames (h : ∀ page entry, s.leaves page = some entry →
    ∃ entry', t.leaves page = some entry' ∧ entry'.frame = entry.frame ∧ t.bytes entry.frame = s.bytes entry.frame) : s.Keeps t := by
  intro x b hx
  obtain ⟨entry,hentry,rfl⟩ := Option.map_eq_some_iff.mp hx
  obtain ⟨entry',hentry',hframe,hbytes⟩ := h _ entry hentry
  rw [readByte,hentry',Option.map_some,hframe,hbytes]

theorem Sole.of_update (h : s.Sole) (ht : t.Intact) (hle : t.available ≤ s.available) {entry : PageTableEntry F}
    (hleaves : t.leaves = Function.update s.leaves page (some entry)) (hfree : entry.frame ∉ t.available)
    (hnew : ∀ p e, s.leaves p = some e → e.frame = entry.frame → p = page) : t.Sole := by
  have hcases : ∀ p e, t.leaves p = some e → p = page ∧ e = entry ∨ s.leaves p = some e := by
    intro p e hp
    rw [hleaves,Function.update_apply] at hp
    split_ifs at hp with hpage
    · exact .inl ⟨hpage,(Option.some.inj hp).symm⟩
    · exact .inr hp
  refine ⟨ht,fun p p' e e' hp hp' heq => ?_,fun p e hp => ?_,Multiset.nodup_of_le hle h.nodup⟩
  · obtain ⟨rfl,rfl⟩ | hp := hcases p e hp
    · obtain ⟨rfl,rfl⟩ | hp' := hcases p' e' hp'
      · rfl
      · exact (hnew p' e' hp' heq.symm).symm
    · obtain ⟨rfl,rfl⟩ | hp' := hcases p' e' hp'
      · exact hnew p e hp heq
      · exact h.own p p' e e' hp hp' heq
  · obtain ⟨rfl,rfl⟩ | hp := hcases p e hp
    · exact hfree
    · exact fun hf => h.held p e hp (Multiset.mem_of_le hle hf)

section Map
variable [DecidableEq F] [Mapper F]

theorem mapNewPage_sole (h : s.Sole) (hflags : flags.present) (hok : (s.mapNewPage page flags).1 = true) :
    (s.mapNewPage page flags).2.Sole ∧ s.Keeps (s.mapNewPage page flags).2 := by
  have hintact := mapNewPage_keeps page h.intact hflags
  obtain ⟨new,-,⟨hr,-⟩ | ⟨existing,hex,-,htook,-,hleaves,-⟩ | ⟨frame,hpage,-,htook,hleaves,-,-⟩⟩ := mapNewPage_cases page flags s
  · rw [hok] at hr
    cases hr
  · refine ⟨h.of_update hintact htook.le_available hleaves ?_ ?_,keeps_of_frames fun p e hp => ?_⟩
    · exact fun hf => h.held page existing hex (Multiset.mem_of_le htook.le_available hf)
    · exact fun p e hp heq => h.own p page e existing hp hex heq
    · have hbytes := htook.bytes e.frame (h.held p e hp)
      rw [hleaves,Function.update_apply]
      split_ifs with heq
      · subst heq
        cases hex.symm.trans hp
        exact ⟨_,rfl,rfl,hbytes⟩
      · exact ⟨e,hp,rfl,hbytes⟩
  · have hnodup := htook.available ▸ h.nodup
    have hmem : frame ∈ s.available := by
      rw [htook.available]
      simp
    refine ⟨h.of_update hintact htook.le_available hleaves ?_ ?_,keeps_of_frames fun p e hp => ⟨e,?_,rfl,htook.bytes e.frame (h.held p e hp)⟩⟩
    · exact fun hf => (Multiset.disjoint_left.mp (Multiset.nodup_add.mp hnodup).2.2) (by simp) hf
    · exact fun p e hp heq => absurd (heq ▸ hmem) (h.held p e hp)
    · rw [hleaves,Function.update_of_ne fun heq => ?_]
      · exact hp
      · rw [heq,hpage] at hp
        cases hp

theorem Rounds.sole {first : Nat} (hr : Rounds flags first n s t) (h : s.Sole) (hflags : flags.present) : t.Sole ∧ s.Keeps t := by
  induction hr with
  | nil => exact ⟨h,fun _ _ hx => hx⟩
  | cons hfirst _ ih =>
    obtain ⟨hone,hkeeps⟩ := mapNewPage_sole h hflags hfirst
    obtain ⟨hrest,hkeeps'⟩ := ih hone
    exact ⟨hrest,fun x b hx => hkeeps' x b (hkeeps x b hx)⟩

omit [Mapper F] in
/-- A row of bytes written into a page. -/
theorem readByte_writeFrame (h : s.Sole) {entry : PageTableEntry F} (hpage : s.leaves page = some entry) (offset : Nat)
    (data : List UInt8) (hfits : offset + data.length ≤ pageSize) (x : Nat) :
    (Process.writeFrame entry.frame offset data s).readByte x =
      if page * pageSize + offset ≤ x ∧ x < page * pageSize + offset + data.length then data[x - (page * pageSize + offset)]?
      else s.readByte x := by
  have hx := Nat.div_add_mod x pageSize
  have hlt := Nat.mod_lt x (show 0 < pageSize by decide)
  unfold readByte Process.writeFrame
  dsimp only
  cases hentry : s.leaves (x / pageSize) with
  | none =>
    have hne : x / pageSize ≠ page := fun heq => by rw [heq,hpage] at hentry; cases hentry
    rw [if_neg fun hin => hne ?_]
    · rfl
    · simp only [pageSize] at *
      omega
  | some e =>
    rw [Option.map_some,Option.map_some,Function.update_apply]
    by_cases hframe : e.frame = entry.frame
    · have heq := h.own _ _ e entry hentry hpage hframe
      rw [if_pos hframe]
      by_cases hin : page * pageSize + offset ≤ x ∧ x < page * pageSize + offset + data.length
      · have hsub : x % pageSize - offset = x - (page * pageSize + offset) := by
          simp only [pageSize] at *
          omega
        have hi : x - (page * pageSize + offset) < data.length := by omega
        rw [if_pos hin,if_pos (by simp only [pageSize] at *; omega),hsub,List.getElem?_eq_getElem hi,Option.getD_some]
      · rw [if_neg hin,hframe]
        split_ifs with hoff
        · rw [List.getElem?_eq_none (by simp only [pageSize] at *; omega),Option.getD_none]
        · rfl
    · rw [if_neg hframe,if_neg fun hin => hframe ?_]
      have heq : x / pageSize = page := by
        simp only [pageSize] at *
        omega
      rw [heq,hpage] at hentry
      cases hentry
      rfl

end Map
end MofuOS.Memory.UserMemory

namespace MofuOS.Process
open Memory Lib LoadSegment
variable {F : Type} [DecidableEq F] {s t : UserMemory F} {size done rounds virtAddr : Nat} {segment : LoadSegment}
  {source : Nat → Nat → Outcome (List UInt8)} {f : Nat → UInt8}

section Loops

theorem sole_writeFrame (h : s.Sole) (frame : F) (offset : Nat) (data : List UInt8) : (writeFrame frame offset data s).Sole :=
  ⟨⟨h.intact.present,h.intact.tabled⟩,h.own,h.held,h.nodup⟩

/-- The loop fills the range with what its source yields, and nothing else. -/
theorem fillPages_spec (h : s.Sole) (done : Nat)
    (hsource : ∀ done n, done + n ≤ size → source done n = .ok ((List.range' done n).map f))
    (hmapped : ∀ x, virtAddr ≤ x → x < virtAddr + size → s.leaves (x / pageSize) ≠ none) (hrounds : size ≤ done + rounds) :
    ∃ t, fillPages virtAddr size source rounds done s = .ok t ∧ t.Sole ∧ t.leaves = s.leaves ∧
      ∀ x, t.readByte x = if virtAddr + done ≤ x ∧ x < virtAddr + size then some (f (x - virtAddr)) else s.readByte x := by
  induction rounds generalizing s done with
  | zero => exact ⟨s,rfl,h,rfl,fun x => (if_neg (by omega)).symm⟩
  | succ rounds ih =>
    by_cases hdone : done < size
    · obtain ⟨entry,hentry⟩ := Option.ne_none_iff_exists'.mp (hmapped (virtAddr + done) (by omega) (by omega))
      have htranslate : translateUserVirtToPhys (virtAddr + done) s = .ok (entry.frame,(virtAddr + done) % pageSize) := by
        rw [translateUserVirtToPhys,hentry,Option.filter_some,if_pos (h.intact.present _ entry hentry)]
      have hoffset := Nat.mod_lt (virtAddr + done) (show 0 < pageSize by decide)
      have hpage := Nat.div_add_mod' (virtAddr + done) pageSize
      rw [fillPages,if_pos hdone,htranslate,ok_bind]
      dsimp only
      generalize hn : min (pageSize - (virtAddr + done) % pageSize) (size - done) = n
      rw [hsource done n (by omega),ok_bind]
      have hwrite := UserMemory.readByte_writeFrame h hentry ((virtAddr + done) % pageSize) ((List.range' done n).map f) (by rw [List.length_map,List.length_range']; omega)
      obtain ⟨t,ht,hsole,hleaves,hread⟩ := ih (sole_writeFrame h entry.frame ((virtAddr + done) % pageSize)
        ((List.range' done n).map f)) (done + n) hmapped (by simp only [pageSize] at *; omega)
      refine ⟨t,ht,hsole,hleaves,fun x => ?_⟩
      rw [hread,hwrite,List.length_map,List.length_range']
      by_cases hlater : virtAddr + (done + n) ≤ x ∧ x < virtAddr + size
      · rw [if_pos hlater,if_pos (by omega)]
      · rw [if_neg hlater]
        by_cases hnow : virtAddr + done ≤ x ∧ x < virtAddr + size
        · rw [if_pos hnow,if_pos (by omega),List.getElem?_map,List.getElem?_range']
          · rw [Option.map_some]
            congr 2
            omega
          · omega
        · rw [if_neg hnow,if_neg (by omega)]
    · rw [fillPages,if_neg hdone]
      exact ⟨s,rfl,h,rfl,fun x => (if_neg (by omega)).symm⟩

theorem readData_eq {data : List UInt8} {n : Nat} (h : done + n ≤ data.length) :
    readData data done n = .ok ((List.range' done n).map fun i => (data[i]?).getD 0) := by
  rw [readData,if_pos h]
  refine congrArg _ (List.ext_getElem? fun i => ?_)
  rw [getElem?_slice,List.getElem?_map]
  by_cases hi : i < n
  · rw [if_pos hi,List.getElem?_range' hi,List.getElem?_eq_getElem (by omega),Option.map_some,Nat.one_mul,
      List.getElem?_eq_getElem (by omega)]
    rfl
  · rw [if_neg hi,List.getElem?_eq_none (by rw [List.length_range']; omega)]
    rfl

theorem zeros_eq (done n : Nat) : zeros done n = .ok ((List.range' done n).map fun _ => 0) := by
  rw [zeros,List.map_const',List.length_range']

theorem copyFileData_spec (h : s.Sole) (hfilled : segment.Filled)
    (hmapped : ∀ x, segment.vaddr ≤ x → x < segment.fileEnd → s.leaves (x / pageSize) ≠ none) :
    ∃ t, copyFileData segment s = .ok t ∧ t.Sole ∧ t.leaves = s.leaves ∧ ∀ x, t.readByte x =
      if segment.vaddr ≤ x ∧ x < segment.fileEnd then some (segment.byteAt x) else s.readByte x :=
  fillPages_spec h 0 (fun _ _ hle => readData_eq (hle.trans_eq hfilled.symm)) hmapped (by omega)

theorem zeroBss_spec (h : s.Sole) (hmapped : ∀ x, segment.fileEnd ≤ x → x < segment.memoryEnd → s.leaves (x / pageSize) ≠ none) :
    ∃ t, zeroBss segment s = .ok t ∧ t.Sole ∧ t.leaves = s.leaves ∧ ∀ x, t.readByte x =
      if segment.fileEnd ≤ x ∧ x < segment.memoryEnd then some 0 else s.readByte x := by
  unfold zeroBss
  split_ifs with hbss
  · have hend : segment.fileEnd + (segment.inMemorySize - segment.inFileSize) = segment.memoryEnd := by
      rw [fileEnd,memoryEnd]
      omega
    obtain ⟨t,ht,hsole,hleaves,hread⟩ := fillPages_spec (f := fun _ => 0) h 0 (fun done n _ => zeros_eq done n)
      (fun x hlo hhi => hmapped x hlo (hend ▸ hhi)) (Nat.le_add_left (segment.inMemorySize - segment.inFileSize) 0)
    refine ⟨t,ht,hsole,hleaves,fun x => (hread x).trans (if_congr ?_ rfl rfl)⟩
    rw [← hend,Nat.add_zero,fileEnd]
  · refine ⟨s,rfl,h,rfl,fun x => (if_neg ?_).symm⟩
    rw [fileEnd,memoryEnd]
    omega

end Loops

section Segments
variable [Mapper F] {s t : AddressSpace F} {segments : List LoadSegment}

theorem mapOwnedRegion_sole {start : Nat} {pageFlags : PageTableFlags} (h : s.memory.Sole) (hflags : pageFlags.present)
    (hok : (s.mapOwnedRegion start size pageFlags).1 = true) :
    (s.mapOwnedRegion start size pageFlags).2.memory.Sole ∧
      s.memory.Keeps (s.mapOwnedRegion start size pageFlags).2.memory := by
  unfold AddressSpace.mapOwnedRegion at hok ⊢
  split_ifs at hok ⊢
  · exact ⟨h,fun _ _ hx => hx⟩
  · obtain ⟨j,t,hrounds,⟨rfl,hres⟩ | ⟨-,-,hres⟩⟩ :=
      UserMemory.mapPages_cases (start / pageSize) pageFlags (start / pageSize) (UserMemory.pageCount start size) s.memory <;>
      rw [UserMemory.mapVirtMemRegion,hres] at hok ⊢
    · exact hrounds.sole h hflags
    · cases hok

/-- A segment that can be mapped is loaded as it wants to be, and what was loaded before stays. -/
theorem loadSegment_spec (h : s.memory.Sole) (hfilled : segment.Filled) (hfits : segment.inFileSize ≤ segment.inMemorySize)
    (haddr : segment.Addressable) :
    (∃ memory, loadSegment segment s = .ok (.error memory)) ∨ ∃ t, loadSegment segment s = .ok (.ok t) ∧ t.memory.Sole ∧
      (∀ x, segment.Covers x → t.memory.readByte x = some (segment.byteAt x)) ∧
      ∀ x b, ¬ segment.Covers x → s.memory.readByte x = some b → t.memory.readByte x = some b := by
  cases hmap : s.mapOwnedRegion segment.vaddr segment.inMemorySize (segmentFlags segment.flags) with
  | mk ok u =>
    rw [loadSegment_of_addressable haddr,hmap]
    cases ok with
    | false => exact .inl ⟨_,rfl⟩
    | true =>
      right
      obtain ⟨hsole,hkeeps⟩ := mapOwnedRegion_sole h (show (segmentFlags segment.flags).present from rfl) (congrArg Prod.fst hmap)
      rw [hmap] at hsole hkeeps
      have hmapped : ∀ x, segment.Covers x → u.memory.leaves (x / pageSize) ≠ none := by
        rintro x ⟨hlo,hhi⟩
        have hspec := AddressSpace.mapOwnedRegion_spec (congrArg Prod.fst hmap) (by rw [memoryEnd] at hhi; omega)
        rw [hmap] at hspec
        refine (hspec.2 _).mpr (.inr ?_)
        rw [memoryEnd] at hhi
        simp only [Touches,pageSize]
        omega
      have hbounds : segment.vaddr ≤ segment.fileEnd ∧ segment.fileEnd ≤ segment.memoryEnd := by
        rw [fileEnd,memoryEnd]
        omega
      obtain ⟨v,hv,hvsole,hvleaves,hvread⟩ := copyFileData_spec hsole hfilled fun x hlo hhi => hmapped x ⟨hlo,by omega⟩
      obtain ⟨w,hw,hwsole,-,hwread⟩ := zeroBss_spec hvsole fun x hlo hhi => hvleaves ▸ hmapped x ⟨by omega,hhi⟩
      refine ⟨{ u with memory := w },?_,hwsole,fun x hx => ?_,fun x b hx hb => ?_⟩
      · dsimp only
        rw [hv,ok_bind,hw,ok_bind]
      · obtain ⟨hlo,hhi⟩ := hx
        rw [hwread,hvread]
        split_ifs with hbss hfile
        · rw [byteAt,List.getElem?_eq_none]
          · rfl
          · rw [hfilled]
            rw [fileEnd] at hbss
            omega
        · rfl
        · omega
      · rw [LoadSegment.Covers] at hx
        rw [hwread,if_neg (by omega),hvread,if_neg (by omega)]
        exact hkeeps x b hb

/-- The segments of a list that overlap nowhere. -/
theorem loadSegments_spec (h : s.memory.Sole) (hfilled : ∀ m ∈ segments, m.Filled) (hapart : Apart segments)
    (haddr : ∀ m ∈ segments, m.Addressable) :
    (∃ memory, loadSegments segments s = .ok (.error memory)) ∨ ∃ t, loadSegments segments s = .ok (.ok t) ∧ t.memory.Sole ∧
      (∀ m ∈ segments, ∀ x, m.Covers x → t.memory.readByte x = some (m.byteAt x)) ∧
      ∀ x b, (∀ m ∈ segments, ¬ m.Covers x) → s.memory.readByte x = some b → t.memory.readByte x = some b := by
  induction segments generalizing s with
  | nil => exact .inr ⟨s,rfl,h,nofun,fun _ _ _ hb => hb⟩
  | cons m segments ih =>
    obtain ⟨hfm,hfilled⟩ := List.forall_mem_cons.mp hfilled
    obtain ⟨hdm,hdisjoint⟩ := List.pairwise_cons.mp hapart.disjoint
    obtain ⟨hm,hfits⟩ := List.forall_mem_cons.mp hapart.fits
    obtain ⟨ham,haddr⟩ := List.forall_mem_cons.mp haddr
    rw [loadSegments]
    obtain ⟨memory,hload⟩ | ⟨u,hload,husole,hon,hoff⟩ := loadSegment_spec h hfm hm ham
    · rw [hload,ok_bind]
      exact .inl ⟨memory,rfl⟩
    · rw [hload,ok_bind]
      obtain ⟨memory,hrest⟩ | ⟨t,hrest,htsole,hon',hoff'⟩ := ih husole hfilled ⟨hdisjoint,hfits⟩ haddr
      · exact .inl ⟨memory,hrest⟩
      · refine .inr ⟨t,hrest,htsole,List.forall_mem_cons.mpr ⟨fun x hx => ?_,hon'⟩,fun x b hx hb => ?_⟩
        · exact hoff' x _ (fun m' hm' hcov => hdm m' hm' x hx hcov) (hon x hx)
        · obtain ⟨hxm,hx⟩ := List.forall_mem_cons.mp hx
          exact hoff' x b hx (hoff x b hxm hb)

end Segments

section Image
variable {segments merged : List LoadSegment} {groups : List (List LoadSegment × LoadSegment)}

theorem LoadSegment.Addressable.memoryEnd_lt (h : segment.Addressable) : segment.memoryEnd < 0x0000_8000_0000_0000 := by
  obtain ⟨hstart,hstop⟩ := h
  rw [memoryEnd,userStackTop] at *
  omega

/-- What is merged stays in the lower half if its segments do. -/
theorem Grouped.addressable_iff (h : Grouped segments merged groups) :
    (∀ m ∈ merged, m.Addressable) ↔ ∀ s ∈ segments, s.Addressable := by
  constructor
  · intro hall s hs
    obtain ⟨g,hg,hsg⟩ := h.mem_segments.mp hs
    have hleast := (h.joins g hg).least s hsg
    have hmemory := (h.joins g hg).memory s hsg
    obtain ⟨hstart,hstop⟩ := hall g.2 (h.mem_merged.mpr ⟨g,hg,rfl⟩)
    rw [memoryEnd,memoryEnd] at hmemory
    rw [memoryEnd,userStackTop] at hstop
    refine ⟨by omega,?_⟩
    rw [memoryEnd,userStackTop]
    omega
  · intro hall m hm
    obtain ⟨g,hg,rfl⟩ := h.mem_merged.mp hm
    have hjoins := h.joins g hg
    have hall : ∀ s ∈ g.1, s.Addressable := fun s hs => hall s (h.mem_segments.mpr ⟨g,hg,hs⟩)
    obtain ⟨s,hs,-⟩ := hjoins.memoryReached
    refine ⟨Nat.lt_of_le_of_lt (hjoins.least s hs) (hall s hs).start,or_iff_not_imp_left.mpr fun hsize => ?_⟩
    -- a segment that is not empty reaches as far
    have hend : g.2.memoryEnd = g.2.vaddr + g.2.inMemorySize := rfl
    obtain ⟨r,hr,hlo,hhi⟩ := hjoins.covered (g.2.memoryEnd - 1) ⟨by omega,by omega⟩
    have hrend : r.memoryEnd = r.vaddr + r.inMemorySize := rfl
    have hstop := (hall r hr).stop.resolve_left (by omega)
    omega

variable [Mapper F]

/-- The merged segments lie apart without touching, in order, with their data and nothing else, and a new
address space that has room for them holds what each of the segments wants. -/
structure ExactImage (F : Type) [DecidableEq F] [Mapper F] (segments merged : List LoadSegment) : Prop where
  separate : merged.Pairwise fun m m' => m.memoryEnd < m'.vaddr
  filled : ∀ m ∈ merged, m.data.length = m.inFileSize
  fits : ∀ m ∈ merged, m.inFileSize ≤ m.inMemorySize
  contents : ∀ (topPageTablePhys : F) (memory : UserMemory F), memory.available.Nodup →
    ∃ r, loadSegments merged (.withPageTable topPageTablePhys memory) = .ok r ∧ ∀ t, r = .ok t → ∀ s ∈ segments, ∀ x, s.Covers x →
      t.memory.readByte x = if x < s.fileEnd then s.data[x - s.vaddr]? else some 0

private theorem apart_merged (h : Grouped segments merged groups) (hfits : ∀ m ∈ merged, m.inFileSize ≤ m.inMemorySize) :
    Apart merged := by
  refine ⟨?_,hfits⟩
  rw [← h.merged]
  refine List.pairwise_map.mpr (h.separate.imp fun hlt x hx hx' => ?_)
  obtain ⟨-,hhi⟩ := hx
  obtain ⟨hlo,-⟩ := hx'
  omega

private theorem wanted_eq (s : LoadSegment) (hs : s.Filled) {x : Nat} (hx : s.Covers x) :
    some (s.byteAt x) = if x < s.fileEnd then s.data[x - s.vaddr]? else some 0 := by
  rw [Filled] at hs
  have hlo := hx.1
  rw [fileEnd,byteAt]
  split_ifs with hfile
  · rw [List.getElem?_eq_getElem (by omega)]
    rfl
  · rw [List.getElem?_eq_none (by omega)]
    rfl

theorem exactImage_of_grouped (h : Grouped (sortByVaddr segments) merged groups) (hfilled : ∀ s ∈ segments, s.Filled)
    (hapart : Apart segments) (hrange : ∀ s ∈ segments, s.Addressable) (hreach : FilesReach segments) :
    ExactImage F segments merged := by
  have hmfilled := h.filled_iff_filesReach.mpr (filesReach_sortByVaddr.mpr hreach)
  have hfit : FilesFit segments := fun s hs =>
    ⟨s,hs,Nat.add_le_add_left (hapart.fits s hs) _,fun x hlo hhi => absurd hhi (by omega)⟩
  have hmfits := h.fits_iff_filesFit.mpr (filesFit_sortByVaddr.mpr hfit)
  have hsorted : Apart (sortByVaddr segments) := by
    refine ⟨?_,fun s hs => hapart.fits s (mem_sortByVaddr.mp hs)⟩
    refine (List.Perm.pairwise_iff ?_ (List.perm_insertionSort _ segments)).mpr hapart.disjoint
    exact fun hne x hx hx' => hne x hx' hx
  refine ⟨?_,hmfilled,hmfits,fun topPageTablePhys memory hnodup => ?_⟩
  · rw [← h.merged]
    exact List.pairwise_map.mpr h.separate
  · have hsole : (AddressSpace.withPageTable topPageTablePhys memory).memory.Sole := ⟨⟨nofun,nofun⟩,nofun,nofun,hnodup⟩
    obtain ⟨left,hload⟩ | ⟨t,hload,-,hon,-⟩ := loadSegments_spec hsole hmfilled (apart_merged h hmfits)
      (h.addressable_iff.mpr fun s hs => hrange s (mem_sortByVaddr.mp hs))
    · exact ⟨_,hload,nofun⟩
    · refine ⟨_,hload,fun t' ht' s hs x hx => ?_⟩
      cases ht'
      obtain ⟨g,hg,hsg⟩ := h.mem_segments.mp (mem_sortByVaddr.mpr hs)
      have hjoins := h.joins g hg
      have hsub : g.1.Sublist (sortByVaddr segments) := h.segments ▸ List.sublist_flatten_of_mem (List.mem_map_of_mem hg)
      have hholds := hjoins.holds ⟨hsorted.disjoint.sublist hsub,fun r hr => hsorted.fits r (hsub.subset hr)⟩
      have hcov : g.2.Covers x := ⟨(hjoins.least s hsg).trans hx.1,Nat.lt_of_lt_of_le hx.2 (hjoins.memory s hsg)⟩
      rw [hon g.2 (h.mem_merged.mpr ⟨g,hg,rfl⟩) x hcov,hholds.on s hsg x hx]
      exact wanted_eq s (hfilled s hs) hx

/-- Segments that do not overlap, each with its file part in its memory, are loaded exactly as long as none
without a file part comes where the data in front of it end early. -/
theorem exactImage_iff (hne : segments ≠ []) (hfilled : ∀ s ∈ segments, s.data.length = s.inFileSize) (hapart : Apart segments)
    (hrange : ∀ s ∈ segments, s.Addressable) :
    (∃ merged, (∀ p, mergeSegments p segments = .ok merged) ∧ ExactImage F segments merged) ↔ FilesReach segments := by
  obtain ⟨merged,groups,hgroups,hmerge,hdev⟩ := mergeSegments_grouped hne hfilled
  constructor
  · rintro ⟨merged',hok,himage⟩
    obtain rfl := hdev merged' (hok .dev)
    exact filesReach_sortByVaddr.mp (hgroups.filled_iff_filesReach.mp himage.filled)
  · intro hreach
    refine ⟨merged,hmerge fun s hs => ?_,exactImage_of_grouped hgroups hfilled hapart hrange hreach⟩
    have hfits := hapart.fits s hs
    have hend := (hrange s hs).memoryEnd_lt
    rw [fileEnd,memoryEnd,usizeBound] at *
    omega

/-- File data, then zeros, then a segment without a file part that touches the zeros. -/
abbrev bssTail : List LoadSegment := [⟨0x1000,1,2,4,[7]⟩,⟨0x1002,0,1,4,[]⟩]

/-- The merged segment has one byte of data and a file part of two. The copy reads past the data in every
address space that has frames for the page. -/
theorem bssTail_overread : (∀ p, mergeSegments p bssTail = .ok [⟨0x1000,2,3,4,[7]⟩]) ∧
    loadSegments [⟨0x1000,2,3,4,[7]⟩] (AddressSpace.smallSpace 4) = .error .panic := by
  refine ⟨fun p => ?_,?_⟩
  · cases p <;> decide +kernel
  · rfl

theorem exactImage_iff_two : (∃ merged, (∀ p, mergeSegments p [⟨0x1000,1,2,4,[7]⟩,⟨0x1002,1,1,4,[8]⟩] = .ok merged) ∧
    ExactImage Nat [⟨0x1000,1,2,4,[7]⟩,⟨0x1002,1,1,4,[8]⟩] merged) ↔ FilesReach [⟨0x1000,1,2,4,[7]⟩,⟨0x1002,1,1,4,[8]⟩] := by
  refine exactImage_iff (by simp) (by simp) ⟨?_,by simp⟩
    (List.forall_mem_cons.mpr ⟨⟨by decide,.inr (by decide)⟩,List.forall_mem_singleton.mpr ⟨by decide,.inr (by decide)⟩⟩)
  refine List.pairwise_pair.mpr ?_
  rintro x ⟨-,hhi⟩ ⟨hlo,-⟩
  simp only [memoryEnd] at *
  omega

end Image
end MofuOS.Process
