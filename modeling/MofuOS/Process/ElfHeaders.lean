import MofuOS.Lib.LittleEndian
import MofuOS.Process.ElfContents
import MofuOS.Process.SafeLoads

/-! Which program headers a file can have for its segments to be loaded as they claim. -/
namespace MofuOS.Process
open Lib

namespace ProgramHeader

/-- The ends that are computed for the header do not wrap. -/
structure InRange (h : ProgramHeader) : Prop where
  memory : h.pVaddr.toNat + h.pMemsz.toNat < usizeBound
  file : 0 < h.pFilesz.toNat → h.pOffset.toNat + h.pFilesz.toNat < usizeBound

/-- What is loaded lies in the file. -/
def Readable (elfData : List UInt8) (h : ProgramHeader) : Prop :=
  h.pType = ptLoad → 0 < h.pFilesz.toNat → h.pOffset.toNat + h.pFilesz.toNat ≤ elfData.length

instance (elfData : List UInt8) (h : ProgramHeader) : Decidable (h.Readable elfData) :=
  inferInstanceAs (Decidable (_ → _ → _))

def toSegment (elfData : List UInt8) (h : ProgramHeader) : LoadSegment :=
  ⟨h.pVaddr.toNat,h.pFilesz.toNat,h.pMemsz.toNat,h.pFlags,
    if 0 < h.pFilesz.toNat then slice elfData h.pOffset.toNat h.pFilesz.toNat else []⟩

end ProgramHeader

open ProgramHeader

/-- The segments that the headers ask for. -/
def requested (elfData : List UInt8) (headers : List ProgramHeader) : List LoadSegment :=
  (headers.filter fun h => h.pType = ptLoad).map (toSegment elfData)

/-- The ends do not wrap up to the first header whose file part is not there. -/
def HeadersInRange (elfData : List UInt8) (headers : List ProgramHeader) : Prop :=
  ∀ front h behind, headers = front ++ h :: behind → h.pType = ptLoad → (∀ h' ∈ front, h'.Readable elfData) → h.InRange

variable {E : Type} {p : Profile} {elfData : List UInt8} {h : ProgramHeader} {headers : List ProgramHeader}
  {segments : List LoadSegment} {minVaddr maxVaddr : Nat}

section Headers

theorem headersInRange_cons : HeadersInRange elfData (h :: headers) ↔
    (h.pType = ptLoad → h.InRange) ∧ (h.Readable elfData → HeadersInRange elfData headers) := by
  constructor
  · intro hall
    refine ⟨fun htype => hall [] h headers rfl htype nofun,fun hread front g behind hsplit htype hfront => ?_⟩
    exact hall (h :: front) g behind (by rw [hsplit]; rfl) htype (List.forall_mem_cons.mpr ⟨hread,hfront⟩)
  · rintro ⟨hfirst,hrest⟩ front g behind hsplit htype hfront
    cases front with
    | nil =>
      cases hsplit
      exact hfirst htype
    | cons h' front =>
      cases hsplit
      obtain ⟨hread,hfront⟩ := List.forall_mem_cons.mp hfront
      exact hrest hread front g behind rfl htype hfront

theorem filled_toSegment (htype : h.pType = ptLoad) (hread : h.Readable elfData) : (h.toSegment elfData).Filled := by
  simp only [LoadSegment.Filled,toSegment]
  split_ifs with hpos
  · exact length_slice (hread htype hpos)
  · exact (Nat.eq_zero_of_not_pos hpos).symm

private theorem segmentData_of_inRange (htype : h.pType = ptLoad) (hrange : h.InRange) :
    segmentData (E := E) p h elfData =
      .ok (if h.Readable elfData then .ok (h.toSegment elfData).data else .error .readError) := by
  unfold segmentData
  simp only [toSegment]
  by_cases hpos : 0 < h.pFilesz.toNat
  · rw [if_pos hpos,usizeAdd_of_lt p (hrange.file hpos),ok_bind,if_pos hpos]
    by_cases hread : h.pOffset.toNat + h.pFilesz.toNat ≤ elfData.length
    · have hread' : h.Readable elfData := fun _ _ => hread
      rw [if_neg (by omega),if_pos (by omega),if_pos hread',Nat.add_sub_cancel_left]
    · have hread' : ¬ h.Readable elfData := fun hr => hread (hr htype hpos)
      rw [if_pos (by omega),if_neg hread']
  · have hread' : h.Readable elfData := fun _ hp => absurd hp hpos
    rw [if_neg hpos,if_neg hpos,if_pos hread']

private theorem inRange_of_dev {memoryEnd : Nat} {r : Except (ElfLoadError E) (List UInt8)}
    (hmem : usizeAdd .dev h.pVaddr.toNat h.pMemsz.toNat = .ok memoryEnd) (hdata : segmentData .dev h elfData = .ok r) : h.InRange := by
  refine ⟨usizeAdd_checked hmem rfl,fun hpos => ?_⟩
  rw [segmentData,if_pos hpos] at hdata
  obtain ⟨stop,hstop,-⟩ := bind_eq_ok hdata
  exact usizeAdd_checked hstop rfl

/-- The loop in range: every segment is read, or one cannot be. -/
private theorem loadHeaders_of_inRange (minVaddr maxVaddr : Nat) (segments : List LoadSegment)
    (hrange : HeadersInRange elfData headers) (hbounds : segments ≠ [] → minVaddr ≤ maxVaddr) :
    ((∀ h ∈ headers, h.Readable elfData) ∧ ∃ lo hi, (segments ++ requested elfData headers ≠ [] → lo ≤ hi) ∧
        ∀ p, loadHeaders (E := E) p elfData minVaddr maxVaddr segments headers =
          .ok (.ok (lo,hi,segments ++ requested elfData headers))) ∨
      (¬ ∀ h ∈ headers, h.Readable elfData) ∧
        ∀ p, loadHeaders (E := E) p elfData minVaddr maxVaddr segments headers = .ok (.error .readError) := by
  induction headers generalizing minVaddr maxVaddr segments with
  | nil => exact .inl ⟨nofun,minVaddr,maxVaddr,by simpa [requested] using hbounds,by simp [requested,loadHeaders]⟩
  | cons h headers ih =>
    obtain ⟨hfirst,hrest⟩ := headersInRange_cons.mp hrange
    rw [List.forall_mem_cons]
    simp only [loadHeaders]
    by_cases htype : h.pType = ptLoad
    · have hin := hfirst htype
      have hmem : ∀ p, usizeAdd p h.pVaddr.toNat h.pMemsz.toNat = .ok (h.pVaddr.toNat + h.pMemsz.toNat) :=
        fun p => usizeAdd_of_lt p hin.memory
      simp only [if_pos htype,hmem,ok_bind,segmentData_of_inRange htype hin]
      by_cases hread : h.Readable elfData
      · have hreq : requested elfData (h :: headers) = h.toSegment elfData :: requested elfData headers := by
          simp [requested,htype]
        simp only [hread,true_and,hreq,if_true]
        rw [show segments ++ h.toSegment elfData :: requested elfData headers =
          (segments ++ [h.toSegment elfData]) ++ requested elfData headers by simp]
        exact ih _ _ _ (hrest hread) fun _ => by omega
      · simp only [hread,false_and,not_false_eq_true,true_and,if_false]
        exact .inr fun _ => trivial
    · have hread : h.Readable elfData := fun hload => absurd hload htype
      have hreq : requested elfData (h :: headers) = requested elfData headers := by simp [requested,htype]
      simp only [if_neg htype,hread,true_and,hreq]
      exact ih _ _ _ (hrest hread) hbounds

private theorem inRange_of_loadHeaders {r : Except (ElfLoadError E) (Nat × Nat × List LoadSegment)}
    (hok : loadHeaders .dev elfData minVaddr maxVaddr segments headers = .ok r) : HeadersInRange elfData headers := by
  induction headers generalizing minVaddr maxVaddr segments with
  | nil => exact fun front g behind hsplit => by simp at hsplit
  | cons h headers ih =>
    rw [loadHeaders] at hok
    refine headersInRange_cons.mpr ?_
    split_ifs at hok with htype
    · obtain ⟨memoryEnd,hmem,hok⟩ := bind_eq_ok hok
      obtain ⟨data,hdata,hok⟩ := bind_eq_ok hok
      have hin := inRange_of_dev hmem hdata
      refine ⟨fun _ => hin,fun hread => ?_⟩
      rw [segmentData_of_inRange htype hin,if_pos hread] at hdata
      cases hdata
      exact ih hok
    · exact ⟨fun hload => absurd hload htype,fun _ => ih hok⟩

private theorem filled_requested (hread : ∀ h ∈ headers, h.Readable elfData) : ∀ s ∈ requested elfData headers, s.Filled := by
  intro s hs
  obtain ⟨h,hh,rfl⟩ := List.mem_map.mp hs
  obtain ⟨hh,htype⟩ := List.mem_filter.mp hh
  exact filled_toSegment (of_decide_eq_true htype) (hread h hh)

end Headers

section Parse
variable [Memory.Mapper Nat] {minimalParse : List UInt8 → Except E ElfBytes}

/-- The data of a segment are its file part, which lies in its memory, which lies in the user half. -/
structure Loadable (s : LoadSegment) : Prop where
  filled : s.data.length = s.inFileSize
  fits : s.inFileSize ≤ s.inMemorySize
  user : s.vaddr + s.inMemorySize ≤ userMemMaxAddress

/-- The parse returns, whether or not overflow is checked, and what it accepts can be loaded: create_with_elf loads it
without a panic and maps no page of the kernel for it. -/
def ParsesWell (minimalParse : List UInt8 → Except E ElfBytes) (elfData : List UInt8) : Prop :=
  ∃ r, (∀ p, ElfLoadInfo.fromElfData p minimalParse elfData = .ok r) ∧
    ∀ info, r = .ok info → (∀ s ∈ info.segments, Loadable s) ∧ LoadsSafely info.segments

/-- The headers up to the first one whose file part is not there do not wrap, and if all file parts are there,
the segments can be merged and stay in the lower half. -/
structure HeadersOk (elfData : List UInt8) (headers : List ProgramHeader) : Prop where
  inRange : HeadersInRange elfData headers
  reach : (∀ h ∈ headers, h.Readable elfData) → FilesReach (requested elfData headers)
  fit : (∀ h ∈ headers, h.Readable elfData) → FilesFit (requested elfData headers)
  user : (∀ h ∈ headers, h.Readable elfData) → ∀ s ∈ requested elfData headers, s.Addressable

private theorem loadable_iff {merged : List LoadSegment}
    {groups : List (List LoadSegment × LoadSegment)} (hg : Grouped (sortByVaddr (requested elfData headers)) merged groups) :
    (∀ s ∈ merged, Loadable s) ∧ LoadsSafely merged ↔ FilesReach (requested elfData headers) ∧
      FilesFit (requested elfData headers) ∧ ∀ s ∈ requested elfData headers, s.Addressable := by
  have huser := hg.addressable_iff
  simp only [mem_sortByVaddr] at huser
  rw [← filesReach_sortByVaddr,← filesFit_sortByVaddr,← huser,← hg.filled_iff_filesReach,← hg.fits_iff_filesFit]
  constructor
  · rintro ⟨hload,hsafe⟩
    have hfilled := fun s hs => (hload s hs).filled
    have hfits := fun s hs => (hload s hs).fits
    exact ⟨hfilled,hfits,(loadsSafely_iff hfilled hfits fun s hs => (hload s hs).user).mp hsafe⟩
  · rintro ⟨hfilled,hfits,haddr⟩
    have hend : ∀ s ∈ merged, s.memoryEnd ≤ userMemMaxAddress := fun s hs => Nat.le_of_lt (haddr s hs).memoryEnd_lt
    exact ⟨fun s hs => ⟨hfilled s hs,hfits s hs,hend s hs⟩,(loadsSafely_iff hfilled hfits hend).mpr haddr⟩

omit [Memory.Mapper Nat] in
private theorem bounded_of_ok (hok : HeadersOk elfData headers) (hread : ∀ h ∈ headers, h.Readable elfData) :
    ∀ s ∈ requested elfData headers, s.memoryEnd < usizeBound ∧ s.fileEnd < usizeBound := by
  intro s hs
  obtain ⟨n,hn,hle,-⟩ := hok.fit hread s hs
  have hmem := (hok.user hread s hs).memoryEnd_lt
  have hmem' := (hok.user hread n hn).memoryEnd_lt
  simp only [usizeBound] at *
  omega

private theorem fromElfData_of_ok {elf : ElfBytes} (hparse : minimalParse elfData = .ok elf) (hmachine : elf.eMachine = emX86_64)
    (hsegments : elf.segments = some headers) (hok : HeadersOk elfData headers) : ParsesWell minimalParse elfData := by
  have hloop := loadHeaders_of_inRange (E := E) (2^64 - 1) 0 [] hok.inRange (by simp)
  simp only [ParsesWell,ElfLoadInfo.fromElfData,hparse,hmachine,ne_eq,not_true_eq_false,if_false,hsegments]
  obtain ⟨hread,lo,hi,hle,hload⟩ | ⟨-,hload⟩ := hloop
  · simp only [List.nil_append] at hle hload
    simp only [hload,ok_bind]
    by_cases hnone : requested elfData headers = []
    · exact ⟨.error .noLoadableSegments,fun p => if_pos hnone,nofun⟩
    · obtain ⟨merged,groups,hgroups,hmerge,-⟩ := mergeSegments_grouped hnone (filled_requested hread)
      have hmerged := hmerge (bounded_of_ok hok hread)
      refine ⟨.ok ⟨elf.eEntry.toNat,lo,hi,merged⟩,fun p => ?_,fun info hinfo => ?_⟩
      · rw [if_neg hnone,hmerged p,ok_bind,usizeSub_of_le p (hle hnone),ok_bind]
      · cases hinfo
        exact (loadable_iff hgroups).mpr ⟨hok.reach hread,hok.fit hread,hok.user hread⟩
  · simp only [hload,ok_bind]
    exact ⟨.error .readError,fun _ => rfl,nofun⟩

private theorem ok_of_fromElfData {elf : ElfBytes} (hparse : minimalParse elfData = .ok elf) (hmachine : elf.eMachine = emX86_64)
    (hsegments : elf.segments = some headers) (hwell : ParsesWell minimalParse elfData) : HeadersOk elfData headers := by
  obtain ⟨r,hr,hinfo⟩ := hwell
  have hdev := hr .dev
  simp only [ElfLoadInfo.fromElfData,hparse,hmachine,ne_eq,not_true_eq_false,if_false,hsegments] at hdev
  obtain ⟨x,hx,hdev⟩ := bind_eq_ok hdev
  have hrange := inRange_of_loadHeaders hx
  have hall : (∀ h ∈ headers, h.Readable elfData) → FilesReach (requested elfData headers) ∧ FilesFit (requested elfData headers) ∧
      ∀ s ∈ requested elfData headers, s.Addressable := by
    intro hread
    obtain ⟨-,lo,hi,-,hload⟩ | ⟨hnot,-⟩ := loadHeaders_of_inRange (E := E) (2^64 - 1) 0 [] hrange (by simp)
    · rw [hload .dev] at hx
      cases hx
      simp only [List.nil_append] at hdev
      by_cases hnone : requested elfData headers = []
      · rw [hnone]
        exact ⟨nofun,nofun,nofun⟩
      · obtain ⟨merged,groups,hgroups,-,hmerge⟩ := mergeSegments_grouped hnone (filled_requested hread)
        rw [if_neg hnone] at hdev
        obtain ⟨merged',hm,hdev⟩ := bind_eq_ok hdev
        obtain ⟨size,-,hdev⟩ := bind_eq_ok hdev
        cases hdev
        rw [hmerge merged' hm] at hinfo
        exact (loadable_iff hgroups).mp (hinfo _ rfl)
    · exact absurd hread hnot
  exact ⟨hrange,fun hread => (hall hread).1,fun hread => (hall hread).2.1,fun hread => (hall hread).2.2⟩

/-- A file with an ELF header, one program header and four bytes. -/
def elfFile (h : ProgramHeader) : List UInt8 :=
  [0x7F,0x45,0x4C,0x46,2,1,1] ++ List.replicate 9 0 ++ leBytes 2 2 ++ leBytes 2 62 ++ leBytes 4 1 ++ leBytes 8 0 ++
    leBytes 8 64 ++ leBytes 8 0 ++ leBytes 4 0 ++ leBytes 2 64 ++ leBytes 2 56 ++ leBytes 2 1 ++ List.replicate 6 0 ++
    leBytes 4 h.pType.toNat ++ leBytes 4 h.pFlags.toNat ++ leBytes 8 h.pOffset.toNat ++ leBytes 8 h.pVaddr.toNat ++
    leBytes 8 h.pVaddr.toNat ++ leBytes 8 h.pFilesz.toNat ++ leBytes 8 h.pMemsz.toNat ++ leBytes 8 1 ++ [1,2,3,4]

/-- What is parsed of it. -/
abbrev oneHeader (h : ProgramHeader) : List UInt8 → Except Unit ElfBytes := fun _ => .ok ⟨emX86_64,0,some [h]⟩

abbrev wrappingHeader : ProgramHeader := ⟨ptLoad,4,0xFFFFFFFFFFFFFFFF,0x1000,2,2⟩

abbrev kernelHeader : ProgramHeader := ⟨ptLoad,4,120,0xFFFF800000000000,2,1⟩

end Parse
end MofuOS.Process
