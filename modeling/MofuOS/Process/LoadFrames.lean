import MofuOS.Memory.FreshPages
import MofuOS.Process.CreateWithElf
import MofuOS.Process.Teardown

/-! How far the frames go when segments are loaded one after the other, and what is taken for them. -/
namespace MofuOS.Process
open Memory Lib

/-- The pages of a segment. -/
def LoadSegment.pages (segment : LoadSegment) : List Nat := pagesOf segment.vaddr segment.inMemorySize

/-- As in every valid file: the file part lies in the memory of the segment, and that in the lower half below its last
page. -/
structure LoadSegment.Valid (segment : LoadSegment) : Prop where
  fits : segment.inFileSize ≤ segment.inMemorySize
  user : segment.Addressable

/-- The segments that are reached while the frames last come with the data that they are said to have. -/
def dataThere (n : Nat) : List Nat → List LoadSegment → Bool
  | _, [] => true
  | mapped, segment :: segments =>
    !UserMemory.framesLast n mapped segment.pages ||
      (segment.inFileSize ≤ segment.data.length && dataThere n (mapped ++ segment.pages) segments)

variable {F : Type} {owned : Finset Nat} {frames : Multiset F} {n size done rounds virtAddr : Nat} {pages : List Nat}
  {segment : LoadSegment} {segments : List LoadSegment} {source : Nat → Nat → Outcome (List UInt8)} {pageFlags : PageTableFlags}

theorem AddressSpace.holding_withPageTable (topPageTablePhys : F) (memory : UserMemory F) :
    (AddressSpace.withPageTable topPageTablePhys memory).memory.Holding memory.available.card [] :=
  ⟨⟨nofun,nofun⟩,fun _ => iff_of_false (fun h => h rfl) List.not_mem_nil,rfl,Nat.zero_add _⟩

section Load
variable [DecidableEq F] {s t : AddressSpace F}

omit [DecidableEq F] in
theorem translate_mapped {s : UserMemory F} {entry : PageTableEntry F} (hs : s.Intact)
    (hentry : s.leaves ((virtAddr + done) / pageSize) = some entry) :
    translateUserVirtToPhys (virtAddr + done) s = .ok (entry.frame,(virtAddr + done) % pageSize) := by
  rw [translateUserVirtToPhys,hentry,Option.filter_some,if_pos (hs.present _ entry hentry)]

/-- Only the contents change, and the pages are there to be written. -/
theorem fillPages_bytes {s : UserMemory F} (hs : s.Intact) (hsource : ∀ done n, done + n ≤ size → ∃ data, source done n = .ok data)
    (hmapped : ∀ x, virtAddr ≤ x → x < virtAddr + size → s.leaves (x / pageSize) ≠ none) :
    ∃ bytes, fillPages virtAddr size source rounds done s = .ok { s with bytes } := by
  induction rounds generalizing s done with
  | zero => exact ⟨s.bytes,rfl⟩
  | succ rounds ih =>
    rw [fillPages]
    split_ifs with hdone
    · obtain ⟨entry,hentry⟩ := Option.ne_none_iff_exists'.mp (hmapped (virtAddr + done) (by omega) (by omega))
      obtain ⟨data,hdata⟩ := hsource done (min (pageSize - (virtAddr + done) % pageSize) (size - done)) (by omega)
      rw [translate_mapped hs hentry,ok_bind]
      dsimp only
      rw [hdata,ok_bind]
      exact ih (s := writeFrame entry.frame ((virtAddr + done) % pageSize) data s) ⟨hs.present,hs.tabled⟩ hmapped
    · exact ⟨s.bytes,rfl⟩

omit [DecidableEq F] in
theorem LoadSegment.mapped (hmapped : ∀ page ∈ segment.pages, t.memory.leaves page ≠ none) {x : Nat}
    (hlo : segment.vaddr ≤ x) (hhi : x < segment.memoryEnd) : t.memory.leaves (x / pageSize) ≠ none := by
  refine hmapped _ (mem_pagesOf.mpr ?_)
  rw [LoadSegment.memoryEnd] at hhi
  simp only [Touches,pageSize]
  omega

/-- The copy runs into the end of data that are too short. -/
theorem fillPages_overread {s : UserMemory F} {data : List UInt8} (hs : s.Intact)
    (hmapped : ∀ x, virtAddr ≤ x → x < virtAddr + size → s.leaves (x / pageSize) ≠ none) (hshort : data.length < size)
    (hdone : done ≤ data.length) (hrounds : size ≤ done + rounds) :
    fillPages virtAddr size (readData data) rounds done s = .error .panic := by
  induction rounds generalizing s done with
  | zero => omega
  | succ rounds ih =>
    obtain ⟨entry,hentry⟩ := Option.ne_none_iff_exists'.mp (hmapped (virtAddr + done) (by omega) (by omega))
    have hoffset := Nat.mod_lt (virtAddr + done) (show 0 < pageSize by decide)
    rw [fillPages,if_pos (by omega),translate_mapped hs hentry,ok_bind]
    dsimp only
    rw [readData]
    split_ifs with hread
    · exact ih (s := writeFrame entry.frame ((virtAddr + done) % pageSize) _ s) ⟨hs.present,hs.tabled⟩ hmapped hread (by omega)
    · rfl

theorem zeroBss_bytes {s : UserMemory F} (hs : s.Intact) (hvalid : segment.Valid)
    (hmapped : ∀ x, segment.vaddr ≤ x → x < segment.memoryEnd → s.leaves (x / pageSize) ≠ none) :
    ∃ bytes, zeroBss segment s = .ok { s with bytes } := by
  have hfits := hvalid.fits
  unfold zeroBss
  split_ifs
  · refine fillPages_bytes hs (fun done n _ => ⟨_,rfl⟩) fun x hlo hhi => hmapped x (by omega) ?_
    rw [LoadSegment.memoryEnd]
    omega
  · exact ⟨s.bytes,rfl⟩

variable [Mapper F]

theorem mapOwnedRegion_holding (h : s.memory.Holding n pages) (start size : Nat) (hflags : pageFlags.present) :
    (s.mapOwnedRegion start size pageFlags).1 = UserMemory.framesLast n pages (pagesOf start size) ∧
      ((s.mapOwnedRegion start size pageFlags).1 = true →
        (s.mapOwnedRegion start size pageFlags).2.memory.Holding n (pages ++ pagesOf start size)) := by
  unfold AddressSpace.mapOwnedRegion pagesOf
  split_ifs
  · exact ⟨rfl,fun _ => by rwa [List.append_nil]⟩
  · have hmap := h.mapPages hflags (start / pageSize) (start / pageSize) (UserMemory.pageCount start size)
    rw [← UserMemory.mapVirtMemRegion] at hmap
    generalize s.memory.mapVirtMemRegion start size pageFlags = r at *
    obtain ⟨_ | _,memory⟩ := r
    · exact ⟨hmap.1,fun hok => by cases hok⟩
    · exact hmap

/-- A segment is loaded when the frames last and its data are there. Without the frames, all of them are
given back. -/
theorem loadSegment_frames (h : s.Accounted owned frames) (hn : s.memory.Holding n pages) (hvalid : segment.Valid)
    (howned : ∀ page ∈ segment.pages, page ∈ owned) :
    (UserMemory.framesLast n pages segment.pages = true ∧ (segment.inFileSize ≤ segment.data.length ∧
        (∃ t, loadSegment segment s = .ok (.ok t) ∧ t.Accounted owned frames ∧ t.memory.Holding n (pages ++ segment.pages)) ∨
      ¬ segment.inFileSize ≤ segment.data.length ∧ loadSegment segment s = .error .panic)) ∨
    UserMemory.framesLast n pages segment.pages = false ∧ ∃ memory, loadSegment segment s = .ok (.error memory) ∧
        memory.available = frames := by
  have hflags : (segmentFlags segment.flags).present := rfl
  have hfits := hvalid.fits
  have hmap := h.mapOwnedRegion hflags howned
  obtain ⟨hok,hholding⟩ := mapOwnedRegion_holding hn segment.vaddr segment.inMemorySize hflags
  rw [LoadSegment.pages,← hok,loadSegment_of_addressable hvalid.user]
  generalize s.mapOwnedRegion segment.vaddr segment.inMemorySize (segmentFlags segment.flags) = r at *
  obtain ⟨_ | _,u⟩ := r
  · exact .inr ⟨rfl,_,rfl,hmap.freeAddressSpace⟩
  · have hu := hholding rfl
    have hmapped : ∀ x, segment.vaddr ≤ x → x < segment.memoryEnd → u.memory.leaves (x / pageSize) ≠ none :=
      fun x hlo hhi => LoadSegment.mapped (fun page hpage => (hu.mapped page).mpr (List.mem_append_right _ hpage)) hlo hhi
    have hfile : ∀ x, segment.vaddr ≤ x → x < segment.vaddr + segment.inFileSize → u.memory.leaves (x / pageSize) ≠ none :=
      fun x hlo hhi => hmapped x hlo (by rw [LoadSegment.memoryEnd]; omega)
    refine .inl ⟨rfl,?_⟩
    dsimp only
    by_cases hdata : segment.inFileSize ≤ segment.data.length
    · obtain ⟨bytes,hcopy⟩ : ∃ bytes, copyFileData segment u.memory = .ok { u.memory with bytes } :=
        fillPages_bytes hu.intact (fun done n hle => ⟨_,if_pos (hle.trans hdata)⟩) hfile
      obtain ⟨bytes',hzero⟩ := zeroBss_bytes (s := { u.memory with bytes }) ⟨hu.intact.present,hu.intact.tabled⟩ hvalid hmapped
      rw [hcopy,ok_bind,hzero,ok_bind]
      exact .inl ⟨hdata,_,rfl,hmap.of_bytes bytes',⟨hu.intact.present,hu.intact.tabled⟩,hu.mapped,hu.tables,hu.free⟩
    · rw [copyFileData,fillPages_overread hu.intact hfile (Nat.lt_of_not_le hdata) (Nat.zero_le _) (by omega)]
      exact .inr ⟨hdata,rfl⟩

theorem loadSegments_frames (h : s.Accounted owned frames) (hn : s.memory.Holding n pages) (hvalid : ∀ m ∈ segments, m.Valid)
    (howned : ∀ page ∈ segments.flatMap LoadSegment.pages, page ∈ owned) :
    dataThere n pages segments = true ∧
      ((UserMemory.framesLast n pages (segments.flatMap LoadSegment.pages) = true ∧ ∃ t, loadSegments segments s = .ok (.ok t) ∧
          t.Accounted owned frames ∧ t.memory.Holding n (pages ++ segments.flatMap LoadSegment.pages)) ∨
        UserMemory.framesLast n pages (segments.flatMap LoadSegment.pages) = false ∧
          ∃ memory, loadSegments segments s = .ok (.error memory) ∧ memory.available = frames) ∨
    dataThere n pages segments = false ∧ loadSegments segments s = .error .panic := by
  induction segments generalizing s pages with
  | nil => exact .inl ⟨rfl,.inl ⟨rfl,s,rfl,h,by rwa [List.flatMap_nil,List.append_nil]⟩⟩
  | cons segment segments ih =>
    obtain ⟨hone,hvalid⟩ := List.forall_mem_cons.mp hvalid
    simp only [List.flatMap_cons,List.forall_mem_append] at howned ⊢
    rw [UserMemory.framesLast_append,loadSegments,dataThere]
    obtain ⟨hlast,⟨hdata,t,ht,hacc,hholding⟩ | ⟨hdata,hpanic⟩⟩ | ⟨hlast,memory,hmemory,havail⟩ := loadSegment_frames h hn hone howned.1
    · rw [hlast,Bool.true_and,ht,ok_bind,← List.append_assoc,decide_eq_true hdata,Bool.not_true,Bool.false_or,Bool.true_and]
      exact ih hacc hholding hvalid howned.2
    · rw [hlast,decide_eq_false hdata,hpanic]
      exact .inr ⟨rfl,rfl⟩
    · rw [hlast,Bool.false_and,hmemory,ok_bind]
      exact .inl ⟨rfl,.inr ⟨rfl,memory,rfl,havail⟩⟩

end Load

end MofuOS.Process
