import MofuOS.Memory.Rollback
import MofuOS.Memory.TableMapper
import MofuOS.Process.NeatLayout

/-! The memory of a process as process/process_mem.rs keeps it, down to the frames behind the pages and the
page tables. -/
namespace MofuOS.Process
open Memory

structure AddressSpace (F : Type) where
  topPageTablePhys : F
  heapEnd : Nat
  regions : List MappedMemoryRegion
  memory : UserMemory F

def processHeapVirtStart : Nat := 0x60000000

namespace AddressSpace
variable {F : Type}

/-- No page of the user half is mapped yet. -/
def withPageTable (topPageTablePhys : F) (memory : UserMemory F) : AddressSpace F where
  topPageTablePhys
  heapEnd := processHeapVirtStart
  regions := []
  memory := { memory with tables := [], leaves := fun _ => none }

/-- What the coarser model has of it. -/
def layout (s : AddressSpace F) : ProcessMemoryLayout F := ⟨s.memory.leaves,s.regions⟩

/-- The walk meets the tables in another order. A page that is still mapped is lost with its table. -/
def freeUserTables (s : UserMemory F) : UserMemory F :=
  s.tables.foldl (fun s table => s.deallocateFrame table.2) { s with tables := [], leaves := fun _ => none }

variable [Mapper F]

def unmapRegion (startVirt sizeBytes : Nat) (s : AddressSpace F) : Bool × AddressSpace F :=
  match carve startVirt (startVirt + sizeBytes) s.regions with
  | none => (false,s)
  | some (region,regions) =>
    (true,{ s with memory := s.memory.unmapUserRegion { region with startVirt, sizeBytes }, regions })

/-- Every region is unmapped, and then the tables go. -/
def freeAddressSpace (s : AddressSpace F) : UserMemory F :=
  (freeUserTables (s.regions.foldl (fun memory region => memory.unmapUserRegion region) s.memory)).deallocateFrame
    s.topPageTablePhys

variable [DecidableEq F]

/-- Returns whether the range was mapped, where every address is canonical. -/
def mapOwnedRegion (startVirt sizeBytes : Nat) (pageFlags : PageTableFlags) (s : AddressSpace F) : Bool × AddressSpace F :=
  if sizeBytes = 0 then (true,s)
  else
    match s.memory.mapVirtMemRegion startVirt sizeBytes pageFlags with
    | (true,memory) => (true,{ s with memory, regions := trackRegion ⟨startVirt,sizeBytes,pageFlags,.owned⟩ s.regions })
    | (false,memory) => (false,{ s with memory })

/-- With the checks of the addresses. -/
def checkedMapOwnedRegion (startVirt sizeBytes : Nat) (pageFlags : PageTableFlags) (s : AddressSpace F) :
    Lib.Outcome (Bool × AddressSpace F) :=
  if sizeBytes = 0 then .ok (true,s)
  else do
    match ← s.memory.checkedMapVirtMemRegion startVirt sizeBytes pageFlags with
    | (true,memory) => .ok (true,{ s with memory, regions := trackRegion ⟨startVirt,sizeBytes,pageFlags,.owned⟩ s.regions })
    | (false,memory) => .ok (false,{ s with memory })

/-- The loop over the frames. The pages mapped so far are unmapped when one fails. -/
def mapEach (startVirt : Nat) (pageFlags : PageTableFlags) : Nat → List F → UserMemory F → Bool × UserMemory F
  | _, [], memory => (true,memory)
  | pageIndex, frame :: frames, memory =>
    match memory.mapSpecificFrame ((startVirt + pageIndex * pageSize) / pageSize) frame pageFlags with
    | (.ok (),memory) => mapEach startVirt pageFlags (pageIndex + 1) frames memory
    | (.error _,memory) => (false,memory.unmapUserRegion ⟨startVirt,pageIndex * pageSize,pageFlags,.borrowed⟩)

/-- Returns whether the frames were mapped. -/
def mapFrames (startVirt : Nat) (frames : List F) (pageFlags : PageTableFlags) (frameOwnership : FrameOwnership)
    (s : AddressSpace F) : Bool × AddressSpace F :=
  if frames = [] then (true,s)
  else
    match mapEach startVirt pageFlags 0 frames s.memory with
    | (true,memory) =>
      (true,{ s with memory, regions := trackRegion ⟨startVirt,frames.length * pageSize,pageFlags,frameOwnership⟩ s.regions })
    | (false,memory) => (false,{ s with memory })

variable {s t : AddressSpace F} {start size page : Nat} {pageFlags : PageTableFlags} {ownership : FrameOwnership} {frame : F}
  {memory : UserMemory F}

section Layout

omit [DecidableEq F] in
theorem unmapRegion_layout (h : s.memory.Intact) :
    ((s.unmapRegion start size).1,(s.unmapRegion start size).2.layout) = s.layout.unmapRegion start size := by
  simp only [unmapRegion,ProcessMemoryLayout.unmapRegion,layout]
  cases carve start (start + size) s.regions with
  | none => rfl
  | some x =>
    dsimp only
    rw [(UserMemory.unmapUserRegion_spec h.present _).1]

private theorem mapSpecificFrame_layout [NamesMapped F] (h : memory.Intact) (page : Nat) (frame : F) (pageFlags : PageTableFlags) :
    ∃ room, (∃ e, (memory.mapSpecificFrame page frame pageFlags).1 = .error e ∧
        (memory.mapSpecificFrame page frame pageFlags).2.leaves = memory.leaves ∧
        Memory.mapSpecificFrame page frame pageFlags room memory.leaves = none) ∨
      (memory.mapSpecificFrame page frame pageFlags).1 = .ok () ∧
        Memory.mapSpecificFrame page frame pageFlags room memory.leaves =
          some (memory.mapSpecificFrame page frame pageFlags).2.leaves := by
  obtain ⟨new,-,-,⟨⟨e,he⟩,hleaves,-⟩ | ⟨hok,hleaves,-⟩⟩ := UserMemory.mapSpecificFrame_cases page frame pageFlags memory
  · refine ⟨false,.inl ⟨e,he,hleaves,?_⟩⟩
    rw [Memory.mapSpecificFrame]
    cases hpage : memory.leaves page with
    | none => rfl
    | some existing =>
      refine if_neg fun hframe => ?_
      have hok : (memory.mapSpecificFrame page frame pageFlags).1 = .ok () :=
        (UserMemory.mapSpecificFrame_mapped_iff h hpage).mpr hframe
      rw [he] at hok
      cases hok
  · refine ⟨true,.inr ⟨hok,?_⟩⟩
    rw [hleaves,Memory.mapSpecificFrame]
    cases hpage : memory.leaves page with
    | none => rfl
    | some existing =>
      have hsame := (UserMemory.mapSpecificFrame_mapped_iff h hpage).mp hok
      rw [Option.map_some,Option.getD_some,hsame]
      exact if_pos hsame

omit [DecidableEq F] [Mapper F] in
private theorem page_add (start k : Nat) : (start + k * pageSize) / pageSize = start / pageSize + k :=
  Nat.add_mul_div_right _ _ (by decide)

omit [Mapper F] in
private theorem mapLoop_congr {room room' : Nat → Bool} (frames : List F) (k : Nat) (table : PageTable F)
    (h : ∀ page, start / pageSize + k ≤ page → room page = room' page) :
    ProcessMemoryLayout.mapLoop start pageFlags room k frames table =
      ProcessMemoryLayout.mapLoop start pageFlags room' k frames table := by
  induction frames generalizing k table with
  | nil => rfl
  | cons frame frames ih =>
    simp only [ProcessMemoryLayout.mapLoop,page_add]
    rw [h _ (Nat.le_refl _)]
    cases Memory.mapSpecificFrame (start / pageSize + k) frame pageFlags (room' (start / pageSize + k)) table with
    | none => rfl
    | some table => exact ih (k + 1) table fun page hpage => h page (by omega)

private theorem mapEach_layout [NamesMapped F] (start : Nat) (frames : List F) (k : Nat) (memory : UserMemory F) (h : memory.Intact) (hflags : pageFlags.present) :
    ∃ room, ((mapEach start pageFlags k frames memory).1,(mapEach start pageFlags k frames memory).2.leaves) =
      ProcessMemoryLayout.mapLoop start pageFlags room k frames memory.leaves := by
  induction frames generalizing k memory with
  | nil => exact ⟨fun _ => true,rfl⟩
  | cons frame frames ih =>
    obtain ⟨b,hb⟩ := mapSpecificFrame_layout h (start / pageSize + k) frame pageFlags
    have hkeeps := UserMemory.mapSpecificFrame_keeps (start / pageSize + k) frame h hflags
    simp only [mapEach,ProcessMemoryLayout.mapLoop,page_add]
    generalize memory.mapSpecificFrame (start / pageSize + k) frame pageFlags = r at *
    obtain ⟨result,u⟩ := r
    obtain ⟨e,he,hleaves,hnone⟩ | ⟨hok,hsome⟩ := hb <;> dsimp only at *
    · refine ⟨fun _ => b,?_⟩
      subst he
      rw [hnone,← hleaves]
      exact congrArg (Prod.mk false) (UserMemory.unmapUserRegion_spec hkeeps.present _).1
    · subst hok
      obtain ⟨room,hroom⟩ := ih (k + 1) u hkeeps
      refine ⟨Function.update room (start / pageSize + k) b,?_⟩
      rw [Function.update_self,hsome]
      exact hroom.trans (mapLoop_congr _ _ _ fun page hpage => (Function.update_of_ne (by omega) _ _).symm)

/-- The coarser model has the same calls for every such mapper, with room for a page where its tables are there or can
be had. -/
theorem mapFrames_layout [NamesMapped F] (h : s.memory.Intact) (hflags : pageFlags.present) (frames : List F) :
    ∃ room, ((s.mapFrames start frames pageFlags ownership).1,(s.mapFrames start frames pageFlags ownership).2.layout) =
      s.layout.mapFrames start frames pageFlags ownership room := by
  obtain ⟨room,hroom⟩ := mapEach_layout start frames 0 s.memory h hflags
  refine ⟨room,?_⟩
  unfold mapFrames ProcessMemoryLayout.mapFrames
  split_ifs
  · rfl
  · simp only [layout,← hroom]
    generalize mapEach start pageFlags 0 frames s.memory = r
    obtain ⟨_ | _,u⟩ := r <;> rfl

end Layout

theorem checkedMapOwnedRegion_of_le (h : size = 0 ∨ start + size + pageSize ≤ 0x0000_8000_0000_0000) :
    s.checkedMapOwnedRegion start size pageFlags = .ok (s.mapOwnedRegion start size pageFlags) := by
  rw [checkedMapOwnedRegion,mapOwnedRegion]
  split_ifs with hsize
  · rfl
  · rw [UserMemory.checkedMapVirtMemRegion_of_le (Nat.pos_of_ne_zero hsize) (h.resolve_left hsize),Lib.ok_bind]
    obtain ⟨_ | _,memory⟩ := s.memory.mapVirtMemRegion start size pageFlags <;> rfl

/-- The pages and the regions are as they were, and no frame of an earlier mapping was given back. -/
structure LeavesAlone (s t : AddressSpace F) : Prop where
  leaves : ∀ page, t.memory.leaves page = s.memory.leaves page
  regions : t.regions = s.regions
  frames : ∀ page entry, s.memory.leaves page = some entry → entry.frame ∉ t.memory.allocator.freeList

/-- A mapping that fails leaves the mappings before it alone exactly when no page of the range was mapped
before, or the frames run out before the first one that was. -/
theorem mapOwnedRegion_leavesAlone_iff (hs : s.memory.Intact)
    (hheld : ∀ page entry, s.memory.leaves page = some entry → entry.frame ∉ s.memory.available) (hflags : pageFlags.present)
    (hfail : (s.mapOwnedRegion start size pageFlags).1 = false) :
    LeavesAlone s (s.mapOwnedRegion start size pageFlags).2 ↔
      s.memory.EndsBeforeMapped (start / pageSize) (UserMemory.pageCount start size) := by
  unfold mapOwnedRegion at hfail ⊢
  split_ifs at hfail ⊢
  have hrestores := UserMemory.mapPages_restores_iff (start / pageSize) (UserMemory.pageCount start size) hs hheld hflags
  rw [← UserMemory.mapVirtMemRegion] at hrestores
  generalize s.memory.mapVirtMemRegion start size pageFlags = r at *
  obtain ⟨ok,memory⟩ := r
  cases ok with
  | true => cases hfail
  | false =>
    rw [← hrestores rfl]
    exact ⟨fun h => ⟨funext h.leaves,h.frames⟩,fun h => ⟨fun page => congrFun h.1 page,rfl,h.2⟩⟩

section Shared

/-- A new address space, and n frames beside its own. -/
abbrev smallSpace (n : Nat) : AddressSpace Nat :=
  withPageTable 0 ⟨⟨[],List.range' 1 n⟩,[],fun _ => none,fun _ _ => 0⟩

abbrev dataFlags : PageTableFlags := { present := true, writable := true, noExecute := true }

/-- Page 1 is mapped to frame 1, and frames 2 to 4 hold its tables. -/
abbrev onePage (n : Nat) : AddressSpace Nat := ((smallSpace n).mapOwnedRegion 0x1000 0x1000 dataFlags).2

/-- Pages 1 to 3 are asked for with one frame left: page 1 stays as it is, page 2 gets the frame, and with
page 3 the mapping fails. Page 1 is gone then, its frame is free, and the region is tracked still. -/
theorem shared_page_unmapped :
    ((smallSpace 5).mapOwnedRegion 0x1000 0x1000 dataFlags).1 = true ∧
      ((onePage 5).mapOwnedRegion 0x1000 0x3000 dataFlags).1 = false ∧
      (onePage 5).memory.leaves 1 = some ⟨1,{ dataFlags with userAccessible := true }⟩ ∧
      ((onePage 5).mapOwnedRegion 0x1000 0x3000 dataFlags).2.memory.leaves 1 = none ∧
      1 ∈ ((onePage 5).mapOwnedRegion 0x1000 0x3000 dataFlags).2.memory.allocator.freeList ∧
      ((onePage 5).mapOwnedRegion 0x1000 0x3000 dataFlags).2.regions = [⟨0x1000,0x1000,dataFlags,.owned⟩] := by
  decide +kernel

/-- The iff on that mapping. -/
theorem mapOwnedRegion_leavesAlone_iff_shared :
    LeavesAlone (onePage 5) ((onePage 5).mapOwnedRegion 0x1000 0x3000 dataFlags).2 ↔
      (onePage 5).memory.EndsBeforeMapped 1 3 := by
  have hleaves : (onePage 5).memory.leaves =
      Function.update (fun _ => none) 1 (some ⟨1,{ dataFlags with userAccessible := true }⟩) := rfl
  have hentry : ∀ page entry, (onePage 5).memory.leaves page = some entry → page = 1 ∧ entry.frame = 1 ∧ entry.flags.present := by
    intro page entry hpage
    rw [hleaves,Function.update_apply] at hpage
    split_ifs at hpage with hone
    cases hpage
    exact ⟨hone,rfl,rfl⟩
  refine mapOwnedRegion_leavesAlone_iff ⟨fun page entry hpage => (hentry page entry hpage).2.2,fun page entry hpage => ?_⟩
    (fun page entry hpage => ?_) rfl (by decide +kernel)
  · rw [(hentry page entry hpage).1]
    decide +kernel
  · rw [(hentry page entry hpage).2.1]
    decide +kernel

end Shared

end AddressSpace
end MofuOS.Process
