import MofuOS.Process.ElfMerge
import MofuOS.Process.LoadFrames
import MofuOS.Process.Syscall

/-! Which segments are loaded without a panic whatever frames there are. -/
namespace MofuOS.Memory.UserMemory
open Lib
variable {F : Type} {s : UserMemory F} {n m page k : Nat} {pages mapped : List Nat} {flags : PageTableFlags}

theorem framesLast_mono (hle : n ≤ m) (h : framesLast n mapped pages = true) : framesLast m mapped pages = true := by
  induction pages generalizing mapped with
  | nil => rfl
  | cons page pages ih =>
    simp only [framesLast,Bool.and_eq_true,decide_eq_true_eq] at h ⊢
    exact ⟨Nat.lt_of_lt_of_le h.1 hle,ih h.2⟩

/-- Enough frames last. -/
theorem exists_framesLast (mapped pages : List Nat) : ∃ n, framesLast n mapped pages = true := by
  induction pages generalizing mapped with
  | nil => exact ⟨0,rfl⟩
  | cons page pages ih =>
    obtain ⟨n,hn⟩ := ih (mapped ++ [page])
    refine ⟨max n (framesTaken mapped + tablesAdded mapped page + 1),?_⟩
    rw [framesLast,decide_eq_true (by omega),Bool.true_and]
    exact framesLast_mono (Nat.le_max_left ..) hn

/-- The frames last to a page that the range cannot step from. -/
theorem Holding.stepPages_panics [DecidableEq F] [Mapper F] (h : Holding n mapped s) (hflags : flags.present) (startPage rest : Nat)
    (hlast : framesLast n mapped (List.range' page k) = true) (hlow : (page + k) * pageSize < 0x0000_8000_0000_0000)
    (hstep : VirtAddr.stepPage (page + k) = .error .panic) :
    stepPages startPage flags page (k + 1 + rest) s = .error .panic := by
  induction k generalizing page mapped s with
  | zero =>
    rw [Nat.zero_add,Nat.add_comm,stepPages,show VirtAddr.stepPage page = _ from hstep]
    rfl
  | succ k ih =>
    rw [List.range'_succ,framesLast,Bool.and_eq_true,decide_eq_true_eq] at hlast
    have hok := (h.mapNewPage_iff page flags).mpr hlast.1
    have hnext := h.mapNewPage page hflags hok
    have hle : (page + 1) * pageSize ≤ (page + (k + 1)) * pageSize := Nat.mul_le_mul_right _ (by omega)
    have hfirst := VirtAddr.stepPage_of_lt (Nat.lt_of_le_of_lt hle hlow)
    rw [show k + 1 + 1 + rest = (k + 1 + rest) + 1 by omega,stepPages,hfirst,ok_bind]
    generalize s.mapNewPage page flags = r at *
    obtain ⟨ok,t⟩ := r
    dsimp only at hok
    subst hok
    rw [show page + (k + 1) = page + 1 + k by omega] at hlow hstep
    exact ih hnext hlast.2 hlow hstep

end MofuOS.Memory.UserMemory

namespace MofuOS.Process
open Memory Lib
variable {F : Type} [DecidableEq F] [Mapper F] {s : AddressSpace F} {n : Nat} {mapped : List Nat} {segment : LoadSegment}
  {segments front behind : List LoadSegment}

theorem dataThere_of_filled (hfilled : ∀ m ∈ segments, m.Filled) : dataThere n mapped segments = true := by
  induction segments generalizing mapped with
  | nil => rfl
  | cons m segments ih =>
    obtain ⟨hm,hfilled⟩ := List.forall_mem_cons.mp hfilled
    rw [dataThere,decide_eq_true hm.ge,ih hfilled,Bool.and_self,Bool.or_true]

theorem loadSegments_append (front behind : List LoadSegment) (s : AddressSpace F) :
    loadSegments (front ++ behind) s = loadSegments front s >>= fun r =>
      match r with
      | .error memory => .ok (.error memory)
      | .ok s => loadSegments behind s := by
  induction front generalizing s with
  | nil => rfl
  | cons segment front ih =>
    rw [List.cons_append,loadSegments,loadSegments]
    cases loadSegment segment s with
    | error fault => rfl
    | ok r =>
      cases r with
      | error memory => rfl
      | ok t => exact ih t

/-- A segment that leaves the lower half or reaches its last page is a panic if the frames last. -/
theorem loadSegment_panics (hn : s.memory.Holding n mapped) (hbad : ¬ segment.Addressable) (hend : segment.memoryEnd ≤ userMemMaxAddress)
    (hlast : UserMemory.framesLast n mapped segment.pages = true) : loadSegment segment s = .error .panic := by
  have hflags : (segmentFlags segment.flags).present := rfl
  have hmemory : segment.memoryEnd = segment.vaddr + segment.inMemorySize := rfl
  unfold userMemMaxAddress at hend
  rw [loadSegment]
  by_cases hstart : segment.vaddr < 0x0000_8000_0000_0000
  · obtain ⟨hsize,hstop⟩ : segment.inMemorySize ≠ 0 ∧ ¬ segment.memoryEnd ≤ userStackTop :=
      not_or.mp fun hstop => hbad ⟨hstart,hstop⟩
    unfold userStackTop at hstop
    rw [VirtAddr.new_of_lt hstart,ok_bind,AddressSpace.checkedMapOwnedRegion,if_neg hsize,UserMemory.checkedMapVirtMemRegion]
    obtain hlt | heq := Nat.lt_or_eq_of_le hend
    · -- its last page is the last one of the lower half
      obtain ⟨k,hk⟩ : ∃ k, segment.vaddr / pageSize + k = 0x7_FFFF_FFFF := by
        refine Nat.le.dest ?_
        unfold pageSize
        omega
      have hcount : UserMemory.pageCount segment.vaddr segment.inMemorySize = k + 1 + 0 := by
        unfold UserMemory.pageCount pageSize at *
        omega
      have hstep : VirtAddr.stepPage (segment.vaddr / pageSize + k) = .error .panic := by
        rw [hk]
        rfl
      rw [LoadSegment.pages,pagesOf,if_neg hsize,hcount,Nat.add_zero,List.range'_1_concat,UserMemory.framesLast_append,
        Bool.and_eq_true] at hlast
      have hpanic := hn.stepPages_panics hflags (segment.vaddr / pageSize) 0 hlast.1 (by rw [hk]; decide) hstep
      rw [VirtAddr.add_of_lt (by omega),ok_bind,VirtAddr.sub_of_lt (by omega) (by omega),ok_bind,hcount,hpanic]
      rfl
    · have hpanic : VirtAddr.add segment.vaddr segment.inMemorySize = .error .panic := by
        rw [VirtAddr.add,← hmemory,heq]
        rfl
      rw [hpanic]
      rfl
  · have hpanic : VirtAddr.new segment.vaddr = .error .panic := if_neg (by unfold Canonical; omega)
    rw [hpanic]
    rfl

section Safely
variable [Mapper Nat] {segments : List LoadSegment}

/-- Whatever frames there are, the segments are loaded or given up without a panic, and no page of the kernel is mapped. -/
def LoadsSafely (segments : List LoadSegment) : Prop :=
  ∀ (topPageTablePhys : Nat) (memory : UserMemory Nat), memory.available.Nodup →
    ∃ r, loadSegments segments (.withPageTable topPageTablePhys memory) = .ok r ∧
      ∀ t, r = .ok t → ∀ page, t.memory.leaves page ≠ none → (page + 1) * pageSize ≤ userMemMaxAddress

/-- The loads come to the first segment that is not addressable if there are enough frames. -/
private theorem loadSegments_panics (hsegments : segments = front ++ segment :: behind) (hvalid : ∀ m ∈ front, m.Valid)
    (hfilled : ∀ m ∈ front, m.Filled) (hbad : ¬ segment.Addressable) (hend : segment.memoryEnd ≤ userMemMaxAddress) :
    ∃ memory : UserMemory Nat, memory.available.Nodup ∧ loadSegments segments (.withPageTable 0 memory) = .error .panic := by
  obtain ⟨n,hlast⟩ := UserMemory.exists_framesLast [] (front.flatMap LoadSegment.pages ++ segment.pages)
  have hdistinct : (List.range' 1 n).Nodup := List.nodup_range' ..
  refine ⟨⟨⟨[],List.range' 1 n⟩,[],fun _ => none,fun _ _ => 0⟩,hdistinct,?_⟩
  have hn := AddressSpace.holding_withPageTable 0 (⟨⟨[],List.range' 1 n⟩,[],fun _ => none,fun _ _ => 0⟩ : UserMemory Nat)
  have hnew := AddressSpace.Accounted.withPageTable (front.flatMap LoadSegment.pages).toFinset 0
    (⟨⟨[],List.range' 1 n⟩,[],fun _ => none,fun _ _ => 0⟩ : UserMemory Nat)
  have hcard : (UserMemory.available (⟨⟨[],List.range' 1 n⟩,[],fun _ => none,fun _ _ => 0⟩ : UserMemory Nat)).card = n :=
    List.length_range' ..
  rw [hcard] at hn
  generalize AddressSpace.withPageTable 0 _ = start at *
  rw [UserMemory.framesLast_append,List.nil_append,Bool.and_eq_true] at hlast
  rw [hsegments,loadSegments_append]
  obtain ⟨-,⟨-,t,ht,-,hholding⟩ | ⟨hshort,-⟩⟩ | ⟨hdata,-⟩ :=
    loadSegments_frames hnew hn hvalid fun page hpage => List.mem_toFinset.mpr hpage
  · rw [ht,ok_bind]
    dsimp only
    rw [loadSegments,loadSegment_panics hholding hbad hend hlast.2]
    rfl
  · rw [hlast.1] at hshort
    cases hshort
  · rw [dataThere_of_filled hfilled] at hdata
    cases hdata

/-- Segments with their data that end in the user half. -/
theorem loadsSafely_iff (hfilled : ∀ m ∈ segments, m.Filled) (hfits : ∀ m ∈ segments, m.inFileSize ≤ m.inMemorySize)
    (huser : ∀ m ∈ segments, m.memoryEnd ≤ userMemMaxAddress) : LoadsSafely segments ↔ ∀ m ∈ segments, m.Addressable := by
  constructor
  · intro hsafe
    by_contra hbad
    push Not at hbad
    classical
    -- the first one that is bad
    obtain ⟨m,hm⟩ : ∃ m, segments.find? (fun m => decide (¬ m.Addressable)) = some m := by
      rw [← Option.isSome_iff_exists,List.find?_isSome]
      exact hbad.imp fun m hm => ⟨hm.1,decide_eq_true hm.2⟩
    obtain ⟨hnot,front,behind,hsegments,hfront⟩ := List.find?_eq_some_iff_append.mp hm
    have hmem : ∀ x ∈ front, x ∈ segments := fun x hx => by rw [hsegments]; exact List.mem_append_left _ hx
    have haddr : ∀ x ∈ front, x.Addressable := fun x hx => by simpa using hfront x hx
    obtain ⟨memory,hdistinct,hpanic⟩ := loadSegments_panics hsegments (fun x hx => ⟨hfits x (hmem x hx),haddr x hx⟩)
      (fun x hx => hfilled x (hmem x hx)) (of_decide_eq_true hnot) (huser m (by simp [hsegments]))
    obtain ⟨r,hr,-⟩ := hsafe 0 memory hdistinct
    rw [hpanic] at hr
    cases hr
  · intro haddr topPageTablePhys memory _
    obtain ⟨-,⟨-,t,ht,-,hholding⟩ | ⟨-,left,hleft,-⟩⟩ | ⟨hdata,-⟩ :=
      loadSegments_frames (AddressSpace.Accounted.withPageTable (segments.flatMap LoadSegment.pages).toFinset topPageTablePhys memory)
        (AddressSpace.holding_withPageTable topPageTablePhys memory) (fun m hm => ⟨hfits m hm,haddr m hm⟩)
        fun page hpage => List.mem_toFinset.mpr hpage
    · refine ⟨_,ht,fun t' ht' page hpage => ?_⟩
      cases ht'
      obtain ⟨m,hm,hpage⟩ := List.mem_flatMap.mp ((hholding.mapped page).mp hpage)
      obtain ⟨hsize,hlo,hhi⟩ := mem_pagesOf.mp hpage
      have hstop := (haddr m hm).stop.resolve_left hsize
      rw [LoadSegment.memoryEnd] at hstop
      unfold userStackTop pageSize userMemMaxAddress at *
      omega
    · refine ⟨_,hleft,fun t' ht' => ?_⟩
      cases ht'
    · rw [dataThere_of_filled hfilled] at hdata
      cases hdata

end Safely
end MofuOS.Process
