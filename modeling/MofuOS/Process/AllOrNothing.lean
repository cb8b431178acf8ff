import MofuOS.Process.CreateProcess
import MofuOS.Process.ElfContents
import MofuOS.Process.LoadFrames
import MofuOS.Process.RunQueueConsistency

/-! When the creation of a process that fails leaves nothing behind. -/
namespace MofuOS.Process
open Memory Lib

variable {F : Type} {owned : Finset Nat} {frames : Multiset F} {n : Nat} {pages : List Nat} {segments : List LoadSegment}

/-- What is merged from valid segments is valid. -/
theorem valid_mergeSegments {merged : List LoadSegment} {p : Profile} (hne : segments ≠ []) (hfilled : ∀ s ∈ segments, s.Filled)
    (hvalid : ∀ s ∈ segments, s.Valid) (hmerge : mergeSegments p segments = .ok merged) : ∀ m ∈ merged, m.Valid := by
  obtain ⟨merged',groups,hgroups,hok,-⟩ := mergeSegments_grouped hne hfilled
  have hrange : ∀ s ∈ segments, s.memoryEnd < usizeBound ∧ s.fileEnd < usizeBound := by
    intro s hs
    have hfits := (hvalid s hs).fits
    have hend := (hvalid s hs).user.memoryEnd_lt
    simp only [LoadSegment.memoryEnd,LoadSegment.fileEnd,usizeBound] at *
    omega
  cases (hok hrange p).symm.trans hmerge
  have hfit : FilesFit segments := fun s hs =>
    ⟨s,hs,Nat.add_le_add_left (hvalid s hs).fits _,fun x hlo hhi => absurd hhi (by omega)⟩
  have hfits := hgroups.fits_iff_filesFit.mpr (filesFit_sortByVaddr.mpr hfit)
  have huser := hgroups.addressable_iff.mpr fun s hs => (hvalid s (mem_sortByVaddr.mp hs)).user
  exact fun m hm => ⟨hfits m hm,huser m hm⟩

section Create
variable {physAddr : F} {memory : UserMemory F}

def programSharedDataPage : Nat := programSharedDataAddr / pageSize

/-- With n frames left behind the top table, no segment is reached that lacks data, and the segments cannot
be loaded or the shared page is none of theirs and there are frames for its tables. -/
structure CreationOk (n : Nat) (segments : List LoadSegment) : Prop where
  data : dataThere n [] segments = true
  sharedPage : UserMemory.framesLast n [] (segments.flatMap LoadSegment.pages) = true →
    programSharedDataPage ∉ segments.flatMap LoadSegment.pages ∧ UserMemory.framesTaken (segments.flatMap LoadSegment.pages) +
      UserMemory.tablesAdded (segments.flatMap LoadSegment.pages) programSharedDataPage ≤ n

theorem AddressSpace.Accounted.frame_mem {s : AddressSpace F} {page : Nat} {entry : PageTableEntry F} (h : s.Accounted owned frames)
    (hpage : page ∈ owned) (hentry : s.memory.leaves page = some entry) : entry.frame ∈ frames := by
  rw [← h.frames,UserMemory.total]
  refine Multiset.mem_cons_of_mem (Multiset.mem_add.mpr (.inl (Multiset.mem_add.mpr (.inl ?_))))
  refine Multiset.mem_of_le (Finset.single_le_sum (f := fun p => frameOf (s.memory.leaves p)) (fun _ _ => Multiset.zero_le _) hpage) ?_
  rw [hentry]
  exact Multiset.mem_singleton_self _

variable [DecidableEq F] [Mapper F]

theorem mapIntoProcess_one (region : SharedRegion F) (s : AddressSpace F) :
    mapIntoProcess [region] s = s.mapFrames region.defaultUserVaddr [region.physAddr] region.pageTableFlags .borrowed := by
  rw [mapIntoProcess]
  generalize s.mapFrames region.defaultUserVaddr [region.physAddr] region.pageTableFlags .borrowed = r
  obtain ⟨_ | _,t⟩ := r <;> rfl

theorem mapIntoProcess_frames [NamesMapped F] {s : AddressSpace F} (h : s.Accounted owned frames) (hn : s.memory.Holding n pages)
    (hphys : physAddr ∉ frames) (hpages : ∀ page ∈ pages, page ∈ owned) (howned : programSharedDataPage ∉ pages → programSharedDataPage ∉ owned) :
    ((programSharedDataPage ∉ pages ∧ UserMemory.framesTaken pages + UserMemory.tablesAdded pages programSharedDataPage ≤ n) ∧
        ∃ t, mapIntoProcess [programSharedData physAddr] s = (true,t) ∧ t.Accounted owned frames) ∨
      ¬ (programSharedDataPage ∉ pages ∧ UserMemory.framesTaken pages + UserMemory.tablesAdded pages programSharedDataPage ≤ n) ∧
        ∃ t, mapIntoProcess [programSharedData physAddr] s = (false,t) := by
  have hmap := s.mapFrames_one programSharedDataPage physAddr (programSharedData physAddr).pageTableFlags .borrowed
  have hflags : (programSharedData physAddr).pageTableFlags.present := rfl
  have hborrowed := h.mapBorrowed programSharedDataPage physAddr hflags
  have hinto : mapIntoProcess [programSharedData physAddr] s =
      s.mapFrames (programSharedDataPage * pageSize) [physAddr] (programSharedData physAddr).pageTableFlags .borrowed :=
    mapIntoProcess_one (programSharedData physAddr) s
  rw [hinto]
  by_cases hpage : programSharedDataPage ∈ pages
  · refine .inr ⟨fun hfits => hfits.1 hpage,?_⟩
    obtain ⟨entry,hentry⟩ := Option.ne_none_iff_exists'.mp ((hn.mapped _).mpr hpage)
    have hiff : (s.memory.mapSpecificFrame programSharedDataPage physAddr (programSharedData physAddr).pageTableFlags).1 = .ok () ↔ _ :=
      UserMemory.mapSpecificFrame_mapped_iff hn.intact hentry
    have hother : entry.frame ≠ physAddr := fun hsame => hphys (hsame ▸ h.frame_mem (hpages _ hpage) hentry)
    rw [hmap]
    generalize s.memory.mapSpecificFrame programSharedDataPage physAddr (programSharedData physAddr).pageTableFlags = r at *
    obtain ⟨_ | _,u⟩ := r
    · exact ⟨_,rfl⟩
    · exact absurd (hiff.mp rfl) hother
  · have hnone : s.memory.leaves programSharedDataPage = none := by
      by_contra hmapped
      exact hpage ((hn.mapped _).mp hmapped)
    have hiff := UserMemory.mapSpecificFrame_iff hnone physAddr (programSharedData physAddr).pageTableFlags
    have hfree := hn.free
    rw [hn.missingTables] at hiff
    have hborrowed := hborrowed (howned hpage)
    rw [hmap] at hborrowed ⊢
    generalize s.memory.mapSpecificFrame programSharedDataPage physAddr (programSharedData physAddr).pageTableFlags = r at *
    obtain ⟨_ | _,u⟩ := r
    · exact .inr ⟨fun hfits => (nomatch hiff.mpr (by omega)),_,rfl⟩
    · have := hiff.mp rfl
      exact .inl ⟨⟨hpage,by omega⟩,_,rfl,hborrowed rfl⟩

/-- The pages of the stack. -/
def stackPages : List Nat := pagesOf (userStackTop - defaultNewProcessStackSize) defaultNewProcessStackSize

theorem programSharedDataPage_notMem_stackPages : programSharedDataPage ∉ stackPages := by
  rw [stackPages,mem_pagesOf]
  decide

theorem mapStack_cases {s : AddressSpace F} (h : s.Accounted owned frames) (hpages : ∀ page ∈ stackPages, page ∈ owned) :
    (∃ left, (.ok (mapStack s) : Outcome (Except (UserMemory F) (AddressSpace F))) = .ok (.error left) ∧ left.available = frames) ∨
      ∃ owned t, (.ok (mapStack s) : Outcome (Except (UserMemory F) (AddressSpace F))) = .ok (.ok t) ∧ t.Accounted owned frames := by
  have hstack : (s.mapOwnedRegion (userStackTop - defaultNewProcessStackSize) defaultNewProcessStackSize
      { present := true, writable := true, noExecute := true }).2.Accounted owned frames := h.mapOwnedRegion rfl hpages
  unfold mapStack
  generalize s.mapOwnedRegion (userStackTop - defaultNewProcessStackSize) defaultNewProcessStackSize _ = r at *
  obtain ⟨_ | _,u⟩ := r
  · exact .inl ⟨_,rfl,hstack.freeAddressSpace⟩
  · exact .inr ⟨_,u,rfl,hstack⟩

/-- The creation of the address space panics, or it is complete, or all frames are given back. -/
theorem createWithElf_cases [NamesMapped F] (hvalid : ∀ m ∈ segments, m.Valid) (hphys : physAddr ∉ memory.available) :
    ((∀ n, memory.available.card = n + 1 → CreationOk n segments) ∧
      ((∃ left, createWithElf [programSharedData physAddr] segments memory = .ok (.error left) ∧ left.available = memory.available) ∨
        ∃ owned t, createWithElf [programSharedData physAddr] segments memory = .ok (.ok t) ∧ t.Accounted owned memory.available)) ∨
      (¬ ∀ n, memory.available.card = n + 1 → CreationOk n segments) ∧
        createWithElf [programSharedData physAddr] segments memory = .error .panic := by
  rw [createWithElf]
  cases ha : memory.allocateFrame with
  | none =>
    have hzero := UserMemory.allocateFrame_eq_none.mp ha
    exact .inl ⟨fun n hn => by rw [hzero,Multiset.card_zero] at hn; omega,.inl ⟨memory,rfl,rfl⟩⟩
  | some x =>
    obtain ⟨topPageTablePhys,rest⟩ := x
    obtain ⟨havail,-⟩ := UserMemory.available_of_allocateFrame ha
    have hcard : memory.available.card = rest.available.card + 1 := by rw [havail,Multiset.card_cons]
    have hfits : (∀ n, memory.available.card = n + 1 → CreationOk n segments) ↔ CreationOk rest.available.card segments :=
      ⟨fun h => h _ hcard,fun h n hn => by rwa [Nat.succ.inj (hn.symm.trans hcard)]⟩
    have howned : ∀ page ∈ segments.flatMap LoadSegment.pages, page ∈ (segments.flatMap LoadSegment.pages ++ stackPages).toFinset :=
      fun page hpage => List.mem_toFinset.mpr (List.mem_append_left _ hpage)
    have hstart := AddressSpace.holding_withPageTable topPageTablePhys rest
    have hnew := AddressSpace.Accounted.withPageTable (segments.flatMap LoadSegment.pages ++ stackPages).toFinset topPageTablePhys rest
    rw [← havail] at hnew
    rw [hfits]
    dsimp only
    obtain ⟨hdata,⟨hlast,s,hs,hacc,hholding⟩ | ⟨hlast,left,hleft,hback⟩⟩ | ⟨hdata,hpanic⟩ :=
      loadSegments_frames hnew hstart hvalid howned
    · rw [hs,ok_bind]
      rw [List.nil_append] at hholding
      have hnot : programSharedDataPage ∉ segments.flatMap LoadSegment.pages →
          programSharedDataPage ∉ (segments.flatMap LoadSegment.pages ++ stackPages).toFinset := by
        rw [List.mem_toFinset,List.mem_append]
        exact fun hnot => not_or.mpr ⟨hnot,programSharedDataPage_notMem_stackPages⟩
      obtain ⟨hmaps,t,ht,hacc⟩ | ⟨hnot,t,ht⟩ := mapIntoProcess_frames hacc hholding hphys howned hnot
      · refine .inl ⟨⟨hdata,fun _ => hmaps⟩,?_⟩
        dsimp only
        rw [ht]
        exact mapStack_cases hacc fun page hpage => List.mem_toFinset.mpr (List.mem_append_right _ hpage)
      · refine .inr ⟨fun h => hnot (h.sharedPage hlast),?_⟩
        dsimp only
        rw [ht]
    · rw [hleft,ok_bind]
      exact .inl ⟨⟨hdata,fun h => absurd (hlast.symm.trans h) Bool.false_ne_true⟩,.inl ⟨left,rfl,hback⟩⟩
    · rw [hpanic]
      exact .inr ⟨fun h => Bool.false_ne_true (hdata.symm.trans h.data),rfl⟩

end Create

/-- A task of the pid is ready, in a queue of its home core. -/
def Kernel.Queued (k : Kernel) (pid : Nat) : Prop :=
  ∃ slot, (k.tasks slot).pid = pid ∧ (k.tasks slot).state = .ready ∧
    (k.runQueues (k.tasks slot).homeCore).contains k.next slot = .ok true

section Queue
variable {k : Kernel} {core : Core} {priority : Nat}

theorem coreEnqueueReadyTask_ok (k : Kernel) (core : Core) (slot : Slot) (hpriority : priority < priorityLevelCount) :
    ∃ k', k.coreEnqueueReadyTask core slot priority = .ok k' ∧ k'.tasks = k.tasks := by
  simp only [Kernel.coreEnqueueReadyTask,Kernel.pushTask,CoreRunQueue.push,TaskSlotQueueTable.push,dif_pos hpriority,ok_bind]
  refine ⟨_,rfl,?_⟩
  split_ifs <;> rfl

theorem create_queued (h : Consistent k) (hpid : k.newPid < invalidPid) (hpriority : priority < priorityLevelCount)
    (hfree : allocateTaskSlot k.tasks k.newPid priority core ≠ none) :
    ∃ k', k.create core priority = .ok k' ∧ k'.Queued k.newPid := by
  obtain ⟨⟨slot,tasks⟩,halloc⟩ := Option.ne_none_iff_exists'.mp hfree
  have htasks : tasks = Function.update k.tasks slot (.allocated k.newPid priority core) := by
    obtain ⟨_,-,heq⟩ := Option.map_eq_some_iff.mp halloc
    cases heq
    rfl
  have hok : ∃ k', k.create core priority = .ok k' ∧ k'.tasks = Function.update tasks slot ((tasks slot).setState .ready) := by
    rw [Kernel.create,halloc]
    exact coreEnqueueReadyTask_ok _ core slot hpriority
  obtain ⟨k',hk',hupdate⟩ := hok
  have htask : k'.tasks slot = (TaskSlot.allocated k.newPid priority core).setState .ready := by
    rw [hupdate,Function.update_self,htasks,Function.update_self]
  have hready : (k'.tasks slot).state = .ready := by rw [htask]; rfl
  obtain ⟨lists,hl⟩ := (h.create hpid hk').queues.lists
  obtain ⟨home,hon⟩ := (hl.ready slot).mp hready
  refine ⟨k',hk',slot,by rw [htask]; rfl,hready,(hl.rep.contains_iff _ slot).mpr ?_⟩
  rw [hl.home home slot hon]
  exact hon

end Queue

namespace ProcessSystem
variable {s t : ProcessSystem F} {totalCores parentPid priority : Nat} {name : String} {elfInfo : ElfLoadInfo} {physAddr : F}

/-- The process is in the table, and its task is queued. -/
structure Created (s t : ProcessSystem F) (pid : Nat) : Prop where
  process : ∃ process, t.processes = s.processes ++ [process] ∧ process.pid = pid
  queued : t.kernel.Queued pid

/-- Only the pid that comes next may be another one, and the free frames may come in another order. -/
structure Unchanged (s t : ProcessSystem F) : Prop where
  processes : t.processes = s.processes
  kernel : ∃ newPid, t.kernel = { s.kernel with newPid }
  frames : t.allocator.available = s.allocator.available

def AllOrNothing (s : ProcessSystem F) (r : Outcome (Except ProcessError Nat × ProcessSystem F)) : Prop :=
  (∃ pid t, r = .ok (.ok pid,t) ∧ Created s t pid) ∨ ∃ e t, r = .ok (.error e,t) ∧ Unchanged s t

theorem unchanged_abandoned {memory : UserMemory F} (h : memory.available = s.memory.available) : Unchanged s (s.abandoned memory) :=
  ⟨rfl,⟨_,rfl⟩,h⟩

variable [DecidableEq F] [Mapper F] [NamesMapped F]

/-- The creation of a process from a valid file is all or nothing exactly when the parent is missing, or the
data of the segments are there and the shared page can be mapped whenever their turn comes. -/
theorem createProcessFromElf_allOrNothing_iff {acts : List KernelAct} (hreach : steps Kernel.step acts {} = some s.kernel)
    (hpid : s.kernel.newPid < invalidPid) (hparent : parentPid ≠ invalidPid) (hpriority : priority < priorityLevelCount)
    (hphys : physAddr ∉ s.allocator.available) (hvalid : ∀ m ∈ elfInfo.segments, m.Valid) :
    AllOrNothing s (s.createProcessFromElf [programSharedData physAddr] totalCores parentPid elfInfo name priority) ↔
      ((∃ process ∈ s.processes, process.pid = parentPid) → ∀ n, s.allocator.available.card = n + 1 → CreationOk n elfInfo.segments) := by
  rw [createProcessFromElf,getProcess,if_neg hparent,ok_bind]
  cases hfind : s.processes.find? fun process => process.pid = parentPid with
  | none =>
    refine iff_of_true (.inr ⟨_,s,rfl,rfl,⟨_,rfl⟩,rfl⟩) ?_
    rintro ⟨process,hprocess,hpid⟩
    exact absurd (decide_eq_true hpid) (List.find?_eq_none.mp hfind process hprocess)
  | some parent =>
    have hexists : ∃ process ∈ s.processes, process.pid = parentPid :=
      ⟨parent,List.mem_of_find?_eq_some hfind,by simpa using List.find?_some hfind⟩
    rw [forall_prop_of_true hexists]
    dsimp only
    obtain ⟨hfits,hcase⟩ | ⟨hnot,hpanic⟩ := createWithElf_cases hvalid (show physAddr ∉ s.memory.available from hphys)
    · refine iff_of_true ?_ hfits
      obtain ⟨left,hleft,hback⟩ | ⟨owned,space,hspace,hacc⟩ := hcase
      · rw [hleft]
        exact .inr ⟨_,_,rfl,unchanged_abandoned hback⟩
      · rw [hspace]
        dsimp only [ok_bind]
        cases hfree : allocateTaskSlot s.kernel.tasks s.kernel.newPid priority (leastLoadedCore totalCores s.kernel) with
        | none => exact .inr ⟨_,_,rfl,unchanged_abandoned hacc.freeAddressSpace⟩
        | some x =>
          obtain ⟨kernel,hkernel,hqueued⟩ := create_queued (Consistent.run hreach) hpid hpriority (by rw [hfree]; nofun)
          dsimp only
          rw [hkernel]
          exact .inl ⟨_,_,rfl,⟨_,rfl,rfl⟩,hqueued⟩
    · rw [hpanic]
      refine iff_of_false ?_ hnot
      rintro (⟨pid,t,h,-⟩ | ⟨e,t,h,-⟩) <;> cases h

section OutOfFrames

/-- One byte at 0x400000. -/
abbrev oneByte : ElfLoadInfo := ⟨0x400000,0x400000,0x400001,[⟨0x400000,1,1,5,[7]⟩]⟩

/-- The kernel as the only process, its shared page in frame 0, and n free frames. -/
abbrev archeAlone (n : Nat) : ProcessSystem Nat :=
  ⟨{},[⟨0,0,7,"arche",0,processHeapVirtStart,[],[],fun _ => none⟩],⟨[],List.range' 1 n⟩,fun _ _ => 0⟩

/-- Five frames are enough for the top table and the segment. None is left for the tables of the shared page,
and the creation panics. -/
theorem shared_page_panics : (∀ m ∈ oneByte.segments, m.Valid) ∧ dataThere 4 [] oneByte.segments = true ∧
    (archeAlone 5).createProcessFromElf [programSharedData 0] 4 0 oneByte "odys" 7 = .error .panic ∧
    ¬ AllOrNothing (archeAlone 5) ((archeAlone 5).createProcessFromElf [programSharedData 0] 4 0 oneByte "odys" 7) := by
  have hpanic : (archeAlone 5).createProcessFromElf [programSharedData 0] 4 0 oneByte "odys" 7 = .error .panic := rfl
  refine ⟨List.forall_mem_singleton.mpr ⟨by decide,by decide,.inr (by decide)⟩,rfl,hpanic,?_⟩
  rw [hpanic]
  rintro (⟨pid,t,h,-⟩ | ⟨e,t,h,-⟩) <;> cases h

theorem createProcessFromElf_allOrNothing_iff_arche :
    AllOrNothing (archeAlone 5) ((archeAlone 5).createProcessFromElf [programSharedData 0] 4 0 oneByte "odys" 7) ↔
      ((∃ process ∈ (archeAlone 5).processes, process.pid = 0) → ∀ n, (archeAlone 5).allocator.available.card = n + 1 →
        CreationOk n oneByte.segments) :=
  createProcessFromElf_allOrNothing_iff (show steps Kernel.step [] {} = some (archeAlone 5).kernel from rfl) (by decide) (by decide) (by decide) (by decide)
    (List.forall_mem_singleton.mpr ⟨by decide,by decide,.inr (by decide)⟩)

end OutOfFrames
end ProcessSystem
end MofuOS.Process
