import MofuOS.Process.Switch
import Mathlib.Algebra.BigOperators.Group.Finset.Piecewise

/-! The run queues of all cores in every reachable state. -/
namespace MofuOS.Process
open Lib

theorem RunQueuesOk.frame {next next' : Links} {queues : Core → CoreRunQueue} {lists : Place → List Slot}
    (h : RunQueuesOk next queues lists) (hn : ∀ place, ∀ x ∈ lists place, next' x = next x) : RunQueuesOk next' queues lists :=
  ⟨⟨fun place => (h.threads.threaded place).congr (hn place),h.threads.disjoint⟩,h.bits⟩

namespace Consistent
variable {k k' : Kernel} {core coreFrom : Core} {slot : Slot} {lists : Place → List Slot}

/-- A queued task that no core runs moves to the queue of another core. -/
theorem migrate {bank : RequeueType} {level : Level} {next' : Links} {queue' : CoreRunQueue} (h : Consistent k)
    (hl : Agrees k.tasks k.next k.runQueues lists) (hmem : slot ∈ lists (coreFrom,bank,level)) (hcpu : (k.tasks slot).onCpu = false)
    (hsleep : queue'.sleepingTasks = (k.runQueues coreFrom).sleepingTasks)
    (hrep : RunQueuesOk next' (Function.update k.runQueues coreFrom queue')
      (Function.update lists (coreFrom,bank,level) ((lists (coreFrom,bank,level)).erase slot)))
    (hne : coreFrom ≠ core) (hk : (Kernel.setRunQueue { k with next := next' } coreFrom queue').migrate core coreFrom slot = .ok k') :
    Consistent k' := by
  have hon : onCore lists coreFrom slot := ⟨bank,level,hmem⟩
  have hready := (hl.ready slot).mpr ⟨coreFrom,hon⟩
  have hhome := hl.home coreFrom slot hon
  have herase : ∀ core' x, onCore (Function.update lists (coreFrom,bank,level) ((lists (coreFrom,bank,level)).erase slot)) core' x ↔
      onCore lists core' x ∧ x ≠ slot := fun _ _ => onCore_erase hl.rep hmem
  rw [Kernel.migrate] at hk
  obtain ⟨level',next'',queue'',rfl,hsleep',hrep'⟩ := pushTask_spec (by exact hrep)
    (fun place hm => ((herase place.1 slot).mp ⟨place.2.1,place.2.2,hm⟩).2 rfl) hk
  have hagrees : ∃ lists', Agrees (Function.update k.tasks slot { k.tasks slot with homeCore := core }) next''
      (Function.update (Function.update k.runQueues coreFrom queue') core queue'') lists' := by
    refine ⟨_,hl.set hrep' (fun core' x hx => ?_) fun core' => ?_⟩
    · rw [onCore_push,herase]
      exact ⟨fun hor => (hor.resolve_right fun e => hx e.2).1,fun hor => .inl ⟨hor,hx⟩⟩
    · rw [onCore_push,herase]
      constructor
      · rintro (⟨_,hself⟩ | ⟨rfl,_⟩)
        · exact absurd rfl hself
        · exact ⟨hready,rfl⟩
      · rintro ⟨_,rfl⟩
        exact .inr ⟨rfl,rfl⟩
  have hstate : TaskSlot.state { k.tasks slot with homeCore := core } = .ready := hready
  have hcount := h.queues.move hready hstate (by rw [hhome]; exact hne)
  have hkeep : Function.update k.runnableTasksCount coreFrom (fetchSub (k.runnableTasksCount coreFrom)) core =
      k.runnableTasksCount core := Function.update_of_ne hne.symm ..
  rw [hhome] at hcount
  have hoff : ∀ core' ref, k.current core' = some ref → ref.slot ≠ slot := by
    rintro core' ref hc rfl
    have hheld := (h.current.held core' ref hc).2.1
    rw [hcpu] at hheld
    cases hheld
  have hfree : (k.tasks slot).state ≠ .free := by rw [hready]; decide
  have hnot : TaskSlot.state { k.tasks slot with homeCore := core } ≠ .running := by rw [hstate]; decide
  have hsleepers : ∀ core', (Function.update (Function.update k.runQueues coreFrom queue') core queue'' core').sleepingTasks =
      (k.runQueues core').sleepingTasks := fun core' => (sleeping_update hsleep' core').trans (sleeping_update hsleep core')
  have hent := entries_requeued k next'' k.runnableTasksCount k.shouldBeRescheduled hsleepers
  have hentries : ∀ s, EntryOk k.entries s (Function.update k.tasks slot { k.tasks slot with homeCore := core } s) (k.joined s)
      (k.sawKill s) := by
    refine EntryOk.update (EntryOk.off rfl (by rw [hstate]; decide) fun place hm => ?_) fun s _ => h.entries s
    rcases (h.entries slot).spent place hm with ⟨hb,_⟩ | ⟨hkill,_⟩
    · rw [hready] at hb
      cases hb
    · exact ⟨hkill,.inl hready⟩
  rw [← hent] at hentries
  refine ⟨⟨hagrees,fun core' => ?_⟩,h.current.replace hoff hnot,hentries,?_,h.live_update rfl hfree,h.pids⟩
  · have hthis := hcount core'
    rw [← hkeep] at hthis
    exact hthis
  · have hnamed := h.named
    rw [← hent] at hnamed
    exact hnamed

theorem stealFrom {locked : Core → Bool} {cores : List Core} (h : Consistent k) (hk : k.stealFrom core locked cores = .ok k') :
    Consistent k' := by
  induction cores with
  | nil =>
    cases hk
    exact h
  | cons coreFrom cores ih =>
    rw [Kernel.stealFrom] at hk
    split_ifs at hk with hskip
    · exact ih hk
    · obtain ⟨lists,hl⟩ := h.queues.lists
      rcases hl.rep.takeStealableTask (fun slot => (k.tasks slot).onCpu) coreFrom with
        ⟨queue',htake,_⟩ | ⟨slot,bank,level,next',queue',htake,hmem,hcpu,hsleep,hrep⟩
      · rw [htake] at hk
        exact ih hk
      · rw [htake] at hk
        exact h.migrate hl hmem hcpu hsleep hrep (fun e => hskip (.inl e)) hk

/-- A task is killed, or changes in nothing the queues depend on. -/
theorem setTask {task : TaskSlot} (h : Consistent k) (hpid : task.pid = (k.tasks slot).pid) (hcpu : task.onCpu = (k.tasks slot).onCpu)
    (hhome : task.homeCore = (k.tasks slot).homeCore) (hstate : task.state = (k.tasks slot).state)
    (hkill : (k.tasks slot).killPending = true → task.killPending = true) : Consistent (k.setTask slot task) := by
  have hsame : ∀ s, (Function.update k.tasks slot task s).pid = (k.tasks s).pid ∧
      (Function.update k.tasks slot task s).onCpu = (k.tasks s).onCpu ∧
      (Function.update k.tasks slot task s).homeCore = (k.tasks s).homeCore ∧
      (Function.update k.tasks slot task s).state = (k.tasks s).state := by
    intro s
    by_cases hs : s = slot
    · subst hs
      rw [Function.update_self]
      exact ⟨hpid,hcpu,hhome,hstate⟩
    · rw [Function.update_of_ne hs]
      exact ⟨rfl,rfl,rfl,rfl⟩
  refine ⟨h.queues.congr (fun _ _ => rfl) fun s => ⟨(hsame s).2.2.2,(hsame s).2.2.1⟩,h.current.congr hsame,
    EntryOk.update ((h.entries slot).congr hpid hstate hhome hkill fun _ => id) fun s _ => h.entries s,h.named,fun s hs => ?_,h.pids⟩
  refine (congrArg (· < k.newPid) (hsame s).1).mpr (h.live s ?_)
  rw [← (hsame s).2.2.2]
  exact hs

theorem requestKill {pid : Nat} {exitCode : Int} (h : Consistent k) (hk : k.requestKill pid exitCode = .ok k') : Consistent k' := by
  rw [Kernel.requestKill] at hk
  cases hfind : findSlotByPid k.tasks pid with
  | none =>
    rw [hfind] at hk
    cases hk
    exact h
  | some slot =>
    rw [hfind] at hk
    obtain ⟨k₁,hwake,hk⟩ := bind_eq_ok hk
    have hkilled : Consistent (k.setTask slot { k.tasks slot with exitCodeRequest := exitCode, killPending := true }) :=
      h.setTask rfl rfl rfl rfl fun _ => rfl
    obtain ⟨h₁,_⟩ := hkilled.wakeTask (fun _ _ => .inl (by simp only [Kernel.setTask,Function.update_self])) hwake
    cases hk
    split_ifs
    · exact h₁.markCoreForReschedule _
    · exact h₁

/-- A new task has a pid that no entry has, in a slot that no core runs. -/
theorem create {priority : Nat} (h : Consistent k) (hpid : k.newPid < invalidPid) (hk : k.create core priority = .ok k') :
    Consistent k' := by
  have hnamed : ∀ place ref, ref ∈ k.entries place → ref.pid < k.newPid + 1 :=
    fun place ref hm => Nat.lt_succ_of_lt (h.named place ref hm)
  rw [Kernel.create] at hk
  rw [allocateTaskSlot] at hk
  cases hfind : (List.finRange maxTasks).find? fun slot => (k.tasks slot).state = .free with
  | none =>
    rw [hfind] at hk
    cases hk
    exact ⟨h.queues,h.current,h.entries,hnamed,fun s hs => Nat.lt_succ_of_lt (h.live s hs),hpid⟩
  | some slot =>
    rw [hfind] at hk
    have hfree : (k.tasks slot).state = .free := by simpa using List.find?_some hfind
    have hrest : (k.tasks slot).state ≠ .ready ∧ (k.tasks slot).state ≠ .running ∧ (k.tasks slot).state ≠ .blocked := by
      rw [hfree]
      decide
    have hoff : ∀ core' ref, k.current core' = some ref → ref.slot ≠ slot := by
      rintro core' ref hc rfl
      by_cases hj : k.joined ref.slot = none
      · exact hrest.2.1 (h.current.running core' ref hc hj)
      · exact (h.current.waiting core' ref hc hj).elim hrest.2.2 hrest.1
    have hjoined : Function.update k.joined slot none = k.joined := by
      refine Function.update_eq_self_iff.mpr ?_
      by_contra hj
      obtain ⟨core',ref,hc,hs⟩ := h.current.owner slot (.inr (Ne.symm hj))
      exact hoff core' ref hc hs
    have hfresh : ∀ place, ⟨slot,k.newPid⟩ ∉ k.entries place := fun place hm => Nat.lt_irrefl _ (h.named place _ hm)
    obtain ⟨lists,hl⟩ := h.queues.lists
    have hlink : QueueOk k.tasks (Function.update k.next slot none) k.runQueues k.runnableTasksCount := by
      refine ⟨⟨lists,hl.congr (hl.rep.frame fun place x hx => Function.update_of_ne ?_ ..) fun _ => ⟨rfl,rfl⟩⟩,h.queues.count⟩
      rintro rfl
      exact hl.notMem hrest.1 place hx
    simp only [Option.map_some,Function.update_self,Function.update_idem,hjoined] at hk
    obtain ⟨next',queues',counts',reschedule',rfl,hsleep,hq⟩ := enqueue_spec (by exact hlink) rfl hrest.1 hrest.2.1 (by rfl) (by rfl) hk
    have hent := entries_requeued k next' counts' reschedule' hsleep
    have hentries : ∀ s, EntryOk k.entries s (Function.update k.tasks slot ((TaskSlot.allocated k.newPid priority core).setState .ready) s)
        (k.joined s) (Function.update k.sawKill slot false s) := by
      refine EntryOk.update (.of_notMem hfresh) fun s hs => ?_
      rw [Function.update_of_ne hs]
      exact h.entries s
    rw [← hent] at hentries hnamed
    refine ⟨hq,h.current.replace hoff (nomatch ·),hentries,hnamed,fun s hs => ?_,hpid⟩
    by_cases he : s = slot
    · subst he
      refine Nat.lt_succ_of_le (Nat.le_of_eq ?_)
      exact congrArg TaskSlot.pid (Function.update_self s _ k.tasks)
    · have hkeep : Function.update k.tasks slot ((TaskSlot.allocated k.newPid priority core).setState .ready) s = k.tasks s :=
        Function.update_of_ne he ..
      refine Nat.lt_succ_of_lt ((congrArg (TaskSlot.pid · < k.newPid) hkeep).mpr (h.live s ?_))
      rw [← hkeep]
      exact hs

/-- Every operation, on every core, keeps the invariant. -/
theorem step {act : KernelAct} (h : Consistent k) (hk : Kernel.step act k = some k') : Consistent k' := by
  cases act with
  | create core priority =>
    rw [Kernel.step] at hk
    split_ifs at hk with hpid
    exact h.create hpid (of_toOption hk)
  | pick core =>
    rw [Kernel.step] at hk
    split_ifs at hk with hc
    exact h.pickAndRun hc (of_toOption hk)
  | runScheduling core => exact h.coreRunScheduling (of_toOption hk)
  | yield core =>
    rw [Kernel.step] at hk
    split_ifs at hk
    exact h.coreYieldExecutingTasks (of_toOption hk)
  | markBlocked core waitQueue =>
    rw [Kernel.step] at hk
    split_ifs at hk with hb
    exact h.addCurrentTaskAndMarkBlocked hb (of_toOption hk)
  | removeAndWake core =>
    rw [Kernel.step] at hk
    cases hc : k.current core with
    | none =>
      rw [hc] at hk
      cases hk
    | some ref =>
      rw [hc] at hk
      obtain ⟨waitQueue,hj,hk⟩ := Option.bind_eq_some_iff.mp hk
      exact h.removeAndWake hc hj (of_toOption hk)
  | sleep core wakeTimeUs =>
    rw [Kernel.step] at hk
    split_ifs at hk with hb
    exact h.coreBlockCurrentTaskUntilWakeTime hb (of_toOption hk)
  | wakeAll waitQueue => exact h.wakeAll (of_toOption hk)
  | timer core nowUs => exact h.onTimerTick (of_toOption hk)
  | steal core locked =>
    rw [Kernel.step] at hk
    split_ifs at hk
    exact h.stealFrom (of_toOption hk)
  | requestKill pid exitCode => exact h.requestKill (of_toOption hk)
  | exit core =>
    rw [Kernel.step] at hk
    split_ifs at hk with hb
    exact h.exitCurrent hb (of_toOption hk)

theorem run {acts : List KernelAct} (hk : steps Kernel.step acts {} = some k) : Consistent k :=
  steps_keep (fun _ _ _ => step) new hk

end Consistent

/-- The tasks in the queues of a core. -/
def queuedOn (lists : Place → List Slot) (core : Core) : List Slot :=
  (List.finRange priorityLevelCount).flatMap fun level => lists (core,.executingTasks,level) ++ lists (core,.yieldingTasks,level)

/-- The tasks that run on a core. -/
def Kernel.runningOn (k : Kernel) (core : Core) : Finset Slot :=
  Finset.univ.filter fun slot => (k.tasks slot).state = .running ∧ (k.current core).map (·.slot) = some slot

section Counting
variable {k : Kernel} {lists : Place → List Slot} {core : Core} {slot : Slot}

theorem mem_queuedOn : slot ∈ queuedOn lists core ↔ onCore lists core slot := by
  rw [queuedOn,List.mem_flatMap]
  constructor
  · rintro ⟨level,_,hm⟩
    rcases List.mem_append.mp hm with hm | hm
    · exact ⟨.executingTasks,level,hm⟩
    · exact ⟨.yieldingTasks,level,hm⟩
  · rintro ⟨bank,level,hm⟩
    refine ⟨level,List.mem_finRange level,?_⟩
    cases bank with
    | executingTasks => exact List.mem_append_left _ hm
    | yieldingTasks => exact List.mem_append_right _ hm

theorem nodup_queuedOn {next : Links} {queues : Core → CoreRunQueue} (h : RunQueuesOk next queues lists) (core : Core) :
    (queuedOn lists core).Nodup := by
  rw [queuedOn,List.nodup_flatMap]
  have hplace : ∀ {place place' : Place} {x : Slot}, x ∈ lists place → x ∈ lists place' → place = place' :=
    fun hx hx' => h.threads.disjoint _ _ _ hx hx'
  refine ⟨fun level _ => ?_,(List.nodup_finRange priorityLevelCount).imp fun {a b} hab => ?_⟩
  · refine List.nodup_append.mpr ⟨(h.threads.threaded _).nodup,(h.threads.threaded _).nodup,?_⟩
    rintro x hx y hy rfl
    cases hplace hx hy
  · intro x hx hx'
    rcases List.mem_append.mp hx with hx | hx <;> rcases List.mem_append.mp hx' with hx' | hx' <;> cases hplace hx hx'
    · exact hab rfl
    · exact hab rfl

theorem load_eq_card (tasks : Tasks) (core : Core) : load tasks core =
    (Finset.univ.filter fun slot => (tasks slot).state = .ready ∧ (tasks slot).homeCore = core).card +
      (Finset.univ.filter fun slot => (tasks slot).state = .running ∧ (tasks slot).homeCore = core).card := by
  rw [load,Finset.card_filter,Finset.card_filter,← Finset.sum_add_distrib]
  refine Finset.sum_congr rfl fun slot _ => ?_
  rw [TaskSlot.runnableOn]
  cases hstate : (tasks slot).state <;> by_cases hhome : (tasks slot).homeCore = core <;> simp [hhome]

/-- The counter of a core is the length of its queues and the number of tasks that run there. -/
theorem Consistent.count_eq (h : Consistent k) (hl : Agrees k.tasks k.next k.runQueues lists) (core : Core) :
    k.runnableTasksCount core = (queuedOn lists core).length + (k.runningOn core).card := by
  have hqueued : (queuedOn lists core).toFinset =
      Finset.univ.filter fun slot => (k.tasks slot).state = .ready ∧ (k.tasks slot).homeCore = core := by
    ext slot
    rw [List.mem_toFinset,mem_queuedOn,Finset.mem_filter]
    constructor
    · exact fun hon => ⟨Finset.mem_univ _,(hl.ready slot).mpr ⟨core,hon⟩,hl.home core slot hon⟩
    · rintro ⟨_,hready,rfl⟩
      obtain ⟨core,hon⟩ := (hl.ready slot).mp hready
      exact hl.home core slot hon ▸ hon
  have hrunning : k.runningOn core =
      Finset.univ.filter fun slot => (k.tasks slot).state = .running ∧ (k.tasks slot).homeCore = core := by
    ext slot
    rw [Kernel.runningOn,Finset.mem_filter,Finset.mem_filter]
    refine and_congr_right fun _ => and_congr_right fun hrun => ?_
    rw [Option.map_eq_some_iff]
    constructor
    · rintro ⟨ref,hc,rfl⟩
      exact (h.current.held core ref hc).2.2
    · rintro rfl
      obtain ⟨core,ref,hc,rfl⟩ := h.current.owner slot (.inl hrun)
      exact ⟨ref,(h.current.held core ref hc).2.2 ▸ hc,rfl⟩
  rw [h.queues.count core,load_eq_card,← hqueued,← hrunning,List.toFinset_card_of_nodup (nodup_queuedOn hl.rep core)]

end Counting

/-- In every reachable state the queues are lists: the ready tasks, each in one queue of its home core, linked up to the
tail, with the bit of a level set while it is not empty. The counter of a core counts what is queued and runs there, and is not
zero when the running task gives up the core or a queued one is taken from it. -/
theorem run_queues_consistent {k : Kernel} {acts : List KernelAct} (hk : steps Kernel.step acts {} = some k) :
    ∃ lists : Place → List Slot,
      (∀ slot, (k.tasks slot).state = .ready → ∃ place, place.1 = (k.tasks slot).homeCore ∧ (lists place).count slot = 1 ∧
        ∀ other, other ≠ place → slot ∉ lists other) ∧
      (∀ slot, (k.tasks slot).state ≠ .ready → ∀ place, slot ∉ lists place) ∧
      (∀ place, (lists place).Nodup ∧
        Threaded k.next (queueAt k.runQueues place).head (queueAt k.runQueues place).tail (lists place)) ∧
      (∀ core bank (level : Level), ((k.runQueues core).table bank).nonEmptyLevels.getLsbD level = true ↔
        lists (core,bank,level) ≠ []) ∧
      (∀ core, k.runnableTasksCount core = (queuedOn lists core).length + (k.runningOn core).card) ∧
      (∀ core running, k.current core = some running → k.joined running.slot = none →
        0 < k.runnableTasksCount (k.tasks running.slot).homeCore) ∧
      ∀ place, lists place ≠ [] → 0 < k.runnableTasksCount place.1 := by
  have h := Consistent.run hk
  obtain ⟨lists,hl⟩ := h.queues.lists
  have hpos : ∀ {slot : Slot} {core : Core}, (k.tasks slot).runnableOn core = true → 0 < k.runnableTasksCount core := by
    intro slot core hon
    rw [h.queues.count core]
    exact load_pos hon
  refine ⟨lists,fun slot hready => ?_,fun slot => hl.notMem,fun place => ⟨(hl.rep.threads.threaded place).nodup,hl.rep.threads.threaded place⟩,
    hl.rep.bits,h.count_eq hl,fun core running hc hj => ?_,fun place hne => ?_⟩
  · obtain ⟨core,bank,level,hm⟩ := (hl.ready slot).mp hready
    refine ⟨(core,bank,level),(hl.home core slot ⟨bank,level,hm⟩).symm,?_,fun other hother hm' => ?_⟩
    · exact List.count_eq_one_of_mem (hl.rep.threads.threaded _).nodup hm
    · exact hother (hl.rep.threads.disjoint other _ slot hm' hm)
  · exact hpos (QueueOk.runnableOn_iff.mpr ⟨.inr (h.current.running core running hc hj),rfl⟩)
  · obtain ⟨slot,hm⟩ := List.exists_mem_of_ne_nil _ hne
    have hon : onCore lists place.1 slot := ⟨place.2.1,place.2.2,hm⟩
    exact hpos (QueueOk.runnableOn_iff.mpr ⟨.inl ((hl.ready slot).mpr ⟨_,hon⟩),hl.home _ _ hon⟩)

/-- Tasks block, are woken, stolen, put to sleep and killed on three cores. -/
def mixedRun : List KernelAct :=
  [.create 1 3,.create 1 2,.create 1 5,.pick 1,.markBlocked 1 .input,.runScheduling 1,.pick 1,.wakeAll .input,.steal 2 fun _ => false,
    .pick 2,.sleep 2 100,.timer 2 200,.pick 2,.requestKill 1 0,.runScheduling 1,.pick 1,.exit 1,.create 3 7]

theorem run_queues_consistent_mixed : ∃ k, steps Kernel.step mixedRun {} = some k ∧
    (List.finRange maxCores).map k.runnableTasksCount = [0,1,1,1] ∧
    ∃ lists : Place → List Slot, ∀ core, k.runnableTasksCount core = (queuedOn lists core).length + (k.runningOn core).card := by
  have hrun : (steps Kernel.step mixedRun {}).map (fun k => (List.finRange maxCores).map k.runnableTasksCount) = some [0,1,1,1] := by
    decide +kernel
  obtain ⟨k,hk,hcounts⟩ := Option.map_eq_some_iff.mp hrun
  obtain ⟨lists,_,_,_,_,hcount,_⟩ := run_queues_consistent hk
  exact ⟨k,hk,hcounts,lists,hcount⟩

end MofuOS.Process
