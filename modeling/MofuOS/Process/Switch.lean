import MofuOS.Process.Consistency

/-! Tasks get a core and give it up, to run again, to wait or for good. -/
namespace MofuOS.Process
open Lib

/-- The task on the core is about to switch out: it may be blocked or dead while it is still there. -/
structure Leaving (k : Kernel) (core : Core) (ref : TaskRef) : Prop where
  on : k.current core = some ref
  home : (k.tasks ref.slot).homeCore = core
  queues : QueueOk k.tasks k.next k.runQueues k.runnableTasksCount
  current : ∃ tasks task, k.tasks = Function.update tasks ref.slot task ∧ CurrentOk tasks k.current k.joined
  others : ∀ slot, slot ≠ ref.slot → EntryOk k.entries slot (k.tasks slot) (k.joined slot) (k.sawKill slot)
  entries : (k.tasks ref.slot).state ≠ .dead →
    EntryOk k.entries ref.slot (k.tasks ref.slot) (k.joined ref.slot) (k.sawKill ref.slot)
  named : ∀ place ref, ref ∈ k.entries place → ref.pid < k.newPid
  live : ∀ slot, (k.tasks slot).state ≠ .free → (k.tasks slot).pid < k.newPid
  pids : k.newPid ≤ invalidPid

variable {k k' : Kernel} {core : Core} {ref : TaskRef} {bank : RequeueType} {task : TaskSlot}

theorem Consistent.leaving (h : Consistent k) (hc : k.current core = some ref) : Leaving k core ref :=
  ⟨hc,(h.current.held core ref hc).2.2,h.queues,⟨k.tasks,k.tasks ref.slot,(Function.update_eq_self ..).symm,h.current⟩,
    fun slot _ => h.entries slot,fun _ => h.entries ref.slot,h.named,h.live,h.pids⟩

namespace Leaving

/-- The leaving task changes, and keeps its pid and its home. -/
theorem set (h : Leaving k core ref) (ht : k'.tasks = Function.update k.tasks ref.slot task) (hc : k'.current = k.current)
    (hj : k'.joined = k.joined) (hs : k'.sawKill = k.sawKill) (hn : k'.newPid = k.newPid)
    (hq : QueueOk k'.tasks k'.next k'.runQueues k'.runnableTasksCount) (hpid : task.pid = (k.tasks ref.slot).pid)
    (hhome : task.homeCore = (k.tasks ref.slot).homeCore) (hfree : (k.tasks ref.slot).state ≠ .free)
    (hself : task.state ≠ .dead → EntryOk k'.entries ref.slot task (k.joined ref.slot) (k.sawKill ref.slot))
    (hothers : ∀ s, s ≠ ref.slot → EntryOk k'.entries s (k.tasks s) (k.joined s) (k.sawKill s))
    (hnamed : ∀ place r, r ∈ k'.entries place → r.pid < k.newPid) : Leaving k' core ref := by
  obtain ⟨tasks,task',ht',hcur⟩ := h.current
  refine ⟨hc ▸ h.on,?_,hq,⟨tasks,task,?_,?_⟩,fun s hne => ?_,fun hdead => ?_,hn ▸ hnamed,fun s hfree' => ?_,hn ▸ h.pids⟩
  · rw [ht,Function.update_self,hhome]
    exact h.home
  · rw [ht,ht',Function.update_idem]
  · rw [hc,hj]
    exact hcur
  · rw [ht,hj,hs,Function.update_of_ne hne]
    exact hothers s hne
  · rw [ht,Function.update_self] at hdead
    rw [ht,hj,hs,Function.update_self]
    exact hself hdead
  · rw [ht] at hfree' ⊢
    rw [hn]
    by_cases he : s = ref.slot
    · rw [he,Function.update_self,hpid]
      exact h.live ref.slot hfree
    · rw [Function.update_of_ne he] at hfree' ⊢
      exact h.live s hfree'

/-- A task that switches out while it still runs is queued at home. -/
theorem requeue (h : Leaving k core ref) (hk : k.requeue core ref.slot bank = .ok k') :
    Leaving k' core ref ∧ (k'.tasks ref.slot).state ≠ .running := by
  rw [Kernel.requeue] at hk
  cases hcas : (k.tasks ref.slot).transition .running .ready with
  | none =>
    rw [hcas] at hk
    cases hk
    refine ⟨h,fun hrun => ?_⟩
    rw [TaskSlot.transition,if_pos hrun] at hcas
    cases hcas
  | some task =>
    rw [hcas] at hk
    obtain ⟨hrun,rfl⟩ := TaskSlot.transition_eq_some.mp hcas
    obtain ⟨lists,hl⟩ := h.queues.lists
    have hrest : (k.tasks ref.slot).state ≠ .ready ∧ (k.tasks ref.slot).state ≠ .free ∧ (k.tasks ref.slot).state ≠ .dead := by
      rw [hrun]
      decide
    obtain ⟨level,next',queue',rfl,hsleep,hrep⟩ := Consistent.pushTask_spec (by exact hl.rep) (hl.notMem hrest.1) hk
    have hhome : ((k.tasks ref.slot).setState .ready).homeCore = core := h.home
    have hstate : ((k.tasks ref.slot).setState .ready).state = .ready := rfl
    have hadd := hl.add hrest.1 hstate (hhome ▸ hrep)
    have hent := Consistent.entries_requeued (k.setTask ref.slot ((k.tasks ref.slot).setState .ready)) next'
      k.runnableTasksCount k.shouldBeRescheduled (Consistent.sleeping_update hsleep)
    have hself : ∀ place, ⟨ref.slot,(k.tasks ref.slot).pid⟩ ∈ k.entries place → (k.tasks ref.slot).killPending = true := by
      intro place hm
      rcases (h.entries hrest.2.2).spent place hm with ⟨hb,_⟩ | ⟨hkill,_⟩
      · rw [hrun] at hb
        cases hb
      · exact hkill
    refine ⟨h.set rfl rfl rfl rfl rfl ⟨⟨_,hhome ▸ hadd⟩,h.queues.count_same rfl (.inr hrun) (.inl rfl)⟩ rfl rfl hrest.2.1
      (fun _ => .off rfl (fun hb => by cases hb) fun place hm => ⟨hself place (hent ▸ hm),.inl rfl⟩) (fun s hs => hent ▸ h.others s hs)
      (hent ▸ h.named),fun e => ?_⟩
    change (Function.update k.tasks ref.slot ((k.tasks ref.slot).setState .ready) ref.slot).state = .running at e
    rw [Function.update_self] at e
    cases e

/-- A dead task gives up its slot with the core. -/
theorem leaveCpu (h : Leaving k core ref) (hstate : (k.tasks ref.slot).state ≠ .running) :
    Consistent (k.leaveCpu core ref.slot) := by
  obtain ⟨tasks,task,ht,hcur⟩ := h.current
  have hself : (Function.update k.tasks ref.slot { k.tasks ref.slot with onCpu := false } ref.slot) =
      { k.tasks ref.slot with onCpu := false } := Function.update_self ..
  have hcurrent : ∀ task : TaskSlot, task.state ≠ .running → CurrentOk (Function.update k.tasks ref.slot task)
      (Function.update k.current core none) (Function.update k.joined ref.slot none) := by
    intro task hne
    rw [ht,Function.update_idem]
    exact hcur.leave h.on hne
  have hothers : ∀ s, s ≠ ref.slot → EntryOk k.entries s (k.tasks s) (Function.update k.joined ref.slot none s) (k.sawKill s) := by
    intro s hs
    rw [Function.update_of_ne hs]
    exact h.others s hs
  by_cases hdead : (k.tasks ref.slot).state = .dead
  · have hrest : (k.tasks ref.slot).state ≠ .ready ∧ (k.tasks ref.slot).state ≠ .running := by
      rw [hdead]
      decide
    have htasks : (k.leaveCpu core ref.slot).tasks = Function.update k.tasks ref.slot
        { k.tasks ref.slot with onCpu := false, pid := invalidPid, state := .free } := by
      simp only [Kernel.leaveCpu,hself]
      rw [if_pos hdead,releaseTaskSlot,hself,Function.update_idem]
    refine ⟨?_,?_,?_,h.named,fun s hs => ?_,h.pids⟩
    · rw [htasks]
      exact h.queues.idle hrest.1 hrest.2 (nomatch ·) (nomatch ·)
    · rw [htasks]
      exact hcurrent _ (nomatch ·)
    · rw [htasks]
      refine EntryOk.update (.of_notMem fun place hm => ?_) hothers
      exact absurd (h.named place _ hm) (Nat.not_lt.mpr h.pids)
    · rw [htasks] at hs ⊢
      by_cases he : s = ref.slot
      · rw [he,Function.update_self] at hs
        exact absurd rfl hs
      · rw [Function.update_of_ne he] at hs ⊢
        exact h.live s hs
  · have htasks : (k.leaveCpu core ref.slot).tasks = Function.update k.tasks ref.slot { k.tasks ref.slot with onCpu := false } := by
      simp only [Kernel.leaveCpu,hself]
      rw [if_neg hdead]
    have hsame : ∀ s, (Function.update k.tasks ref.slot { k.tasks ref.slot with onCpu := false } s).state = (k.tasks s).state ∧
        (Function.update k.tasks ref.slot { k.tasks ref.slot with onCpu := false } s).homeCore = (k.tasks s).homeCore ∧
        (Function.update k.tasks ref.slot { k.tasks ref.slot with onCpu := false } s).pid = (k.tasks s).pid := by
      intro s
      by_cases he : s = ref.slot
      · subst he
        rw [hself]
        exact ⟨rfl,rfl,rfl⟩
      · rw [Function.update_of_ne he]
        exact ⟨rfl,rfl,rfl⟩
    refine ⟨?_,?_,?_,h.named,fun s hs => ?_,h.pids⟩
    · rw [htasks]
      exact h.queues.congr (fun _ _ => rfl) fun s => ⟨(hsame s).1,(hsame s).2.1⟩
    · rw [htasks]
      exact hcurrent _ hstate
    · rw [htasks]
      refine EntryOk.update ((h.entries hdead).congr rfl rfl rfl id fun q hq => ?_) hothers
      have hnone : Function.update k.joined ref.slot none ref.slot = some q := hq
      rw [Function.update_self] at hnone
      cases hnone
    · rw [htasks] at hs ⊢
      rw [(hsame s).1] at hs
      rw [(hsame s).2.2]
      exact h.live s hs

theorem switch (h : Leaving k core ref) (hk : k.coreSwitchExecutingYielding core bank = .ok k') : Consistent k' := by
  rw [Kernel.coreSwitchExecutingYielding,h.on] at hk
  obtain ⟨k₁,hrequeue,hk⟩ := bind_eq_ok hk
  obtain ⟨h₁,hstate⟩ := h.requeue hrequeue
  cases hk
  exact h₁.leaveCpu hstate

end Leaving

namespace Consistent

theorem switch (h : Consistent k) (hk : k.coreSwitchExecutingYielding core bank = .ok k') : Consistent k' := by
  cases hc : k.current core with
  | none =>
    rw [Kernel.coreSwitchExecutingYielding,hc] at hk
    cases hk
  | some ref => exact (h.leaving hc).switch hk

theorem coreRunScheduling (h : Consistent k) (hk : k.coreRunScheduling core = .ok k') : Consistent k' := h.switch hk

theorem coreYieldExecutingTasks (h : Consistent k) (hk : k.coreYieldExecutingTasks core = .ok k') : Consistent k' := by
  rw [Kernel.coreYieldExecutingTasks] at hk
  split_ifs at hk
  · cases hk
    exact h
  · exact h.switch hk

/-- The task of a core that has joined no wait queue runs. -/
theorem busy_cases (h : Consistent k) (hb : k.busy core = true) : ∃ ref, k.current core = some ref ∧ k.joined ref.slot = none ∧
    (k.tasks ref.slot).state = .running := by
  rw [Kernel.busy] at hb
  cases hc : k.current core with
  | none =>
    rw [hc] at hb
    cases hb
  | some ref =>
    rw [hc,decide_eq_true_eq] at hb
    exact ⟨ref,rfl,hb,h.current.running core ref hc hb⟩

/-- One that may also block has no entry in any list. -/
theorem mayBlock_cases (h : Consistent k) (hb : k.mayBlock core = true) : ∃ ref, k.current core = some ref ∧ k.joined ref.slot = none ∧
    (k.tasks ref.slot).state = .running ∧ ∀ place, ref ∉ k.entries place := by
  rw [Kernel.mayBlock] at hb
  cases hc : k.current core with
  | none =>
    rw [hc] at hb
    cases hb
  | some ref =>
    simp only [hc,Bool.and_eq_true,decide_eq_true_eq,Bool.not_eq_true'] at hb
    have hrun := h.current.running core ref hc hb.1
    refine ⟨ref,rfl,hb.1,hrun,fun place hm => ?_⟩
    refine (h.entries ref.slot).fresh hrun hb.2 place ?_
    rw [(h.current.held core ref hc).1]
    exact hm

theorem exitCurrent (h : Consistent k) (hb : k.busy core = true) (hk : k.exitCurrent core = .ok k') : Consistent k' := by
  obtain ⟨ref,hc,hj,hrun⟩ := h.busy_cases hb
  rw [Kernel.exitCurrent,hc] at hk
  have hfree : (k.tasks ref.slot).state ≠ .free := by rw [hrun]; decide
  have hdead : Leaving ((k.setTask ref.slot ((k.tasks ref.slot).setState .dead)).coreTaskLeaveRunQueue
      (k.tasks ref.slot).homeCore) core ref := by
    exact (h.leaving hc).set rfl rfl rfl rfl rfl (h.queues.leave hrun (nomatch ·) (nomatch ·)) rfl rfl hfree
      (fun hne => absurd rfl hne) (fun s _ => h.entries s) h.named
  exact hdead.switch hk

/-- The lists of waiters and of sleepers make room by dropping entries, and get the new one at the end. -/
theorem mono_room {entries : WaitPlace → List TaskRef} {place : WaitPlace} {room : List TaskRef} {slot : Slot} {joined : Option WaitQueue}
    {sawKill : Bool} (h : EntryOk entries slot task joined sawKill) (hroom : ∀ r, room.count r ≤ (entries place).count r)
    (hne : slot ≠ ref.slot) : EntryOk (Function.update entries place (room ++ [ref])) slot task joined sawKill := by
  refine h.mono fun p => ?_
  by_cases hp : p = place
  · subst hp
    rw [Function.update_self,List.count_append,List.count_singleton]
    have hother : (ref == (⟨slot,task.pid⟩ : TaskRef)) = false := by
      refine beq_eq_false_iff_ne.mpr fun e => hne ?_
      rw [e]
    rw [hother,if_neg (by decide)]
    exact hroom _
  · rw [Function.update_of_ne hp]

theorem named_room (h : Consistent k) (place : WaitPlace) {room : List TaskRef} (hroom : ∀ r, room.count r ≤ (k.entries place).count r)
    (hpid : ref.pid < k.newPid) (p : WaitPlace) (r : TaskRef) (hm : r ∈ Function.update k.entries place (room ++ [ref]) p) :
    r.pid < k.newPid := by
  by_cases hp : p = place
  · subst hp
    rw [Function.update_self,List.mem_append,List.mem_singleton] at hm
    rcases hm with hm | rfl
    · exact h.named p r (List.count_pos_iff.mp (Nat.lt_of_lt_of_le (List.count_pos_iff.mpr hm) (hroom r)))
    · exact hpid
  · rw [Function.update_of_ne hp] at hm
    exact h.named p r hm

/-- A task without an entry gets one as it blocks. -/
theorem block_room (h : Consistent k) (place : WaitPlace) {room : List TaskRef} {joined : Slot → Option WaitQueue}
    (hpid : (k.tasks ref.slot).pid = ref.pid) (hnone : ∀ p, ref ∉ k.entries p) (hroom : ∀ r, room.count r ≤ (k.entries place).count r)
    (hhome : ∀ core, place = .sleeping core → (k.tasks ref.slot).homeCore = core)
    (hjoined : ∀ q, joined ref.slot = some q → place = .waiting q) (hothers : ∀ s, s ≠ ref.slot → joined s = k.joined s) (s : Slot) :
    EntryOk (Function.update k.entries place (room ++ [ref])) s
      (Function.update k.tasks ref.slot ((k.tasks ref.slot).setState .blocked) s) (joined s) (k.sawKill s) := by
  have hself : (⟨ref.slot,((k.tasks ref.slot).setState .blocked).pid⟩ : TaskRef) = ref := congrArg (TaskRef.mk ref.slot) hpid
  refine EntryOk.update ?_ (fun s hs => ?_) s
  · have hmem : ref ∉ room := fun hm => hnone place
      (List.count_pos_iff.mp (Nat.lt_of_lt_of_le (List.count_pos_iff.mpr hm) (hroom ref)))
    have hblock : EntryOk (Function.update k.entries place (room ++ [⟨ref.slot,((k.tasks ref.slot).setState .blocked).pid⟩]))
        ref.slot ((k.tasks ref.slot).setState .blocked) (joined ref.slot) (k.sawKill ref.slot) :=
      .block (hself ▸ hnone) (hself ▸ hmem) hhome rfl hjoined
    rwa [hself] at hblock
  · rw [hothers s hs]
    exact mono_room (h.entries s) hroom hs

theorem addCurrentTaskAndMarkBlocked {waitQueue : WaitQueue} (h : Consistent k) (hb : k.mayBlock core = true)
    (hk : k.addCurrentTaskAndMarkBlocked core waitQueue = .ok k') : Consistent k' := by
  obtain ⟨ref,hc,hj,hrun,hnone⟩ := h.mayBlock_cases hb
  rw [Kernel.addCurrentTaskAndMarkBlocked,hc] at hk
  dsimp only at hk
  cases hpush : WaiterList.push (·.isStale k.tasks) (k.waiters waitQueue) ref with
  | none =>
    rw [hpush] at hk
    cases hk
  | some waiters =>
    rw [hpush] at hk
    obtain ⟨room,rfl,hroom⟩ := WaiterList.push_eq hpush
    have hcount : ∀ r, room.count r ≤ (k.entries (.waiting waitQueue)).count r := by
      intro r
      rcases hroom with rfl | hperm
      · exact Nat.le_refl _
      · rw [hperm.count_eq]
        exact List.filter_sublist.count_le r
    have htask : ((k.tasks ref.slot).transition .running .blocked).getD (k.tasks ref.slot) = (k.tasks ref.slot).setState .blocked := by
      rw [TaskSlot.getD_transition,if_pos hrun]
    have hpid := (h.current.held core ref hc).1
    have hfree : (k.tasks ref.slot).state ≠ .free := by rw [hrun]; decide
    have hjoined : ∀ q, Function.update k.joined ref.slot (some waitQueue) ref.slot = some q →
        WaitPlace.waiting waitQueue = .waiting q := by
      intro q hq
      rw [Function.update_self] at hq
      rw [Option.some.inj hq]
    have hentries := h.block_room (.waiting waitQueue) hpid hnone hcount (fun _ hp => nomatch hp) hjoined fun s hs => Function.update_of_ne hs ..
    have hnamed := h.named_room (.waiting waitQueue) hcount (hpid ▸ h.live ref.slot hfree)
    rw [← entries_waiters] at hentries hnamed
    cases hk
    simp only [htask]
    exact ⟨h.queues.leave hrun (nomatch ·) (nomatch ·),h.current.join hc waitQueue,hentries,hnamed,h.live_update rfl hfree,h.pids⟩

theorem addSleepingTask_spec {tasks : Tasks} {queue queue' : CoreRunQueue} {wakeTimeUs : Nat}
    (hk : queue.addSleepingTask tasks ref wakeTimeUs = .ok queue') : ∃ room, queue' = { queue with sleepingTasks := room ++ [⟨ref,wakeTimeUs⟩] } ∧
      ∀ r, (room.map (·.taskRef)).count r ≤ (queue.sleepingTasks.map (·.taskRef)).count r := by
  obtain ⟨room,rfl,hroom⟩ := CoreRunQueue.addSleepingTask_eq hk
  refine ⟨room,rfl,fun r => ?_⟩
  rcases hroom with rfl | hperm
  · exact Nat.le_refl _
  · rw [(hperm.map _).count_eq]
    exact (List.filter_sublist.map _).count_le r

theorem coreBlockCurrentTaskUntilWakeTime {wakeTimeUs : Nat} (h : Consistent k) (hb : k.mayBlock core = true)
    (hk : k.coreBlockCurrentTaskUntilWakeTime core wakeTimeUs = .ok k') : Consistent k' := by
  obtain ⟨ref,hc,hj,hrun,hnone⟩ := h.mayBlock_cases hb
  obtain ⟨hpid,_,hhome⟩ := h.current.held core ref hc
  rw [Kernel.coreBlockCurrentTaskUntilWakeTime,hc] at hk
  obtain ⟨queue,hadd,hk⟩ := bind_eq_ok hk
  obtain ⟨room,rfl,hroom⟩ := addSleepingTask_spec hadd
  rw [TaskSlot.getD_transition,if_pos hrun,hhome] at hk
  rw [hhome] at hroom
  have hfree : (k.tasks ref.slot).state ≠ .free := by rw [hrun]; decide
  have hentries := h.block_room (.sleeping core) hpid hnone hroom (fun _ hp => hhome.trans (WaitPlace.sleeping.inj hp))
    (fun q hq => nomatch hj.symm.trans hq) fun _ _ => rfl
  have hnamed := h.named_room (.sleeping core) hroom (hpid ▸ h.live ref.slot hfree)
  have hent : Function.update k.entries (.sleeping core) (room.map (·.taskRef) ++ [ref]) =
      (k.setRunQueue core { k.runQueues core with sleepingTasks := room ++ [⟨ref,wakeTimeUs⟩] }).entries := by
    rw [entries_setRunQueue,List.map_append]
    rfl
  rw [hent] at hentries hnamed
  have hleave := (queues_dropSleeper h.queues core (room ++ [⟨ref,wakeTimeUs⟩])).leave hrun
    (show ((k.tasks ref.slot).setState .blocked).state ≠ .ready from (nomatch ·)) (nomatch ·)
  rw [hhome] at hleave
  have hself := hentries ref.slot
  rw [Function.update_self] at hself
  have hblocked : Leaving ((((k.setRunQueue core { k.runQueues core with sleepingTasks := room ++ [⟨ref,wakeTimeUs⟩] }).setTask ref.slot
      ((k.tasks ref.slot).setState .blocked)).coreTaskLeaveRunQueue core)) core ref := by
    refine (h.leaving hc).set rfl rfl rfl rfl rfl hleave rfl rfl hfree (fun _ => hself) (fun s hs => ?_) hnamed
    have hother := hentries s
    rw [Function.update_of_ne hs] at hother
    exact hother
  exact hblocked.switch hk

/-- The task that is picked is queued on the core and on no other, and no core runs it. -/
theorem pickAndRun (h : Consistent k) (hc : k.current core = none) (hk : k.pickAndRun core = .ok k') : Consistent k' := by
  obtain ⟨lists,hl⟩ := h.queues.lists
  rw [Kernel.pickAndRun] at hk
  obtain ⟨⟨picked,queue'⟩,hpick,hk⟩ := bind_eq_ok hk
  obtain ⟨lists',hrep,hsleep,hqueued,hon⟩ := hl.rep.pick_spec hpick
  have hent : (k.setRunQueue core queue').entries = k.entries := by
    rw [entries_setRunQueue,hsleep]
    exact Function.update_eq_self ..
  cases picked with
  | none =>
    cases hk
    refine ⟨⟨⟨lists',hrep,fun slot => ?_,fun core' slot hq => ?_⟩,h.queues.count⟩,h.current,hent ▸ h.entries,hent ▸ h.named,h.live,h.pids⟩
    · rw [show (k.setRunQueue core queue').tasks = k.tasks from rfl,hl.ready slot]
      simp [hon]
    · exact hl.home core' slot ((hon core' slot).mp hq).1
  | some slot =>
    cases hk
    have honcore : onCore lists core slot := hqueued slot rfl
    have hready := (hl.ready slot).mpr ⟨core,honcore⟩
    have herase : ∀ core' x, onCore lists' core' x ↔ onCore lists core' x ∧ x ≠ slot := by
      intro core' x
      rw [hon,ne_eq,ne_eq,Option.some.injEq,eq_comm]
    have hhome := hl.home core slot honcore
    have hoff : ∀ core' ref, k.current core' = some ref → ref.slot ≠ slot := by
      rintro core' ref hc' rfl
      have hcore := (h.current.held core' ref hc').2.2
      rw [← hcore,hhome,hc] at hc'
      cases hc'
    have hfree : (k.tasks slot).state ≠ .free := by rw [hready]; decide
    have hq : QueueOk (Function.update k.tasks slot { k.tasks slot with state := .running, onCpu := true }) k.next
        (Function.update k.runQueues core queue') k.runnableTasksCount :=
      ⟨⟨_,hl.remove hrep herase (nomatch ·)⟩,h.queues.count_same rfl (.inl hready) (.inr rfl)⟩
    have hentries : ∀ s, EntryOk (k.setRunQueue core queue').entries s
        (Function.update k.tasks slot { k.tasks slot with state := .running, onCpu := true } s) (k.joined s)
        (Function.update k.sawKill slot (k.tasks slot).killPending s) := by
      rw [hent]
      refine EntryOk.update ?_ fun s hs => ?_
      · refine EntryOk.off rfl (nomatch ·) fun place hm => ?_
        rw [Function.update_self]
        rcases (h.entries slot).spent place hm with ⟨hb,_⟩ | ⟨hkill,_⟩
        · rw [hready] at hb
          cases hb
        · exact ⟨hkill,.inr ⟨rfl,hkill⟩⟩
      · rw [Function.update_of_ne hs]
        exact h.entries s
    exact ⟨hq,h.current.enter hc hoff hhome,hentries,hent ▸ h.named,h.live_update rfl hfree,h.pids⟩

end Consistent
end MofuOS.Process
