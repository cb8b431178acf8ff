import MofuOS.Process.QueueOk
import MofuOS.Process.CurrentOk
import MofuOS.Process.EntryOk

/-! The run queues stay consistent: every operation of the scheduler keeps the invariant. -/
namespace MofuOS.Process
open Lib

structure Consistent (k : Kernel) : Prop where
  queues : QueueOk k.tasks k.next k.runQueues k.runnableTasksCount
  current : CurrentOk k.tasks k.current k.joined
  entries : ∀ slot, EntryOk k.entries slot (k.tasks slot) (k.joined slot) (k.sawKill slot)
  named : ∀ place ref, ref ∈ k.entries place → ref.pid < k.newPid
  live : ∀ slot, (k.tasks slot).state ≠ .free → (k.tasks slot).pid < k.newPid
  pids : k.newPid ≤ invalidPid

/-- What queueing a task may change. -/
def Kernel.requeued (k : Kernel) (next : Links) (queues : Core → CoreRunQueue) (counts : Core → Nat) (reschedule : Core → Bool) :
    Kernel :=
  { k with next := next, runQueues := queues, runnableTasksCount := counts, shouldBeRescheduled := reschedule }

namespace Consistent
variable {k k' : Kernel} {core : Core} {slot : Slot} {task : TaskSlot} {ref : TaskRef} {priority : Nat} {bank : RequeueType}
  {lists : Place → List Slot}

theorem new : Consistent {} := by
  refine ⟨⟨⟨fun _ => [],.new,fun slot => ?_,?_⟩,fun core => ?_⟩,⟨?_,?_,?_,?_⟩,fun slot => .of_notMem ?_,?_,fun slot hs => absurd rfl hs,by decide⟩
  · constructor
    · intro h
      cases h
    · rintro ⟨core,bank,level,hm⟩
      cases hm
  · rintro core slot ⟨bank,level,hm⟩
    cases hm
  · rw [load]
    exact (Finset.sum_eq_zero fun slot _ => rfl).symm
  · intro core ref hc
    cases hc
  · intro core ref hc
    cases hc
  · intro core ref hc
    cases hc
  · rintro slot (hs | hs)
    · cases hs
    · exact absurd rfl hs
  · intro place hm
    cases place <;> cases hm
  · intro place ref hm
    cases place <;> cases hm

/-- What pushing a task changes. -/
theorem pushTask_spec (h : RunQueuesOk k.next k.runQueues lists) (hslot : ∀ place, slot ∉ lists place)
    (hk : k.pushTask core bank slot priority = .ok k') : ∃ (level : Level) (next' : Links) (queue' : CoreRunQueue),
      k' = Kernel.setRunQueue { k with next := next' } core queue' ∧
      queue'.sleepingTasks = (k.runQueues core).sleepingTasks ∧
      RunQueuesOk next' (Function.update k.runQueues core queue')
        (Function.update lists (core,bank,level) (lists (core,bank,level) ++ [slot])) := by
  rw [Kernel.pushTask] at hk
  by_cases hp : priority < priorityLevelCount
  · obtain ⟨next',queue',hpush,hsleep,hrep⟩ := h.push hslot hp
    rw [hpush] at hk
    cases hk
    exact ⟨⟨priority,hp⟩,next',queue',rfl,hsleep,hrep⟩
  · rw [CoreRunQueue.push,TaskSlotQueueTable.push,dif_neg hp] at hk
    cases hk

theorem sleeping_update {queues : Core → CoreRunQueue} {queue' : CoreRunQueue}
    (h : queue'.sleepingTasks = (queues core).sleepingTasks) (c : Core) :
    (Function.update queues core queue' c).sleepingTasks = (queues c).sleepingTasks := by
  by_cases hc : c = core
  · rw [hc,Function.update_self,h]
  · rw [Function.update_of_ne hc]

/-- A task that was neither queued nor running has been made ready; it is counted and pushed at home. -/
theorem pushReady_spec {tasks : Tasks} (h : QueueOk tasks k.next k.runQueues k.runnableTasksCount)
    (ht : k.tasks = Function.update tasks slot task) (hready : (tasks slot).state ≠ .ready) (hrunning : (tasks slot).state ≠ .running)
    (hstate : task.state = .ready) (hhome : task.homeCore = core)
    (hk : (k.setCount core (fetchAdd (k.runnableTasksCount core))).pushTask core .executingTasks slot priority = .ok k') :
    ∃ next' queues' counts' reschedule', k' = k.requeued next' queues' counts' reschedule' ∧
      (∀ core, (queues' core).sleepingTasks = (k.runQueues core).sleepingTasks) ∧ QueueOk k.tasks next' queues' counts' := by
  subst hhome
  obtain ⟨lists,hl⟩ := h.lists
  obtain ⟨level,next',queue',rfl,hsleep,hrep⟩ := pushTask_spec (by exact hl.rep) (hl.notMem hready) hk
  have hq := h.enqueue hl hready hrunning hstate hrep
  rw [← ht] at hq
  exact ⟨next',_,_,k.shouldBeRescheduled,rfl,sleeping_update hsleep,hq⟩

/-- The same, with a core that runs a task of lower priority asked to reschedule. -/
theorem enqueue_spec {tasks : Tasks} (h : QueueOk tasks k.next k.runQueues k.runnableTasksCount)
    (ht : k.tasks = Function.update tasks slot task) (hready : (tasks slot).state ≠ .ready) (hrunning : (tasks slot).state ≠ .running)
    (hstate : task.state = .ready) (hhome : task.homeCore = core) (hk : k.coreEnqueueReadyTask core slot priority = .ok k') :
    ∃ next' queues' counts' reschedule', k' = k.requeued next' queues' counts' reschedule' ∧
      (∀ core, (queues' core).sleepingTasks = (k.runQueues core).sleepingTasks) ∧ QueueOk k.tasks next' queues' counts' := by
  rw [Kernel.coreEnqueueReadyTask] at hk
  obtain ⟨k₁,hpush,hk⟩ := bind_eq_ok hk
  obtain ⟨next',queues',counts',reschedule',rfl,hsleep,hq⟩ := pushReady_spec h ht hready hrunning hstate hhome hpush
  cases hk
  split_ifs
  · exact ⟨next',queues',counts',_,rfl,hsleep,hq⟩
  · exact ⟨next',queues',counts',_,rfl,hsleep,hq⟩

theorem entries_requeued (k : Kernel) (next' : Links) {queues' : Core → CoreRunQueue} (counts' : Core → Nat)
    (reschedule' : Core → Bool) (h : ∀ core, (queues' core).sleepingTasks = (k.runQueues core).sleepingTasks) :
    (k.requeued next' queues' counts' reschedule').entries = k.entries := by
  funext place
  cases place with
  | sleeping core => simp only [Kernel.entries,Kernel.requeued,h core]
  | waiting waitQueue => rfl

/-- The pids of live tasks, after one task has changed and kept its own. -/
theorem live_update (h : Consistent k) (hpid : task.pid = (k.tasks slot).pid) (hfree : (k.tasks slot).state ≠ .free) (s : Slot)
    (hs : (Function.update k.tasks slot task s).state ≠ .free) : (Function.update k.tasks slot task s).pid < k.newPid := by
  by_cases he : s = slot
  · rw [he,Function.update_self,hpid]
    exact h.live slot hfree
  · rw [Function.update_of_ne he] at hs ⊢
    exact h.live s hs

/-- wake_task makes a blocked task ready; none of its entries is left, or it has been killed. -/
theorem wakeTask (h : Consistent k) (hentry : (k.tasks ref.slot).pid = ref.pid → (k.tasks ref.slot).state = .blocked →
      (k.tasks ref.slot).killPending = true ∨ ∀ place, ref ∉ k.entries place) (hk : k.wakeTask ref = .ok k') :
    Consistent k' ∧ k'.entries = k.entries ∧ (k'.tasks = k.tasks ∨ (k.tasks ref.slot).state = .blocked ∧
      k'.tasks = Function.update k.tasks ref.slot ((k.tasks ref.slot).setState .ready)) := by
  rw [Kernel.wakeTask] at hk
  split_ifs at hk with hpid
  · cases hk
    exact ⟨h,rfl,.inl rfl⟩
  · rw [not_not] at hpid
    cases hcas : (k.tasks ref.slot).transition .blocked .ready with
    | none =>
      rw [hcas] at hk
      cases hk
      exact ⟨h,rfl,.inl rfl⟩
    | some task =>
      rw [hcas] at hk
      obtain ⟨hb,rfl⟩ := TaskSlot.transition_eq_some.mp hcas
      have hrest : (k.tasks ref.slot).state ≠ .ready ∧ (k.tasks ref.slot).state ≠ .running ∧ (k.tasks ref.slot).state ≠ .free := by
        rw [hb]
        decide
      obtain ⟨next',queues',counts',reschedule',rfl,hsleep,hq⟩ := enqueue_spec
        (by exact h.queues) rfl hrest.1 hrest.2.1 (by rfl) rfl hk
      have hent := entries_requeued (k.setTask ref.slot ((k.tasks ref.slot).setState .ready)) next' counts' reschedule' hsleep
      refine ⟨⟨hq,h.current.wake hb,?_,?_,h.live_update rfl hrest.2.2,h.pids⟩,hent,.inr ⟨hb,rfl⟩⟩
      · rw [hent]
        refine EntryOk.update (EntryOk.off rfl (by simp [TaskSlot.setState]) fun place hm => ⟨?_,.inl rfl⟩) fun s _ => h.entries s
        rcases hentry hpid hb with hkill | hnone
        · exact hkill
        · have hm' : (⟨ref.slot,(k.tasks ref.slot).pid⟩ : TaskRef) ∈ k.entries place := hm
          rw [hpid] at hm'
          exact absurd hm' (hnone place)
      · rw [hent]
        exact h.named

/-- Entries are dropped and nothing else changes. -/
theorem drop (h : Consistent k) (hq : QueueOk k'.tasks k'.next k'.runQueues k'.runnableTasksCount) (ht : k'.tasks = k.tasks)
    (hc : CurrentOk k'.tasks k'.current k'.joined) (hj : k'.joined = k.joined) (hs : k'.sawKill = k.sawKill)
    (hn : k'.newPid = k.newPid) (hle : ∀ place ref, (k'.entries place).count ref ≤ (k.entries place).count ref) : Consistent k' := by
  refine ⟨hq,hc,fun slot => ?_,fun place ref hm => ?_,?_,?_⟩
  · rw [ht,hj,hs]
    exact (h.entries slot).mono fun place => hle place _
  · rw [hn]
    exact h.named place ref (List.count_pos_iff.mp (Nat.lt_of_lt_of_le (List.count_pos_iff.mpr hm) (hle place ref)))
  · rw [ht,hn]
    exact h.live
  · rw [hn]
    exact h.pids

section Waiters
variable {waitQueue : WaitQueue} {waiters : List TaskRef}

theorem entries_waiters (k : Kernel) (waitQueue : WaitQueue) (waiters : List TaskRef) :
    Kernel.entries { k with waiters := Function.update k.waiters waitQueue waiters } =
      Function.update k.entries (.waiting waitQueue) waiters := by
  funext place
  by_cases hp : place = .waiting waitQueue
  · subst hp
    rw [Function.update_self]
    exact Function.update_self ..
  · rw [Function.update_of_ne hp]
    cases place with
    | sleeping core => rfl
    | waiting other => exact Function.update_of_ne (fun e => hp (congrArg _ e)) ..

/-- A wait queue loses entries. -/
theorem setWaiters (h : Consistent k) (hle : ∀ ref, waiters.count ref ≤ (k.waiters waitQueue).count ref) :
    Consistent { k with waiters := Function.update k.waiters waitQueue waiters } := by
  refine h.drop h.queues rfl h.current rfl rfl rfl fun place ref => ?_
  rw [entries_waiters]
  by_cases hp : place = .waiting waitQueue
  · subst hp
    rw [Function.update_self]
    exact hle ref
  · rw [Function.update_of_ne hp]

theorem removeAndWake (h : Consistent k) (hc : k.current core = some ref) (hj : k.joined ref.slot = some waitQueue)
    (hk : k.removeAndWake core waitQueue = .ok k') : Consistent k' := by
  rw [Kernel.removeAndWake,hc] at hk
  have hpid := (h.current.held core ref hc).1
  have hcount : ∀ r, (WaiterList.remove (k.waiters waitQueue) ref).count r ≤ (k.waiters waitQueue).count r := by
    intro r
    by_cases hm : ref ∈ k.waiters waitQueue
    · rw [(WaiterList.remove_perm hm).count_eq r,List.count_cons]
      omega
    · rw [WaiterList.remove_of_notMem hm]
  refine (wakeTask (h.setWaiters hcount) (fun _ hb => .inr fun place hm => ?_) hk).1
  have hb : (k.tasks ref.slot).state = .blocked := hb
  have hentry := h.entries ref.slot
  have hself : (⟨ref.slot,(k.tasks ref.slot).pid⟩ : TaskRef) = ref := by rw [hpid]
  rw [entries_waiters] at hm
  by_cases hwait : ref ∈ k.waiters waitQueue
  · have hgone := hentry.gone hb (.waiting waitQueue) (WaiterList.remove (k.waiters waitQueue) ref) ?_ place
    · rw [hself] at hgone
      exact hgone hm
    · rw [hself]
      exact ((WaiterList.remove_perm hwait).count_eq ref).trans List.count_cons_self |>.ge
  · have hmem : ref ∈ k.entries place := by
      by_cases hp : place = .waiting waitQueue
      · subst hp
        rw [Function.update_self,WaiterList.remove_of_notMem hwait] at hm
        exact hm
      · rwa [Function.update_of_ne hp] at hm
    have hplace := hentry.joined hb waitQueue hj place (by rw [hself]; exact hmem)
    subst hplace
    exact hwait hmem

/-- The entries of the references left are gone, so each of them can be woken. -/
theorem wakeList {refs : List TaskRef} (h : Consistent k) (hrefs : ∀ ref ∈ refs, (k.tasks ref.slot).pid = ref.pid →
    (k.tasks ref.slot).state = .blocked → ∀ place, ref ∉ k.entries place) (hk : k.wakeList refs = .ok k') : Consistent k' := by
  induction refs generalizing k with
  | nil =>
    cases hk
    exact h
  | cons ref refs ih =>
    obtain ⟨k₁,hwake,hk⟩ := bind_eq_ok hk
    obtain ⟨h₁,hent,htasks⟩ := h.wakeTask (fun hp hb => .inr (hrefs ref List.mem_cons_self hp hb)) hwake
    refine ih h₁ (fun r hr hp hb => ?_) hk
    rw [hent]
    have hsame : k₁.tasks r.slot = k.tasks r.slot := by
      rcases htasks with heq | ⟨_,heq⟩
      · rw [heq]
      · rw [heq] at hb ⊢
        refine Function.update_of_ne (fun e => ?_) ..
        rw [e,Function.update_self] at hb
        cases hb
    rw [hsame] at hp hb
    exact hrefs r (List.mem_cons_of_mem _ hr) hp hb

theorem wakeAll (h : Consistent k) (hk : k.wakeAll waitQueue = .ok k') : Consistent k' := by
  refine wakeList (h.setWaiters fun ref => by simp) (fun ref hr hp hb place => ?_) hk
  have hp : (k.tasks ref.slot).pid = ref.pid := hp
  have hself : (⟨ref.slot,(k.tasks ref.slot).pid⟩ : TaskRef) = ref := by rw [hp]
  have hgone := (h.entries ref.slot).gone hb (.waiting waitQueue) [] ?_ place
  · rw [entries_waiters,← hself]
    exact hgone
  · rw [hself,List.count_nil]
    exact List.count_pos_iff.mpr hr

end Waiters

theorem entries_setRunQueue (k : Kernel) (core : Core) (queue : CoreRunQueue) :
    (k.setRunQueue core queue).entries = Function.update k.entries (.sleeping core) (queue.sleepingTasks.map (·.taskRef)) := by
  funext place
  by_cases hp : place = .sleeping core
  · subst hp
    rw [Function.update_self]
    simp only [Kernel.entries,Kernel.setRunQueue,Function.update_self]
  · rw [Function.update_of_ne hp]
    cases place with
    | sleeping other => simp only [Kernel.entries,Kernel.setRunQueue,Function.update_of_ne (fun e => hp (congrArg _ e))]
    | waiting waitQueue => rfl

theorem table_setSleeping (queue : CoreRunQueue) (sleepers : List SleepingTask) (bank : RequeueType) :
    CoreRunQueue.table { queue with sleepingTasks := sleepers } bank = queue.table bank := by cases bank <;> rfl

theorem table_update {queues : Core → CoreRunQueue} {queue : CoreRunQueue} (h : ∀ bank, queue.table bank = (queues core).table bank)
    (c : Core) (bank : RequeueType) : (Function.update queues core queue c).table bank = (queues c).table bank := by
  by_cases hc : c = core
  · rw [hc,Function.update_self]
    exact h bank
  · rw [Function.update_of_ne hc]

section Timer
variable {index : Nat} {sleeper : SleepingTask} {nowUs fuel : Nat} {highest highest' : Option Nat}

/-- The list of sleepers without the one at index. -/
theorem perm_dropSleeper (h : (k.runQueues core).sleepingTasks[index]? = some sleeper) :
    (k.entries (.sleeping core)).Perm
      (sleeper.taskRef :: (swapRemove (k.runQueues core).sleepingTasks index).map (·.taskRef)) :=
  (swapRemove_perm h).map _

theorem entries_dropSleeper (k : Kernel) (core : Core) (index : Nat) : (k.dropSleeper core index).entries =
    Function.update k.entries (.sleeping core) ((swapRemove (k.runQueues core).sleepingTasks index).map (·.taskRef)) :=
  entries_setRunQueue ..

theorem queues_dropSleeper {tasks : Tasks} {next : Links} {queues : Core → CoreRunQueue} {counts : Core → Nat}
    (h : QueueOk tasks next queues counts) (core : Core) (sleepers : List SleepingTask) :
    QueueOk tasks next (Function.update queues core { queues core with sleepingTasks := sleepers }) counts :=
  h.congr (table_update fun bank => table_setSleeping _ _ bank) fun _ => ⟨rfl,rfl⟩

theorem count_dropSleeper (hs : (k.runQueues core).sleepingTasks[index]? = some sleeper) (place : WaitPlace) (ref : TaskRef) :
    ((k.dropSleeper core index).entries place).count ref ≤ (k.entries place).count ref := by
  rw [entries_dropSleeper]
  by_cases hp : place = .sleeping core
  · rw [hp,Function.update_self,(perm_dropSleeper hs).count_eq ref,List.count_cons]
    omega
  · rw [Function.update_of_ne hp]

theorem dropSleeper (h : Consistent k) (hs : (k.runQueues core).sleepingTasks[index]? = some sleeper) :
    Consistent (k.dropSleeper core index) :=
  h.drop (queues_dropSleeper h.queues core _) rfl h.current rfl rfl rfl (count_dropSleeper hs)

/-- A sleeper that is due is made ready, pushed on its core and taken off the list. -/
theorem wakeSleeper (h : Consistent k) (hs : (k.runQueues core).sleepingTasks[index]? = some sleeper)
    (hpid : (k.tasks sleeper.taskRef.slot).pid = sleeper.taskRef.pid)
    (hcas : (k.tasks sleeper.taskRef.slot).transition .blocked .ready = some task)
    (hk : ((k.setTask sleeper.taskRef.slot task).setCount core (fetchAdd (k.runnableTasksCount core))).pushTask core
      .executingTasks sleeper.taskRef.slot task.priority = .ok k') : Consistent (k'.dropSleeper core index) := by
  obtain ⟨hb,rfl⟩ := TaskSlot.transition_eq_some.mp hcas
  have hself : (⟨sleeper.taskRef.slot,(k.tasks sleeper.taskRef.slot).pid⟩ : TaskRef) = sleeper.taskRef := by rw [hpid]
  have hperm := perm_dropSleeper hs
  have hmem : sleeper.taskRef ∈ k.entries (.sleeping core) := hperm.mem_iff.mpr List.mem_cons_self
  have hentry := h.entries sleeper.taskRef.slot
  have hhome : (k.tasks sleeper.taskRef.slot).homeCore = core := by
    rcases hentry.spent (.sleeping core) (by rw [hself]; exact hmem) with ⟨_,hhome⟩ | ⟨_,hr | ⟨hr,_⟩⟩
    · exact hhome core rfl
    · rw [hb] at hr
      cases hr
    · rw [hb] at hr
      cases hr
  have hrest : (k.tasks sleeper.taskRef.slot).state ≠ .ready ∧ (k.tasks sleeper.taskRef.slot).state ≠ .running ∧
      (k.tasks sleeper.taskRef.slot).state ≠ .free := by
    rw [hb]
    decide
  obtain ⟨next',queues',counts',reschedule',rfl,hsleep,hq⟩ := pushReady_spec (by exact h.queues) rfl hrest.1 hrest.2.1 (by rfl)
    (by exact hhome) hk
  have hent : Kernel.entries (Kernel.dropSleeper (Kernel.requeued (k.setTask sleeper.taskRef.slot
      ((k.tasks sleeper.taskRef.slot).setState .ready)) next' queues' counts' reschedule') core index) =
      Function.update k.entries (.sleeping core) ((swapRemove (k.runQueues core).sleepingTasks index).map (·.taskRef)) := by
    rw [entries_dropSleeper,entries_requeued _ _ _ _ hsleep]
    simp only [Kernel.requeued,hsleep]
    rfl
  have hdrop := h.dropSleeper hs
  refine ⟨queues_dropSleeper hq core _,h.current.wake hb,?_,?_,h.live_update rfl hrest.2.2,h.pids⟩
  · rw [hent]
    refine EntryOk.update (EntryOk.off rfl (by simp [TaskSlot.setState]) fun place hm => ?_) fun s _ => ?_
    · refine absurd hm (hentry.gone hb (.sleeping core) _ ?_ place)
      rw [hself,hperm.count_eq,List.count_cons_self]
    · have := hdrop.entries s
      rwa [entries_dropSleeper] at this
  · intro place ref hm
    rw [hent] at hm
    refine hdrop.named place ref ?_
    rw [entries_dropSleeper]
    exact hm

theorem wakeDueFrom (h : Consistent k) (hk : Kernel.wakeDueFrom core nowUs fuel index highest k = .ok (highest',k')) :
    Consistent k' := by
  induction fuel generalizing index highest k with
  | zero =>
    cases hk
    exact h
  | succ fuel ih =>
    rw [Kernel.wakeDueFrom] at hk
    cases hs : (k.runQueues core).sleepingTasks[index]? with
    | none =>
      rw [hs] at hk
      cases hk
      exact h
    | some sleeper =>
      simp only [hs] at hk
      split_ifs at hk with hstale hdue
      · exact ih (h.dropSleeper hs) hk
      · exact ih h hk
      · cases hcas : (k.tasks sleeper.taskRef.slot).transition .blocked .ready with
        | none =>
          rw [hcas] at hk
          exact ih (h.dropSleeper hs) hk
        | some task =>
          rw [hcas] at hk
          obtain ⟨k₁,hpush,hk⟩ := bind_eq_ok hk
          have hpid : (k.tasks sleeper.taskRef.slot).pid = sleeper.taskRef.pid := by
            simp only [SleepingTask.isStale,TaskRef.isStale,Bool.or_eq_true,decide_eq_true_eq,not_or,not_not] at hstale
            exact hstale.1
          exact ih (h.wakeSleeper hs hpid hcas hpush) hk

/-- The flags and slices of the cores are not part of the invariant. -/
theorem setFlags (h : Consistent k) (slices : Core → Nat) (reschedule : Core → Bool) :
    Consistent { k with sliceRemainingTicks := slices, shouldBeRescheduled := reschedule } :=
  ⟨h.queues,h.current,h.entries,h.named,h.live,h.pids⟩

theorem markCoreForReschedule (h : Consistent k) (core : Core) : Consistent (k.markCoreForReschedule core) :=
  h.setFlags k.sliceRemainingTicks _

theorem wakeDueSleepingTasks (h : Consistent k) (hk : k.wakeDueSleepingTasks core nowUs = .ok k') : Consistent k' := by
  obtain ⟨⟨highest,k₁⟩,hwake,hk⟩ := bind_eq_ok hk
  have h₁ := h.wakeDueFrom hwake
  dsimp only at hk
  split at hk
  · cases hk
    split_ifs
    · exact h₁.markCoreForReschedule core
    · exact h₁
  · cases hk
    exact h₁

theorem onTimerTick (h : Consistent k) (hk : k.onTimerTick core nowUs = .ok k') : Consistent k' := by
  obtain ⟨k₁,hwake,hk⟩ := bind_eq_ok hk
  have h₁ := h.wakeDueSleepingTasks hwake
  split at hk
  · cases hk
    exact h₁
  · dsimp only at hk
    split_ifs at hk <;> cases hk
    · exact h₁.setFlags _ k₁.shouldBeRescheduled
    · exact (h₁.setFlags _ k₁.shouldBeRescheduled).markCoreForReschedule core
    · exact h₁.setFlags _ k₁.shouldBeRescheduled

end Timer
end Consistent
end MofuOS.Process
