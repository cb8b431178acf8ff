import MofuOS.Process.Blocking

/-! No wakeup is lost: a task that waits for an event is on the list or in the hands of a wake_all. -/
namespace MofuOS.Process
open Lib

/-- The references the call has drained and not yet tried to wake. -/
def Waker.pending : Waker → List TaskRef
  | .waking taskRef .pid rest | .waking taskRef .state rest => taskRef :: rest
  | .waking _ _ rest => rest
  | _ => []

def Waker.drained : Waker → Bool
  | .waking .. | .finished => true
  | _ => false

/-- The task has joined the waiters of its event and has not gone on since. -/
def Pc.waits : Pc → Bool
  | .recheck | .recheckKill | .remove | .wake _ => true
  | .slice .event | .requeue .event | .requeuePriority .event | .requeuePush .event => true
  | .switchedOut .event | .picked .event => true
  | _ => false

/-- The task is about to wake itself. -/
def Pc.wakesItself : Pc → Bool
  | .wake .pid | .wake .state => true
  | _ => false

/-- The task has joined and has not yet found the condition false. -/
def Pc.rechecks : Pc → Bool
  | .recheck | .remove | .wake .pid | .wake .state => true
  | _ => false

namespace BlockSystem

/-- A wake_all that began with the condition true has emptied the list, and the condition has held since. -/
def Emptied (s : BlockSystem) : Prop := s.served = true ∨ ∃ w, s.since w = true ∧ (s.wakers w).drained = true

structure Covered (s : BlockSystem) : Prop where
  pid : s.task.pid = s.pid
  since : ∀ w, s.since w = true → s.condition = true
  served : s.served = true → s.condition = true
  entry : s.pc.waits = true → s.task.state = .blocked →
    s.taskRef ∈ s.waiters ∨ (∃ w, s.taskRef ∈ (s.wakers w).pending) ∨ s.pc.wakesItself = true
  emptied : Emptied s → s.pc.waits = true → s.task.state = .blocked → s.taskRef ∈ s.waiters → s.pc.rechecks = true

variable {s t : BlockSystem} {w : Nat}

theorem Covered.start (slot : Slot) (pid : Nat) : Covered (start slot pid) :=
  ⟨rfl,fun _ => (nomatch ·),(nomatch ·),(nomatch ·),fun _ => (nomatch ·)⟩

theorem Covered.condition (h : Covered s) (he : Emptied s) : s.condition = true := by
  rcases he with he | ⟨w,he,_⟩
  · exact h.served he
  · exact h.since w he

/-- Steps that leave the place of the task, the list and the wakers alone. -/
theorem Covered.frame (h : Covered s) (hslot : t.slot = s.slot) (hpid : t.pid = s.pid) (hpc : t.pc = s.pc)
    (hwaiters : t.waiters = s.waiters) (hwakers : t.wakers = s.wakers) (hcond : t.condition = s.condition)
    (hsince : t.since = s.since) (hserved : t.served = s.served) (htask : t.task.pid = s.task.pid)
    (hblocked : t.task.state = .blocked → s.task.state = .blocked) : Covered t := by
  have href : t.taskRef = s.taskRef := by rw [taskRef,taskRef,hslot,hpid]
  constructor
  · rw [htask,hpid]
    exact h.pid
  · rw [hsince,hcond]
    exact h.since
  · rw [hserved,hcond]
    exact h.served
  · rw [hpc,href,hwaiters,hwakers]
    exact fun hw hb => h.entry hw (hblocked hb)
  · rw [Emptied,hpc,href,hwaiters,hserved,hsince,hwakers]
    exact fun he hw hb => h.emptied he hw (hblocked hb)

/-- A step of the task that leaves the list alone and does not block it. -/
theorem Covered.goto {pc : Pc} {reschedule queued : Bool} {task : TaskSlot} (h : Covered s) (htask : Woken s.task task)
    (hwaits : pc.waits = true → task.state = .blocked → s.pc.waits = true ∧
      (s.pc.wakesItself = true → pc.wakesItself = true) ∧ (s.pc.rechecks = true → Emptied s → pc.rechecks = true)) :
    Covered { s with pc := pc, reschedule := reschedule, queued := queued, task := task } := by
  refine ⟨htask.pid.trans h.pid,h.since,h.served,fun hw hb => ?_,fun he hw hb hm => ?_⟩
  · obtain ⟨hs,hself,_⟩ := hwaits hw hb
    exact (h.entry hs (htask.blocked hb)).imp_right (Or.imp_right hself)
  · obtain ⟨hs,_,hre⟩ := hwaits hw hb
    exact hre (h.emptied he hs (htask.blocked hb) hm) he

/-- The task moves to a place where it waits for no event. -/
theorem Covered.leave (h : Covered s) (hpid : t.task.pid = t.pid) (hcond : t.condition = s.condition)
    (hsince : t.since = s.since) (hserved : t.served = s.served) (hpc : t.pc.waits = false) : Covered t := by
  refine ⟨hpid,?_,?_,fun hw => ?_,fun _ hw => ?_⟩
  · rw [hsince,hcond]
    exact h.since
  · rw [hserved,hcond]
    exact h.served
  · rw [hpc] at hw
    cases hw
  · rw [hpc] at hw
    cases hw

/-- The task is at a place where it has just joined, or is on the way of waking itself. -/
theorem Covered.rejoin (h : Covered s) (hpid : t.task.pid = t.pid) (hcond : t.condition = s.condition)
    (hsince : t.since = s.since) (hserved : t.served = s.served) (hpc : t.pc.rechecks = true)
    (hentry : t.taskRef ∈ t.waiters ∨ t.pc.wakesItself = true) : Covered t := by
  refine ⟨hpid,?_,?_,fun _ _ => ?_,fun _ _ _ _ => hpc⟩
  · rw [hsince,hcond]
    exact h.since
  · rw [hserved,hcond]
    exact h.served
  · exact hentry.imp_right .inr

theorem Covered.target (h : Covered s) (ht : stepTarget s = some t) : Covered t := by
  cases hpc : s.pc with
  | outside | gone | switchedOut _ | picked _ =>
    simp only [stepTarget,hpc] at ht
    cases ht
  | sleepHome _ =>
    simp only [stepTarget,hpc] at ht
    cases ht
    exact h.leave h.pid rfl rfl rfl rfl
  | condition | killPending | time _ | sleepKill _ | exitKill | swapReschedule =>
    simp only [stepTarget,hpc] at ht
    cases ht
    exact h.leave h.pid rfl rfl rfl (by dsimp only; split_ifs <;> rfl)
  | slice routine | requeuePriority routine | requeuePush routine =>
    simp only [stepTarget,hpc] at ht
    cases ht
    refine h.goto (.inl rfl) fun hw _ => ?_
    rw [hpc]
    cases routine with
    | event => exact ⟨rfl,(fun hpc => by cases hpc),fun hpc => by cases hpc⟩
    | sleep _ | exitToUser => cases hw
  | join =>
    simp only [stepTarget,hpc] at ht
    obtain ⟨waiters,hpush,rfl⟩ := Option.map_eq_some_iff.mp ht
    obtain ⟨room,rfl,_⟩ := WaiterList.push_eq hpush
    refine h.rejoin ?_ rfl rfl rfl rfl (.inl (List.mem_append_right _ List.mem_cons_self))
    dsimp only
    rw [TaskSlot.getD_transition]
    exact h.pid
  | recheck =>
    simp only [stepTarget,hpc] at ht
    cases ht
    refine h.goto (.inl rfl) fun _ _ => ?_
    rw [hpc]
    refine ⟨rfl,(nomatch ·),fun _ he => ?_⟩
    rw [if_pos (h.condition he)]
    rfl
  | recheckKill =>
    simp only [stepTarget,hpc] at ht
    cases ht
    refine h.goto (.inl rfl) fun _ _ => ?_
    rw [hpc]
    exact ⟨rfl,(nomatch ·),(nomatch ·)⟩
  | remove =>
    simp only [stepTarget,hpc] at ht
    cases ht
    exact h.rejoin h.pid rfl rfl rfl rfl (.inr rfl)
  | wake stage =>
    simp only [stepTarget,hpc] at ht
    split at ht <;> rename_i stage' t' hstep <;> obtain ⟨task,queued,rfl,hw,hstate,hfirst⟩ := stepWake_spec hstep <;> cases ht
    · refine h.goto hw fun _ hb => ?_
      rw [hpc]
      cases stage with
      | pid =>
        rw [Option.some.inj ((hfirst rfl).2 h.pid)]
        exact ⟨rfl,fun _ => rfl,fun _ _ => rfl⟩
      | state => exact absurd hb (hstate rfl)
      | homeCore | priority | count | push | running => exact ⟨rfl,(nomatch ·),(nomatch ·)⟩
    · refine h.goto hw fun _ hb => ?_
      rw [hpc]
      cases stage with
      | pid => cases (hfirst rfl).2 h.pid
      | state => exact absurd hb (hstate rfl)
      | homeCore | priority | count | push | running => exact ⟨rfl,(nomatch ·),(nomatch ·)⟩
  | sleepJoin wakeTime =>
    simp only [stepTarget,hpc,sleepJoin] at ht
    split_ifs at ht <;> cases ht <;> refine h.leave ?_ rfl rfl rfl rfl <;> dsimp only <;> rw [TaskSlot.getD_transition] <;>
      exact h.pid
  | exitCurrent =>
    simp only [stepTarget,hpc] at ht
    cases ht
    exact h.leave h.pid rfl rfl rfl rfl
  | requeue routine =>
    simp only [stepTarget,hpc] at ht
    split at ht <;> cases ht
    · rename_i task hcas
      obtain ⟨_,rfl⟩ := TaskSlot.transition_eq_some.mp hcas
      exact ⟨h.pid,h.since,h.served,fun _ => (nomatch ·),fun _ _ => (nomatch ·)⟩
    · refine h.goto (.inl rfl) fun hw _ => ?_
      rw [hpc]
      cases routine with
      | event => exact ⟨rfl,(fun hpc => by cases hpc),fun hpc => by cases hpc⟩
      | sleep _ | exitToUser => cases hw

/-- The waker and the end of its call, when it goes on with the rest of what it drained. -/
theorem nextWaiter_spec (s : BlockSystem) (w : Nat) (rest : List TaskRef) : ∃ waker served,
    s.nextWaiter w rest = { s with wakers := Function.update s.wakers w waker, served := served } ∧
      waker.pending = rest ∧ (served = true → s.served = true ∨ s.since w = true) := by
  cases rest with
  | nil => exact ⟨.finished,_,rfl,rfl,fun h => by simpa using h⟩
  | cons taskRef rest => exact ⟨.waking taskRef .pid rest,s.served,rfl,rfl,.inl⟩

/-- Behind each of its accesses a call that has not returned still has what it has yet to wake. -/
theorem pending_stepWake {stage stage' : WakeStage} {taskRef : TaskRef} {rest : List TaskRef}
    (h : stepWake taskRef.pid s stage = (some stage',t)) (hstage : stage ≠ .state) :
    (Waker.waking taskRef stage' rest).pending = (Waker.waking taskRef stage rest).pending := by
  cases stage with
  | pid =>
    simp only [stepWake] at h
    split_ifs at h <;> cases h
    rfl
  | state => exact absurd rfl hstage
  | homeCore | priority | count | push =>
    cases h
    rfl
  | running => cases h

/-- A wake_all behind its drain makes an access: what it still has to wake it keeps. -/
theorem Covered.passed {waker : Waker} {task : TaskSlot} {queued served : Bool} (h : Covered s) (hw : Woken s.task task)
    (hdrained : (s.wakers w).drained = true) (hserved : served = true → s.served = true ∨ s.since w = true)
    (hpending : task.state = .blocked → s.taskRef ∈ (s.wakers w).pending → s.taskRef ∈ waker.pending) :
    Covered { s with task := task, queued := queued, wakers := Function.update s.wakers w waker, served := served } := by
  refine ⟨hw.pid.trans h.pid,h.since,fun he => ?_,fun hwaits hb => ?_,fun he hwaits hb => ?_⟩
  · rcases hserved he with he | he
    · exact h.served he
    · exact h.since w he
  · rcases h.entry hwaits (hw.blocked hb) with hm | ⟨v,hm⟩ | hself
    · exact .inl hm
    · refine .inr (.inl ⟨v,?_⟩)
      by_cases hvw : v = w
      · subst hvw
        dsimp only
        rw [Function.update_self]
        exact hpending hb hm
      · dsimp only
        rw [Function.update_of_ne hvw]
        exact hm
    · exact .inr (.inr hself)
  · refine h.emptied ?_ hwaits (hw.blocked hb)
    rcases he with he | ⟨v,hv,hd⟩
    · exact (hserved he).imp_right fun hs => ⟨w,hs,hdrained⟩
    · by_cases hvw : v = w
      · exact .inr ⟨w,hvw ▸ hv,hdrained⟩
      · dsimp only at hd
        rw [Function.update_of_ne hvw] at hd
        exact .inr ⟨v,hv,hd⟩

/-- The drain: the entry of the task goes from the list to the call. -/
theorem Covered.drain (h : Covered s) (hw : s.wakers w = .drain) : Covered ({ s with waiters := [] }.nextWaiter w s.waiters) := by
  obtain ⟨waker,served,hnext,hpending,hserved⟩ := nextWaiter_spec { s with waiters := [] } w s.waiters
  rw [hnext]
  refine ⟨h.pid,h.since,fun he => ?_,fun hwaits hb => ?_,fun _ _ _ hm => by cases hm⟩
  · rcases hserved he with he | he
    · exact h.served he
    · exact h.since w he
  · rcases h.entry hwaits hb with hm | ⟨v,hm⟩ | hself
    · refine .inr (.inl ⟨w,?_⟩)
      dsimp only
      rw [Function.update_self,hpending]
      exact hm
    · refine .inr (.inl ⟨v,?_⟩)
      have hvw : v ≠ w := by
        rintro rfl
        rw [hw] at hm
        cases hm
      dsimp only
      rw [Function.update_of_ne hvw]
      exact hm
    · exact .inr (.inr hself)

theorem Covered.waker (h : Covered s) (ht : stepWaker w s = some t) : Covered t := by
  cases hw : s.wakers w with
  | idle | finished =>
    simp only [stepWaker,hw] at ht
    cases ht
  | drain =>
    simp only [stepWaker,hw] at ht
    cases ht
    exact h.drain hw
  | waking taskRef stage rest =>
    have hdrained : (s.wakers w).drained = true := by rw [hw]; rfl
    simp only [stepWaker,hw] at ht
    split at ht <;> rename_i stage' t' hstep <;> obtain ⟨task,queued,rfl,hwoken,hstate,hfirst⟩ := stepWake_spec hstep
    · cases ht
      refine h.passed hwoken hdrained .inl fun hb hm => ?_
      have hne : stage ≠ .state := fun heq => hstate heq hb
      rwa [pending_stepWake hstep hne,← hw]
    · obtain ⟨waker,served,hnext,hpending,hserved⟩ := nextWaiter_spec { s with task := task, queued := queued } w rest
      rw [hnext] at ht
      cases ht
      refine h.passed hwoken hdrained hserved fun hb hm => ?_
      rw [hw] at hm
      rw [hpending]
      cases stage with
      | pid =>
        -- the pid of the task is its own for as long as it waits, so this call returned early for another one
        rcases List.mem_cons.mp hm with heq | hm
        · have hpid : s.task.pid = taskRef.pid := by rw [h.pid,← heq]; rfl
          cases (hfirst rfl).2 hpid
        · exact hm
      | state => exact absurd hb (hstate rfl)
      | homeCore | priority | count | push | running => exact hm

theorem Covered.killer (h : Covered s) (ht : stepKiller s = some t) : Covered t := by
  cases hk : s.killer with
  | idle | returned =>
    simp only [stepKiller,hk] at ht
    cases ht
  | findSlot | storeExitCode | storeKillPending | loadState =>
    simp only [stepKiller,hk] at ht
    cases ht
    exact h.frame rfl rfl rfl rfl rfl rfl rfl rfl rfl id
  | waking stage =>
    simp only [stepKiller,hk] at ht
    split at ht <;> rename_i stage' t' hstep <;> obtain ⟨task,queued,rfl,hw,_⟩ := stepWake_spec hstep <;> cases ht <;>
      exact h.frame rfl rfl rfl rfl rfl rfl rfl rfl hw.pid hw.blocked

theorem Covered.step {act : BlockAct} (h : Covered s) (ht : step act s = some t) : Covered t := by
  cases act with
  | target => exact h.target ht
  | waker w => exact h.waker ht
  | kill => exact h.killer ht
  | advance _ | markReschedule =>
    cases ht
    exact h.frame rfl rfl rfl rfl rfl rfl rfl rfl rfl id
  | timer =>
    obtain ⟨task,queued,sleeping,heq,hw⟩ := wakeDue_spec s.sleeping.length 0 s
    simp only [BlockSystem.step,heq,Option.some.injEq] at ht
    subst ht
    exact h.frame rfl rfl rfl rfl rfl rfl rfl rfl hw.pid hw.blocked
  | requestKill exitCode =>
    simp only [BlockSystem.step] at ht
    split_ifs at ht
    cases ht
    exact h.frame rfl rfl rfl rfl rfl rfl rfl rfl rfl id
  | call routine =>
    simp only [BlockSystem.step] at ht
    split_ifs at ht
    cases ht
    exact h.leave h.pid rfl rfl rfl (by cases routine <;> rfl)
  | pick =>
    simp only [BlockSystem.step] at ht
    split at ht
    · rename_i routine hpc
      split_ifs at ht
      cases ht
      refine h.goto (.inl rfl) fun hw _ => ?_
      rw [hpc]
      cases routine with
      | event => exact ⟨rfl,(fun hpc => by cases hpc),fun hpc => by cases hpc⟩
      | sleep _ | exitToUser => cases hw
    · cases ht
  | run =>
    simp only [BlockSystem.step] at ht
    split at ht <;> cases ht
    rename_i routine hpc
    exact h.leave h.pid rfl rfl rfl (by cases routine <;> rfl)
  | setCondition value =>
    cases ht
    refine ⟨h.pid,fun w hw => ?_,fun hs => ?_,h.entry,fun he => h.emptied ?_⟩
    · exact (Bool.and_eq_true_iff.mp hw).2
    · exact (Bool.and_eq_true_iff.mp hs).2
    · refine he.imp (fun hs => (Bool.and_eq_true_iff.mp hs).1) ?_
      rintro ⟨w,hw,hd⟩
      exact ⟨w,(Bool.and_eq_true_iff.mp hw).1,hd⟩
  | wakeAll w =>
    have hidle : (s.wakers w).pending = [] ∧ t = { s.setWaker w .drain with since := Function.update s.since w s.condition } := by
      simp only [BlockSystem.step] at ht
      split at ht <;> cases ht <;> rename_i hw <;> rw [hw] <;> exact ⟨rfl,rfl⟩
    obtain ⟨hnone,rfl⟩ := hidle
    refine ⟨h.pid,fun v hv => ?_,h.served,fun hwaits hb => ?_,fun he => h.emptied ?_⟩
    · by_cases hvw : v = w
      · subst hvw
        dsimp only at hv
        rwa [Function.update_self] at hv
      · dsimp only at hv
        rw [Function.update_of_ne hvw] at hv
        exact h.since v hv
    · refine (h.entry hwaits hb).imp_right (Or.imp_left ?_)
      rintro ⟨v,hm⟩
      have hvw : v ≠ w := by
        rintro rfl
        rw [hnone] at hm
        cases hm
      refine ⟨v,?_⟩
      simp only [setWaker,Function.update_of_ne hvw]
      exact hm
    · refine he.imp_right ?_
      rintro ⟨v,hv,hd⟩
      have hvw : v ≠ w := by
        rintro rfl
        simp only [setWaker,Function.update_self] at hd
        cases hd
      simp only [setWaker,Function.update_of_ne hvw] at hv hd
      exact ⟨v,hv,hd⟩

/-- Where the condition has held since before a wake_all that has finished, a task that is off its core
and blocked in its wait for the event is in the hands of another wake_all, which has yet to wake it. -/
theorem run_wakeup_not_lost {slot : Slot} {pid : Nat} {acts : List BlockAct}
    (hrun : steps BlockSystem.step acts (start slot pid) = some s) (hserved : s.served = true)
    (hpc : s.pc = .switchedOut .event) (hb : s.task.state = .blocked) : ∃ w, s.taskRef ∈ (s.wakers w).pending := by
  have h : Covered s := steps_keep (fun a s t h ht => h.step ht) (.start slot pid) hrun
  have hwaits : s.pc.waits = true := by rw [hpc]; rfl
  rcases h.entry hwaits hb with hm | hheld | hself
  · have hre := h.emptied (.inl hserved) hwaits hb hm
    rw [hpc] at hre
    cases hre
  · exact hheld
  · rw [hpc] at hself
    cases hself

/-- The task blocks, waker 0 drains its entry and is delayed, waker 1 finds the list empty. -/
private def delayedWaker : List BlockAct :=
  .call .event :: List.replicate 7 .target ++ [.setCondition true,.wakeAll 0,.waker 0,.setCondition true,.wakeAll 1,.waker 1]

private theorem delayedWaker_view : ((steps BlockSystem.step delayedWaker (start 0 1)).map fun s =>
    (s.served,s.pc,s.task.state)) = some (true,.switchedOut .event,.blocked) := rfl

theorem run_wakeup_not_lost_delayed : ∃ s, steps BlockSystem.step delayedWaker (start 0 1) = some s ∧ s.served = true ∧
    s.pc = .switchedOut .event ∧ s.task.state = .blocked ∧ ∃ w, s.taskRef ∈ (s.wakers w).pending := by
  obtain ⟨s,hs,h⟩ := Option.map_eq_some_iff.mp delayedWaker_view
  simp only [Prod.mk.injEq] at h
  exact ⟨s,hs,h.1,h.2.1,h.2.2,run_wakeup_not_lost hs h.1 h.2.1 h.2.2⟩

theorem delayed_waker_leaves_blocked : ¬ ∀ (slot : Slot) (pid : Nat) (acts : List BlockAct) (s : BlockSystem),
    steps BlockSystem.step acts (start slot pid) = some s → s.served = true →
      ¬ (s.pc = .switchedOut .event ∧ s.task.state = .blocked) := by
  intro hclaim
  obtain ⟨s,hs,h⟩ := Option.map_eq_some_iff.mp delayedWaker_view
  simp only [Prod.mk.injEq] at h
  exact hclaim 0 1 delayedWaker s hs h.1 h.2

end BlockSystem
end MofuOS.Process
