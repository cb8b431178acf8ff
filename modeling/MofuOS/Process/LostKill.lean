import MofuOS.Process.Blocking

/-! A kill and the blocking routines: whoever blocks behind the flag wakes itself, unless it sleeps. -/
namespace MofuOS.Process
open Lib

/-- request_kill has set the flag. -/
def Killer.stored : Killer → Bool
  | .waking _ | .loadState | .returned => true
  | _ => false

/-- request_kill is behind the compare-and-swap of its wake_task. -/
def Killer.tried : Killer → Bool
  | .waking .pid | .waking .state => false
  | .waking _ | .loadState | .returned => true
  | _ => false

/-- The task has joined the waiters and is yet to look at the flag, or is waking itself. -/
def Pc.selfWaking : Pc → Bool
  | .recheck | .recheckKill | .remove | .wake .pid | .wake .state => true
  | _ => false

namespace BlockSystem

/-- The task does not enter its sleep behind the wake that a request_kill has tried on it. -/
def sleepsUntried : BlockAct → BlockSystem → Prop
  | .target,s => ∀ wakeTime, s.pc = .sleepJoin wakeTime → s.killer.tried = false
  | _,_ => True

structure KillSeen (s : BlockSystem) : Prop where
  pid : s.task.pid = s.pid
  stored : s.killer.stored = true → s.task.killPending = true
  blocked : s.killer.tried = true → s.task.state = .blocked → s.pc.selfWaking = true

variable {s t : BlockSystem}

theorem KillSeen.start (slot : Slot) (pid : Nat) : KillSeen (start slot pid) := ⟨rfl,(nomatch ·),(nomatch ·)⟩

theorem KillSeen.others {act : BlockAct} (h : KillSeen s) (ho : BlockAct.others act = true) (ht : step act s = some t) :
    KillSeen t := by
  obtain ⟨hpid,_,hpc,hkiller,hw⟩ := step_others ho ht
  constructor
  · rw [hpid,hw.pid]
    exact h.pid
  · rw [hkiller,hw.killPending]
    exact h.stored
  · rw [hkiller,hpc]
    exact fun htried hb => h.blocked htried (hw.blocked hb)

theorem stored_of_tried {killer : Killer} (h : killer.tried = true) : killer.stored = true := by
  cases killer <;> first | rfl | cases h

/-- A step of the task, which may change its state and its place. -/
theorem KillSeen.moved (h : KillSeen s) (hpid : t.pid = s.pid) (hkiller : t.killer = s.killer)
    (htask : ∃ state, t.task = s.task.setState state)
    (hb : s.killer.tried = true → t.task.state = .blocked → t.pc.selfWaking = true) : KillSeen t := by
  obtain ⟨state,htask⟩ := htask
  refine ⟨?_,?_,hkiller ▸ hb⟩
  · rw [hpid,htask]
    exact h.pid
  · rw [hkiller,htask]
    exact h.stored

theorem KillSeen.target (hc : sleepsUntried .target s) (h : KillSeen s) (ht : stepTarget s = some t) : KillSeen t := by
  -- places that are not on the way of waking itself: there the task is not blocked behind the wake
  have hstay : s.pc.selfWaking = false → ∀ {p : Prop}, s.killer.tried = true → s.task.state = .blocked → p := by
    intro hfalse p htried hb
    rw [h.blocked htried hb] at hfalse
    cases hfalse
  cases hpc : s.pc with
  | outside | gone | switchedOut _ | picked _ =>
    simp only [stepTarget,hpc] at ht
    cases ht
  | condition | killPending | time _ | sleepKill _ | sleepHome _ | exitKill | swapReschedule | slice _ | requeuePriority _
    | requeuePush _ =>
    simp only [stepTarget,hpc] at ht
    cases ht
    exact h.moved rfl rfl ⟨s.task.state,rfl⟩ (hstay (by rw [hpc]; rfl))
  | join =>
    simp only [stepTarget,hpc] at ht
    obtain ⟨waiters,_,rfl⟩ := Option.map_eq_some_iff.mp ht
    exact h.moved rfl rfl ⟨_,TaskSlot.getD_transition ..⟩ fun _ _ => rfl
  | recheck =>
    simp only [stepTarget,hpc] at ht
    cases ht
    exact h.moved rfl rfl ⟨s.task.state,rfl⟩ fun _ _ => by dsimp only; split_ifs <;> rfl
  | recheckKill =>
    simp only [stepTarget,hpc] at ht
    cases ht
    refine h.moved rfl rfl ⟨s.task.state,rfl⟩ fun htried _ => ?_
    dsimp only
    rw [if_pos (h.stored (stored_of_tried htried))]
    rfl
  | remove =>
    simp only [stepTarget,hpc] at ht
    cases ht
    exact h.moved rfl rfl ⟨s.task.state,rfl⟩ fun _ _ => rfl
  | wake stage =>
    simp only [stepTarget,hpc] at ht
    split at ht <;> rename_i stage' t' hstep <;> obtain ⟨task,queued,rfl,hw,hstate,hfirst⟩ := stepWake_spec hstep <;> cases ht
    · refine ⟨hw.pid.trans h.pid,fun hs => hw.killPending.trans (h.stored hs),fun htried hb => ?_⟩
      have hplace := h.blocked htried (hw.blocked hb)
      rw [hpc] at hplace
      cases stage with
      | pid => rw [Option.some.inj ((hfirst rfl).2 h.pid)]; rfl
      | state => exact absurd hb (hstate rfl)
      | homeCore | priority | count | push | running => cases hplace
    · refine ⟨hw.pid.trans h.pid,fun hs => hw.killPending.trans (h.stored hs),fun htried hb => ?_⟩
      have hplace := h.blocked htried (hw.blocked hb)
      rw [hpc] at hplace
      cases stage with
      | pid => cases (hfirst rfl).2 h.pid
      | state => exact absurd hb (hstate rfl)
      | homeCore | priority | count | push | running => cases hplace
  | sleepJoin wakeTime =>
    simp only [stepTarget,hpc,sleepJoin] at ht
    split_ifs at ht <;> cases ht <;> refine h.moved rfl rfl ⟨_,TaskSlot.getD_transition ..⟩ fun htried _ => ?_ <;>
      rw [hc wakeTime hpc] at htried <;> cases htried
  | exitCurrent =>
    simp only [stepTarget,hpc] at ht
    cases ht
    exact h.moved rfl rfl ⟨_,rfl⟩ (nomatch ·,·)
  | requeue routine =>
    simp only [stepTarget,hpc] at ht
    split at ht <;> cases ht
    · rename_i task hcas
      obtain ⟨_,rfl⟩ := TaskSlot.transition_eq_some.mp hcas
      exact h.moved rfl rfl ⟨_,rfl⟩ fun _ hb => by cases hb
    · exact h.moved rfl rfl ⟨s.task.state,rfl⟩ (hstay (by rw [hpc]; rfl))

theorem KillSeen.killer (h : KillSeen s) (ht : stepKiller s = some t) : KillSeen t := by
  cases hk : s.killer with
  | idle | returned =>
    simp only [stepKiller,hk] at ht
    cases ht
  | findSlot =>
    simp only [stepKiller,hk,if_pos h.pid] at ht
    cases ht
    exact ⟨h.pid,(fun hpc => by cases hpc),fun hpc => by cases hpc⟩
  | storeExitCode =>
    simp only [stepKiller,hk] at ht
    cases ht
    exact ⟨h.pid,(fun hpc => by cases hpc),fun hpc => by cases hpc⟩
  | storeKillPending =>
    simp only [stepKiller,hk] at ht
    cases ht
    exact ⟨h.pid,fun _ => rfl,(nomatch ·)⟩
  | waking stage =>
    have hstored := h.stored (by rw [hk]; rfl)
    simp only [stepKiller,hk] at ht
    split at ht <;> rename_i stage' t' hstep <;> obtain ⟨task,queued,rfl,hw,hstate,hfirst⟩ := stepWake_spec hstep <;> cases ht
    · refine ⟨hw.pid.trans h.pid,fun _ => hw.killPending.trans hstored,fun htried hb => ?_⟩
      cases stage with
      | pid =>
        rw [Option.some.inj ((hfirst rfl).2 h.pid)] at htried
        cases htried
      | state => exact absurd hb (hstate rfl)
      | homeCore | priority | count | push | running => exact h.blocked (by rw [hk]; rfl) (hw.blocked hb)
    · refine ⟨hw.pid.trans h.pid,fun _ => hw.killPending.trans hstored,fun htried hb => ?_⟩
      cases stage with
      | pid => cases (hfirst rfl).2 h.pid
      | state => exact absurd hb (hstate rfl)
      | homeCore | priority | count | push | running => exact h.blocked (by rw [hk]; rfl) (hw.blocked hb)
  | loadState =>
    simp only [stepKiller,hk] at ht
    cases ht
    exact ⟨h.pid,fun _ => h.stored (by rw [hk]; rfl),fun _ hb => h.blocked (by rw [hk]; rfl) hb⟩

theorem KillSeen.step {act : BlockAct} (hc : sleepsUntried act s) (h : KillSeen s) (ht : step act s = some t) : KillSeen t := by
  cases act with
  | advance _ | timer | markReschedule | setCondition _ | wakeAll _ | waker _ => exact h.others rfl ht
  | target => exact h.target hc ht
  | kill => exact h.killer ht
  | call routine =>
    simp only [BlockSystem.step] at ht
    split_ifs at ht with hpc
    cases ht
    refine h.moved rfl rfl ⟨s.task.state,rfl⟩ fun htried hb => ?_
    have hplace := h.blocked htried hb
    rw [hpc] at hplace
    cases hplace
  | pick =>
    simp only [BlockSystem.step] at ht
    split at ht
    · rename_i routine hpc
      split_ifs at ht
      cases ht
      refine h.moved rfl rfl ⟨s.task.state,rfl⟩ fun htried hb => ?_
      have hplace := h.blocked htried hb
      rw [hpc] at hplace
      cases hplace
    · cases ht
  | run =>
    simp only [BlockSystem.step] at ht
    split at ht <;> cases ht
    exact h.moved rfl rfl ⟨_,rfl⟩ fun _ hb => by cases hb
  | requestKill exitCode =>
    simp only [BlockSystem.step] at ht
    split_ifs at ht
    cases ht
    exact ⟨h.pid,(fun hpc => by cases hpc),fun hpc => by cases hpc⟩

/-- Once request_kill has returned, the task is not off its core and blocked with the flag set. -/
def KillNotLost (s : BlockSystem) : Prop :=
  s.killer = .returned → s.task.killPending = true → ∀ routine, s.pc = .switchedOut routine → s.task.state ≠ .blocked

theorem run_kill_not_lost {slot : Slot} {pid : Nat} {acts : List BlockAct}
    (hrun : steps BlockSystem.step acts (start slot pid) = some s)
    (hc : stepsMeet BlockSystem.step sleepsUntried acts (start slot pid)) : KillNotLost s := by
  have h : KillSeen s := steps_invariant (fun a s t hc h ht => h.step hc ht) hc (.start slot pid) hrun
  intro hreturned _ routine hpc hb
  have hplace := h.blocked (by rw [hreturned]; rfl) hb
  rw [hpc] at hplace
  cases hplace

/-- The task sleeps, then the kill comes and makes it ready. -/
private def killedAsleep : List BlockAct :=
  .call (.sleep 5) :: List.replicate 6 .target ++ .requestKill 7 :: List.replicate 11 .kill

theorem run_kill_not_lost_asleep : ∃ s, steps BlockSystem.step killedAsleep (start 0 1) = some s ∧ s.killer = .returned ∧
    s.pc = .switchedOut (.sleep 5) ∧ s.task.killPending = true ∧ KillNotLost s := by
  have hview : ((steps BlockSystem.step killedAsleep (start 0 1)).map fun s => (s.killer,s.pc,s.task.killPending)) =
      some (.returned,.switchedOut (.sleep 5),true) := rfl
  obtain ⟨s,hs,h⟩ := Option.map_eq_some_iff.mp hview
  simp only [Prod.mk.injEq] at h
  refine ⟨s,hs,h.1,h.2.1,h.2.2,run_kill_not_lost hs (stepsMeet_of_check (fun a s => a ≠ .target || !s.killer.tried) ?_ rfl)⟩
  intro a s htest
  cases a <;> first | trivial | exact fun _ _ => by simpa using htest

/-- The kill comes between the look at the flag and the sleep. -/
theorem kill_lost_asleep : ∃ acts s, steps BlockSystem.step acts (start 0 1) = some s ∧ ¬ KillNotLost s := by
  have hview : ((steps BlockSystem.step (.call (.sleep 5) :: List.replicate 2 .target ++ .requestKill 7 ::
      List.replicate 6 .kill ++ List.replicate 4 .target) (start 0 1)).map fun s =>
      (s.killer,s.pc,s.task.killPending,s.task.state)) = some (.returned,.switchedOut (.sleep 5),true,.blocked) := rfl
  obtain ⟨s,hs,h⟩ := Option.map_eq_some_iff.mp hview
  simp only [Prod.mk.injEq] at h
  exact ⟨_,s,hs,fun hn => hn h.1 h.2.2.1 _ h.2.1 h.2.2.2⟩

end BlockSystem
end MofuOS.Process
