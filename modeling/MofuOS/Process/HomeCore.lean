import MofuOS.Process.CoresTask

/-! Where tasks run: on their home core, which is the core their blocking routines have read the id of,
as long as no task is stolen that is still remembered with its home core. -/
namespace MofuOS.Process.Cores
open Lib

/-- The task is outside the blocking routines, has no entry among the sleepers, and its last core has
not only cleared on_cpu but also the record of its running task. -/
def movable (team : System) (slot : Slot) : Bool :=
  team.shared.resume slot = .user && (List.finRange maxCores).all fun core =>
    (team.shared.runQueues core).sleepingTasks.all (·.taskRef ≠ ⟨slot,(team.shared.tasks slot).pid⟩) &&
      (show CorePc from team.agents (.core core)) ≠ .clearing slot

/-- The task try_steal_task takes in this step. -/
def stolen (act : Agent × Input) (team : System) : Option Slot :=
  match act.1 with
  | .core core => match (show CorePc from team.agents (.core core)) with
    | .taking coreFrom =>
      ((team.shared.runQueues coreFrom).takeStealableTask team.shared.next fun slot => (team.shared.tasks slot).onCpu).toOption.bind (·.1)
    | _ => none
  | _ => none

def spares (act : Agent × Input) (team : System) : Prop := ∀ slot, stolen act team = some slot → movable team slot = true

section Steps
variable {core : Core} {slot : Slot} {ref : TaskRef} {s s' : Shared}

/-- The record of the running task outlives on_cpu by one step. -/
theorem CoreOk.current_cases {pc : CorePc} (h : CoreOk core s pc) (hc : s.current core = some ref) :
    (s.tasks ref.slot).onCpu = true ∨ pc = .clearing ref.slot := by
  have hnone : s.current core ≠ none := by rw [hc]; nofun
  cases pc with
  | loop | looking | taking => exact absurd h hnone
  | storeHome | leaveFrom | count | push | picked | started | entering => exact absurd h.1 hnone
  | task r pc =>
    cases h.1.symm.trans hc
    exact .inl h.2.1
  | left x =>
    obtain ⟨r,hr,rfl,hon⟩ := h
    cases hr.symm.trans hc
    exact .inl hon
  | clearing x =>
    obtain ⟨r,hr,rfl⟩ := h
    cases hr.symm.trans hc
    exact .inr rfl

/-- A task that may be moved and is on no processor is remembered nowhere. -/
theorem not_remembers {team : System} (h : team.Holds SharedOk AgentOk) (hm : movable team slot = true)
    (hcpu : (team.shared.tasks slot).onCpu = false) : ¬ team.shared.Remembers slot := by
  rw [movable,Bool.and_eq_true,decide_eq_true_eq,List.all_eq_true] at hm
  have hcore : ∀ c, (∀ e ∈ (team.shared.runQueues c).sleepingTasks, e.taskRef ≠ ⟨slot,(team.shared.tasks slot).pid⟩) ∧
      (show CorePc from team.agents (.core c)) ≠ .clearing slot := by
    intro c
    have := hm.2 c (List.mem_finRange c)
    simpa only [Bool.and_eq_true,List.all_eq_true,decide_eq_true_eq] using this
  rintro (⟨c,ref,hc,rfl⟩ | ⟨c,e,he,rfl⟩ | hr)
  · have hpc : CoreOk c team.shared (team.agents (.core c)) := h.agents (.core c)
    rcases hpc.current_cases hc with hon | hclear
    · rw [hcpu] at hon
      cases hon
    · exact (hcore c).2 hclear
  · exact (hcore c).1 e he (congrArg (TaskRef.mk e.taskRef.slot) (h.shared.memory.entries c e he).1.symm)
  · exact hr hm.1

theorem lookNext_ok (h : s.current core = none) (coreFrom : Nat) : CoreOk core s (lookNext coreFrom) := by
  rw [lookNext]
  split_ifs
  · exact h
  · exact h

theorem again_ok {routine : Routine} (hrun : Runs core s slot) : TaskOk core s slot routine.again := by
  cases routine <;> exact hrun

theorem again_coreId (routine : Routine) : routine.again.coreId = routine.coreId := by
  cases routine <;> rfl

theorem stepCore_good {input : Input} {pc pc' : CorePc} (h : SharedOk s) (hok : CoreOk core s pc)
    (hspare : ∀ coreFrom slot next queue, pc = .taking coreFrom →
      (s.runQueues coreFrom).takeStealableTask s.next (fun slot => (s.tasks slot).onCpu) = .ok (some slot,next,queue) → ¬ s.Remembers slot)
    (hk : stepCore core input pc s = some (pc',s')) : Good (.core core) s s' ∧ CoreOk core s' pc' := by
  unfold stepCore at hk
  split at hk
  · cases hk
    obtain ⟨hc,hon,hid,htask⟩ := hok
    exact CoreOk.goto h hc hon (fun _ he => (Option.some.inj he).symm) htask
  · cases hk
    obtain ⟨hc,hon,hid,htask⟩ := hok
    exact CoreOk.goto h hc hon (fun _ he => (Option.some.inj he).symm) htask
  · cases hk
    obtain ⟨hc,hon,hid,htask⟩ := hok
    exact CoreOk.goto h hc hon (fun _ he => (Option.some.inj he).symm) fun _ he => by cases he
  · exact stepTask_good h hok hk
  · split_ifs at hk
    obtain ⟨⟨picked,queue⟩,hpick,heq⟩ := Option.map_eq_some_iff.mp hk
    cases picked with
    | none =>
      cases heq
      exact ⟨idle_good h (of_toOption hpick),lookNext_ok hok 1⟩
    | some x =>
      cases heq
      exact ⟨pick_good h (of_toOption hpick),hok,Function.update_self ..⟩
  · split_ifs at hk
    · cases hk
      exact ⟨h.good _,lookNext_ok hok _⟩
    · cases hk
      exact ⟨h.good _,hok⟩
  · split_ifs at hk
    · cases hk
      exact ⟨h.good _,lookNext_ok hok _⟩
    · obtain ⟨⟨taken,next,queue⟩,htake,heq⟩ := Option.map_eq_some_iff.mp hk
      cases taken with
      | none =>
        cases heq
        exact ⟨h.good _,lookNext_ok hok _⟩
      | some x =>
        cases heq
        exact ⟨take_good h (of_toOption htake) (hspare _ _ _ _ rfl (of_toOption htake)),hok,Function.update_self ..⟩
  · rename_i x coreFrom
    cases hk
    refine ⟨storeHome_good h hok.2,hok.1,hok.2,?_⟩
    simp only [Shared.setTask,Function.update_self]
  · cases hk
    exact ⟨leaveFrom_good h hok.2.1,hok.1,Function.update_self ..,hok.2.2⟩
  · cases hk
    exact ⟨count_good h hok.2.1 hok.2.2,hok.1,Function.update_self ..⟩
  · split_ifs at hk
    obtain ⟨s₁,hpush,heq⟩ := Option.map_eq_some_iff.mp hk
    cases heq
    obtain ⟨hgood,_,hcur,_⟩ := push_good h (by rw [hok.2]; rfl) (by rw [hok.2]; rfl)
      (h.not_running (by rw [hok.2]; exact fun _ he => by cases he)) hpush
    exact ⟨hgood,(congrFun hcur core).trans hok.1⟩
  · cases hk
    refine ⟨state_good h (by rw [hok.2]; rfl) (.inr ⟨rfl,core,hok.2⟩),hok.1,hok.2,?_⟩
    simp only [Shared.setTask,Function.update_self]
    rfl
  · rename_i x
    cases hk
    obtain ⟨hc,hrun⟩ := hok
    have hhome := (h.slots x).home core (by rw [hrun.1]; rfl)
    refine ⟨cpu_good h true (fun c r hr hs => ?_) (fun c hp => ?_),hc,⟨hrun.1,?_⟩,?_⟩
    · rw [← (h.memory.current c r hr).2,hs,hhome]
    · exact (Phase.held.inj (hrun.1.symm.trans hp)).symm
    · simp only [Shared.setTask,Function.update_self]
      exact hrun.2
    · simp only [Shared.setTask,Function.update_self]
  · rename_i x
    cases hk
    obtain ⟨hc,hrun,hon⟩ := hok
    have hhome := (h.slots x).home core (by rw [hrun.1]; rfl)
    refine ⟨enter_good h hrun,Function.update_self ..,hon,fun id hid => ?_,again_ok hrun⟩
    rw [again_coreId] at hid
    rw [← h.memory.resume x id hid,hhome]
  · cases hk
    obtain ⟨ref,hc,rfl,hon⟩ := hok
    exact ⟨cpu_good h false (h.current_unique hc) (h.current_held hc),ref,hc,rfl⟩
  · cases hk
    exact ⟨clear_good h core,Function.update_self ..⟩
  · cases hk

end Steps

theorem move_good (agent : Agent) (input : Input) (team : System) (pc' : Pc agent) (s' : Shared) (hc : spares (agent,input) team)
    (h : team.Holds SharedOk AgentOk) (hk : move agent input (team.agents agent) team.shared = some (pc',s')) :
    SharedOk s' ∧ AgentOk agent pc' s' ∧ ∀ other, other ≠ agent → Rely other team.shared s' := by
  have hagent := h.agents agent
  cases agent with
  | waker i =>
    obtain ⟨hgood,hpc⟩ := stepWaker_good h.shared hagent hk
    exact ⟨hgood.ok,hpc,hgood.rely⟩
  | timer core =>
    obtain ⟨hgood,hpc⟩ := stepTimer_good h.shared hagent hk
    exact ⟨hgood.ok,hpc,hgood.rely⟩
  | core core =>
    have hspare : ∀ coreFrom slot next queue, team.agents (.core core) = CorePc.taking coreFrom →
        (team.shared.runQueues coreFrom).takeStealableTask team.shared.next (fun slot => (team.shared.tasks slot).onCpu) =
          .ok (some slot,next,queue) → ¬ team.shared.Remembers slot := by
      intro coreFrom slot next queue hpc htake
      obtain ⟨lists,hrep,_⟩ := h.shared.queues
      obtain ⟨_,_,_,_,hcpu,_⟩ := hrep.take_spec htake
      refine not_remembers h (hc slot ?_) hcpu
      simp only [stolen,hpc,htake]
      rfl
    obtain ⟨hgood,hpc⟩ := stepCore_good h.shared hagent hspare hk
    exact ⟨hgood.ok,hpc,hgood.rely⟩

theorem start_holds : start.Holds SharedOk AgentOk := by
  refine ⟨⟨fun slot => ⟨fun _ => rfl,(fun he => by cases he),fun _ hc => by cases hc⟩,⟨fun _ => [],.new,fun core slot => ?_⟩,fun core => ?_,?_⟩,
    fun agent => ?_⟩
  · constructor
    · rintro ⟨bank,level,hm⟩
      cases hm
    · intro he
      cases he
  · rw [tally]
    exact (Finset.sum_eq_zero fun slot _ => rfl).symm
  · refine ⟨(fun _ _ hc => by cases hc),(fun _ _ he => by cases he),(fun _ _ hw => by cases hw),?_⟩
    rintro slot _ (⟨c,r,hc,_⟩ | ⟨c,e,he,_⟩ | hr)
    · cases hc
    · cases he
    · exact hr rfl
  · cases agent with
    | waker i => trivial
    | timer core => trivial
    | core core => rfl

variable {acts : List (Agent × Input)} {team : System}

theorem run_holds (hc : stepsMeet (Team.step move) spares acts start) (h : steps (Team.step move) acts start = some team) :
    team.Holds SharedOk AgentOk :=
  Team.run_holds AgentOk.stable move_good hc start_holds h

/-- A task in a blocking routine names itself, on whatever core it runs, by the core id it has read. -/
theorem run_names_own_task (hc : stepsMeet (Team.step move) spares acts start) (h : steps (Team.step move) acts start = some team)
    {core coreId : Core} {taskRef : TaskRef} {pc : TaskPc} (hpc : team.agents (.core core) = CorePc.task taskRef pc)
    (hid : pc.coreId = some coreId) : team.shared.current coreId = some taskRef := by
  have hok : CoreOk core team.shared (team.agents (.core core)) := (run_holds hc h).agents (.core core)
  rw [hpc] at hok
  obtain ⟨hcur,_,hcore,_⟩ := hok
  rw [hcore coreId hid]
  exact hcur

/-- Queued and running tasks are on their home cores. -/
def HomeOk (s : Shared) : Prop :=
  (∃ lists, RunQueuesOk s.next s.runQueues lists ∧ ∀ core slot, onCore lists core slot → (s.tasks slot).homeCore = core) ∧
  ∀ core taskRef, s.current core = some taskRef → (s.tasks taskRef.slot).homeCore = core

/-- The core whose counter the next step of a task decrements. -/
def TaskPc.leaves (s : Shared) (taskRef : TaskRef) : TaskPc → Option Core
  | .join _ _ => some (s.tasks taskRef.slot).homeCore
  | .sleepJoin _ _ homeCore => some homeCore
  | _ => none

/-- So a task that is queued again is at home on the core that queues it, and one that blocks is counted no more
by the core that has counted it: the counters are the numbers of tasks they count. -/
theorem run_home_core (hc : stepsMeet (Team.step move) spares acts start) (h : steps (Team.step move) acts start = some team) :
    HomeOk team.shared ∧
    (∀ core taskRef coreId routine, team.agents (.core core) = CorePc.task taskRef (.requeuePush coreId routine) →
      (team.shared.tasks taskRef.slot).homeCore = coreId) ∧
    (∀ core taskRef pc coreFrom, team.agents (.core core) = CorePc.task taskRef pc →
      pc.leaves team.shared taskRef = some coreFrom → (team.shared.phase taskRef.slot).countedOn = some coreFrom) ∧
    ∀ core, team.shared.runnableTasksCount core =
      (Finset.univ.filter fun slot => (team.shared.phase slot).countedOn = some core).card := by
  have hold := run_holds hc h
  have hcore : ∀ core, CoreOk core team.shared (team.agents (.core core)) := fun core => hold.agents (.core core)
  obtain ⟨lists,hrep,hon⟩ := hold.shared.queues
  refine ⟨⟨⟨lists,hrep,fun core slot hq => ?_⟩,fun core ref hr => (hold.shared.memory.current core ref hr).2⟩,
    fun core ref coreId routine hpc => ?_,fun core ref pc coreFrom hpc hleaves => ?_,fun core => ?_⟩
  · exact (hold.shared.slots slot).home core (by rw [(hon core slot).mp hq]; rfl)
  · have hok := hcore core
    rw [hpc] at hok
    obtain ⟨hcur,_,hid,_⟩ := hok
    rw [hid coreId rfl]
    exact (hold.shared.memory.current core ref hcur).2
  · have hok := hcore core
    rw [hpc] at hok
    obtain ⟨hcur,_,_,htask⟩ := hok
    have hhome := (hold.shared.memory.current core ref hcur).2
    cases pc with
    | join coreId waitQueue =>
      cases hleaves
      rw [htask.1,hhome]
      rfl
    | sleepJoin coreId wakeTimeUs homeCore =>
      cases hleaves
      obtain ⟨hrun,rfl⟩ := htask
      rw [hrun.1]
      rfl
    | _ => cases hleaves
  · rw [hold.shared.count core,tally_eq_card]
    simp only [counts,decide_eq_true_eq]

section Runs

/-- The agent takes its next steps, with its conditions false. -/
def go (agent : Agent) (n : Nat) : List (Agent × Input) := List.replicate n (agent,.go false)

/-- Two tasks on core 1, of which the one in slot 1 has the higher priority and runs. -/
def twoTasks : List (Agent × Input) :=
  [(.waker 0,.create 1 3 1)] ++ go (.waker 0) 4 ++ [(.waker 0,.create 2 5 1)] ++ go (.waker 0) 4 ++ go (.core 1) 4

/-- The task in slot 1 blocks, is woken, stolen by core 2 and resumed there. -/
def stolenInRoutine : List (Agent × Input) :=
  twoTasks ++ [(.core 1,.event .futex)] ++ go (.core 1) 13 ++ [(.waker 0,.wakeAll .futex)] ++ go (.waker 0) 6 ++ go (.core 2) 12

theorem stolen_names_other_task : ∃ team taskRef, steps (Team.step move) stolenInRoutine start = some team ∧
    team.agents (.core 2) = CorePc.task taskRef (.killPending 1 .futex) ∧ team.shared.current 1 ≠ some taskRef := by
  have hrun : (steps (Team.step move) stolenInRoutine start).map (fun team =>
      ((show CorePc from team.agents (.core 2)),team.shared.current 1)) =
      some (.task ⟨1,2⟩ (.killPending 1 .futex),some ⟨0,1⟩) := by decide +kernel
  obtain ⟨team,hteam,hview⟩ := Option.map_eq_some_iff.mp hrun
  obtain ⟨hpc,hcur⟩ := Prod.mk.inj hview
  refine ⟨team,⟨1,2⟩,hteam,hpc,?_⟩
  rw [hcur]
  decide

/-- The task in slot 1 blocks on core 1 while core 2 steals the other one. -/
def stolenOutside : List (Agent × Input) := twoTasks ++ go (.core 2) 11 ++ [(.core 1,.event .futex)] ++ go (.core 1) 1

theorem stolenOutside_spares : stepsMeet (Team.step move) spares stolenOutside start :=
  stepsMeet_of_check (fun act team => (stolen act team).all (movable team))
    (fun act team ht slot hs => by rw [hs] at ht; exact ht) (by decide +kernel)

theorem run_names_own_task_blocking : ∃ team, steps (Team.step move) stolenOutside start = some team ∧
    team.agents (.core 1) = CorePc.task ⟨1,2⟩ (.killPending 1 .futex) ∧ team.shared.current 1 = some ⟨1,2⟩ := by
  have hrun : (steps (Team.step move) stolenOutside start).map (fun team => (show CorePc from team.agents (.core 1))) =
      some (.task ⟨1,2⟩ (.killPending 1 .futex)) := by decide +kernel
  obtain ⟨team,hteam,hpc⟩ := Option.map_eq_some_iff.mp hrun
  exact ⟨team,hteam,hpc,run_names_own_task stolenOutside_spares hteam hpc rfl⟩

/-- A delayed wake_all wakes the task in slot 1 from its sleep on core 1. It is stolen, sleeps on core 2, and
the timer of core 1 finds the entry of the first sleep. -/
def staleSleeper : List (Agent × Input) :=
  twoTasks ++ [(.core 1,.event .futex)] ++ go (.core 1) 3 ++ [(.waker 0,.wakeAll .futex)] ++ go (.waker 0) 1 ++
  [(.core 1,.go true)] ++ go (.core 1) 14 ++ [(.core 1,.go true),(.core 1,.sleep 100)] ++ go (.core 1) 8 ++ go (.waker 0) 5 ++
  go (.core 1) 4 ++ [(.core 1,.go true),(.core 1,.giveUp)] ++ go (.core 1) 5 ++ go (.core 2) 11 ++ [(.core 2,.sleep 500)] ++
  go (.core 2) 4 ++ [(.timer 1,.tick 200)] ++ go (.timer 1) 4

theorem stale_sleeper_leaves_home : ∃ team, steps (Team.step move) staleSleeper start = some team ∧ ¬ HomeOk team.shared := by
  have hrun : (steps (Team.step move) staleSleeper start).map (fun team =>
      ((queueAt team.shared.runQueues (1,.executingTasks,⟨5,by decide⟩)).head,(team.shared.tasks 1).homeCore)) =
      some (some 1,2) := by decide +kernel
  obtain ⟨team,hteam,hview⟩ := Option.map_eq_some_iff.mp hrun
  obtain ⟨hhead,hhome⟩ := Prod.mk.inj hview
  refine ⟨team,hteam,fun hok => ?_⟩
  obtain ⟨lists,hrep,hqueued⟩ := hok.1
  have hlist := (hrep.threads.threaded (1,.executingTasks,⟨5,by decide⟩)).head_eq
  have hmem : (1 : Slot) ∈ lists (1,.executingTasks,⟨5,by decide⟩) := List.mem_of_mem_head? (hlist.symm.trans hhead)
  have hcore := hqueued 1 1 ⟨_,_,hmem⟩
  rw [hhome] at hcore
  exact absurd hcore (by decide)

theorem run_home_core_stolen : ∃ team, steps (Team.step move) stolenOutside start = some team ∧ HomeOk team.shared ∧
    (team.shared.tasks 0).homeCore = 2 := by
  have hrun : (steps (Team.step move) stolenOutside start).map (fun team => (team.shared.tasks 0).homeCore) = some 2 := by decide +kernel
  obtain ⟨team,hteam,hhome⟩ := Option.map_eq_some_iff.mp hrun
  exact ⟨team,hteam,(run_home_core stolenOutside_spares hteam).1,hhome⟩

end Runs
end MofuOS.Process.Cores
