import MofuOS.Process.CoresRun

/-! The steps of a core with a task on it, and of the task. -/
namespace MofuOS.Process.Cores
open Lib

variable {core : Core} {slot : Slot} {ref : TaskRef} {s s' : Shared}

/-- Only the core that runs the task marks it. -/
theorem cpu_good (h : SharedOk s) (value : Bool) (hon : ∀ c r, s.current c = some r → r.slot = slot → c = core)
    (hheld : ∀ c, s.phase slot = .held c → c = core) : Good (.core core) s (s.setTask slot { s.tasks slot with onCpu := value }) := by
  obtain ⟨hok,hsame⟩ := h.keep slot { s.tasks slot with onCpu := value } rfl rfl rfl
  refine ⟨hok,fun other hne => ⟨fun x _ => ⟨rfl,hsame x⟩,fun c hc => ⟨rfl,fun x hx => ?_⟩,fun _ _ => ⟨rfl,fun _ => rfl⟩⟩⟩
  refine congrArg TaskSlot.onCpu (Function.update_of_ne ?_ ..)
  rintro rfl
  refine hne (hc.trans (congrArg Agent.core ?_))
  rcases hx with hx | hx
  · obtain ⟨r,hr,hrs⟩ := Option.map_eq_some_iff.mp hx
    exact hon c r hr hrs
  · exact hheld c hx

/-- The cores remember a task with its home core, so at most one of them does. -/
theorem SharedOk.current_unique (h : SharedOk s) (hc : s.current core = some ref) (c : Core) (r : TaskRef) (hr : s.current c = some r)
    (hs : r.slot = ref.slot) : c = core := by
  rw [← (h.memory.current c r hr).2,hs]
  exact (h.memory.current core ref hc).2

theorem SharedOk.current_held (h : SharedOk s) (hc : s.current core = some ref) (c : Core) (hp : s.phase ref.slot = .held c) : c = core := by
  rw [← (h.memory.current core ref hc).2]
  exact ((h.slots ref.slot).home c (by rw [hp]; rfl)).symm

theorem enter_good (h : SharedOk s) (hrun : Runs core s slot) :
    Good (.core core) s { s with current := Function.update s.current core (some ⟨slot,(s.tasks slot).pid⟩) } := by
  have hcases : ∀ c r, Function.update s.current core (some ⟨slot,(s.tasks slot).pid⟩) c = some r →
      c = core ∧ r = ⟨slot,(s.tasks slot).pid⟩ ∨ s.current c = some r := by
    intro c r hc
    by_cases he : c = core
    · rw [he,Function.update_self] at hc
      exact .inl ⟨he,(Option.some.inj hc).symm⟩
    · rw [Function.update_of_ne he] at hc
      exact .inr hc
  refine ⟨⟨h.slots,h.queues,h.count,⟨fun c r hc => ?_,h.memory.entries,h.memory.resume,fun x hx hr => ?_⟩⟩,
    fun other hne => ⟨fun _ _ => ⟨rfl,rfl,rfl⟩,fun c hc => ⟨Function.update_of_ne ?_ ..,fun _ _ => rfl⟩,fun _ _ => ⟨rfl,fun _ => rfl⟩⟩⟩
  · rcases hcases c r hc with ⟨rfl,rfl⟩ | hc
    · exact ⟨rfl,(h.slots slot).home c (by rw [hrun.1]; rfl)⟩
    · exact h.memory.current c r hc
  · rcases hr with ⟨c,r,hc,hs⟩ | hr
    · rcases hcases c r hc with ⟨rfl,rfl⟩ | hc
      · subst hs
        rcases hx with hx | ⟨c',f,hx⟩
        · exact nomatch hrun.2.symm.trans hx
        · exact nomatch hrun.1.symm.trans hx
      · exact h.memory.loose x hx (.inl ⟨c,r,hc,hs⟩)
    · exact h.memory.loose x hx (.inr hr)
  · rintro rfl
    exact hne hc

theorem clear_good (h : SharedOk s) (core : Core) : Good (.core core) s { s with current := Function.update s.current core none } := by
  refine ⟨⟨h.slots,h.queues,h.count,h.memory.mono (fun _ => ⟨rfl,rfl⟩) (fun _ => id) (fun _ _ _ => id) (fun c r hc => ?_) (fun _ _ => id) rfl⟩,
    fun other hne => ⟨fun _ _ => ⟨rfl,rfl,rfl⟩,fun c hc => ⟨Function.update_of_ne ?_ ..,fun _ _ => rfl⟩,fun _ _ => ⟨rfl,fun _ => rfl⟩⟩⟩
  · have hc : Function.update s.current core none c = some r := hc
    by_cases he : c = core
    · rw [he,Function.update_self] at hc
      cases hc
    · rwa [Function.update_of_ne he] at hc
  · rintro rfl
    exact hne hc

/-- What the task goes on with is remembered for it. -/
theorem switch_good {routine : Routine} (h : SharedOk s) (hc : s.current core = some ref)
    (hroutine : ∀ coreId, routine.coreId = some coreId → coreId = core) :
    Good (.core core) s { s with resume := Function.update s.resume ref.slot routine } := by
  refine ⟨⟨h.slots,h.queues,h.count,⟨h.memory.current,h.memory.entries,fun x id hr => ?_,fun x hx hr => h.memory.loose x hx ?_⟩⟩,
    fun _ _ => ⟨fun _ _ => ⟨rfl,rfl,rfl⟩,fun _ _ => ⟨rfl,fun _ _ => rfl⟩,fun _ _ => ⟨rfl,fun _ => rfl⟩⟩⟩
  · have hr : (Function.update s.resume ref.slot routine x).coreId = some id := hr
    by_cases he : x = ref.slot
    · rw [he,Function.update_self] at hr
      rw [he,hroutine id hr]
      exact (h.memory.current core ref hc).2
    · rw [Function.update_of_ne he] at hr
      exact h.memory.resume x id hr
  · rcases hr with hr | hr | hr
    · exact .inl hr
    · exact .inr (.inl hr)
    · have hr : Function.update s.resume ref.slot routine x ≠ .user := hr
      by_cases he : x = ref.slot
      · exact .inl ⟨core,ref,hc,he.symm⟩
      · rw [Function.update_of_ne he] at hr
        exact .inr (.inr hr)

/-- The running task blocks and is counted no more. -/
theorem block_good (h : SharedOk s) (hrun : Runs core s slot) : Good (.core core) s (s.block slot core) := by
  have hslot := h.slots slot
  have htask : ((s.tasks slot).transition .running .blocked).getD (s.tasks slot) = (s.tasks slot).setState .blocked := by
    rw [TaskSlot.getD_transition,if_pos hrun.2]
  rw [Shared.block,htask]
  refine h.good_move rfl rfl rfl rfl rfl rfl rfl rfl rfl rfl (nomatch ·) ⟨fun _ => rfl,(nomatch ·),fun c hc => (nomatch hc)⟩ (fun a ha => ?_)
    ?_ (fun _ => nofun) (fun _ _ => nofun) (fetchSub_count h (by rw [hrun.1]; rfl) rfl)
  · rw [hrun.1] at ha
    exact (Option.some.inj ha).symm
  · rw [hrun.1]
    exact fun _ => nofun

theorem block_onCpu (s : Shared) (slot : Slot) (homeCore : Core) (x : Slot) :
    ((s.block slot homeCore).tasks x).onCpu = (s.tasks x).onCpu :=
  Tasks.field_update TaskSlot.onCpu (by rw [TaskSlot.getD_transition]; rfl) x

/-- The task of a core gets an entry among the sleepers there. -/
theorem entry_good {queue' : CoreRunQueue} {wakeTimeUs : Nat} (h : SharedOk s) (hc : s.current core = some ref)
    (hlock : s.locked core = false) (hk : (s.runQueues core).addSleepingTask s.tasks ref wakeTimeUs = .ok queue') :
    Good (.core core) s (s.setQueue core s.next queue') := by
  obtain ⟨room,rfl,hroom⟩ := CoreRunQueue.addSleepingTask_eq hk
  obtain ⟨lists,hrep,hon⟩ := h.queues
  have hmem : ∀ c sleeper, sleeper ∈ (Function.update s.runQueues core { s.runQueues core with sleepingTasks := room ++ [⟨ref,wakeTimeUs⟩] }
      c).sleepingTasks → sleeper ∈ (s.runQueues c).sleepingTasks ∨ c = core ∧ sleeper.taskRef = ref := by
    intro c sleeper hm
    by_cases he : c = core
    · rw [he,Function.update_self,List.mem_append,List.mem_singleton] at hm
      rcases hm with hm | rfl
      · rw [he]
        rcases hroom with rfl | hperm
        · exact .inl hm
        · exact .inl (List.mem_of_mem_filter (hperm.mem_iff.mp hm))
      · exact .inr ⟨he,rfl⟩
    · rw [Function.update_of_ne he] at hm
      exact .inl hm
  refine ⟨⟨h.slots,⟨lists,hrep.congr (table_setSleeping s.runQueues core _),hon⟩,h.count,⟨h.memory.current,fun c sleeper hm => ?_,
    h.memory.resume,fun x hx hr => h.memory.loose x hx ?_⟩⟩,
    fun other hne => ⟨fun _ _ => ⟨rfl,rfl,rfl⟩,fun _ _ => ⟨rfl,fun _ _ => rfl⟩,fun c _ => ⟨rfl,fun hl => ?_⟩⟩⟩
  · rcases hmem c sleeper hm with hm | ⟨rfl,rfl⟩
    · exact h.memory.entries c sleeper hm
    · exact h.memory.current c _ hc
  · rcases hr with hr | ⟨c,sleeper,hm,hs⟩ | hr
    · exact .inl hr
    · rcases hmem c sleeper hm with hm | ⟨rfl,rfl⟩
      · exact .inr (.inl ⟨c,sleeper,hm,hs⟩)
      · exact .inl ⟨c,_,hc,hs⟩
    · exact .inr (.inr hr)
  · refine congrArg CoreRunQueue.sleepingTasks (Function.update_of_ne ?_ ..)
    rintro rfl
    rw [hlock] at hl
    cases hl

theorem own_eq {coreId : Core} {r : TaskRef} (h : s.own coreId ref = some r) : r = ref := by
  rw [Shared.own] at h
  split_ifs at h
  exact (Option.some.inj h).symm

/-- A step that leaves the shared state alone. -/
theorem CoreOk.goto {pc : TaskPc} (h : SharedOk s) (hc : s.current core = some ref) (hon : (s.tasks ref.slot).onCpu = true)
    (hid : ∀ coreId, pc.coreId = some coreId → coreId = core) (htask : TaskOk core s ref.slot pc) :
    Good (.core core) s s ∧ CoreOk core s (.task ref pc) := ⟨h.good _,hc,hon,hid,htask⟩

theorem stepTask_good {value : Bool} {pc : TaskPc} {pc' : CorePc} (h : SharedOk s) (hok : CoreOk core s (.task ref pc))
    (hk : stepTask core value s ref pc = some (pc',s')) : Good (.core core) s s' ∧ CoreOk core s' pc' := by
  obtain ⟨hc,hon,hid,htask⟩ := hok
  have hhome := (h.memory.current core ref hc).2
  cases pc with
  | user => cases hk
  | condition coreId waitQueue =>
    cases hk
    cases value
    · exact CoreOk.goto h hc hon hid htask
    · exact CoreOk.goto h hc hon (fun _ => nofun) htask
  | killPending coreId waitQueue =>
    obtain ⟨r,hr,heq⟩ := Option.map_eq_some_iff.mp hk
    rw [own_eq hr] at heq
    cases heq
    split_ifs
    · exact CoreOk.goto h hc hon (fun _ => nofun) htask
    · exact CoreOk.goto h hc hon hid htask
  | join coreId waitQueue =>
    obtain ⟨r,hr,hk⟩ := Option.bind_eq_some_iff.mp hk
    rw [hc] at hr
    cases hr
    obtain ⟨waiters,_,heq⟩ := Option.map_eq_some_iff.mp hk
    cases heq
    rw [hhome]
    have hwait := waiters_good h (.core core) (Function.update s.waiters waitQueue waiters)
    exact ⟨hwait.trans (block_good hwait.ok htask),hc,(block_onCpu ..).trans hon,hid,trivial⟩
  | recheck coreId waitQueue =>
    cases hk
    cases value <;> exact CoreOk.goto h hc hon hid trivial
  | recheckKill coreId waitQueue =>
    obtain ⟨r,hr,heq⟩ := Option.map_eq_some_iff.mp hk
    rw [own_eq hr] at heq
    cases heq
    split_ifs
    · exact CoreOk.goto h hc hon hid trivial
    · exact CoreOk.goto h hc hon hid fun id hr => hid id hr
  | remove coreId waitQueue =>
    obtain ⟨r,hr,heq⟩ := Option.map_eq_some_iff.mp hk
    rw [own_eq hr] at heq
    cases heq
    exact ⟨waiters_good h _ _,hc,hon,hid,trivial⟩
  | wake coreId waitQueue call =>
    obtain ⟨⟨next,s₁⟩,hstep,heq⟩ := Option.map_eq_some_iff.mp hk
    obtain ⟨hgood,hnext,hcur,hcpu⟩ := stepWake_good h htask hstep
    cases next with
    | none =>
      cases heq
      exact ⟨hgood,hcur ▸ hc,(hcpu ref.slot).trans hon,hid,fun id hr => hid id hr⟩
    | some call =>
      cases heq
      exact ⟨hgood,hcur ▸ hc,(hcpu ref.slot).trans hon,hid,hnext call rfl⟩
  | time coreId wakeTimeUs =>
    cases hk
    cases value
    · exact CoreOk.goto h hc hon hid htask
    · exact CoreOk.goto h hc hon (fun _ => nofun) htask
  | sleepKill coreId wakeTimeUs =>
    obtain ⟨r,hr,heq⟩ := Option.map_eq_some_iff.mp hk
    rw [own_eq hr] at heq
    cases heq
    split_ifs
    · exact CoreOk.goto h hc hon (fun _ => nofun) htask
    · exact CoreOk.goto h hc hon hid htask
  | sleepHome coreId wakeTimeUs =>
    obtain ⟨r,hr,heq⟩ := Option.map_eq_some_iff.mp hk
    rw [own_eq hr] at heq
    cases heq
    exact CoreOk.goto h hc hon hid ⟨htask,hhome⟩
  | sleepJoin coreId wakeTimeUs homeCore =>
    obtain ⟨hrun,rfl⟩ := htask
    rw [stepTask] at hk
    split_ifs at hk with hlock
    obtain ⟨queue',hadd,heq⟩ := Option.map_eq_some_iff.mp hk
    cases heq
    have hentry := entry_good h hc (Bool.eq_false_iff.mpr hlock) (of_toOption hadd)
    exact ⟨hentry.trans (block_good hentry.ok hrun),hc,(block_onCpu ..).trans hon,fun _ hr => (Option.some.inj hr).symm,
      fun id hr => hid id hr⟩
  | requeue coreId routine =>
    obtain ⟨r,hr,heq⟩ := Option.map_eq_some_iff.mp hk
    rw [own_eq hr] at heq
    split at heq
    · rename_i hcas
      cases heq
      obtain ⟨hstate,rfl⟩ := TaskSlot.transition_eq_some.mp hcas
      obtain ⟨c,hheld⟩ := (h.slots ref.slot).held hstate
      have hcore := h.current_held hc c hheld
      subst hcore
      have hcpu : ∀ x, ((s.setTask ref.slot ((s.tasks ref.slot).setState .ready)).tasks x).onCpu = (s.tasks x).onCpu :=
        Tasks.field_update TaskSlot.onCpu rfl
      refine ⟨state_good h (by rw [hheld]; rfl) (.inl rfl),hc,(hcpu ref.slot).trans hon,hid,⟨hheld,?_⟩,htask⟩
      simp only [Shared.setTask,Function.update_self]
      rfl
    · cases heq
      exact CoreOk.goto h hc hon hid htask
  | requeuePush coreId routine =>
    rw [stepTask] at hk
    by_cases hlock : s.locked coreId = true
    · rw [if_pos hlock] at hk
      cases hk
    rw [if_neg hlock] at hk
    obtain ⟨s₁,hpush,heq⟩ := Option.map_eq_some_iff.mp hk
    cases heq
    obtain ⟨⟨hphase,hready⟩,hroutine⟩ := htask
    have hcore : coreId = core := hid coreId rfl
    subst hcore
    obtain ⟨hgood,htasks,hcur,_⟩ := push_good h (by rw [hphase]; rfl) (by rw [hphase]; rfl) (by rw [hready]; decide) hpush
    exact ⟨hgood,hcur ▸ hc,by rw [htasks]; exact hon,hid,hroutine⟩
  | switch coreId routine =>
    obtain ⟨r,hr,heq⟩ := Option.map_eq_some_iff.mp hk
    rw [own_eq hr] at heq
    cases heq
    exact ⟨switch_good h hc htask,ref,hc,rfl,hon⟩

end MofuOS.Process.Cores
