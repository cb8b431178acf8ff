import MofuOS.Process.CoresOk

/-! The steps of the agents: the invariant stays, and every other agent can rely on them. -/
namespace MofuOS.Process.Cores
open Lib

/-- A step of the agent. -/
structure Good (agent : Agent) (s s' : Shared) : Prop where
  ok : SharedOk s'
  rely : ∀ other, other ≠ agent → Rely other s s'

variable {agent : Agent} {core : Core} {slot : Slot} {s s' : Shared} {task : TaskSlot} {phase : Phase}

theorem SharedOk.good (h : SharedOk s) (agent : Agent) : Good agent s s := ⟨h,fun other _ => .refl other s⟩

theorem SharedOk.not_running (h : SharedOk s) (hphase : ∀ core, s.phase slot ≠ .held core) : (s.tasks slot).state ≠ .running := by
  intro hr
  obtain ⟨c,hc⟩ := (h.slots slot).held hr
  exact hphase c hc

/-- A step changes one task that no other agent owns. -/
theorem Rely.of_slot {other : Agent} (slot : Slot) (hother : other ≠ agent) (howner : ∀ a, (s.phase slot).owner = some a → a = agent)
    (ht : ∀ x, x ≠ slot → s'.tasks x = s.tasks x) (hp : ∀ x, x ≠ slot → s'.phase x = s.phase x)
    (hcpu : (s'.tasks slot).onCpu = (s.tasks slot).onCpu ∨
      ∀ core ref, other = .core core → s.current core = some ref → ref.slot ≠ slot)
    (hcur : ∀ core, other = .core core → s'.current core = s.current core)
    (htimer : ∀ core, other = .timer core → s'.locked core = s.locked core ∧
      (s.locked core = true → (s'.runQueues core).sleepingTasks = (s.runQueues core).sleepingTasks)) : Rely other s s' := by
  have hne : ∀ x, (s.phase x).owner = some other → x ≠ slot := by
    rintro x hx rfl
    exact hother (howner other hx)
  refine ⟨fun x hx => ?_,fun c hc => ⟨hcur c hc,fun x hx => ?_⟩,htimer⟩
  · rw [ht x (hne x hx),hp x (hne x hx)]
    exact ⟨rfl,rfl,rfl⟩
  · by_cases hslot : x = slot
    · rcases hx with hx | hx
      · obtain ⟨ref,href,rfl⟩ := Option.map_eq_some_iff.mp hx
        rcases hcpu with hsame | hoff
        · rw [hslot]
          exact hsame
        · exact absurd hslot (hoff c ref hc href)
      · exact absurd hslot (hne x (by rw [hx,hc]; rfl))
    · rw [ht x hslot]

theorem Remembers.congr {s s' : Shared} (hcur : ∀ core ref, s'.current core = some ref → s.current core = some ref)
    (hsleep : ∀ core sleeper, sleeper ∈ (s'.runQueues core).sleepingTasks → sleeper ∈ (s.runQueues core).sleepingTasks)
    (hresume : s'.resume = s.resume) (h : s'.Remembers slot) : s.Remembers slot := by
  rcases h with ⟨c,ref,hc,hs⟩ | ⟨c,sleeper,hm,hs⟩ | hr
  · exact .inl ⟨c,ref,hcur c ref hc,hs⟩
  · exact .inr (.inl ⟨c,sleeper,hsleep c sleeper hm,hs⟩)
  · exact .inr (.inr (hresume ▸ hr))

/-- Less is remembered, and no task changes its pid or its home core. -/
theorem Memory.mono (h : Memory s) (hhome : ∀ x, (s'.tasks x).pid = (s.tasks x).pid ∧ (s'.tasks x).homeCore = (s.tasks x).homeCore)
    (hfree : ∀ x, (s'.tasks x).state = .free → (s.tasks x).state = .free)
    (htaken : ∀ x core coreFrom, s'.phase x = .taken core coreFrom → s.phase x = .taken core coreFrom)
    (hcur : ∀ core ref, s'.current core = some ref → s.current core = some ref)
    (hsleep : ∀ core sleeper, sleeper ∈ (s'.runQueues core).sleepingTasks → sleeper ∈ (s.runQueues core).sleepingTasks)
    (hresume : s'.resume = s.resume) : Memory s' := by
  refine ⟨fun c ref hc => ?_,fun c sleeper hm => ?_,fun x id hr => ?_,fun x hx hr => h.loose x ?_ (Remembers.congr hcur hsleep hresume hr)⟩
  · rw [(hhome ref.slot).1,(hhome ref.slot).2]
    exact h.current c ref (hcur c ref hc)
  · rw [(hhome _).1,(hhome _).2]
    exact h.entries c sleeper (hsleep c sleeper hm)
  · rw [(hhome x).2]
    exact h.resume x id (hresume ▸ hr)
  · exact hx.imp (hfree x) fun ⟨c,f,ht⟩ => ⟨c,f,htaken x c f ht⟩

/-- A task changes that is remembered nowhere. -/
theorem Memory.replace (h : Memory s) (hforgot : ¬ s.Remembers slot) (ht : ∀ x, x ≠ slot → s'.tasks x = s.tasks x)
    (hcur : s'.current = s.current) (hqueues : s'.runQueues = s.runQueues) (hresume : s'.resume = s.resume)
    (hloose : ∀ x, ((s'.tasks x).state = .free ∨ ∃ core coreFrom, s'.phase x = .taken core coreFrom) → s'.Remembers x →
      (s.tasks x).state = .free ∨ ∃ core coreFrom, s.phase x = .taken core coreFrom) : Memory s' := by
  have hkeep : ∀ x, s.Remembers x → s'.tasks x = s.tasks x := by
    intro x hx
    refine ht x ?_
    rintro rfl
    exact hforgot hx
  have hback : ∀ x, s'.Remembers x → s.Remembers x :=
    fun x => Remembers.congr (fun _ _ => by rw [hcur]; exact id) (fun _ _ => by rw [hqueues]; exact id) hresume
  refine ⟨fun c ref hc => ?_,fun c sleeper hm => ?_,fun x id hr => ?_,fun x hx hr => h.loose x (hloose x hx hr) (hback x hr)⟩
  · rw [hcur] at hc
    rw [hkeep ref.slot (.inl ⟨c,ref,hc,rfl⟩)]
    exact h.current c ref hc
  · rw [hqueues] at hm
    rw [hkeep sleeper.taskRef.slot (.inr (.inl ⟨c,sleeper,hm,rfl⟩))]
    exact h.entries c sleeper hm
  · rw [hresume] at hr
    have hne : s.resume x ≠ .user := by
      intro e
      rw [e] at hr
      cases hr
    rw [hkeep x (.inr (.inr hne))]
    exact h.resume x id hr

theorem SlotOk.update {tasks : Tasks} {phases : Slot → Phase} (slot : Slot) (h : ∀ x, SlotOk (phases x) (tasks x)) (hslot : SlotOk phase task)
    (x : Slot) : SlotOk (Function.update phases slot phase x) (Function.update tasks slot task x) := by
  by_cases hx : x = slot
  · rw [hx,Function.update_self,Function.update_self]
    exact hslot
  · rw [Function.update_of_ne hx,Function.update_of_ne hx]
    exact h x

/-- A task changes that is in no run queue, before or after. -/
theorem SharedOk.move (h : SharedOk s) (ht : s'.tasks = Function.update s.tasks slot task)
    (hp : s'.phase = Function.update s.phase slot phase) (hnext : s'.next = s.next)
    (htable : ∀ core bank, (s'.runQueues core).table bank = (s.runQueues core).table bank) (hslot : SlotOk phase task)
    (hold : ∀ core, s.phase slot ≠ .queued core) (hnew : ∀ core, phase ≠ .queued core)
    (hcount : ∀ core, s'.runnableTasksCount core + (counts core (s.phase slot)).toNat =
      s.runnableTasksCount core + (counts core phase).toNat) (hmemory : Memory s') : SharedOk s' := by
  refine ⟨?_,?_,fun c => ?_,hmemory⟩
  · rw [ht,hp]
    exact SlotOk.update slot h.slots hslot
  · obtain ⟨lists,hrep,hon⟩ := h.queues
    refine ⟨lists,hnext ▸ hrep.congr htable,fun c x => ?_⟩
    rw [hon,hp]
    by_cases hx : x = slot
    · rw [hx,Function.update_self]
      exact ⟨fun e => absurd e (hold c),fun e => absurd e (hnew c)⟩
    · rw [Function.update_of_ne hx]
  · have htally := tally_update (counts c) s.phase slot phase
    have := hcount c
    rw [h.count c] at this
    rw [hp]
    omega

theorem count_congr {old new : Phase} (h : old.countedOn = new.countedOn) (core : Core) : counts core old = counts core new := by
  rw [counts,counts,h]

theorem taken_update {phases : Slot → Phase} (phase : Phase) (h : ∀ core coreFrom, phase = .taken core coreFrom → phases slot = .taken core coreFrom)
    {x : Slot} {core coreFrom : Core} (hx : Function.update phases slot phase x = .taken core coreFrom) :
    phases x = .taken core coreFrom := by
  by_cases hs : x = slot
  · rw [hs,Function.update_self] at hx
    rw [hs]
    exact h core coreFrom hx
  · rwa [Function.update_of_ne hs] at hx

theorem free_update {tasks : Tasks} (task : TaskSlot) (h : task.state = .free → (tasks slot).state = .free) {x : Slot}
    (hx : (Function.update tasks slot task x).state = .free) : (tasks x).state = .free := by
  by_cases hs : x = slot
  · rw [hs,Function.update_self] at hx
    rw [hs]
    exact h hx
  · rwa [Function.update_of_ne hs] at hx

/-- A task moves on and keeps its pid, its home core and its place on a core. -/
theorem SharedOk.good_move (h : SharedOk s) (ht : s'.tasks = Function.update s.tasks slot task)
    (hp : s'.phase = Function.update s.phase slot phase) (hnext : s'.next = s.next) (hqueues : s'.runQueues = s.runQueues)
    (hcur : s'.current = s.current) (hlock : s'.locked = s.locked) (hresume : s'.resume = s.resume)
    (hpid : task.pid = (s.tasks slot).pid) (hhome : task.homeCore = (s.tasks slot).homeCore)
    (hcpu : task.onCpu = (s.tasks slot).onCpu) (hfree : task.state = .free → (s.tasks slot).state = .free) (hslot : SlotOk phase task)
    (howner : ∀ a, (s.phase slot).owner = some a → a = agent) (hold : ∀ core, s.phase slot ≠ .queued core)
    (hnew : ∀ core, phase ≠ .queued core) (htaken : ∀ core coreFrom, phase = .taken core coreFrom → s.phase slot = .taken core coreFrom)
    (hcount : ∀ core, s'.runnableTasksCount core + (counts core (s.phase slot)).toNat =
      s.runnableTasksCount core + (counts core phase).toNat) : Good agent s s' := by
  have hmemory : Memory s' := by
    refine h.memory.mono (fun x => ?_) (fun x hx => ?_) (fun x c f hx => ?_) (fun _ _ => by rw [hcur]; exact id)
      (fun _ _ => by rw [hqueues]; exact id) hresume
    · rw [ht]
      exact ⟨Tasks.field_update TaskSlot.pid hpid x,Tasks.field_update TaskSlot.homeCore hhome x⟩
    · rw [ht] at hx
      exact free_update task hfree hx
    · rw [hp] at hx
      exact taken_update phase htaken hx
  refine ⟨h.move ht hp hnext (fun _ _ => by rw [hqueues]) hslot hold hnew hcount hmemory,fun other hne => .of_slot slot hne howner
    (fun x hx => ?_) (fun x hx => ?_) (.inl ?_) (fun c _ => by rw [hcur]) fun c _ => ⟨by rw [hlock],fun _ => by rw [hqueues]⟩⟩
  · rw [ht,Function.update_of_ne hx]
  · rw [hp,Function.update_of_ne hx]
  · rw [ht,Function.update_self,hcpu]

section Wake

theorem wake_good (h : SharedOk s) (agent : Agent) (hcas : (s.tasks slot).transition .blocked .ready = some task) :
    Good agent s ((s.setTask slot task).setPhase slot (.woken agent)) := by
  obtain ⟨hb,rfl⟩ := TaskSlot.transition_eq_some.mp hcas
  have hoff := (h.slots slot).off (.inl hb)
  refine h.good_move rfl rfl rfl rfl rfl rfl rfl rfl rfl rfl (nomatch ·) ⟨?_,(nomatch ·),fun c hc => nomatch hc⟩ ?_ ?_ (fun c => nofun)
    (fun c f => nofun) fun c => ?_
  · rintro (hs | hs) <;> cases hs
  · rw [hoff]
    exact fun a => nofun
  · rw [hoff]
    exact fun c => nofun
  · rw [hoff]
    rfl

theorem tally_le_maxTasks (core : Core) (phases : Slot → Phase) : tally (counts core) phases ≤ maxTasks :=
  (tally_le (counts core) phases).trans_eq (Fintype.card_fin maxTasks)

theorem counts_eq (h : phase.countedOn = some core) (c : Core) : counts c phase = decide (c = core) := by
  rw [counts,h]
  by_cases hc : c = core
  · simp [hc]
  · simp [hc,Ne.symm hc]

theorem counts_none (h : phase.countedOn = none) (c : Core) : counts c phase = false := by
  rw [counts,h]
  rfl

/-- A task that no core counts is counted on its home core. -/
theorem count_good (h : SharedOk s) (hphase : s.phase slot = .woken agent) (hhome : (s.tasks slot).homeCore = core) :
    Good agent s (s.count agent core slot) := by
  have hslot := h.slots slot
  rw [hphase] at hslot
  have htasks : (s.count agent core slot).tasks = Function.update s.tasks slot (s.tasks slot) := (Function.update_eq_self ..).symm
  refine h.good_move htasks rfl rfl rfl rfl rfl rfl rfl rfl rfl id
    ⟨fun hs => (nomatch hslot.off hs),fun hs => ?_,?_⟩ ?_ ?_ (fun c => nofun) (fun c f => nofun) fun c => ?_
  · obtain ⟨c,hc⟩ := hslot.held hs
    cases hc
  · intro c hc
    cases hc
    exact hhome
  · rw [hphase]
    intro a ha
    cases ha
    rfl
  · rw [hphase]
    exact fun c => nofun
  · rw [hphase,counts_none rfl,counts_eq rfl]
    have hle := tally_le_maxTasks core s.phase
    rw [← h.count] at hle
    change Function.update s.runnableTasksCount core (fetchAdd (s.runnableTasksCount core)) c + 0 = _
    by_cases hc : c = core
    · rw [hc,Function.update_self,fetchAdd_of_lt hle]
      simp
    · rw [Function.update_of_ne hc]
      simp [hc]

theorem countedOn_of_settled (h : phase.settled = some core) : phase.countedOn = some core := by
  cases phase <;> first | exact h | cases h

theorem sleeping_update {queues : Core → CoreRunQueue} {queue' : CoreRunQueue}
    (h : queue'.sleepingTasks = (queues core).sleepingTasks) (c : Core) :
    (Function.update queues core queue' c).sleepingTasks = (queues c).sleepingTasks := by
  by_cases hc : c = core
  · rw [hc,Function.update_self,h]
  · rw [Function.update_of_ne hc]

/-- A run queue changes by one task, whose phase changes accordingly. -/
theorem SharedOk.good_requeue {lists : Place → List Slot} {next' : Links} {queue' : CoreRunQueue} (h : SharedOk s)
    (hrep : RunQueuesOk next' (Function.update s.runQueues core queue') lists)
    (hsleep : queue'.sleepingTasks = (s.runQueues core).sleepingTasks)
    (hon : ∀ core x, onCore lists core x ↔ Function.update s.phase slot phase x = .queued core) (hslot : SlotOk phase (s.tasks slot))
    (hcount : (s.phase slot).countedOn = phase.countedOn) (howner : ∀ a, (s.phase slot).owner = some a → a = agent)
    (hforgot : ∀ core coreFrom, phase = .taken core coreFrom → ¬ s.Remembers slot) :
    Good agent s ((s.setQueue core next' queue').setPhase slot phase) := by
  have hsleep' := sleeping_update hsleep
  have hback : ∀ x, ((s.setQueue core next' queue').setPhase slot phase).Remembers x → s.Remembers x :=
    fun x => Remembers.congr (fun _ _ => id) (fun c sleeper hm => by rw [← hsleep' c]; exact hm) rfl
  refine ⟨⟨fun x => ?_,⟨lists,hrep,hon⟩,fun c => ?_,⟨h.memory.current,fun c sleeper hm => ?_,h.memory.resume,fun x hx hr => ?_⟩⟩,
    fun other hne => .of_slot slot hne howner (fun _ _ => rfl) (fun x hx => Function.update_of_ne hx ..) (.inl rfl) (fun _ _ => rfl)
      fun c _ => ⟨rfl,fun _ => hsleep' c⟩⟩
  · have hupdate := SlotOk.update slot h.slots hslot x
    rwa [Function.update_eq_self] at hupdate
  · have htally := tally_update (counts c) s.phase slot phase
    rw [count_congr hcount] at htally
    have hsame : s.runnableTasksCount c = tally (counts c) (Function.update s.phase slot phase) := by
      rw [h.count c]
      omega
    exact hsame
  · refine h.memory.entries c sleeper ?_
    rw [← hsleep' c]
    exact hm
  · rcases hx with hx | ⟨c,f,hx⟩
    · exact h.memory.loose x (.inl hx) (hback x hr)
    · have hx : Function.update s.phase slot phase x = .taken c f := hx
      by_cases hs : x = slot
      · subst hs
        rw [Function.update_self] at hx
        exact hforgot c f hx (hback x hr)
      · rw [Function.update_of_ne hs] at hx
        exact h.memory.loose x (.inr ⟨c,f,hx⟩) (hback x hr)

/-- A task that its agent has bound for the core is pushed there. -/
theorem push_good {bank : RequeueType} (h : SharedOk s) (howner : (s.phase slot).owner = some agent)
    (hsettled : (s.phase slot).settled = some core) (hrun : (s.tasks slot).state ≠ .running) (hk : s.push core bank slot = some s') :
    Good agent s s' ∧ s'.tasks = s.tasks ∧ s'.current = s.current ∧ s'.locked = s.locked := by
  obtain ⟨lists,hrep,hon⟩ := h.queues
  have hslot := h.slots slot
  have hphase : ∀ c, s.phase slot ≠ .queued c := by
    intro c hq
    rw [hq] at howner
    cases howner
  have hnot : ∀ place, slot ∉ lists place := fun place hm => hphase place.1 ((hon place.1 slot).mp ⟨place.2.1,place.2.2,hm⟩)
  obtain ⟨⟨next',queue'⟩,hpush,rfl⟩ := Option.map_eq_some_iff.mp hk
  by_cases hp : (s.tasks slot).priority < priorityLevelCount
  · obtain ⟨n,q,heq,hsleep,hrep'⟩ := hrep.push hnot hp
    rw [heq] at hpush
    cases hpush
    refine ⟨h.good_requeue hrep' hsleep (fun c x => ?_) ⟨fun hs => ?_,fun hs => absurd hs hrun,fun c hc => ?_⟩ ?_ (fun a ha => ?_)
      (fun _ _ => nofun),rfl,rfl,rfl⟩
    · rw [onCore_push,hon]
      by_cases hx : x = slot
      · subst hx
        rw [Function.update_self]
        refine ⟨fun hor => ?_,fun e => .inr ⟨(Phase.queued.inj e).symm,rfl⟩⟩
        rcases hor with hq | ⟨rfl,_⟩
        · exact absurd hq (hphase c)
        · rfl
      · rw [Function.update_of_ne hx]
        exact ⟨fun hor => hor.resolve_right fun e => hx e.2,.inl⟩
    · rw [hslot.off hs] at hsettled
      cases hsettled
    · cases hc
      exact hslot.home core hsettled
    · rw [countedOn_of_settled hsettled]
      rfl
    · rw [howner] at ha
      exact (Option.some.inj ha).symm
  · rw [CoreRunQueue.push,TaskSlotQueueTable.push,dif_neg hp] at hpush
    cases hpush

/-- One access of wake_task, by any agent. -/
theorem stepWake_good {ref : TaskRef} {call : WakeCall} {next : Option WakeCall} (h : SharedOk s) (hw : WakeOk s agent ref.slot call)
    (hk : stepWake agent ref s call = some (next,s')) :
    Good agent s s' ∧ (∀ call', next = some call' → WakeOk s' agent ref.slot call') ∧ s'.current = s.current ∧
      ∀ x, (s'.tasks x).onCpu = (s.tasks x).onCpu := by
  cases call with
  | pid =>
    cases hk
    refine ⟨h.good agent,fun call' hc => ?_,rfl,fun _ => rfl⟩
    split_ifs at hc
    cases hc
    trivial
  | state =>
    rw [stepWake] at hk
    cases hcas : (s.tasks ref.slot).transition .blocked .ready with
    | none =>
      rw [hcas] at hk
      cases hk
      exact ⟨h.good agent,fun call' hc => (nomatch hc),rfl,fun _ => rfl⟩
    | some task =>
      rw [hcas] at hk
      cases hk
      obtain ⟨_,rfl⟩ := TaskSlot.transition_eq_some.mp hcas
      refine ⟨wake_good h agent hcas,fun call' hc => ?_,rfl,Tasks.field_update TaskSlot.onCpu rfl⟩
      cases hc
      exact Function.update_self ..
  | homeCore =>
    cases hk
    refine ⟨h.good agent,fun call' hc => ?_,rfl,fun _ => rfl⟩
    cases hc
    exact ⟨hw,rfl⟩
  | count homeCore =>
    cases hk
    refine ⟨count_good h hw.1 hw.2,fun call' hc => ?_,rfl,fun _ => rfl⟩
    cases hc
    exact Function.update_self ..
  | push homeCore =>
    have hphase : s.phase ref.slot = .counted agent homeCore := hw
    rw [stepWake] at hk
    split_ifs at hk
    obtain ⟨s₁,hpush,hs⟩ := Option.map_eq_some_iff.mp hk
    cases hs
    obtain ⟨hgood,htasks,hcur,_⟩ := push_good h (by rw [hphase]; rfl) (by rw [hphase]; rfl)
      (h.not_running (by rw [hphase]; exact fun _ => nofun)) hpush
    exact ⟨hgood,fun call' hc => (nomatch hc),hcur,fun x => by rw [htasks]⟩

end Wake

/-- Nothing but the lists of waiters changes. -/
theorem waiters_good (h : SharedOk s) (agent : Agent) (waiters : WaitQueue → List TaskRef) :
    Good agent s { s with waiters := waiters } :=
  ⟨⟨h.slots,h.queues,h.count,⟨h.memory.current,h.memory.entries,h.memory.resume,h.memory.loose⟩⟩,
    fun _ _ => ⟨fun _ _ => ⟨rfl,rfl,rfl⟩,fun _ _ => ⟨rfl,fun _ _ => rfl⟩,fun _ _ => ⟨rfl,fun _ => rfl⟩⟩⟩

section Waker
variable {i : Nat}

theorem wakeNext_ok (s : Shared) (refs : List TaskRef) : WakerOk i s (wakeNext refs) := by
  cases refs <;> trivial

/-- A slot that has never been used is remembered nowhere. -/
theorem create_good {pid priority : Nat} (h : SharedOk s) (hfree : (s.tasks slot).state = .free) :
    Good agent s (Shared.setPhase { s with tasks := Function.update s.tasks slot (.allocated pid priority core) } slot (.woken agent)) := by
  have hoff := (h.slots slot).off (.inr hfree)
  have hforgot := h.memory.loose slot (.inl hfree)
  have hmemory : Memory (Shared.setPhase { s with tasks := Function.update s.tasks slot (.allocated pid priority core) } slot
      (.woken agent)) := by
    refine h.memory.replace hforgot (fun x hx => Function.update_of_ne hx ..) rfl rfl rfl fun x hx _ => ?_
    exact hx.imp (fun hx => free_update (.allocated pid priority core) (nomatch ·) hx) fun ⟨c,f,ht⟩ => ⟨c,f,taken_update (.woken agent) (fun _ _ => nofun) ht⟩
  refine ⟨h.move rfl rfl rfl (fun _ _ => rfl) ⟨?_,(nomatch ·),fun c hc => nomatch hc⟩ ?_ (fun c => nofun) (fun c => ?_) hmemory,
    fun other hne => .of_slot slot hne ?_ (fun x hx => Function.update_of_ne hx ..) (fun x hx => Function.update_of_ne hx ..)
      (.inr fun c ref _ hc hs => hforgot (.inl ⟨c,ref,hc,hs⟩)) (fun _ _ => rfl) fun _ _ => ⟨rfl,fun _ => rfl⟩⟩
  · rintro (hs | hs) <;> cases hs
  · rw [hoff]
    exact fun c => nofun
  · rw [hoff]
    rfl
  · rw [hoff]
    exact fun a => nofun

/-- A task changes and keeps its state, its home core and its pid. -/
theorem SharedOk.keep (h : SharedOk s) (slot : Slot) (task : TaskSlot) (hstate : task.state = (s.tasks slot).state) (hhome : task.homeCore = (s.tasks slot).homeCore)
    (hpid : task.pid = (s.tasks slot).pid) : SharedOk (s.setTask slot task) ∧
      ∀ x, ((s.setTask slot task).tasks x).homeCore = (s.tasks x).homeCore ∧ ((s.setTask slot task).tasks x).state = (s.tasks x).state := by
  have hstate' : ∀ x, ((s.setTask slot task).tasks x).state = (s.tasks x).state := Tasks.field_update TaskSlot.state hstate
  have hhome' : ∀ x, ((s.setTask slot task).tasks x).homeCore = (s.tasks x).homeCore := Tasks.field_update TaskSlot.homeCore hhome
  have hpid' : ∀ x, ((s.setTask slot task).tasks x).pid = (s.tasks x).pid := Tasks.field_update TaskSlot.pid hpid
  refine ⟨⟨fun x => ⟨?_,?_,?_⟩,h.queues,h.count,?_⟩,fun x => ⟨hhome' x,hstate' x⟩⟩
  · rw [hstate']
    exact (h.slots x).off
  · rw [hstate']
    exact (h.slots x).held
  · rw [hhome']
    exact (h.slots x).home
  · exact h.memory.mono (fun x => ⟨hpid' x,hhome' x⟩) (fun x hx => (hstate' x).symm.trans hx) (fun _ _ _ => id) (fun _ _ => id)
      (fun _ _ => id) rfl

/-- The kill flag is no part of the invariant. -/
theorem kill_good (h : SharedOk s) (agent : Agent) (slot : Slot) :
    Good agent s (s.setTask slot { s.tasks slot with killPending := true }) := by
  have hcpu : ∀ x, ((s.setTask slot { s.tasks slot with killPending := true }).tasks x).onCpu = (s.tasks x).onCpu :=
    Tasks.field_update TaskSlot.onCpu rfl
  obtain ⟨hok,hsame⟩ := h.keep slot { s.tasks slot with killPending := true } rfl rfl rfl
  exact ⟨hok,fun _ _ => ⟨fun x _ => ⟨rfl,hsame x⟩,fun _ _ => ⟨rfl,fun x _ => hcpu x⟩,fun _ _ => ⟨rfl,fun _ => rfl⟩⟩⟩

/-- A task that its agent owns becomes ready or starts to run, in the phase it is in. -/
theorem state_good {state : TaskState} (h : SharedOk s) (howner : (s.phase slot).owner = some agent)
    (hstate : state = .ready ∨ state = .running ∧ ∃ core, s.phase slot = .held core) :
    Good agent s (s.setTask slot ((s.tasks slot).setState state)) := by
  have hphase : (s.setTask slot ((s.tasks slot).setState state)).phase = Function.update s.phase slot (s.phase slot) :=
    (Function.update_eq_self ..).symm
  have hquiet : ∀ core, s.phase slot ≠ .queued core := by
    intro c hq
    rw [hq] at howner
    cases howner
  refine h.good_move rfl hphase rfl rfl rfl rfl rfl rfl rfl rfl ?_ ⟨?_,?_,(h.slots slot).home⟩ ?_ hquiet hquiet (fun _ _ => id) fun _ => rfl
  · intro hs
    rcases hstate with rfl | ⟨rfl,_⟩ <;> cases hs
  · intro hs
    rcases hstate with rfl | ⟨rfl,_⟩ <;> rcases hs with hs | hs <;> cases hs
  · intro hs
    rcases hstate with rfl | ⟨rfl,hheld⟩
    · cases hs
    · exact hheld
  · intro a ha
    rw [howner] at ha
    exact (Option.some.inj ha).symm

theorem stepWaker_good {input : Input} {pc pc' : Waker} (h : SharedOk s) (hw : WakerOk i s pc)
    (hk : stepWaker i input pc s = some (pc',s')) : Good (.waker i) s s' ∧ WakerOk i s' pc' := by
  unfold stepWaker at hk
  split at hk
  · cases hk
    exact ⟨h.good _,trivial⟩
  · obtain ⟨slot,_,heq⟩ := Option.map_eq_some_iff.mp hk
    cases heq
    exact ⟨h.good _,trivial⟩
  · obtain ⟨⟨slot,tasks⟩,halloc,heq⟩ := Option.map_eq_some_iff.mp hk
    cases heq
    obtain ⟨x,hfind,heq⟩ := Option.map_eq_some_iff.mp halloc
    cases heq
    have hfree : (s.tasks slot).state = .free := by simpa using List.find?_some hfind
    exact ⟨create_good h hfree,Function.update_self ..⟩
  · cases hk
    exact ⟨waiters_good h _ _,wakeNext_ok _ _⟩
  · cases hk
    exact ⟨kill_good h _ _,trivial⟩
  · rename_i taskRef
    cases hk
    have hphase : s.phase taskRef.slot = .woken (.waker i) := hw
    exact ⟨state_good h (by rw [hphase]; rfl) (.inl rfl),hphase⟩
  · obtain ⟨⟨next,s₁⟩,hstep,heq⟩ := Option.map_eq_some_iff.mp hk
    obtain ⟨hgood,hnext,_⟩ := stepWake_good h hw hstep
    cases next with
    | none =>
      cases heq
      exact ⟨hgood,wakeNext_ok _ _⟩
    | some call =>
      cases heq
      exact ⟨hgood,hnext call rfl⟩
  · cases hk

end Waker
end MofuOS.Process.Cores
