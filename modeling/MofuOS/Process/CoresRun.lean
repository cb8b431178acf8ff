import MofuOS.Process.CoresStep

/-! The steps of the timers and of the cores. -/
namespace MofuOS.Process.Cores
open Lib

variable {agent : Agent} {core : Core} {slot : Slot} {s s' s'' : Shared}

theorem Rely.trans (h : Rely agent s s') (h' : Rely agent s' s'') : Rely agent s s'' := by
  refine ⟨fun x hx => ?_,fun c hc => ?_,fun c hc => ?_⟩
  · obtain ⟨hp,hh,hs⟩ := h.own x hx
    obtain ⟨hp',hh',hs'⟩ := h'.own x (by rw [hp]; exact hx)
    exact ⟨hp'.trans hp,hh'.trans hh,hs'.trans hs⟩
  · obtain ⟨hcur,hcpu⟩ := h.core c hc
    obtain ⟨hcur',hcpu'⟩ := h'.core c hc
    refine ⟨hcur'.trans hcur,fun x hx => (hcpu' x ?_).trans (hcpu x hx)⟩
    rw [hcur]
    exact hx.imp_right fun hp => (h.own x (by rw [hp,hc]; rfl)).1.trans hp
  · obtain ⟨hlock,hsleep⟩ := h.timer c hc
    obtain ⟨hlock',hsleep'⟩ := h'.timer c hc
    exact ⟨hlock'.trans hlock,fun hl => (hsleep' (hlock.trans hl)).trans (hsleep hl)⟩

theorem Good.trans (h : Good agent s s') (h' : Good agent s' s'') : Good agent s s'' :=
  ⟨h'.ok,fun other hne => (h.rely other hne).trans (h'.rely other hne)⟩

section Timer

theorem lock_good (h : SharedOk s) (core : Core) (value : Bool) :
    Good (.timer core) s { s with locked := Function.update s.locked core value } := by
  refine ⟨⟨h.slots,h.queues,h.count,⟨h.memory.current,h.memory.entries,h.memory.resume,h.memory.loose⟩⟩,
    fun other hne => ⟨fun _ _ => ⟨rfl,rfl,rfl⟩,fun _ _ => ⟨rfl,fun _ _ => rfl⟩,fun c hc => ⟨?_,fun _ => rfl⟩⟩⟩
  refine Function.update_of_ne ?_ ..
  rintro rfl
  exact hne hc

theorem table_setSleeping (queues : Core → CoreRunQueue) (core : Core) (sleepers : List SleepingTask) (c : Core) (bank : RequeueType) :
    (Function.update queues core { queues core with sleepingTasks := sleepers } c).table bank = (queues c).table bank := by
  by_cases hc : c = core
  · rw [hc,Function.update_self]
    cases bank <;> rfl
  · rw [Function.update_of_ne hc]

theorem drop_good (h : SharedOk s) (core : Core) (index : Nat) : Good (.timer core) s (s.dropSleeper core index) := by
  have hsub : ∀ c e, e ∈ ((s.dropSleeper core index).runQueues c).sleepingTasks → e ∈ (s.runQueues c).sleepingTasks := by
    intro c e hm
    change e ∈ (Function.update s.runQueues core _ c).sleepingTasks at hm
    by_cases hc : c = core
    · rw [hc,Function.update_self] at hm
      rw [hc]
      exact mem_of_mem_swapRemove hm
    · rwa [Function.update_of_ne hc] at hm
  obtain ⟨lists,hrep,hon⟩ := h.queues
  refine ⟨⟨h.slots,⟨lists,hrep.congr (table_setSleeping s.runQueues core _),hon⟩,h.count,
    h.memory.mono (fun _ => ⟨rfl,rfl⟩) (fun _ => id) (fun _ _ _ => id) (fun _ _ => id) hsub rfl⟩,
    fun other hne => ⟨fun _ _ => ⟨rfl,rfl,rfl⟩,fun _ _ => ⟨rfl,fun _ _ => rfl⟩,fun c hc => ⟨rfl,fun _ => ?_⟩⟩⟩
  refine congrArg CoreRunQueue.sleepingTasks (Function.update_of_ne ?_ ..)
  rintro rfl
  exact hne hc

/-- The sleepers of a core are at home there, so the timer may queue them. -/
theorem stepTimer_good {input : Input} {pc pc' : Timer} (h : SharedOk s) (ht : TimerOk core s pc)
    (hk : stepTimer core input pc s = some (pc',s')) : Good (.timer core) s s' ∧ TimerOk core s' pc' := by
  unfold stepTimer at hk
  split at hk
  · cases hk
    exact ⟨lock_good h core true,Function.update_self ..⟩
  · split at hk
    · cases hk
      exact ⟨lock_good h core false,trivial⟩
    · rename_i sleeper hs
      split_ifs at hk
      · cases hk
        exact ⟨drop_good h core _,ht⟩
      · cases hk
        exact ⟨h.good _,ht⟩
      · cases hk
        exact ⟨h.good _,ht,List.mem_of_getElem? hs⟩
  · rename_i sleeper
    obtain ⟨hlock,hmem⟩ := ht
    split at hk
    · rename_i hcas
      cases hk
      obtain ⟨_,rfl⟩ := TaskSlot.transition_eq_some.mp hcas
      refine ⟨wake_good h _ hcas,hlock,Function.update_self ..,?_⟩
      simp only [Shared.setPhase,Shared.setTask,Function.update_self]
      exact (h.memory.entries core sleeper hmem).2
    · cases hk
      exact ⟨drop_good h core _,hlock⟩
  · cases hk
    obtain ⟨hlock,hphase,hhome⟩ := ht
    exact ⟨count_good h hphase hhome,hlock,Function.update_self ..⟩
  · rename_i sleeper
    obtain ⟨hlock,hphase⟩ := ht
    obtain ⟨s₁,hpush,heq⟩ := Option.map_eq_some_iff.mp hk
    cases heq
    obtain ⟨hgood,_,_,hlocked⟩ := push_good h (by rw [hphase]; rfl) (by rw [hphase]; rfl)
      (h.not_running (by rw [hphase]; exact fun _ => nofun)) hpush
    exact ⟨hgood.trans (drop_good hgood.ok core _),(congrFun hlocked core).trans hlock⟩
  · cases hk

end Timer

section Steal
variable {coreFrom : Core} {queue' : CoreRunQueue} {next' : Links}

/-- A task that leaves the queue of a core is in no queue any more. -/
theorem onCore_phase {lists lists' : Place → List Slot} {phase : Phase} (hon : ∀ c x, onCore lists c x ↔ s.phase x = .queued c)
    (hon' : ∀ c x, onCore lists' c x ↔ onCore lists c x ∧ x ≠ slot) (hphase : ∀ c, phase ≠ .queued c) (c : Core) (x : Slot) :
    onCore lists' c x ↔ Function.update s.phase slot phase x = .queued c := by
  rw [hon',hon]
  by_cases hx : x = slot
  · rw [hx,Function.update_self]
    exact ⟨fun e => absurd rfl e.2,fun e => absurd e (hphase c)⟩
  · rw [Function.update_of_ne hx]
    exact ⟨And.left,fun e => ⟨e,hx⟩⟩

theorem pick_good (h : SharedOk s) (hk : (s.runQueues core).pickNextTask s.next = .ok (some slot,queue')) :
    Good (.core core) s ((s.setQueue core s.next queue').setPhase slot (.held core)) := by
  obtain ⟨lists,hrep,hon⟩ := h.queues
  obtain ⟨lists',hrep',hsleep,hqueued,hon'⟩ := hrep.pick_spec hk
  have hphase := (hon core slot).mp (hqueued slot rfl)
  have hslot := h.slots slot
  rw [hphase] at hslot
  have herase : ∀ c x, onCore lists' c x ↔ onCore lists c x ∧ x ≠ slot := by
    intro c x
    rw [hon',ne_eq,ne_eq,Option.some.injEq,eq_comm]
  refine h.good_requeue hrep' hsleep (onCore_phase hon herase fun _ => nofun) ⟨fun hs => (nomatch hslot.off hs),fun _ => ⟨core,rfl⟩,
    fun c hc => ?_⟩ (by rw [hphase]; rfl) (fun a ha => ?_) fun _ _ => nofun
  · cases hc
    exact hslot.home core rfl
  · rw [hphase] at ha
    cases ha

theorem idle_good (h : SharedOk s) (hk : (s.runQueues core).pickNextTask s.next = .ok (none,queue')) :
    Good (.core core) s (s.setQueue core s.next queue') := by
  obtain ⟨lists,hrep,hon⟩ := h.queues
  obtain ⟨lists',hrep',hsleep,_,hon'⟩ := hrep.pick_spec hk
  have hsleep' := sleeping_update hsleep
  refine ⟨⟨h.slots,⟨lists',hrep',fun c x => ?_⟩,h.count,h.memory.mono (fun _ => ⟨rfl,rfl⟩) (fun _ => id) (fun _ _ _ => id) (fun _ _ => id)
    (fun c sleeper hm => by rw [← hsleep' c]; exact hm) rfl⟩,
    fun _ _ => ⟨fun _ _ => ⟨rfl,rfl,rfl⟩,fun _ _ => ⟨rfl,fun _ _ => rfl⟩,fun c _ => ⟨rfl,fun _ => hsleep' c⟩⟩⟩
  rw [hon',hon]
  exact ⟨And.left,fun e => ⟨e,nofun⟩⟩

/-- The task taken is one that nothing remembers with its home core. -/
theorem take_good {onCpu : Slot → Bool} (h : SharedOk s)
    (hk : (s.runQueues coreFrom).takeStealableTask s.next onCpu = .ok (some slot,next',queue')) (hforgot : ¬ s.Remembers slot) :
    Good (.core core) s ((s.setQueue coreFrom next' queue').setPhase slot (.taken core coreFrom)) := by
  obtain ⟨lists,hrep,hon⟩ := h.queues
  obtain ⟨lists',hrep',hsleep,hqueued,_,hon'⟩ := hrep.take_spec hk
  have hphase := (hon coreFrom slot).mp hqueued
  have hslot := h.slots slot
  rw [hphase] at hslot
  refine h.good_requeue hrep' hsleep (onCore_phase hon hon' fun _ => nofun) ⟨fun hs => (nomatch hslot.off hs),fun hs => ?_,
    fun c hc => (nomatch hc)⟩ (by rw [hphase]; rfl) (fun a ha => ?_) fun _ _ _ => hforgot
  · obtain ⟨c,hc⟩ := hslot.held hs
    cases hc
  · rw [hphase] at ha
    cases ha

theorem storeHome_good (h : SharedOk s) (hphase : s.phase slot = .taken core coreFrom) :
    Good (.core core) s (s.setTask slot { s.tasks slot with homeCore := core }) := by
  have hforgot := h.memory.loose slot (.inr ⟨core,coreFrom,hphase⟩)
  have hslot := h.slots slot
  rw [hphase] at hslot
  have hstate : ∀ x, ((s.setTask slot { s.tasks slot with homeCore := core }).tasks x).state = (s.tasks x).state :=
    Tasks.field_update TaskSlot.state rfl
  have hcpu : ∀ x, ((s.setTask slot { s.tasks slot with homeCore := core }).tasks x).onCpu = (s.tasks x).onCpu :=
    Tasks.field_update TaskSlot.onCpu rfl
  have hp : (s.setTask slot { s.tasks slot with homeCore := core }).phase = Function.update s.phase slot (.taken core coreFrom) := by
    rw [← hphase,Function.update_eq_self]
    rfl
  have hmemory : Memory (s.setTask slot { s.tasks slot with homeCore := core }) := by
    refine h.memory.replace hforgot (fun x hx => Function.update_of_ne hx ..) rfl rfl rfl fun x hx _ => ?_
    exact hx.imp_left fun hs => (hstate x).symm.trans hs
  refine ⟨h.move rfl hp rfl (fun _ _ => rfl) ⟨hslot.off,hslot.held,fun c hc => (nomatch hc)⟩ ?_ (fun _ => nofun) (fun c => ?_) hmemory,
    fun other hne => .of_slot slot hne (fun a ha => ?_) (fun x hx => Function.update_of_ne hx ..) (fun _ _ => rfl) (.inl (hcpu slot))
      (fun _ _ => rfl) fun _ _ => ⟨rfl,fun _ => rfl⟩⟩
  · rw [hphase]
    exact fun _ => nofun
  · rw [hphase]
    rfl
  · rw [hphase] at ha
    exact (Option.some.inj ha).symm

/-- One task less is counted on the core. -/
theorem fetchSub_count (h : SharedOk s) {phase : Phase} (hold : (s.phase slot).countedOn = some coreFrom) (hnew : phase.countedOn = none)
    (c : Core) : Function.update s.runnableTasksCount coreFrom (fetchSub (s.runnableTasksCount coreFrom)) c +
      (counts c (s.phase slot)).toNat = s.runnableTasksCount c + (counts c phase).toNat := by
  rw [counts_none hnew,counts_eq hold]
  have hle := tally_le_maxTasks coreFrom s.phase
  have hpos : 0 < tally (counts coreFrom) s.phase := tally_pos (by rw [counts_eq hold,decide_eq_true_eq])
  rw [← h.count] at hle hpos
  by_cases hc : c = coreFrom
  · rw [hc,Function.update_self,fetchSub_of_pos hpos hle]
    simp
    omega
  · rw [Function.update_of_ne hc]
    simp [hc]

theorem leaveFrom_good (h : SharedOk s) (hphase : s.phase slot = .taken core coreFrom) : Good (.core core) s
    ((s.setCount coreFrom (fetchSub (s.runnableTasksCount coreFrom))).setPhase slot (.woken (.core core))) := by
  have hslot := h.slots slot
  have hcount : (s.phase slot).countedOn = some coreFrom := by rw [hphase]; rfl
  rw [hphase] at hslot
  refine h.good_move (Function.update_eq_self slot s.tasks).symm rfl rfl rfl rfl rfl rfl rfl rfl rfl id
    ⟨fun hs => (nomatch hslot.off hs),fun hs => ?_,fun c hc => (nomatch hc)⟩ (fun a ha => ?_) ?_ (fun _ => nofun) (fun _ _ => nofun)
    (fetchSub_count h hcount rfl)
  · obtain ⟨c,hc⟩ := hslot.held hs
    cases hc
  · rw [hphase] at ha
    exact (Option.some.inj ha).symm
  · rw [hphase]
    exact fun _ => nofun

end Steal
end MofuOS.Process.Cores
