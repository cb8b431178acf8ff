import MofuOS.Process.Scheduler
import MofuOS.Lib.Tally

/-! Which tasks are queued and how many: the ready ones, each once and on its home core, and the counter
of a core counts them and the one that runs there. -/
namespace MofuOS.Process
open Lib

/-- Queued on the core or running there. -/
def TaskSlot.runnableOn (core : Core) (task : TaskSlot) : Bool :=
  (task.state = .ready || task.state = .running) && task.homeCore = core

def load (tasks : Tasks) (core : Core) : Nat := ∑ slot, (tasks slot |>.runnableOn core).toNat

section Load
variable {tasks : Tasks} {slot : Slot} {task : TaskSlot} {core : Core}

/-- One task changes, and the loads change by what it adds and no longer adds. -/
theorem load_update (tasks : Tasks) (slot : Slot) (task : TaskSlot) (core : Core) :
    load (Function.update tasks slot task) core + ((tasks slot).runnableOn core).toNat =
      load tasks core + (task.runnableOn core).toNat :=
  tally_update (TaskSlot.runnableOn core) tasks slot task

theorem load_le (tasks : Tasks) (core : Core) : load tasks core ≤ maxTasks :=
  (tally_le (TaskSlot.runnableOn core) tasks).trans_eq (Fintype.card_fin maxTasks)

theorem load_pos (h : (tasks slot).runnableOn core = true) : 0 < load tasks core := tally_pos h

theorem load_congr {tasks' : Tasks} (h : ∀ slot, (tasks' slot).state = (tasks slot).state ∧
    (tasks' slot).homeCore = (tasks slot).homeCore) (core : Core) : load tasks' core = load tasks core := by
  refine Finset.sum_congr rfl fun slot _ => ?_
  rw [TaskSlot.runnableOn,TaskSlot.runnableOn,(h slot).1,(h slot).2]

end Load

/-- The slot is in a queue of the core. -/
def onCore (lists : Place → List Slot) (core : Core) (slot : Slot) : Prop := ∃ bank level, slot ∈ lists (core,bank,level)

structure Agrees (tasks : Tasks) (next : Links) (queues : Core → CoreRunQueue) (lists : Place → List Slot) : Prop where
  rep : RunQueuesOk next queues lists
  ready : ∀ slot, (tasks slot).state = .ready ↔ ∃ core, onCore lists core slot
  home : ∀ core slot, onCore lists core slot → (tasks slot).homeCore = core

structure QueueOk (tasks : Tasks) (next : Links) (queues : Core → CoreRunQueue) (counts : Core → Nat) : Prop where
  lists : ∃ lists, Agrees tasks next queues lists
  count : ∀ core, counts core = load tasks core

section Lists
variable {lists : Place → List Slot} {core core' : Core} {bank : RequeueType} {level : Level} {slot x : Slot}

theorem onCore_push : onCore (Function.update lists (core,bank,level) (lists (core,bank,level) ++ [slot])) core' x ↔
    onCore lists core' x ∨ core' = core ∧ x = slot := by
  constructor
  · rintro ⟨bank',level',hx⟩
    by_cases hp : (core',bank',level') = (core,bank,level)
    · cases hp
      rw [Function.update_self,List.mem_append,List.mem_singleton] at hx
      exact hx.imp (fun hx => ⟨bank,level,hx⟩) fun hx => ⟨rfl,hx⟩
    · rw [Function.update_of_ne hp] at hx
      exact .inl ⟨bank',level',hx⟩
  · rintro (⟨bank',level',hx⟩ | ⟨rfl,rfl⟩)
    · refine ⟨bank',level',?_⟩
      by_cases hp : (core',bank',level') = (core,bank,level)
      · cases hp
        rw [Function.update_self]
        exact List.mem_append_left _ hx
      · rwa [Function.update_of_ne hp]
    · refine ⟨bank,level,?_⟩
      rw [Function.update_self]
      exact List.mem_append_right _ List.mem_cons_self

/-- A task that is taken off its list is in no queue any more. -/
theorem onCore_erase {next : Links} {queues : Core → CoreRunQueue} (h : RunQueuesOk next queues lists)
    (hslot : slot ∈ lists (core,bank,level)) :
    onCore (Function.update lists (core,bank,level) ((lists (core,bank,level)).erase slot)) core' x ↔
      onCore lists core' x ∧ x ≠ slot := by
  have hnodup := (h.threads.threaded (core,bank,level)).nodup
  constructor
  · rintro ⟨bank',level',hx⟩
    by_cases hp : (core',bank',level') = (core,bank,level)
    · cases hp
      rw [Function.update_self,hnodup.mem_erase_iff] at hx
      exact ⟨⟨bank,level,hx.2⟩,hx.1⟩
    · rw [Function.update_of_ne hp] at hx
      refine ⟨⟨bank',level',hx⟩,?_⟩
      rintro rfl
      exact hp (h.threads.disjoint _ _ x hx hslot)
  · rintro ⟨⟨bank',level',hx⟩,hne⟩
    refine ⟨bank',level',?_⟩
    by_cases hp : (core',bank',level') = (core,bank,level)
    · cases hp
      rw [Function.update_self,hnodup.mem_erase_iff]
      exact ⟨hne,hx⟩
    · rwa [Function.update_of_ne hp]

theorem onCore_turned : onCore (fun place => lists (RunQueuesOk.turnedPlace core place)) core' x ↔ onCore lists core' x := by
  have hcore : ∀ bank level, RunQueuesOk.turnedPlace core (core',bank,level) = (core',
      (RunQueuesOk.turnedPlace core (core',bank,level)).2.1,(RunQueuesOk.turnedPlace core (core',bank,level)).2.2) := by
    intro bank level
    by_cases hc : core' = core
    · subst hc
      simp [RunQueuesOk.turnedPlace]
    · simp [RunQueuesOk.turnedPlace,hc]
  constructor
  · rintro ⟨bank,level,hx⟩
    refine ⟨(RunQueuesOk.turnedPlace core (core',bank,level)).2.1,(RunQueuesOk.turnedPlace core (core',bank,level)).2.2,?_⟩
    rw [← hcore bank level]
    exact hx
  · rintro ⟨bank,level,hx⟩
    refine ⟨(RunQueuesOk.turnedPlace core (core',bank,level)).2.1,(RunQueuesOk.turnedPlace core (core',bank,level)).2.2,?_⟩
    rw [← hcore bank level]
    dsimp only
    rw [RunQueuesOk.turnedPlace_turnedPlace]
    exact hx

/-- The lists pick_next_task takes its task from, and the same lists without that task. -/
theorem RunQueuesOk.onCore_picked {next : Links} {queues : Core → CoreRunQueue} {lists' : Place → List Slot} {rest : List Slot}
    (h : RunQueuesOk next queues lists)
    (hlists : lists' = lists ∨ (∀ q, lists (core,.executingTasks,q) = []) ∧ lists' = fun place => lists (turnedPlace core place))
    (hlist : lists' (core,.executingTasks,level) = slot :: rest) (core' : Core) (x : Slot) :
    (onCore lists' core' x ↔ onCore lists core' x) ∧
      (onCore (Function.update lists' (core,.executingTasks,level) rest) core' x ↔ onCore lists core' x ∧ x ≠ slot) := by
  have hturned : (∃ queues', RunQueuesOk next queues' lists') ∧ (onCore lists' core' x ↔ onCore lists core' x) := by
    rcases hlists with rfl | ⟨hempty,rfl⟩
    · exact ⟨⟨_,h⟩,.rfl⟩
    · exact ⟨⟨_,h.turn core ((h.isEmpty_iff core .executingTasks).mpr hempty)⟩,onCore_turned⟩
  obtain ⟨⟨queues',hrep'⟩,hon⟩ := hturned
  have hmem : slot ∈ lists' (core,.executingTasks,level) := by
    rw [hlist]
    exact List.mem_cons_self
  have hgone : onCore _ core' x ↔ _ := onCore_erase hrep' hmem
  rw [hlist,List.erase_cons_head,hon] at hgone
  exact ⟨hon,hgone⟩

/-- The task that is picked was queued on the core and is in no queue any more. -/
theorem RunQueuesOk.pick_spec {next : Links} {queues : Core → CoreRunQueue} {queue' : CoreRunQueue} {picked : Option Slot}
    (h : RunQueuesOk next queues lists) (hk : (queues core).pickNextTask next = .ok (picked,queue')) :
    ∃ lists', RunQueuesOk next (Function.update queues core queue') lists' ∧ queue'.sleepingTasks = (queues core).sleepingTasks ∧
      (∀ slot, picked = some slot → onCore lists core slot) ∧
      ∀ core' x, onCore lists' core' x ↔ onCore lists core' x ∧ picked ≠ some x := by
  rcases h.pickNextTask core with ⟨hpick,_⟩ | ⟨slot,level,rest,queue',lists',hpick,hlists,hlist,_,hsleep,hrep⟩
  · rw [hpick] at hk
    cases hk
    rw [Function.update_eq_self]
    exact ⟨lists,h,rfl,fun _ hp => (nomatch hp),fun _ _ => ⟨fun hon => ⟨hon,nofun⟩,And.left⟩⟩
  · rw [hpick] at hk
    cases hk
    refine ⟨_,hrep,hsleep,fun x hx => ?_,fun core' x => ?_⟩
    · cases hx
      refine (h.onCore_picked hlists hlist core slot).1.mp ⟨.executingTasks,level,?_⟩
      rw [hlist]
      exact List.mem_cons_self
    · rw [(h.onCore_picked hlists hlist core' x).2,ne_eq,ne_eq,Option.some.injEq,eq_comm]

/-- A task taken by another core was queued, on no processor, and is in no queue any more. -/
theorem RunQueuesOk.take_spec {next next' : Links} {queues : Core → CoreRunQueue} {queue' : CoreRunQueue} {onCpu : Slot → Bool}
    (h : RunQueuesOk next queues lists) (hk : (queues core).takeStealableTask next onCpu = .ok (some slot,next',queue')) :
    ∃ lists', RunQueuesOk next' (Function.update queues core queue') lists' ∧ queue'.sleepingTasks = (queues core).sleepingTasks ∧
      onCore lists core slot ∧ onCpu slot = false ∧ ∀ core' x, onCore lists' core' x ↔ onCore lists core' x ∧ x ≠ slot := by
  rcases h.takeStealableTask onCpu core with ⟨q,htake,_⟩ | ⟨x,bank,level,n,q,htake,hmem,hcpu,hsleep,hrep⟩
  · rw [htake] at hk
    cases hk
  · rw [htake] at hk
    cases hk
    exact ⟨_,hrep,hsleep,⟨bank,level,hmem⟩,hcpu,fun _ _ => onCore_erase h hmem⟩

end Lists

namespace Agrees
variable {tasks tasks' : Tasks} {next next' : Links} {queues queues' : Core → CoreRunQueue} {lists lists' : Place → List Slot}
  {core : Core} {slot : Slot} {task : TaskSlot}

theorem notMem (h : Agrees tasks next queues lists) (hstate : (tasks slot).state ≠ .ready) (place : Place) : slot ∉ lists place :=
  fun hmem => hstate ((h.ready slot).mpr ⟨place.1,place.2.1,place.2.2,hmem⟩)

theorem congr (h : Agrees tasks next queues lists) (hrep : RunQueuesOk next' queues' lists)
    (ht : ∀ slot, (tasks' slot).state = (tasks slot).state ∧ (tasks' slot).homeCore = (tasks slot).homeCore) :
    Agrees tasks' next' queues' lists := by
  refine ⟨hrep,fun slot => ?_,fun core slot hon => ?_⟩
  · rw [(ht slot).1]
    exact h.ready slot
  · rw [(ht slot).2]
    exact h.home core slot hon

/-- The queues change by one task, which changes its state accordingly. -/
theorem set (h : Agrees tasks next queues lists) (hrep : RunQueuesOk next' queues' lists')
    (hothers : ∀ core x, x ≠ slot → (onCore lists' core x ↔ onCore lists core x))
    (hself : ∀ core, onCore lists' core slot ↔ task.state = .ready ∧ task.homeCore = core) :
    Agrees (Function.update tasks slot task) next' queues' lists' := by
  refine ⟨hrep,fun x => ?_,fun core x hon => ?_⟩
  · by_cases hx : x = slot
    · subst hx
      rw [Function.update_self]
      constructor
      · exact fun hready => ⟨task.homeCore,(hself task.homeCore).mpr ⟨hready,rfl⟩⟩
      · rintro ⟨core,hon⟩
        exact ((hself core).mp hon).1
    · rw [Function.update_of_ne hx,h.ready x]
      exact exists_congr fun core => (hothers core x hx).symm
  · by_cases hx : x = slot
    · subst hx
      rw [Function.update_self]
      exact ((hself core).mp hon).2
    · rw [Function.update_of_ne hx]
      exact h.home core x ((hothers core x hx).mp hon)

/-- A task that is not queued before and after. -/
theorem idle (h : Agrees tasks next queues lists) (hold : (tasks slot).state ≠ .ready) (hnew : task.state ≠ .ready) :
    Agrees (Function.update tasks slot task) next queues lists := by
  refine h.set h.rep (fun _ _ _ => .rfl) fun core => ⟨?_,fun hready => absurd hready.1 hnew⟩
  rintro ⟨bank,level,hmem⟩
  exact absurd hmem (h.notMem hold _)

/-- A task is made ready and queued on its home core. -/
theorem add {bank : RequeueType} {level : Level} (h : Agrees tasks next queues lists) (hold : (tasks slot).state ≠ .ready)
    (hstate : task.state = .ready)
    (hrep : RunQueuesOk next' queues' (Function.update lists (task.homeCore,bank,level) (lists (task.homeCore,bank,level) ++ [slot]))) :
    Agrees (Function.update tasks slot task) next' queues'
      (Function.update lists (task.homeCore,bank,level) (lists (task.homeCore,bank,level) ++ [slot])) := by
  refine h.set hrep (fun core x hx => ?_) fun core => ?_
  · rw [onCore_push]
    exact ⟨fun hor => hor.resolve_right fun e => hx e.2,.inl⟩
  · rw [onCore_push]
    constructor
    · rintro (⟨bank,level,hmem⟩ | ⟨rfl,_⟩)
      · exact absurd hmem (h.notMem hold _)
      · exact ⟨hstate,rfl⟩
    · rintro ⟨_,rfl⟩
      exact .inr ⟨rfl,rfl⟩

/-- A queued task is taken from its queue. -/
theorem remove (h : Agrees tasks next queues lists) (hrep : RunQueuesOk next' queues' lists')
    (hon : ∀ core x, onCore lists' core x ↔ onCore lists core x ∧ x ≠ slot) (hstate : task.state ≠ .ready) :
    Agrees (Function.update tasks slot task) next' queues' lists' := by
  refine h.set hrep (fun core x hx => ?_) fun core => ?_
  · rw [hon]
    exact ⟨And.left,fun hl => ⟨hl,hx⟩⟩
  · rw [hon]
    exact ⟨fun hl => absurd rfl hl.2,fun hl => absurd hl.1 hstate⟩

end Agrees

theorem fetchAdd_of_lt {n : Nat} (h : n ≤ maxTasks) : fetchAdd n = n + 1 :=
  Nat.mod_eq_of_lt (by rw [maxTasks] at h; omega)

theorem fetchSub_of_pos {n : Nat} (hpos : 0 < n) (h : n ≤ maxTasks) : fetchSub n = n - 1 := by
  rw [fetchSub,show n + (2^32 - 1) = n - 1 + 2^32 by omega,Nat.add_mod_right]
  exact Nat.mod_eq_of_lt (by rw [maxTasks] at h; omega)

namespace QueueOk
variable {tasks tasks' : Tasks} {next next' : Links} {queues queues' : Core → CoreRunQueue} {counts counts' : Core → Nat}
  {core : Core} {slot : Slot} {task : TaskSlot}

theorem congr (h : QueueOk tasks next queues counts) (hq : ∀ core bank, (queues' core).table bank = (queues core).table bank)
    (ht : ∀ slot, (tasks' slot).state = (tasks slot).state ∧ (tasks' slot).homeCore = (tasks slot).homeCore) :
    QueueOk tasks' next queues' counts := by
  obtain ⟨lists,hl⟩ := h.lists
  exact ⟨⟨lists,hl.congr (hl.rep.congr hq) ht⟩,fun core => (h.count core).trans (load_congr ht core).symm⟩

/-- The counter of a core after a task has come or gone. -/
theorem count_update (h : QueueOk tasks next queues counts) (n : Nat)
    (hcore : n + ((tasks slot).runnableOn core).toNat = counts core + (task.runnableOn core).toNat)
    (hother : ∀ core', core' ≠ core → (tasks slot).runnableOn core' = task.runnableOn core') (core' : Core) :
    Function.update counts core n core' = load (Function.update tasks slot task) core' := by
  have hload := load_update tasks slot task core'
  by_cases hc : core' = core
  · subst hc
    rw [Function.update_self]
    have := h.count core'
    omega
  · rw [Function.update_of_ne hc,h.count core']
    rw [hother core' hc] at hload
    omega

theorem runnableOn_eq_false (h : task.state ≠ .ready) (h' : task.state ≠ .running) (core : Core) : task.runnableOn core = false := by
  simp [TaskSlot.runnableOn,h,h']

theorem runnableOn_iff : task.runnableOn core = true ↔ (task.state = .ready ∨ task.state = .running) ∧ task.homeCore = core := by
  simp [TaskSlot.runnableOn]

/-- A task that was neither queued nor running is made ready and queued on its home core. -/
theorem enqueue {bank : RequeueType} {level : Level} {lists : Place → List Slot} (h : QueueOk tasks next queues counts)
    (hl : Agrees tasks next queues lists) (hready : (tasks slot).state ≠ .ready) (hrunning : (tasks slot).state ≠ .running)
    (hstate : task.state = .ready)
    (hrep : RunQueuesOk next' queues' (Function.update lists (task.homeCore,bank,level) (lists (task.homeCore,bank,level) ++ [slot]))) :
    QueueOk (Function.update tasks slot task) next' queues'
      (Function.update counts task.homeCore (fetchAdd (counts task.homeCore))) := by
  refine ⟨⟨_,hl.add hready hstate hrep⟩,h.count_update _ ?_ fun core' hc => ?_⟩
  · have hle := load_le tasks task.homeCore
    rw [← h.count] at hle
    rw [fetchAdd_of_lt hle,runnableOn_eq_false hready hrunning,runnableOn_iff.mpr ⟨.inl hstate,rfl⟩]
    rfl
  · rw [runnableOn_eq_false hready hrunning]
    refine (Bool.eq_false_iff.mpr fun hon => ?_).symm
    exact hc (runnableOn_iff.mp hon).2.symm

/-- A running task blocks or dies. -/
theorem leave (h : QueueOk tasks next queues counts) (hrunning : (tasks slot).state = .running)
    (hready : task.state ≠ .ready) (hnot : task.state ≠ .running) :
    QueueOk (Function.update tasks slot task) next queues
      (Function.update counts (tasks slot).homeCore (fetchSub (counts (tasks slot).homeCore))) := by
  obtain ⟨lists,hl⟩ := h.lists
  have hon : (tasks slot).runnableOn (tasks slot).homeCore = true := runnableOn_iff.mpr ⟨.inr hrunning,rfl⟩
  refine ⟨⟨lists,hl.idle (by rw [hrunning]; simp) hready⟩,h.count_update _ ?_ fun core' hc => ?_⟩
  · have hpos := load_pos hon
    have hle := load_le tasks (tasks slot).homeCore
    rw [← h.count] at hpos hle
    rw [fetchSub_of_pos hpos hle,hon,runnableOn_eq_false hready hnot]
    simp
    omega
  · rw [runnableOn_eq_false hready hnot]
    exact Bool.eq_false_iff.mpr fun hon => hc (runnableOn_iff.mp hon).2.symm

/-- A task that is neither queued nor running before and after. -/
theorem idle (h : QueueOk tasks next queues counts) (hready : (tasks slot).state ≠ .ready) (hrunning : (tasks slot).state ≠ .running)
    (hready' : task.state ≠ .ready) (hrunning' : task.state ≠ .running) :
    QueueOk (Function.update tasks slot task) next queues counts := by
  obtain ⟨lists,hl⟩ := h.lists
  refine ⟨⟨lists,hl.idle hready hready'⟩,fun core => ?_⟩
  have hload := load_update tasks slot task core
  rw [runnableOn_eq_false hready hrunning,runnableOn_eq_false hready' hrunning'] at hload
  rw [h.count core]
  omega

/-- A running task is queued again, or a queued one starts to run: the counters stay. -/
theorem count_same (h : QueueOk tasks next queues counts) (hhome : task.homeCore = (tasks slot).homeCore)
    (hold : (tasks slot).state = .ready ∨ (tasks slot).state = .running) (hnew : task.state = .ready ∨ task.state = .running)
    (core : Core) : counts core = load (Function.update tasks slot task) core := by
  have hsame : (tasks slot).runnableOn core = task.runnableOn core := by
    rw [Bool.eq_iff_iff,runnableOn_iff,runnableOn_iff,hhome]
    simp [hold,hnew]
  have hload := load_update tasks slot task core
  rw [hsame] at hload
  rw [h.count core]
  omega

/-- A queued task moves to another core. -/
theorem move (h : QueueOk tasks next queues counts) (hready : (tasks slot).state = .ready) (hstate : task.state = .ready)
    (hne : (tasks slot).homeCore ≠ task.homeCore) (core : Core) :
    Function.update (Function.update counts (tasks slot).homeCore (fetchSub (counts (tasks slot).homeCore))) task.homeCore
      (fetchAdd (counts task.homeCore)) core = load (Function.update tasks slot task) core := by
  have hload := load_update tasks slot task core
  have hle := load_le tasks core
  have hold : (tasks slot).runnableOn core = true ↔ (tasks slot).homeCore = core := by simp [runnableOn_iff,hready]
  have hnew : task.runnableOn core = true ↔ task.homeCore = core := by simp [runnableOn_iff,hstate]
  by_cases hc : task.homeCore = core
  · subst hc
    rw [Bool.eq_false_iff.mpr (mt hold.mp hne),hnew.mpr rfl] at hload
    rw [Function.update_self,h.count,fetchAdd_of_lt hle]
    simpa using hload.symm
  · rw [Function.update_of_ne (Ne.symm hc)]
    rw [Bool.eq_false_iff.mpr (mt hnew.mp hc)] at hload
    by_cases hc' : (tasks slot).homeCore = core
    · subst hc'
      have hpos := load_pos (hold.mpr rfl)
      rw [hold.mpr rfl] at hload
      rw [Function.update_self,h.count,fetchSub_of_pos hpos hle]
      simp only [Bool.toNat_true,Bool.toNat_false] at hload
      omega
    · rw [Bool.eq_false_iff.mpr (mt hold.mp hc')] at hload
      rw [Function.update_of_ne (Ne.symm hc'),h.count]
      omega

end QueueOk
end MofuOS.Process
