import MofuOS.Process.QueueOk

/-! Runs of the run queues: tasks that are created, woken, picked, requeued and stolen in any pattern. -/
namespace MofuOS.Process
open Lib

/-- The run queues, the tasks they queue and the task each core runs. -/
structure QueueSystem where
  tasks : Tasks := .new
  next : Links := fun _ => none
  runQueues : Core → CoreRunQueue := fun _ => {}
  running : Core → Option Slot := fun _ => none

inductive QueueAct where
  | create (core : Core) (slot : Slot) (priority : Nat)
  | wake (slot : Slot)
  | pick (core : Core)
  /-- The running task used its slice, yielded or was displaced. -/
  | requeue (core : Core) (bank : RequeueType)
  | block (core : Core)
  | exit (core : Core)
  /-- The tasks of onCpu have not switched out yet. -/
  | steal (core coreFrom : Core) (onCpu : Slot → Bool)

namespace QueueSystem

/-- The task is made ready and pushed to a table of the core. -/
def enqueue (s : QueueSystem) (core : Core) (bank : RequeueType) (slot : Slot) (task : TaskSlot) : Outcome QueueSystem := do
  let (next,queue) ← (s.runQueues core).push s.next bank slot task.priority
  .ok { s with
    tasks := Function.update s.tasks slot { task with state := .ready, homeCore := core }
    next := next
    runQueues := Function.update s.runQueues core queue }

def pickAndRun (s : QueueSystem) (core : Core) : Outcome QueueSystem := do
  let (slot,queue) ← (s.runQueues core).pickNextTask s.next
  let s := { s with runQueues := Function.update s.runQueues core queue }
  match slot with
  | none => .ok s
  | some slot => .ok { s with
    tasks := Function.update s.tasks slot ((s.tasks slot).setState .running)
    running := Function.update s.running core (some slot) }

/-- The running task blocks or exits. -/
def leaveCpu (s : QueueSystem) (core : Core) (slot : Slot) (state : TaskState) : QueueSystem :=
  { s with
    tasks := Function.update s.tasks slot ((s.tasks slot).setState state)
    running := Function.update s.running core none }

def stealTask (s : QueueSystem) (core coreFrom : Core) (onCpu : Slot → Bool) : Outcome QueueSystem := do
  let (slot,next,queue) ← (s.runQueues coreFrom).takeStealableTask s.next onCpu
  match slot with
  | none => .ok s
  | some slot =>
    enqueue { s with next := next, runQueues := Function.update s.runQueues coreFrom queue } core .executingTasks slot (s.tasks slot)

def step : QueueAct → QueueSystem → Option QueueSystem
  | .create core slot priority,s =>
    if (s.tasks slot).state = .free then
      (s.enqueue core .executingTasks slot { s.tasks slot with priority := priority }).toOption
    else none
  | .wake slot,s =>
    if (s.tasks slot).state = .blocked then
      (s.enqueue (s.tasks slot).homeCore .executingTasks slot (s.tasks slot)).toOption
    else none
  | .pick core,s => if s.running core = none then (s.pickAndRun core).toOption else none
  | .requeue core bank,s => (s.running core).bind fun slot =>
    ({ s with running := Function.update s.running core none }.enqueue core bank slot (s.tasks slot)).toOption
  | .block core,s => (s.running core).map fun slot => s.leaveCpu core slot .blocked
  | .exit core,s => (s.running core).map fun slot => s.leaveCpu core slot .free
  | .steal core coreFrom onCpu,s => if coreFrom = core then none else (s.stealTask core coreFrom onCpu).toOption

/-- The lists the queues stand for: every task is in the list of its priority. -/
structure Ok (s : QueueSystem) (lists : Place → List Slot) : Prop where
  agrees : Agrees s.tasks s.next s.runQueues lists
  level : ∀ core bank (level : Level), ∀ slot ∈ lists (core,bank,level), (s.tasks slot).priority = level.val
  running : ∀ core slot, s.running core = some slot → (s.tasks slot).state = .running ∧ (s.tasks slot).homeCore = core

namespace Ok
variable {s t : QueueSystem} {lists : Place → List Slot} {core : Core} {bank : RequeueType} {slot : Slot} {task : TaskSlot}

theorem start : Ok {} fun _ => [] := by
  refine ⟨⟨.new,fun slot => ?_,fun core slot hon => ?_⟩,fun _ _ _ _ => (nomatch ·),fun _ _ => (nomatch ·)⟩
  · constructor
    · exact fun hready => nomatch hready
    · rintro ⟨core,bank,level,hmem⟩
      cases hmem
  · obtain ⟨bank,level,hmem⟩ := hon
    cases hmem

/-- A task that is not queued is pushed behind the list of its priority. -/
theorem enqueue (h : Ok s lists) (hready : (s.tasks slot).state ≠ .ready) (hrunning : ∀ core, s.running core ≠ some slot)
    (ht : s.enqueue core bank slot task = .ok t) : ∃ level : Level, level.val = task.priority ∧ (∀ place, slot ∉ lists place) ∧
      Ok t (Function.update lists (core,bank,level) (lists (core,bank,level) ++ [slot])) := by
  have hnot : ∀ place, slot ∉ lists place := h.agrees.notMem hready
  rw [QueueSystem.enqueue] at ht
  by_cases hp : task.priority < priorityLevelCount
  · obtain ⟨next',queue',hpush,_,hrep⟩ := h.agrees.rep.push hnot hp
    rw [hpush] at ht
    cases ht
    refine ⟨⟨task.priority,hp⟩,rfl,hnot,⟨?_,fun core' bank' level' x hx => ?_,fun core' x hx => ?_⟩⟩
    · exact h.agrees.add hready rfl hrep
    · by_cases hxs : x = slot
      · subst hxs
        dsimp only
        rw [Function.update_self]
        by_cases hplace : (core',bank',level') = (core,bank,⟨task.priority,hp⟩)
        · cases hplace
          rfl
        · rw [Function.update_of_ne hplace] at hx
          exact absurd hx (hnot _)
      · dsimp only
        rw [Function.update_of_ne hxs]
        by_cases hplace : (core',bank',level') = (core,bank,⟨task.priority,hp⟩)
        · cases hplace
          rw [Function.update_self,List.mem_append,List.mem_singleton] at hx
          exact h.level core bank _ x (hx.resolve_right hxs)
        · rw [Function.update_of_ne hplace] at hx
          exact h.level core' bank' level' x hx
    · have hxs : x ≠ slot := fun e => hrunning core' (e ▸ hx)
      dsimp only
      rw [Function.update_of_ne hxs]
      exact h.running core' x hx
  · rw [CoreRunQueue.push,TaskSlotQueueTable.push,dif_neg hp] at ht
    cases ht

/-- No two cores run the same task. -/
theorem running_unique (h : Ok s lists) {core' : Core} (hslot : s.running core = some slot) (hslot' : s.running core' = some slot) :
    core' = core := (h.running core' slot hslot').2.symm.trans (h.running core slot hslot).2

/-- The task of a core is taken from it. -/
theorem release (h : Ok s lists) (hslot : s.running core = some slot) :
    Ok { s with running := Function.update s.running core none } lists ∧
      ∀ core', Function.update s.running core none core' ≠ some slot := by
  refine ⟨⟨h.agrees,h.level,fun core' x hx => ?_⟩,fun core' hx => ?_⟩
  · by_cases hc : core' = core
    · subst hc
      dsimp only at hx
      rw [Function.update_self] at hx
      cases hx
    · dsimp only at hx
      rw [Function.update_of_ne hc] at hx
      exact h.running core' x hx
  · by_cases hc : core' = core
    · subst hc
      rw [Function.update_self] at hx
      cases hx
    · rw [Function.update_of_ne hc] at hx
      exact hc (h.running_unique hslot hx)

/-- A task that is in no list and on no core changes. -/
theorem idle (h : Ok s lists) (hold : (s.tasks slot).state ≠ .ready) (hnew : task.state ≠ .ready)
    (hrunning : ∀ core, s.running core ≠ some slot) : Ok { s with tasks := Function.update s.tasks slot task } lists := by
  refine ⟨h.agrees.idle hold hnew,fun core bank level x hx => ?_,fun core x hx => ?_⟩
  · have hxs : x ≠ slot := fun e => h.agrees.notMem hold _ (e ▸ hx)
    dsimp only
    rw [Function.update_of_ne hxs]
    exact h.level core bank level x hx
  · have hxs : x ≠ slot := fun e => hrunning core (e ▸ hx)
    dsimp only
    rw [Function.update_of_ne hxs]
    exact h.running core x hx

theorem leaveCpu {state : TaskState} (h : Ok s lists) (hslot : s.running core = some slot) (hstate : state ≠ .ready) :
    Ok (s.leaveCpu core slot state) lists := by
  obtain ⟨hs,hnone⟩ := h.release hslot
  have hready : (s.tasks slot).state ≠ .ready := by
    rw [(h.running core slot hslot).1]
    simp
  exact hs.idle hready hstate hnone

/-- A task is taken from its list, and is no longer ready. -/
theorem take {lists' : Place → List Slot} {next : Links} {queues : Core → CoreRunQueue} (h : Ok s lists)
    (task : TaskSlot) (hrep : RunQueuesOk next queues lists') (hready : (s.tasks slot).state = .ready) (hstate : task.state ≠ .ready)
    (hon : ∀ core x, onCore lists' core x ↔ onCore lists core x ∧ x ≠ slot)
    (hlevel : ∀ core bank level, ∀ x ∈ lists' (core,bank,level), ∃ bank', x ∈ lists (core,bank',level)) :
    Ok { s with tasks := Function.update s.tasks slot task, next := next, runQueues := queues } lists' := by
  refine ⟨h.agrees.remove hrep hon hstate,fun core bank level x hx => ?_,fun core x hx => ?_⟩
  · have hxs : x ≠ slot := ((hon core x).mp ⟨bank,level,hx⟩).2
    obtain ⟨bank',hx'⟩ := hlevel core bank level x hx
    dsimp only
    rw [Function.update_of_ne hxs]
    exact h.level core bank' level x hx'
  · have hxs : x ≠ slot := by
      rintro rfl
      exact absurd ((h.running core x hx).1.symm.trans hready) (by simp)
    dsimp only
    rw [Function.update_of_ne hxs]
    exact h.running core x hx

/-- A core without a task takes the oldest one of the highest level, behind a change of the tables when the first one is empty. -/
theorem pickAndRun (h : Ok s lists) (ht : s.pickAndRun core = .ok t) :
    (∃ queue', (s.runQueues core).pickNextTask s.next = .ok (none,queue') ∧ Ok t lists) ∨
    ∃ slot level rest queue' lists', (s.runQueues core).pickNextTask s.next = .ok (some slot,queue') ∧
      (lists' = lists ∨ (∀ q, lists (core,.executingTasks,q) = []) ∧
        lists' = fun place => lists (RunQueuesOk.turnedPlace core place)) ∧
      lists' (core,.executingTasks,level) = slot :: rest ∧ (∀ q : Level, level < q → lists' (core,.executingTasks,q) = []) ∧
      Ok t (Function.update lists' (core,.executingTasks,level) rest) := by
  rw [QueueSystem.pickAndRun] at ht
  rcases h.agrees.rep.pickNextTask core with ⟨hpick,_⟩ | ⟨slot,level,rest,queue',lists',hpick,hlists,hlist,hhigh,_,hrep⟩
  · rw [hpick] at ht
    cases ht
    refine .inl ⟨_,hpick,⟨?_,h.level,h.running⟩⟩
    dsimp only
    rw [Function.update_eq_self]
    exact h.agrees
  · rw [hpick] at ht
    cases ht
    have hon := h.agrees.rep.onCore_picked hlists hlist
    have hslot : onCore lists core slot := by
      refine (hon core slot).1.mp ⟨.executingTasks,level,?_⟩
      rw [hlist]
      exact List.mem_cons_self
    have hlevel : ∀ core' bank' level', ∀ x ∈ lists' (core',bank',level'), ∃ bank, x ∈ lists (core',bank,level') := by
      intro core' bank' level' x hx
      rcases hlists with rfl | ⟨_,rfl⟩
      · exact ⟨bank',hx⟩
      · by_cases hc : core' = core
        · subst hc
          cases bank' <;> simp only [RunQueuesOk.turnedPlace,if_pos] at hx <;> exact ⟨_,hx⟩
        · simp only [RunQueuesOk.turnedPlace,if_neg hc] at hx
          exact ⟨_,hx⟩
    have htake := h.take ((s.tasks slot).setState .running) hrep ((h.agrees.ready slot).mpr ⟨core,hslot⟩) (by simp [TaskSlot.setState])
      (fun core' x => (hon core' x).2) fun core' bank' level' x hx => by
        by_cases hp : (core',bank',level') = (core,.executingTasks,level)
        · cases hp
          rw [Function.update_self] at hx
          refine hlevel core .executingTasks level x ?_
          rw [hlist]
          exact List.mem_cons_of_mem _ hx
        · rw [Function.update_of_ne hp] at hx
          exact hlevel core' bank' level' x hx
    refine .inr ⟨slot,level,rest,queue',lists',hpick,hlists,hlist,hhigh,⟨htake.agrees,htake.level,fun core' x hx => ?_⟩⟩
    by_cases hc : core' = core
    · subst hc
      dsimp only at hx ⊢
      rw [Function.update_self] at hx
      cases hx
      rw [Function.update_self]
      exact ⟨rfl,h.agrees.home core' slot hslot⟩
    · dsimp only at hx
      rw [Function.update_of_ne hc] at hx
      exact htake.running core' x hx

/-- A queued task goes from one core to another, to the end of the executing list of its priority there. -/
theorem stealTask {coreFrom : Core} {onCpu : Slot → Bool} (h : Ok s lists) (ht : s.stealTask core coreFrom onCpu = .ok t) :
    t = s ∨ ∃ slot bank level, ∃ target : Level, ∃ found, slot ∈ lists (coreFrom,bank,level) ∧
      (s.runQueues coreFrom).takeStealableTask s.next onCpu = .ok (some slot,found) ∧ target.val = (s.tasks slot).priority ∧
      let taken := Function.update lists (coreFrom,bank,level) ((lists (coreFrom,bank,level)).erase slot)
      (∀ place, slot ∉ taken place) ∧
        Ok t (Function.update taken (core,.executingTasks,target) (taken (core,.executingTasks,target) ++ [slot])) := by
  rw [QueueSystem.stealTask] at ht
  rcases h.agrees.rep.takeStealableTask onCpu coreFrom with ⟨q,htake,_⟩ | ⟨slot,bank,level,next',queue',htake,hmem,_,_,hrep⟩
  · rw [htake] at ht
    cases ht
    exact .inl rfl
  · rw [htake,ok_bind] at ht
    have hready : (s.tasks slot).state = .ready := (h.agrees.ready slot).mpr ⟨coreFrom,bank,level,hmem⟩
    -- between the two queues the slot is in none of them, as a task that is being created
    have htaken := h.take ((s.tasks slot).setState .creating) hrep hready (by simp [TaskSlot.setState])
      (fun core' x => onCore_erase h.agrees.rep hmem) fun core' bank' level' x hx => by
        by_cases hp : (core',bank',level') = (coreFrom,bank,level)
        · cases hp
          rw [Function.update_self] at hx
          exact ⟨bank,List.mem_of_mem_erase hx⟩
        · rw [Function.update_of_ne hp] at hx
          exact ⟨bank',hx⟩
    have hrunning : ∀ core, s.running core ≠ some slot := fun core' hr =>
      absurd ((h.running core' slot hr).1.symm.trans hready) (by simp)
    have ht' : QueueSystem.enqueue { s with
        tasks := Function.update s.tasks slot ((s.tasks slot).setState .creating)
        next := next'
        runQueues := Function.update s.runQueues coreFrom queue' } core .executingTasks slot (s.tasks slot) = .ok t := by
      rw [← ht]
      simp only [QueueSystem.enqueue,Function.update_idem]
    obtain ⟨target,htarget,hnot,hok⟩ := htaken.enqueue (by simp [TaskSlot.setState]) hrunning ht'
    exact .inr ⟨slot,bank,level,target,_,hmem,htake,htarget,hnot,hok⟩

end Ok
end QueueSystem
end MofuOS.Process
