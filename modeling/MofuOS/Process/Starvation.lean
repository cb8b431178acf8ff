import MofuOS.Process.QueueRun

/-! How many tasks of a core are picked while one of its tasks stays queued. -/
namespace MofuOS.Process
open Lib

section Ahead
variable {lists lists' : Place → List Slot} {core core' : Core} {bank : RequeueType} {level : Level} {slot x y : Slot} {n : Nat}

/-- The slot waits for the tables of the core to change places. -/
def yielded (lists : Place → List Slot) (core : Core) (x : Slot) : Prop := ∃ p, x ∈ lists (core,.yieldingTasks,p)

/-- The tasks that are picked before x when nothing more is queued on the core, until the tables change places. -/
def ahead (lists : Place → List Slot) (core : Core) (x y : Slot) : Prop :=
  (yielded lists core x ∧ ∃ q, y ∈ lists (core,.executingTasks,q)) ∨
  (∃ p, [y,x].Sublist (lists (core,.executingTasks,p))) ∨
  ∃ p q : Level, p < q ∧ x ∈ lists (core,.executingTasks,p) ∧ y ∈ lists (core,.executingTasks,q)

theorem ahead.onCore_left (h : ahead lists core x y) : onCore lists core x := by
  rcases h with ⟨⟨p,hx⟩,_⟩ | ⟨p,hsub⟩ | ⟨p,q,_,hx,_⟩
  · exact ⟨.yieldingTasks,p,hx⟩
  · exact ⟨.executingTasks,p,hsub.subset (by simp)⟩
  · exact ⟨.executingTasks,p,hx⟩

theorem ahead.onCore_right (h : ahead lists core x y) : onCore lists core y := by
  rcases h with ⟨_,q,hy⟩ | ⟨p,hsub⟩ | ⟨p,q,_,_,hy⟩
  · exact ⟨.executingTasks,q,hy⟩
  · exact ⟨.executingTasks,p,hsub.subset (by simp)⟩
  · exact ⟨.executingTasks,q,hy⟩

/-- Lists that only lose elements put nobody ahead. -/
theorem ahead.mono (hsub : ∀ place, (lists' place).Sublist (lists place)) (h : ahead lists' core x y) : ahead lists core x y := by
  rcases h with ⟨⟨p,hx⟩,q,hy⟩ | ⟨p,hxy⟩ | ⟨p,q,hpq,hx,hy⟩
  · exact .inl ⟨⟨p,(hsub _).subset hx⟩,q,(hsub _).subset hy⟩
  · exact .inr (.inl ⟨p,hxy.trans (hsub _)⟩)
  · exact .inr (.inr ⟨p,q,hpq,(hsub _).subset hx,(hsub _).subset hy⟩)

theorem not_ahead_self {next : Links} {queues : Core → CoreRunQueue} (h : RunQueuesOk next queues lists) : ¬ahead lists core x x := by
  rintro (⟨⟨p,hx⟩,q,hy⟩ | ⟨p,hsub⟩ | ⟨p,q,hpq,hx,hy⟩)
  · exact nomatch h.threads.disjoint _ _ x hx hy
  · exact absurd (hsub.nodup (h.threads.threaded (core,.executingTasks,p)).nodup) (by simp)
  · have hplace := h.threads.disjoint _ _ x hx hy
    simp only [Prod.mk.injEq,true_and] at hplace
    exact absurd hplace (ne_of_lt hpq)

section Push
variable (hx : onCore lists core x) (hnot : ∀ place, slot ∉ lists place)
include hx hnot

theorem mem_of_mem_push {place target : Place} (hmem : x ∈ Function.update lists target (lists target ++ [slot]) place) :
    x ∈ lists place := by
  have hne : x ≠ slot := by
    rintro rfl
    obtain ⟨bank,level,hx⟩ := hx
    exact hnot _ hx
  by_cases hp : place = target
  · subst hp
    rw [Function.update_self,List.mem_append,List.mem_singleton] at hmem
    exact hmem.resolve_right hne
  · rwa [Function.update_of_ne hp] at hmem

/-- The task behind the end of a list is ahead of the tasks that wait for the tables to change places, and of lower ones. -/
theorem ahead_push (h : ahead (Function.update lists (core',bank,level) (lists (core',bank,level) ++ [slot])) core x y) :
    ahead lists core x y ∨ y = slot ∧ core' = core ∧ bank = .executingTasks ∧
      (yielded lists core x ∨ ∃ p, p < level ∧ x ∈ lists (core,.executingTasks,p)) := by
  have hmem : ∀ {q : Level}, y ∈ Function.update lists (core',bank,level) (lists (core',bank,level) ++ [slot]) (core,.executingTasks,q) →
      y ∈ lists (core,.executingTasks,q) ∨ y = slot ∧ core' = core ∧ bank = .executingTasks ∧ q = level := by
    intro q hy
    by_cases hp : ((core,.executingTasks,q) : Place) = (core',bank,level)
    · cases hp
      rw [Function.update_self,List.mem_append,List.mem_singleton] at hy
      exact hy.imp_right fun hy => ⟨hy,rfl,rfl,rfl⟩
    · rw [Function.update_of_ne hp] at hy
      exact .inl hy
  rcases h with ⟨⟨p,hp⟩,q,hy⟩ | ⟨p,hsub⟩ | ⟨p,q,hpq,hp,hy⟩
  · have hyield : yielded lists core x := ⟨p,mem_of_mem_push hx hnot hp⟩
    rcases hmem hy with hy | ⟨hy,hcore,hbank,_⟩
    · exact .inl (.inl ⟨hyield,q,hy⟩)
    · exact .inr ⟨hy,hcore,hbank,.inl hyield⟩
  · refine .inl (.inr (.inl ⟨p,?_⟩))
    by_cases hplace : ((core,.executingTasks,p) : Place) = (core',bank,level)
    · cases hplace
      rw [Function.update_self] at hsub
      obtain ⟨l₁,l₂,heq,h₁,h₂⟩ := List.sublist_append_iff.mp hsub
      rcases List.sublist_singleton.mp h₂ with rfl | rfl
      · rw [List.append_nil] at heq
        rwa [heq]
      · have hlast : x = slot := by
          have := congrArg List.getLast? heq
          simpa using this
        obtain ⟨bank,level,hx⟩ := hx
        exact absurd (hlast ▸ hx) (hnot _)
    · rwa [Function.update_of_ne hplace] at hsub
  · have hp' := mem_of_mem_push hx hnot hp
    rcases hmem hy with hy | ⟨hslot,hcore,hbank,rfl⟩
    · exact .inl (.inr (.inr ⟨p,q,hpq,hp',hy⟩))
    · exact .inr ⟨hslot,hcore,hbank,.inr ⟨p,hpq,hp'⟩⟩

end Push

open Classical in
/-- The picks of other tasks x may still have to wait for, on a core of n tasks. -/
noncomputable def budget (lists : Place → List Slot) (core : Core) (x : Slot) (n : Nat) : Nat :=
  (Finset.univ.filter (ahead lists core x)).card + if yielded lists core x then n - 1 else 0

theorem budget_eq_zero (h : ¬onCore lists core x) : budget lists core x n = 0 := by
  classical
  have hyield : ¬yielded lists core x := fun ⟨p,hx⟩ => h ⟨.yieldingTasks,p,hx⟩
  rw [budget,if_neg hyield,Nat.add_zero,Finset.card_eq_zero,Finset.filter_eq_empty_iff]
  exact fun y _ hy => h hy.onCore_left

theorem budget_le (hyield : yielded lists' core x → yielded lists core x) (hsub : ∀ y, ahead lists' core x y → ahead lists core x y) :
    budget lists' core x n ≤ budget lists core x n := by
  classical
  rw [budget,budget]
  refine Nat.add_le_add (Finset.card_le_card fun y hy => ?_) ?_
  · rw [Finset.mem_filter] at hy ⊢
    exact ⟨hy.1,hsub y hy.2⟩
  · by_cases h' : yielded lists' core x
    · rw [if_pos h',if_pos (hyield h')]
    · rw [if_neg h']
      exact Nat.zero_le _

theorem budget_congr (h : ∀ bank level, lists' (core,bank,level) = lists (core,bank,level)) :
    budget lists' core x n ≤ budget lists core x n := by
  refine budget_le ?_ fun y => ?_
  · simp only [yielded,h]
    exact id
  · simp only [ahead,yielded,h]
    exact id

/-- One more task is ahead. -/
theorem budget_le_succ (slot : Slot) (hyield : yielded lists' core x → yielded lists core x)
    (hsub : ∀ y, ahead lists' core x y → ahead lists core x y ∨ y = slot) : budget lists' core x n ≤ budget lists core x n + 1 := by
  classical
  rw [budget,budget]
  have hcard : (Finset.univ.filter (ahead lists' core x)).card ≤ (Finset.univ.filter (ahead lists core x)).card + 1 := by
    refine (Finset.card_le_card fun y hy => ?_).trans (Finset.card_insert_le slot (Finset.univ.filter (ahead lists core x)))
    rw [Finset.mem_insert,Finset.mem_filter]
    rw [Finset.mem_filter] at hy
    exact (hsub y hy.2).symm.imp_right fun hy => ⟨Finset.mem_univ y,hy⟩
  by_cases h' : yielded lists' core x
  · rw [if_pos h',if_pos (hyield h')]
    omega
  · rw [if_neg h']
    omega

/-- A task that was ahead no longer is. -/
theorem budget_lt (hyield : yielded lists' core x → yielded lists core x) (hslot : ahead lists core x slot)
    (hsub : ∀ y, ahead lists' core x y → ahead lists core x y ∧ y ≠ slot) : 1 + budget lists' core x n ≤ budget lists core x n := by
  classical
  rw [budget,budget]
  have hcard : (Finset.univ.filter (ahead lists' core x)).card < (Finset.univ.filter (ahead lists core x)).card := by
    refine Finset.card_lt_card (Finset.ssubset_iff.mpr ⟨slot,?_,fun y hy => ?_⟩)
    · rw [Finset.mem_filter]
      exact fun hs => (hsub slot hs.2).2 rfl
    · rw [Finset.mem_insert,Finset.mem_filter] at hy
      rw [Finset.mem_filter]
      rcases hy with rfl | ⟨hy,hah⟩
      · exact ⟨Finset.mem_univ _,hslot⟩
      · exact ⟨hy,(hsub y hah).1⟩
  by_cases h' : yielded lists' core x
  · rw [if_pos h',if_pos (hyield h')]
    omega
  · rw [if_neg h']
    omega

end Ahead

instance : DecidableEq TaskSlotQueueTable := fun a b =>
  decidable_of_iff (a.queues = b.queues ∧ a.nonEmptyLevels = b.nonEmptyLevels) (by cases a; cases b; simp)

instance : DecidableEq CoreRunQueue := fun a b =>
  decidable_of_iff (a.executingTasks = b.executingTasks ∧ a.yieldingTasks = b.yieldingTasks ∧ a.sleepingTasks = b.sleepingTasks)
    (by cases a; cases b; simp)

instance : DecidableEq QueueSystem := fun a b =>
  decidable_of_iff (a.tasks = b.tasks ∧ a.next = b.next ∧ a.runQueues = b.runQueues ∧ a.running = b.running)
    (by cases a; cases b; simp)

namespace QueueSystem
variable {s t : QueueSystem} {lists : Place → List Slot} {core : Core} {bank : RequeueType} {slot x : Slot} {n : Nat} {a : QueueAct}

/-- The tasks of a core: the queued ones, the one that runs there and the blocked ones it wakes. -/
def tasksOn (s : QueueSystem) (core : Core) : Nat :=
  tally (fun task : TaskSlot => task.state ≠ .free && task.homeCore = core) s.tasks

/-- The task stays in the run queue of a core with n tasks at most. -/
def Waits (core : Core) (x : Slot) (n : Nat) (s : QueueSystem) : Prop :=
  (s.runQueues core).contains s.next x = .ok true ∧ s.tasksOn core ≤ n

/-- The step calls pick_next_task on the core, which returns another task. -/
def picksOther (core : Core) (x : Slot) : QueueAct → QueueSystem → Bool
  | .pick core',s => core' = core && match (s.runQueues core).pickNextTask s.next with
    | .ok (some slot,_) => slot ≠ x
    | _ => false
  | _,_ => false

/-- The queue a step pushes a task to, and the priority of that task. -/
def pushes : QueueAct → QueueSystem → Option (Core × RequeueType × Nat)
  | .create core _ priority,_ => some (core,.executingTasks,priority)
  | .wake slot,s => some ((s.tasks slot).homeCore,.executingTasks,(s.tasks slot).priority)
  | .requeue core bank,s => (s.running core).map fun slot => (core,bank,(s.tasks slot).priority)
  | .steal core coreFrom onCpu,s => match (s.runQueues coreFrom).takeStealableTask s.next onCpu with
    | .ok (some slot,_) => some (core,.executingTasks,(s.tasks slot).priority)
    | _ => none
  | _,_ => none

/-- The step pushes a task to the executing tasks of the core, while x is one of its yielding tasks or of lower priority. -/
def entersAhead (core : Core) (x : Slot) (a : QueueAct) (s : QueueSystem) : Bool :=
  match pushes a s with
  | some (core',.executingTasks,priority) => core' = core &&
    ((s.tasks x).priority < priority || (s.runQueues core).yieldingTasks.contains s.next x matches .ok true)
  | _ => false

theorem Ok.card_le (h : Ok s lists) {A : Finset Slot} (hA : ∀ y ∈ A, onCore lists core y) : A.card ≤ s.tasksOn core := by
  rw [tasksOn,tally_eq_card]
  refine Finset.card_le_card fun y hy => ?_
  have hready : (s.tasks y).state = .ready := (h.agrees.ready y).mpr ⟨core,hA y hy⟩
  simp [hready,h.agrees.home core y (hA y hy)]

theorem Ok.onCore_of_waits (h : Ok s lists) (hwait : Waits core x n s) : onCore lists core x :=
  (h.agrees.rep.contains_iff core x).mp hwait.1

theorem Ok.budget_le (h : Ok s lists) (hwait : Waits core x n s) : budget lists core x n ≤ 2 * (n - 1) := by
  classical
  have hn := hwait.2
  have hself : x ∉ Finset.univ.filter (ahead lists core x) := by
    rw [Finset.mem_filter]
    exact fun hx => not_ahead_self h.agrees.rep hx.2
  have hcard : (insert x (Finset.univ.filter (ahead lists core x))).card ≤ s.tasksOn core := by
    refine h.card_le fun y hy => ?_
    rw [Finset.mem_insert,Finset.mem_filter] at hy
    rcases hy with rfl | ⟨_,hy⟩
    · exact h.onCore_of_waits hwait
    · exact hy.onCore_right
  rw [Finset.card_insert_of_notMem hself] at hcard
  rw [budget]
  split_ifs <;> omega

/-- A push pays for the task it puts ahead. The lists may have lost elements before. -/
theorem Ok.budget_push {lists' : Place → List Slot} {core' : Core} {level : Level} (h : Ok s lists)
    (hsub : ∀ place, (lists' place).Sublist (lists place)) (hx : onCore lists' core x) (hnot : ∀ place, slot ∉ lists' place)
    (hpush : pushes a s = some (core',bank,level.val)) :
    budget (Function.update lists' (core',bank,level) (lists' (core',bank,level) ++ [slot])) core x n ≤
      budget lists core x n + (entersAhead core x a s).toNat := by
  have hyield : yielded (Function.update lists' (core',bank,level) (lists' (core',bank,level) ++ [slot])) core x →
      yielded lists core x := fun ⟨p,hp⟩ => ⟨p,(hsub _).subset (mem_of_mem_push hx hnot hp)⟩
  cases hahead : entersAhead core x a s with
  | true =>
    refine budget_le_succ slot hyield fun y hy => ?_
    exact (ahead_push hx hnot hy).imp (ahead.mono hsub) And.left
  | false =>
    refine Process.budget_le hyield fun y hy => ?_
    rcases ahead_push hx hnot hy with hy | ⟨_,rfl,rfl,hbehind⟩
    · exact hy.mono hsub
    · simp only [entersAhead,hpush,decide_true,Bool.true_and,Bool.or_eq_false_iff,decide_eq_false_iff_not] at hahead
      rcases hbehind with ⟨p,hp⟩ | ⟨p,hp,hmem⟩
      · have hcontains : (s.runQueues core').yieldingTasks.contains s.next x = _ :=
          h.agrees.rep.contains_table core' .yieldingTasks x
        rw [decide_eq_true ⟨p,(hsub _).subset hp⟩] at hcontains
        simp [hcontains] at hahead
      · rw [h.level core' _ p x ((hsub _).subset hmem)] at hahead
        exact absurd hp hahead.1

/-- A task that is not queued is pushed. -/
theorem Ok.budget_enqueue {s' : QueueSystem} {core' : Core} {task : TaskSlot} (h : Ok s lists) (h' : Ok s' lists)
    (hready : (s'.tasks slot).state ≠ .ready) (hrunning : ∀ core, s'.running core ≠ some slot)
    (hpush : pushes a s = some (core',bank,task.priority)) (ht : s'.enqueue core' bank slot task = .ok t) :
    ∃ lists', Ok t lists' ∧ ∀ core x n, Waits core x n s →
      budget lists' core x n ≤ budget lists core x n + (entersAhead core x a s).toNat := by
  obtain ⟨level,hlevel,hnot,hok⟩ := h'.enqueue hready hrunning ht
  rw [← hlevel] at hpush
  exact ⟨_,hok,fun core x n hwait => h.budget_push (fun _ => .refl _) (h.onCore_of_waits hwait) hnot hpush⟩

/-- The oldest task of the highest level is ahead of every other one of its core. -/
theorem budget_pick_executing {level : Level} {rest : List Slot} (hx : onCore lists core x)
    (hlist : lists (core,.executingTasks,level) = slot :: rest)
    (hhigh : ∀ q : Level, level < q → lists (core,.executingTasks,q) = []) (hne : x ≠ slot)
    (hon : ∀ y, onCore (Function.update lists (core,.executingTasks,level) rest) core y → onCore lists core y ∧ y ≠ slot) :
    1 + budget (Function.update lists (core,.executingTasks,level) rest) core x n ≤ budget lists core x n := by
  have hsub : ∀ place, (Function.update lists (core,.executingTasks,level) rest place).Sublist (lists place) := by
    intro place
    by_cases hp : place = (core,.executingTasks,level)
    · rw [hp,Function.update_self,hlist]
      exact List.sublist_cons_self ..
    · rw [Function.update_of_ne hp]
  have hslot : slot ∈ lists (core,.executingTasks,level) := by
    rw [hlist]
    exact List.mem_cons_self
  refine budget_lt (fun ⟨p,hp⟩ => ⟨p,(hsub _).subset hp⟩) ?_ fun y hy => ⟨hy.mono hsub,(hon y hy.onCore_right).2⟩
  obtain ⟨bank,p,hx⟩ := hx
  cases bank with
  | yieldingTasks => exact .inl ⟨⟨p,hx⟩,level,hslot⟩
  | executingTasks =>
    rcases lt_trichotomy p level with hp | rfl | hp
    · exact .inr (.inr ⟨p,level,hp,hx,hslot⟩)
    · refine .inr (.inl ⟨p,?_⟩)
      rw [hlist] at hx ⊢
      exact (List.singleton_sublist.mpr ((List.mem_cons.mp hx).resolve_left hne)).cons_cons slot
    · rw [hhigh p hp] at hx
      cases hx

/-- Behind a change of the tables the other tasks of the core are ahead at most, and one of them is picked. -/
theorem Ok.budget_pick_turned {level : Level} {rest : List Slot} (h : Ok s lists) (hn : s.tasksOn core ≤ n) (hx : onCore lists core x)
    (hempty : ∀ q, lists (core,.executingTasks,q) = [])
    (hlist : lists (RunQueuesOk.turnedPlace core (core,.executingTasks,level)) = slot :: rest)
    (hok : Ok t (Function.update (fun place => lists (RunQueuesOk.turnedPlace core place)) (core,.executingTasks,level) rest))
    (hne : x ≠ slot) (hon : ∀ y, onCore (Function.update (fun place => lists (RunQueuesOk.turnedPlace core place))
      (core,.executingTasks,level) rest) core y → onCore lists core y ∧ y ≠ slot) :
    1 + budget (Function.update (fun place => lists (RunQueuesOk.turnedPlace core place)) (core,.executingTasks,level) rest) core x n ≤
      budget lists core x n := by
  classical
  generalize hlists' : Function.update (fun place => lists (RunQueuesOk.turnedPlace core place)) (core,.executingTasks,level) rest =
    lists' at hok hon ⊢
  have hyield : yielded lists core x := by
    obtain ⟨bank,p,hx⟩ := hx
    cases bank with
    | yieldingTasks => exact ⟨p,hx⟩
    | executingTasks =>
      rw [hempty] at hx
      cases hx
  have hyield' : ¬yielded lists' core x := by
    rintro ⟨p,hp⟩
    rw [← hlists',Function.update_of_ne (by simp)] at hp
    simp [RunQueuesOk.turnedPlace,hempty] at hp
  have hslot : onCore lists core slot := by
    refine ⟨(RunQueuesOk.turnedPlace core (core,.executingTasks,level)).2.1,level,?_⟩
    simp only [RunQueuesOk.turnedPlace,if_true] at hlist ⊢
    rw [hlist]
    exact List.mem_cons_self
  have hxself : x ∉ Finset.univ.filter (ahead lists' core x) := by
    rw [Finset.mem_filter]
    exact fun hx => not_ahead_self hok.agrees.rep hx.2
  have hslotself : slot ∉ insert x (Finset.univ.filter (ahead lists' core x)) := by
    rw [Finset.mem_insert,Finset.mem_filter]
    rintro (e | ⟨_,hs⟩)
    · exact hne e.symm
    · exact (hon slot hs.onCore_right).2 rfl
  have hcard : (insert slot (insert x (Finset.univ.filter (ahead lists' core x)))).card ≤ s.tasksOn core := by
    refine h.card_le fun y hy => ?_
    rw [Finset.mem_insert,Finset.mem_insert,Finset.mem_filter] at hy
    rcases hy with rfl | rfl | ⟨_,hy⟩
    · exact hslot
    · exact hx
    · exact (hon y hy.onCore_right).1
  rw [Finset.card_insert_of_notMem hslotself,Finset.card_insert_of_notMem hxself] at hcard
  rw [budget,budget,if_pos hyield,if_neg hyield']
  omega

theorem Ok.budget_pick {core' : Core} (h : Ok s lists) (ht : s.pickAndRun core' = .ok t) :
    ∃ lists', Ok t lists' ∧ ∀ core x n, Waits core x n s →
      (picksOther core x (.pick core') s).toNat + budget lists' core x n ≤ budget lists core x n := by
  rcases h.pickAndRun ht with ⟨queue',hpick,hok⟩ | ⟨slot,level,rest,queue',lists',hpick,hlists,hlist,hhigh,hok⟩
  · refine ⟨lists,hok,fun core x n _ => ?_⟩
    have hother : picksOther core x (.pick core') s = false := by
      rw [picksOther,Bool.and_eq_false_imp]
      intro hc
      rw [← of_decide_eq_true hc,hpick]
    rw [hother,Bool.toNat_false,Nat.zero_add]
  refine ⟨_,hok,fun core x n hwait => ?_⟩
  by_cases hc : core' = core
  · subst hc
    have hon := fun y => (h.agrees.rep.onCore_picked hlists hlist core' y).2
    by_cases hxs : slot = x
    · rw [budget_eq_zero fun hx' => ((hon x).mp hx').2 hxs.symm]
      simp [picksOther,hpick,hxs]
    · have htakes : picksOther core' x (.pick core') s = true := by simp [picksOther,hpick,hxs]
      have hx := h.onCore_of_waits hwait
      rw [htakes,Bool.toNat_true]
      rcases hlists with rfl | ⟨hempty,rfl⟩
      · exact budget_pick_executing hx hlist hhigh (Ne.symm hxs) fun y => (hon y).mp
      · exact h.budget_pick_turned hwait.2 hx hempty hlist hok (Ne.symm hxs) fun y => (hon y).mp
  · have hother : picksOther core x (.pick core') s = false := by simp [picksOther,hc]
    rw [hother,Bool.toNat_false,Nat.zero_add]
    refine budget_congr fun bank level => ?_
    rw [Function.update_of_ne (by simp [Ne.symm hc])]
    rcases hlists with rfl | ⟨_,rfl⟩
    · rfl
    · simp [RunQueuesOk.turnedPlace,Ne.symm hc]

theorem Ok.budget_steal {core' coreFrom : Core} {onCpu : Slot → Bool} (h : Ok s lists)
    (hne : coreFrom ≠ core') (ht : s.stealTask core' coreFrom onCpu = .ok t) :
    ∃ lists', Ok t lists' ∧ ∀ core x n, Waits core x n s →
      budget lists' core x n ≤ budget lists core x n + (entersAhead core x (.steal core' coreFrom onCpu) s).toNat := by
  rcases h.stealTask ht with rfl | ⟨slot,from',level,target,found,hmem,htake,htarget,hnot,hok⟩
  · exact ⟨lists,h,fun _ _ _ _ => Nat.le_add_right _ _⟩
  · refine ⟨_,hok,fun core x n hwait => ?_⟩
    have hx := h.onCore_of_waits hwait
    have hpush : pushes (.steal core' coreFrom onCpu) s = some (core',.executingTasks,target.val) := by
      rw [pushes,htake,htarget]
    have hon : ∀ core x, onCore _ core x ↔ _ := fun core x => onCore_erase h.agrees.rep hmem
    by_cases hxs : x = slot
    · subst hxs
      have hcore : core = coreFrom := by
        obtain ⟨bank,level,hx⟩ := hx
        exact congrArg Prod.fst (h.agrees.rep.threads.disjoint _ _ x hx hmem)
      rw [budget_eq_zero]
      · exact Nat.zero_le _
      · rw [onCore_push,hon]
        rintro (⟨_,hne⟩ | ⟨e,_⟩)
        · exact hne rfl
        · exact hne (hcore.symm.trans e)
    · refine h.budget_push (fun place => ?_) ((hon core x).mpr ⟨hx,hxs⟩) hnot hpush
      by_cases hp : place = (coreFrom,from',level)
      · rw [hp,Function.update_self]
        exact List.erase_sublist
      · rw [Function.update_of_ne hp]

/-- A step takes from the budget when another task is picked, and pays into it when one is put ahead. -/
theorem Ok.budget_step (h : Ok s lists) (ht : step a s = some t) :
    ∃ lists', Ok t lists' ∧ ∀ core x n, Waits core x n s →
      (picksOther core x a s).toNat + budget lists' core x n ≤ budget lists core x n + (entersAhead core x a s).toNat := by
  have hnone : ∀ {slot}, (s.tasks slot).state ≠ .running → ∀ core, s.running core ≠ some slot := fun hs core hr =>
    hs (h.running core _ hr).1
  cases a with
  | create core' slot priority =>
    rw [step] at ht
    split_ifs at ht with hfree
    simp only [picksOther,Bool.toNat_false,Nat.zero_add]
    exact h.budget_enqueue h (by rw [hfree]; simp) (hnone (by rw [hfree]; simp)) rfl (of_toOption ht)
  | wake slot =>
    rw [step] at ht
    split_ifs at ht with hblocked
    simp only [picksOther,Bool.toNat_false,Nat.zero_add]
    exact h.budget_enqueue h (by rw [hblocked]; simp) (hnone (by rw [hblocked]; simp)) rfl (of_toOption ht)
  | pick core' =>
    rw [step] at ht
    split_ifs at ht
    obtain ⟨lists',hok,hle⟩ := h.budget_pick (of_toOption ht)
    exact ⟨lists',hok,fun core x n hwait => (hle core x n hwait).trans (Nat.le_add_right _ _)⟩
  | requeue core' bank =>
    obtain ⟨slot,hslot,ht⟩ := Option.bind_eq_some_iff.mp ht
    obtain ⟨hs,hgone⟩ := h.release hslot
    simp only [picksOther,Bool.toNat_false,Nat.zero_add]
    refine h.budget_enqueue hs ?_ hgone ?_ (of_toOption ht)
    · rw [(h.running core' slot hslot).1]
      simp
    · rw [pushes,hslot]
      rfl
  | block core' | exit core' =>
    obtain ⟨slot,hslot,rfl⟩ := Option.map_eq_some_iff.mp ht
    refine ⟨lists,h.leaveCpu hslot (by simp),fun core x n _ => ?_⟩
    simp only [picksOther,Bool.toNat_false,Nat.zero_add]
    exact Nat.le_add_right _ _
  | steal core' coreFrom onCpu =>
    rw [step] at ht
    split_ifs at ht with hne
    simp only [picksOther,Bool.toNat_false,Nat.zero_add]
    exact h.budget_steal hne (of_toOption ht)

theorem Ok.run {acts : List QueueAct} (hrun : steps step acts {} = some s) : ∃ lists, Ok s lists := by
  have hstep : ∀ a s t, (∃ lists, Ok s lists) → step a s = some t → ∃ lists, Ok t lists := by
    rintro a s t ⟨lists,h⟩ ht
    obtain ⟨lists',hok,_⟩ := h.budget_step ht
    exact ⟨lists',hok⟩
  exact steps_keep (I := fun s => ∃ lists, Ok s lists) hstep ⟨_,Ok.start⟩ hrun

/-- The task may have to wait for b picks of other tasks. -/
def Owes (core : Core) (x : Slot) (n : Nat) (s : QueueSystem) (b : Nat) : Prop := ∃ lists, Ok s lists ∧ budget lists core x n = b

/-- A task that stays queued sees two picks at most for each other task of its core, and one for each task put ahead of it. -/
theorem run_picks_bounded {before acts : List QueueAct} (entries : Nat → Nat) (hrun : steps step before {} = some s)
    (hwait : stepsMeet step (fun _ => Waits core x n) acts s)
    (hahead : stepsCount step (entersAhead core x) acts s ≤ entries n) :
    stepsCount step (picksOther core x) acts s ≤ 2 * (n - 1) + entries n := by
  obtain ⟨lists,h⟩ := Ok.run hrun
  have hstep : ∀ a s t b, Waits core x n s → Owes core x n s b → step a s = some t →
      ∃ b', Owes core x n t b' ∧ (picksOther core x a s).toNat + b' ≤ b + (entersAhead core x a s).toNat := by
    rintro a s t b hwait ⟨lists,h,rfl⟩ ht
    obtain ⟨lists',hok,hle⟩ := h.budget_step ht
    exact ⟨_,⟨lists',hok,rfl⟩,hle core x n hwait⟩
  cases acts with
  | nil => exact Nat.zero_le _
  | cons a acts =>
    have hcount := stepsCount_le hstep hwait ⟨lists,h,rfl⟩
    have hstart := h.budget_le hwait.1
    omega

def waitsCheck (core : Core) (x : Slot) (n : Nat) (s : QueueSystem) : Bool :=
  ((s.runQueues core).contains s.next x matches .ok true) && s.tasksOn core ≤ n

theorem Waits.of_check (h : waitsCheck core x n s = true) : Waits core x n s := by
  rw [waitsCheck,Bool.and_eq_true,decide_eq_true_eq] at h
  refine ⟨?_,h.2⟩
  have hcontains := h.1
  split at hcontains
  · assumption
  · cases hcontains

def threeTasks : List QueueAct := [.create 0 0 1,.create 0 1 5,.create 0 2 5]

/-- The tasks of slots 1 and 2 use up a slice each, and are behind slot 0 from then on. -/
def epoch : List QueueAct := [.pick 0,.requeue 0 .yieldingTasks,.pick 0,.requeue 0 .yieldingTasks,.pick 0]

theorem run_picks_bounded_epoch : ∃ s, steps step threeTasks {} = some s ∧ stepsCount step (picksOther 0 0) epoch s = 2 ∧
    stepsCount step (picksOther 0 0) epoch s ≤ 2 * (3 - 1) + 0 := by
  have hview : (steps step threeTasks {}).map (fun s => (stepsCount step (picksOther 0 0) epoch s,
      stepsCount step (entersAhead 0 0) epoch s,stepsCheck step (fun _ => waitsCheck 0 0 3) epoch s)) = some (2,0,true) := by
    decide +kernel
  obtain ⟨s,hs,hview⟩ := Option.map_eq_some_iff.mp hview
  obtain ⟨hpicks,hahead,hwait⟩ : _ ∧ _ ∧ _ := by simpa only [Prod.mk.injEq] using hview
  refine ⟨s,hs,hpicks,run_picks_bounded (fun _ => 0) hs ?_ hahead.le⟩
  exact stepsMeet_of_check (fun _ => waitsCheck 0 0 3) (fun _ _ => Waits.of_check) hwait

/-- The task that runs wakes the other one of its priority and blocks. -/
def pingPong : List QueueAct := [.wake 1,.block 0,.pick 0,.wake 2,.block 0,.pick 0]

/-- Two tasks that wake each other keep a task of lower priority from the core as long as they like. -/
theorem picks_unbounded : ¬∃ bound : Nat → Nat, ∀ (before acts : List QueueAct) (s : QueueSystem) (core : Core) (x : Slot) (n : Nat),
    steps step before {} = some s → stepsMeet step (fun _ => Waits core x n) acts s →
      stepsCount step (picksOther core x) acts s ≤ bound n := by
  rintro ⟨bound,hbound⟩
  have hview : (steps step (threeTasks ++ [.pick 0,.block 0,.pick 0] ++ pingPong) {}).map (fun s =>
      (decide (steps step pingPong s = some s),stepsCount step (picksOther 0 0) pingPong s,
        stepsCheck step (fun _ => waitsCheck 0 0 3) pingPong s)) = some (true,2,true) := by decide +kernel
  obtain ⟨s,hs,hview⟩ := Option.map_eq_some_iff.mp hview
  obtain ⟨hloop,hpicks,hwait⟩ : _ ∧ _ ∧ _ := by simpa only [Prod.mk.injEq,decide_eq_true_eq] using hview
  have hmeet := stepsMeet_replicate (bound 3 + 1) hloop
    (stepsMeet_of_check (fun _ => waitsCheck 0 0 3) (fun _ _ => Waits.of_check) hwait)
  have hle := hbound _ _ s 0 0 3 hs hmeet
  rw [stepsCount_replicate _ hloop,hpicks] at hle
  omega

end QueueSystem
end MofuOS.Process
