import MofuOS.Process.RunQueueSpec
import Mathlib.Data.Fintype.Prod
import Mathlib.Data.Fintype.Sum

/-! Any number of slot queues and of priority tables over the links of the task slots they share, and the lists
that they stand for. -/
namespace MofuOS.Process
open Lib

/-- Queues of type κ, and tables of type τ with a queue for each level. -/
structure SharedQueues (κ τ : Type) where
  next : Links := fun _ => none
  queues : κ → SlotQueue := fun _ => {}
  tables : τ → TaskSlotQueueTable := fun _ => {}

inductive QueueCall (κ τ : Type) where
  | pushBack (queue : κ) (slot : Slot)
  | popFront (queue : κ)
  | removeFirstWhere (queue : κ) (accepts : Slot → Bool)
  | push (table : τ) (slot : Slot) (priority : Nat)
  | popHighestPrioOldestTask (table : τ)
  | takeTaskNotCurrentlyOnCpu (table : τ) (onCpu : Slot → Bool)

/-- A queue by itself, or a level of a table. -/
abbrev QueueName (κ τ : Type) := κ ⊕ τ × Level

abbrev QueueLists (κ τ : Type) := QueueName κ τ → List Slot

variable {κ τ : Type} [DecidableEq κ] [DecidableEq τ]

/-- A call, and the slot that it returns. -/
def SharedQueues.call (s : SharedQueues κ τ) : QueueCall κ τ → Outcome (Option Slot × SharedQueues κ τ)
  | .pushBack queue slot =>
    let (next,queue') := (s.queues queue).pushBack s.next slot
    .ok (none,{ s with next, queues := Function.update s.queues queue queue' })
  | .popFront queue => do
    let (slot,queue') ← (s.queues queue).popFront s.next
    .ok (some slot,{ s with queues := Function.update s.queues queue queue' })
  | .removeFirstWhere queue accepts => do
    let (slot,next,queue') ← (s.queues queue).removeFirstWhere s.next accepts
    .ok (slot,{ s with next, queues := Function.update s.queues queue queue' })
  | .push table slot priority => do
    let (next,table') ← (s.tables table).push s.next slot priority
    .ok (none,{ s with next, tables := Function.update s.tables table table' })
  | .popHighestPrioOldestTask table => do
    let (slot,table') ← (s.tables table).popHighestPrioOldestTask s.next
    .ok (some slot,{ s with tables := Function.update s.tables table table' })
  | .takeTaskNotCurrentlyOnCpu table onCpu => do
    let (slot,next,table') ← (s.tables table).takeTaskNotCurrentlyOnCpu s.next onCpu
    .ok (slot,{ s with next, tables := Function.update s.tables table table' })

/-- The calls one after the other, and the slots that they return. -/
def SharedQueues.calls : List (QueueCall κ τ) → SharedQueues κ τ → Outcome (List (Option Slot) × SharedQueues κ τ)
  | [],s => .ok ([],s)
  | c :: cs,s => do
    let (slot,s) ← s.call c
    let (slots,s) ← SharedQueues.calls cs s
    .ok (slot :: slots,s)

namespace QueueLists

/-- The levels from the highest down. -/
def levelsDown : List Level := (List.finRange priorityLevelCount).reverse

def highestLevel (table : τ) (lists : QueueLists κ τ) : Option Level :=
  levelsDown.find? fun level => !(lists (.inr (table,level))).isEmpty

/-- The oldest task off the processors at the highest level that has one. -/
def oldestOffCpu (table : τ) (onCpu : Slot → Bool) (levels : List Level) (lists : QueueLists κ τ) : Option (Level × Slot) :=
  levels.findSome? fun level => ((lists (.inr (table,level))).find? (!onCpu ·)).map (level,·)

/-- The first element of a list goes, if there is one. -/
def takeHead (queue : QueueName κ τ) (lists : QueueLists κ τ) : Outcome (Option Slot × QueueLists κ τ) :=
  match lists queue with
  | [] => .error .panic
  | slot :: rest => .ok (some slot,Function.update lists queue rest)

/-- What a call does to the lists. -/
def call (lists : QueueLists κ τ) : QueueCall κ τ → Outcome (Option Slot × QueueLists κ τ)
  | .pushBack queue slot => .ok (none,Function.update lists (.inl queue) (lists (.inl queue) ++ [slot]))
  | .popFront queue => takeHead (.inl queue) lists
  | .removeFirstWhere queue accepts =>
    .ok ((lists (.inl queue)).find? accepts,Function.update lists (.inl queue) ((lists (.inl queue)).eraseP accepts))
  | .push table slot priority =>
    if h : priority < priorityLevelCount then
      .ok (none,Function.update lists (.inr (table,⟨priority,h⟩)) (lists (.inr (table,⟨priority,h⟩)) ++ [slot]))
    else .error .panic
  | .popHighestPrioOldestTask table =>
    match lists.highestLevel table with
    | none => .error .panic
    | some level => takeHead (.inr (table,level)) lists
  | .takeTaskNotCurrentlyOnCpu table onCpu =>
    match lists.oldestOffCpu table onCpu levelsDown with
    | none => .ok (none,lists)
    | some (level,slot) =>
      .ok (some slot,Function.update lists (.inr (table,level)) ((lists (.inr (table,level))).eraseP (!onCpu ·)))

def calls : List (QueueCall κ τ) → QueueLists κ τ → Outcome (List (Option Slot) × QueueLists κ τ)
  | [],lists => .ok ([],lists)
  | c :: cs,lists => do
    let (slot,lists) ← lists.call c
    let (slots,lists) ← calls cs lists
    .ok (slot :: slots,lists)

/-- A slot is pushed only while it is in no queue. -/
def Fresh (lists : QueueLists κ τ) : QueueCall κ τ → Prop
  | .pushBack _ slot | .push _ slot _ => ∀ queue, slot ∉ lists queue
  | _ => True

def AllFresh : List (QueueCall κ τ) → QueueLists κ τ → Prop
  | [],_ => True
  | c :: cs,lists => lists.Fresh c ∧ ∀ slot lists', lists.call c = .ok (slot,lists') → AllFresh cs lists'

end QueueLists

namespace SharedQueues

def queueNamed (s : SharedQueues κ τ) : QueueName κ τ → SlotQueue
  | .inl queue => s.queues queue
  | .inr (table,level) => (s.tables table).queues level

/-- The queues stand for the lists, and the bits of a table for its levels that have a task. -/
structure StandsFor (s : SharedQueues κ τ) (lists : QueueLists κ τ) : Prop where
  threads : Threads s.next (fun name => (s.queueNamed name).head) (fun name => (s.queueNamed name).tail) lists
  bits : ∀ table (level : Level), (s.tables table).nonEmptyLevels.getLsbD level = true ↔ lists (.inr (table,level)) ≠ []

namespace StandsFor
variable {s : SharedQueues κ τ} {lists : QueueLists κ τ} {queue' : SlotQueue} {next' : Links} {l : List Slot} {slot : Slot}

omit [DecidableEq κ] [DecidableEq τ] in
theorem new : StandsFor ({} : SharedQueues κ τ) fun _ => [] := by
  refine ⟨⟨fun name => ?_,fun _ _ _ hx => nomatch hx⟩,fun table level => by simp⟩
  cases name <;> exact Threaded.nil _

/-- A queue by itself is replaced. -/
theorem setQueue {queue : κ} (h : s.StandsFor lists) (hthread : Threaded next' queue'.head queue'.tail l)
    (hlink : ∀ name, name ≠ .inl queue → ∀ x ∈ lists name, next' x = s.next x)
    (hl : ∀ name, name ≠ .inl queue → ∀ x ∈ lists name, x ∉ l) :
    StandsFor { s with next := next', queues := Function.update s.queues queue queue' } (Function.update lists (.inl queue) l) := by
  have hother : ∀ name, name ≠ .inl queue →
      queueNamed { s with next := next', queues := Function.update s.queues queue queue' } name = s.queueNamed name := by
    rintro (other | ⟨table,level⟩) hname
    · exact Function.update_of_ne (fun heq => hname (by rw [heq])) ..
    · rfl
  refine ⟨h.threads.set ?_ (fun j hj => by rw [hother j hj]) (fun j hj => by rw [hother j hj]) hlink hl,fun table level => ?_⟩
  · simp only [queueNamed,Function.update_self]
    exact hthread
  · rw [Function.update_of_ne (by simp)]
    exact h.bits table level

/-- The queue of a level is replaced, and its bit says whether it is empty. -/
theorem setLevel {table : τ} {level : Level} {levels : BitVec 8} (h : s.StandsFor lists)
    (hthread : Threaded next' queue'.head queue'.tail l)
    (hlink : ∀ name, name ≠ .inr (table,level) → ∀ x ∈ lists name, next' x = s.next x)
    (hl : ∀ name, name ≠ .inr (table,level) → ∀ x ∈ lists name, x ∉ l) (hself : levels.getLsbD level = true ↔ l ≠ [])
    (hother : ∀ q : Level, q ≠ level → levels.getLsbD q = (s.tables table).nonEmptyLevels.getLsbD q) :
    StandsFor { s with next := next', tables := Function.update s.tables table ((s.tables table).setQueue level queue' levels) }
      (Function.update lists (.inr (table,level)) l) := by
  have hname : ∀ name, name ≠ .inr (table,level) → queueNamed { s with
      next := next'
      tables := Function.update s.tables table ((s.tables table).setQueue level queue' levels) } name = s.queueNamed name := by
    rintro (queue | ⟨table',level'⟩) hne
    · rfl
    by_cases htable : table' = table
    · subst htable
      simp only [queueNamed,Function.update_self,TaskSlotQueueTable.setQueue]
      exact Function.update_of_ne (fun heq => hne (by rw [heq])) ..
    · simp only [queueNamed,Function.update_of_ne htable]
  refine ⟨h.threads.set ?_ (fun j hj => by rw [hname j hj]) (fun j hj => by rw [hname j hj]) hlink hl,fun table' level' => ?_⟩
  · simp only [queueNamed,Function.update_self,TaskSlotQueueTable.setQueue]
    exact hthread
  by_cases htable : table' = table
  · subst htable
    simp only [Function.update_self,TaskSlotQueueTable.setQueue]
    by_cases hlevel : level' = level
    · rw [hlevel,Function.update_self]
      exact hself
    · rw [Function.update_of_ne (by simp [hlevel]),hother level' hlevel]
      exact h.bits table' level'
  · dsimp only
    rw [Function.update_of_ne htable,Function.update_of_ne (by simp [htable])]
    exact h.bits table' level'

/-- The bit of a level after its queue has lost elements. -/
theorem shrink {table : τ} {level : Level} (h : s.StandsFor lists) (hthread : Threaded next' queue'.head queue'.tail l)
    (hsub : l ⊆ lists (.inr (table,level))) (hne : lists (.inr (table,level)) ≠ [])
    (hframe : ∀ x, x ∉ lists (.inr (table,level)) → next' x = s.next x) :
    StandsFor { s with next := next', tables := Function.update s.tables table ((s.tables table).shrink level queue') }
      (Function.update lists (.inr (table,level)) l) := by
  have hbit := (h.bits table level).mpr hne
  refine h.setLevel hthread (fun j hj x hx => hframe x fun hxl => hj (h.threads.disjoint j _ x hx hxl))
    (fun j hj x hx hxl => hj (h.threads.disjoint j _ x hx (hsub hxl))) ?_ fun q hq => ?_
  · split_ifs with hhead
    · rw [getLsbD_clearLevel]
      simp [hthread.head_none.mp hhead]
    · rw [hbit]
      exact ⟨fun _ e => hhead (hthread.head_none.mpr e),fun _ => rfl⟩
  · split_ifs
    · rw [getLsbD_clearLevel]
      simp [Ne.symm hq]
    · rfl

/-- A call on the queues and the same call on the lists. -/
def SameOutcome (r : Outcome (Option Slot × SharedQueues κ τ)) (r' : Outcome (Option Slot × QueueLists κ τ)) : Prop :=
  (∃ slot s lists, r = .ok (slot,s) ∧ r' = .ok (slot,lists) ∧ s.StandsFor lists) ∨ r = .error .panic ∧ r' = .error .panic

private theorem pushBack (h : s.StandsFor lists) (queue : κ) (hslot : ∀ name, slot ∉ lists name) :
    SameOutcome (s.call (.pushBack queue slot)) (lists.call (.pushBack queue slot)) := by
  have hthread : Threaded s.next (s.queues queue).head (s.queues queue).tail (lists (.inl queue)) := h.threads.threaded (.inl queue)
  obtain ⟨hpush,hframe⟩ := SlotQueue.pushBack_spec hthread (hslot (.inl queue))
  refine .inl ⟨none,_,_,rfl,rfl,h.setQueue hpush (fun j hj x hx => ?_) fun j hj x hx hxl => ?_⟩
  · exact hframe x (fun e => hslot j (e ▸ hx)) fun hxl => hj (h.threads.disjoint j _ x hx hxl)
  · obtain hxl | hxl := List.mem_append.mp hxl
    · exact hj (h.threads.disjoint j _ x hx hxl)
    · exact hslot j (List.mem_singleton.mp hxl ▸ hx)

private theorem popFront (h : s.StandsFor lists) (queue : κ) :
    SameOutcome (s.call (.popFront queue)) (lists.call (.popFront queue)) := by
  have hthread : Threaded s.next (s.queues queue).head (s.queues queue).tail (lists (.inl queue)) := h.threads.threaded (.inl queue)
  rw [SharedQueues.call,QueueLists.call,QueueLists.takeHead]
  cases hlist : lists (.inl queue) with
  | nil =>
    rw [hlist] at hthread
    have hhead : (s.queues queue).head = none := hthread.head_eq
    refine .inr ⟨?_,rfl⟩
    rw [SlotQueue.popFront,hhead]
    rfl
  | cons slot rest =>
    rw [hlist] at hthread
    obtain ⟨queue',hpop,hrest⟩ := SlotQueue.popFront_spec hthread
    refine .inl ⟨some slot,_,_,by rw [hpop]; rfl,rfl,h.setQueue hrest (fun _ _ _ _ => rfl) fun j hj x hx hxl => hj ?_⟩
    exact h.threads.disjoint j _ x hx (by rw [hlist]; exact List.mem_cons_of_mem _ hxl)

private theorem removeFirstWhere (h : s.StandsFor lists) (queue : κ) (accepts : Slot → Bool) :
    SameOutcome (s.call (.removeFirstWhere queue accepts)) (lists.call (.removeFirstWhere queue accepts)) := by
  have hthread : Threaded s.next (s.queues queue).head (s.queues queue).tail (lists (.inl queue)) := h.threads.threaded (.inl queue)
  obtain ⟨next',queue',hremove,hrest,hframe⟩ := SlotQueue.removeFirstWhere_first accepts hthread
  refine .inl ⟨_,_,_,by rw [SharedQueues.call,hremove]; rfl,rfl,h.setQueue hrest (fun j hj x hx => ?_) fun j hj x hx hxl => hj ?_⟩
  · exact hframe x fun hxl => hj (h.threads.disjoint j _ x hx hxl)
  · exact h.threads.disjoint j _ x hx (List.mem_of_mem_eraseP hxl)

private theorem push (h : s.StandsFor lists) (table : τ) (priority : Nat) (hslot : ∀ name, slot ∉ lists name) :
    SameOutcome (s.call (.push table slot priority)) (lists.call (.push table slot priority)) := by
  rw [SharedQueues.call,QueueLists.call,TaskSlotQueueTable.push]
  split_ifs with hp
  · have hthread : Threaded s.next ((s.tables table).queues ⟨priority,hp⟩).head ((s.tables table).queues ⟨priority,hp⟩).tail
        (lists (.inr (table,⟨priority,hp⟩))) := h.threads.threaded (.inr (table,⟨priority,hp⟩))
    obtain ⟨hpush,hframe⟩ := SlotQueue.pushBack_spec hthread (hslot _)
    refine .inl ⟨none,_,_,rfl,rfl,h.setLevel hpush (fun j hj x hx => ?_) (fun j hj x hx hxl => ?_) ?_ fun q hq => ?_⟩
    · exact hframe x (fun e => hslot j (e ▸ hx)) fun hxl => hj (h.threads.disjoint j _ x hx hxl)
    · obtain hxl | hxl := List.mem_append.mp hxl
      · exact hj (h.threads.disjoint j _ x hx hxl)
      · exact hslot j (List.mem_singleton.mp hxl ▸ hx)
    · rw [getLsbD_setLevel _ ⟨priority,hp⟩]
      simp
    · rw [getLsbD_setLevel _ ⟨priority,hp⟩]
      simp [Ne.symm hq]
  · exact .inr ⟨rfl,rfl⟩

/-- In a list from the highest level down, the first level with a property is the highest one. -/
private theorem find_down {levels : List Level} (hdown : levels.Pairwise (· > ·)) {p : Level → Bool} {level : Level}
    (hmem : level ∈ levels) (hp : p level = true) (hhigh : ∀ q, level < q → p q = false) : levels.find? p = some level := by
  induction levels with
  | nil => cases hmem
  | cons q levels ih =>
    obtain ⟨hq,hdown⟩ := List.pairwise_cons.mp hdown
    obtain rfl | hmem := List.mem_cons.mp hmem
    · exact List.find?_cons_of_pos hp
    · rw [List.find?_cons_of_neg (by rw [hhigh q (hq level hmem)]; exact Bool.false_ne_true)]
      exact ih hdown hmem

private theorem popHighest (h : s.StandsFor lists) (table : τ) :
    SameOutcome (s.call (.popHighestPrioOldestTask table)) (lists.call (.popHighestPrioOldestTask table)) := by
  have hbits := h.bits table
  rw [SharedQueues.call,QueueLists.call,TaskSlotQueueTable.popHighestPrioOldestTask]
  by_cases hlevels : (s.tables table).nonEmptyLevels = 0
  · have hnone : lists.highestLevel table = none := by
      refine List.find?_eq_none.mpr fun level _ => ?_
      have hempty := (hbits level).not.mp (by rw [hlevels]; simp)
      simpa using hempty
    rw [hnone,dif_neg (by rw [hlevels]; decide)]
    exact .inr ⟨rfl,rfl⟩
  · obtain ⟨hclz,htask,hhigh⟩ := highest_level hbits hlevels (by rw [priorityLevelCount]; omega)
    rw [dif_pos hclz]
    generalize (⟨8 - 1 - (s.tables table).nonEmptyLevels.clz.toNat,_⟩ : Level) = level at *
    have hfind : lists.highestLevel table = some level := by
      refine find_down (List.pairwise_reverse.mpr (List.pairwise_lt_finRange _)) (by simp) ?_ fun q hq => ?_
      · simpa using htask
      · simpa using hhigh q hq
    rw [hfind]
    dsimp only
    rw [QueueLists.takeHead]
    have hthread : Threaded s.next ((s.tables table).queues level).head ((s.tables table).queues level).tail
        (lists (.inr (table,level))) := h.threads.threaded (.inr (table,level))
    cases hlist : lists (.inr (table,level)) with
    | nil => exact absurd hlist htask
    | cons slot rest =>
      rw [hlist] at hthread
      obtain ⟨queue',hpop,hrest⟩ := SlotQueue.popFront_spec hthread
      rw [hpop]
      refine .inl ⟨some slot,_,_,rfl,rfl,h.shrink hrest ?_ htask fun _ _ => rfl⟩
      rw [hlist]
      exact List.subset_cons_self ..

/-- The levels from the first of the list on. -/
private theorem takeFrom (h : s.StandsFor lists) (table : τ) (onCpu : Slot → Bool) (levels : List Level) :
    (lists.oldestOffCpu table onCpu levels = none ∧
        (s.tables table).takeFrom s.next onCpu levels = .ok (none,s.next,s.tables table)) ∨
      ∃ level slot next' table', lists.oldestOffCpu table onCpu levels = some (level,slot) ∧
        (s.tables table).takeFrom s.next onCpu levels = .ok (some slot,next',table') ∧
        StandsFor { s with next := next', tables := Function.update s.tables table table' }
          (Function.update lists (.inr (table,level)) ((lists (.inr (table,level))).eraseP (!onCpu ·))) := by
  induction levels with
  | nil => exact .inl ⟨rfl,rfl⟩
  | cons level levels ih =>
    have hthread : Threaded s.next ((s.tables table).queues level).head ((s.tables table).queues level).tail
        (lists (.inr (table,level))) := h.threads.threaded (.inr (table,level))
    obtain ⟨next',queue',hremove,hrest,hframe⟩ := SlotQueue.removeFirstWhere_first (!onCpu ·) hthread
    rw [QueueLists.oldestOffCpu,List.findSome?_cons,TaskSlotQueueTable.takeFrom,hremove]
    cases hfind : (lists (.inr (table,level))).find? (!onCpu ·) with
    | none => exact ih
    | some slot =>
      refine .inr ⟨level,slot,next',_,rfl,rfl,h.shrink hrest (fun x hx => List.mem_of_mem_eraseP hx) ?_ hframe⟩
      exact List.ne_nil_of_mem (List.mem_of_find?_eq_some hfind)

private theorem takeTask (h : s.StandsFor lists) (table : τ) (onCpu : Slot → Bool) :
    SameOutcome (s.call (.takeTaskNotCurrentlyOnCpu table onCpu)) (lists.call (.takeTaskNotCurrentlyOnCpu table onCpu)) := by
  rw [SharedQueues.call,QueueLists.call,TaskSlotQueueTable.takeTaskNotCurrentlyOnCpu]
  obtain ⟨hnone,htake⟩ | ⟨level,slot,next',table',hsome,htake,hstands⟩ := h.takeFrom table onCpu QueueLists.levelsDown
  · rw [hnone,show (s.tables table).takeFrom s.next onCpu (List.finRange priorityLevelCount).reverse = _ from htake]
    refine .inl ⟨none,_,_,rfl,rfl,?_⟩
    rw [Function.update_eq_self]
    exact h
  · rw [hsome,show (s.tables table).takeFrom s.next onCpu (List.finRange priorityLevelCount).reverse = _ from htake]
    exact .inl ⟨some slot,_,_,rfl,rfl,hstands⟩

/-- One call. -/
theorem call (h : s.StandsFor lists) (c : QueueCall κ τ) (hfresh : lists.Fresh c) : SameOutcome (s.call c) (lists.call c) := by
  cases c with
  | pushBack queue slot => exact h.pushBack queue hfresh
  | popFront queue => exact h.popFront queue
  | removeFirstWhere queue accepts => exact h.removeFirstWhere queue accepts
  | push table slot priority => exact h.push table priority hfresh
  | popHighestPrioOldestTask table => exact h.popHighest table
  | takeTaskNotCurrentlyOnCpu table onCpu => exact h.takeTask table onCpu

end StandsFor

/-- Calls that push only slots that are in no queue return what they do on the lists, and leave the queues for
the lists that they leave. Either all of them return or the same call panics. -/
theorem calls_refine {s : SharedQueues κ τ} {lists : QueueLists κ τ} (h : s.StandsFor lists) (cs : List (QueueCall κ τ))
    (hfresh : lists.AllFresh cs) :
    (∃ slots s' lists', s.calls cs = .ok (slots,s') ∧ lists.calls cs = .ok (slots,lists') ∧ s'.StandsFor lists') ∨
      s.calls cs = .error .panic ∧ lists.calls cs = .error .panic := by
  induction cs generalizing s lists with
  | nil => exact .inl ⟨[],s,lists,rfl,rfl,h⟩
  | cons c cs ih =>
    obtain ⟨hc,hrest⟩ := hfresh
    rw [calls,QueueLists.calls]
    obtain ⟨slot,t,lists',hcall,hlists,ht⟩ | ⟨hcall,hlists⟩ := h.call c hc
    · rw [hcall,hlists,ok_bind,ok_bind]
      obtain ⟨slots,u,lists'',hcalls,hlists',hu⟩ | ⟨hcalls,hlists'⟩ := ih ht (hrest slot lists' hlists)
      · exact .inl ⟨slot :: slots,u,lists'',by dsimp only; rw [hcalls]; rfl,by dsimp only; rw [hlists']; rfl,hu⟩
      · exact .inr ⟨by dsimp only; rw [hcalls]; rfl,by dsimp only; rw [hlists']; rfl⟩
    · rw [hcall,hlists]
      exact .inr ⟨rfl,rfl⟩

/-- From empty queues on. -/
theorem queues_refine_lists (cs : List (QueueCall κ τ)) (hfresh : QueueLists.AllFresh cs fun _ => []) :
    (∃ slots s lists, ({} : SharedQueues κ τ).calls cs = .ok (slots,s) ∧ QueueLists.calls cs (fun _ => []) = .ok (slots,lists) ∧
        s.StandsFor lists) ∨
      ({} : SharedQueues κ τ).calls cs = .error .panic ∧ QueueLists.calls cs (fun _ => []) = .error .panic :=
  calls_refine .new cs hfresh

/-- A queue, and a table with tasks at two levels: the one at the higher level is on a processor. -/
private abbrev mixedCalls : List (QueueCall Bool Unit) :=
  [.pushBack true 1,.push () 4 5,.push () 5 2,.takeTaskNotCurrentlyOnCpu () (· = 4),.popHighestPrioOldestTask (),.popFront true]

theorem queues_refine_lists_mixed :
    (∃ slots s lists, ({} : SharedQueues Bool Unit).calls mixedCalls = .ok (slots,s) ∧
        QueueLists.calls mixedCalls (fun _ => []) = .ok (slots,lists) ∧ s.StandsFor lists) ∨
      ({} : SharedQueues Bool Unit).calls mixedCalls = .error .panic ∧
        QueueLists.calls mixedCalls (fun _ => []) = .error .panic := by
  refine queues_refine_lists mixedCalls ⟨fun _ => List.not_mem_nil,fun _ _ h => ?_⟩
  cases h
  refine ⟨by rw [QueueLists.Fresh]; decide,fun _ _ h => ?_⟩
  cases h
  refine ⟨by rw [QueueLists.Fresh]; decide,fun _ _ _ => ⟨trivial,fun _ _ _ => ⟨trivial,fun _ _ _ => ⟨trivial,fun _ _ _ => trivial⟩⟩⟩⟩

example : (({} : SharedQueues Bool Unit).calls mixedCalls).map Prod.fst = .ok [none,none,none,some 5,some 4,some 1] := by
  decide +kernel

end SharedQueues
end MofuOS.Process
