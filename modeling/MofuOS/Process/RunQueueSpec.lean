import MofuOS.Process.RunQueue
import Mathlib.Data.Fintype.Card

/-! The run queues as lists: what each operation does to the list of a level, of a core and of all cores. -/
namespace MofuOS.Process
open Lib

variable {next : Links} {queue : SlotQueue} {slot : Slot} {l : List Slot}

/-- A queue is never longer than the task table. -/
theorem length_lt_of_threaded {head tail : Option Slot} (h : Threaded next head tail l) : l.length < maxTasks + 1 := by
  have := List.Nodup.length_le_card h.nodup
  rw [Fintype.card_fin] at this
  omega

namespace SlotQueue

theorem pushBack_spec (h : Threaded next queue.head queue.tail l) (hslot : slot ∉ l) :
    Threaded (queue.pushBack next slot).1 (queue.pushBack next slot).2.head (queue.pushBack next slot).2.tail (l ++ [slot]) ∧
      ∀ x, x ≠ slot → x ∉ l → (queue.pushBack next slot).1 x = next x := by
  rw [pushBack]
  cases htail : queue.tail with
  | none =>
    rw [htail] at h
    exact ⟨h.push_empty slot,fun x hx _ => Function.update_of_ne hx ..⟩
  | some tail =>
    rw [htail] at h
    refine ⟨h.push hslot,fun x hx hxl => ?_⟩
    have hmem : tail ∈ l := List.mem_of_getLast? h.tail_eq.symm
    have hne : x ≠ tail := fun e => hxl (e ▸ hmem)
    dsimp only
    rw [Function.update_of_ne hne,Function.update_of_ne hx]

theorem popFront_spec (h : Threaded next queue.head queue.tail (slot :: l)) :
    ∃ queue', queue.popFront next = .ok (slot,queue') ∧ Threaded next queue'.head queue'.tail l := by
  refine ⟨⟨next slot,if next slot = none then none else queue.tail⟩,?_,h.pop⟩
  rw [popFront,h.head_eq]
  rfl

/-- The walk behind the elements done, none of which was accepted. -/
theorem removeFrom_spec (accepts : Slot → Bool) {done rest : List Slot} {fuel : Nat}
    (h : Threaded next queue.head queue.tail (done ++ rest)) (hfuel : rest.length < fuel) :
    (removeFrom next accepts queue fuel done.getLast? rest.head? = .ok (none,next,queue) ∧ ∀ x ∈ rest, accepts x = false) ∨
    ∃ p a r next' queue', rest = p ++ a :: r ∧ (∀ x ∈ p, accepts x = false) ∧ accepts a = true ∧
      removeFrom next accepts queue fuel done.getLast? rest.head? = .ok (some a,next',queue') ∧
      Threaded next' queue'.head queue'.tail (done ++ p ++ r) ∧ ∀ x, x ∉ done ++ rest → next' x = next x := by
  induction rest generalizing done fuel with
  | nil =>
    obtain ⟨fuel,rfl⟩ : ∃ n, fuel = n + 1 := ⟨fuel - 1,by simp at hfuel; omega⟩
    exact .inl ⟨rfl,fun x hx => nomatch hx⟩
  | cons a r ih =>
    obtain ⟨fuel,rfl⟩ : ∃ n, fuel = n + 1 := ⟨fuel - 1,by simp at hfuel; omega⟩
    rw [List.head?_cons,removeFrom]
    by_cases ha : accepts a = true
    · right
      rw [if_pos ha]
      rcases List.eq_nil_or_concat done with rfl | ⟨d,x,rfl⟩
      · exact ⟨[],a,r,_,_,rfl,nofun,ha,rfl,h.pop_tail,fun _ _ => rfl⟩
      · rw [List.concat_eq_append] at h ⊢
        have hlast : (d ++ [x]).getLast? = some x := List.getLast?_concat
        rw [hlast]
        refine ⟨[],a,r,_,_,rfl,nofun,ha,rfl,?_,fun y hy => Function.update_of_ne ?_ ..⟩
        · rw [List.append_nil,List.append_assoc]
          rw [List.append_assoc] at h
          exact h.unlink
        · rintro rfl
          exact hy (by simp)
    · rw [if_neg ha]
      have hlink : next a = r.head? := h.link_eq
      have hdone : done ++ a :: r = done ++ [a] ++ r := by rw [List.append_assoc,List.singleton_append]
      have hlast : (done ++ [a]).getLast? = some a := List.getLast?_concat
      rw [hdone] at h
      have hrec := ih h (Nat.lt_of_succ_lt_succ hfuel)
      rw [hlast,← hlink] at hrec
      rcases hrec with ⟨hok,hall⟩ | ⟨p,b,r',next',queue',rfl,hp,hb,hok,hthread,hframe⟩
      · refine .inl ⟨hok,fun x hx => ?_⟩
        rcases List.mem_cons.mp hx with rfl | hx
        · exact Bool.eq_false_iff.mpr ha
        · exact hall x hx
      · refine .inr ⟨a :: p,b,r',next',queue',rfl,List.forall_mem_cons.mpr ⟨Bool.eq_false_iff.mpr ha,hp⟩,hb,hok,?_,
          fun x hx => hframe x (hdone ▸ hx)⟩
        rwa [List.append_assoc done,List.singleton_append] at hthread

/-- The first element that is accepted goes. -/
theorem removeFirstWhere_first (accepts : Slot → Bool) (h : Threaded next queue.head queue.tail l) :
    ∃ next' queue', queue.removeFirstWhere next accepts = .ok (l.find? accepts,next',queue') ∧
      Threaded next' queue'.head queue'.tail (l.eraseP accepts) ∧ ∀ x, x ∉ l → next' x = next x := by
  have hstart : Threaded next queue.head queue.tail ([] ++ l) := h
  have hrun := removeFrom_spec accepts hstart (length_lt_of_threaded h)
  rw [List.getLast?_nil,← h.head_eq] at hrun
  rcases hrun with ⟨hok,hall⟩ | ⟨p,a,r,next',queue',rfl,hp,ha,hok,hthread,hframe⟩
  · have hnone : ∀ x ∈ l, ¬ accepts x = true := fun x hx => Bool.eq_false_iff.mp (hall x hx)
    refine ⟨next,queue,?_,?_,fun _ _ => rfl⟩
    · rw [List.find?_eq_none.mpr hnone]
      exact hok
    · rwa [List.eraseP_of_forall_not hnone]
  · have hnone : ∀ x ∈ p, ¬ accepts x = true := fun x hx => Bool.eq_false_iff.mp (hp x hx)
    refine ⟨next',queue',?_,?_,hframe⟩
    · rw [List.find?_append,List.find?_eq_none.mpr hnone,List.find?_cons_of_pos ha]
      exact hok
    · rw [List.eraseP_append_right _ hnone,List.eraseP_cons_of_pos ha]
      exact hthread

theorem removeFirstWhere_spec (accepts : Slot → Bool) (h : Threaded next queue.head queue.tail l) :
    (queue.removeFirstWhere next accepts = .ok (none,next,queue) ∧ ∀ x ∈ l, accepts x = false) ∨
    ∃ a next' queue', a ∈ l ∧ accepts a = true ∧ queue.removeFirstWhere next accepts = .ok (some a,next',queue') ∧
      Threaded next' queue'.head queue'.tail (l.erase a) ∧ ∀ x, x ∉ l → next' x = next x := by
  have hstart : Threaded next queue.head queue.tail ([] ++ l) := h
  have hrun := removeFrom_spec accepts hstart (length_lt_of_threaded h)
  rw [List.getLast?_nil,← h.head_eq] at hrun
  rcases hrun with hnone | ⟨p,a,r,next',queue',rfl,-,ha,hok,hthread,hframe⟩
  · exact .inl hnone
  · refine .inr ⟨a,next',queue',by simp,ha,hok,?_,hframe⟩
    have hap : a ∉ p := fun hap => (List.nodup_append.mp h.nodup).2.2 a hap a List.mem_cons_self rfl
    rwa [List.erase_append_right _ hap,List.erase_cons_head]

/-- The walk behind the elements done, none of which was the slot. -/
theorem containsFrom_spec (slot : Slot) {done rest : List Slot} {fuel : Nat}
    (h : Threaded next queue.head queue.tail (done ++ rest)) (hfuel : rest.length < fuel) :
    containsFrom next slot fuel rest.head? = .ok (decide (slot ∈ rest)) := by
  induction rest generalizing done fuel with
  | nil =>
    obtain ⟨fuel,rfl⟩ : ∃ n, fuel = n + 1 := ⟨fuel - 1,by simp at hfuel; omega⟩
    rfl
  | cons a r ih =>
    obtain ⟨fuel,rfl⟩ : ∃ n, fuel = n + 1 := ⟨fuel - 1,by simp at hfuel; omega⟩
    rw [List.head?_cons,containsFrom]
    by_cases ha : a = slot
    · simp [ha]
    · have hlink : next a = r.head? := h.link_eq
      have hdone : done ++ a :: r = done ++ [a] ++ r := by rw [List.append_assoc,List.singleton_append]
      rw [hdone] at h
      rw [if_neg ha,hlink,ih h (Nat.lt_of_succ_lt_succ hfuel)]
      simp [Ne.symm ha]

theorem contains_spec (slot : Slot) (h : Threaded next queue.head queue.tail l) :
    queue.contains next slot = .ok (decide (slot ∈ l)) := by
  have hstart : Threaded next queue.head queue.tail ([] ++ l) := h
  rw [contains,h.head_eq,containsFrom_spec slot hstart (length_lt_of_threaded h)]

end SlotQueue

/-- The list of sleepers may lose stale entries, and gets the new one at its end. -/
theorem CoreRunQueue.addSleepingTask_eq {tasks : Tasks} {queue queue' : CoreRunQueue} {ref : TaskRef} {wakeTimeUs : Nat}
    (h : queue.addSleepingTask tasks ref wakeTimeUs = .ok queue') :
    ∃ room, queue' = { queue with sleepingTasks := room ++ [⟨ref,wakeTimeUs⟩] } ∧
      (room = queue.sleepingTasks ∨ room.Perm (queue.sleepingTasks.filter (!·.isStale tasks))) := by
  simp only [CoreRunQueue.addSleepingTask] at h
  split_ifs at h with hfull hroom hroom <;> cases h
  · exact ⟨_,rfl,.inr (purge_perm ..)⟩
  · exact ⟨_,rfl,.inl rfl⟩

section Bits
variable (levels : BitVec 8) (p q : Level)

theorem getLsbD_setLevel : (levels ||| 1#8 <<< p.val).getLsbD q = (levels.getLsbD q || decide (p = q)) := by
  have hp : p.val < 8 := p.isLt
  have hq : q.val < 8 := q.isLt
  rw [BitVec.getLsbD_or,BitVec.getLsbD_shiftLeft,BitVec.getLsbD_one]
  congr 1
  simp only [Fin.ext_iff]
  grind

theorem getLsbD_clearLevel : (levels &&& ~~~(1#8 <<< p.val)).getLsbD q = (levels.getLsbD q && decide (p ≠ q)) := by
  have hp : p.val < 8 := p.isLt
  have hq : q.val < 8 := q.isLt
  rw [BitVec.getLsbD_and,BitVec.getLsbD_not,BitVec.getLsbD_shiftLeft,BitVec.getLsbD_one]
  congr 1
  simp only [ne_eq,Fin.ext_iff]
  grind

end Bits

/-- The level that pop_highest_prio_oldest_task finds, where the bits tell which levels have a task. -/
theorem highest_level {levels : BitVec 8} {lists : Level → List Slot} (hbits : ∀ q : Level, levels.getLsbD q = true ↔ lists q ≠ [])
    (hlevels : levels ≠ 0) (h : 8 - 1 - levels.clz.toNat < priorityLevelCount) :
    levels.clz.toNat < 8 ∧ lists ⟨8 - 1 - levels.clz.toNat,h⟩ ≠ [] ∧ ∀ q : Level, ⟨8 - 1 - levels.clz.toNat,h⟩ < q → lists q = [] := by
  have hclz : levels.clz.toNat < 8 := BitVec.lt_def.mp (BitVec.clz_lt_iff_ne_zero.mpr hlevels)
  have hbit := BitVec.getLsbD_true_clz_of_ne_zero (by decide) hlevels
  have hbound := BitVec.toNat_lt_two_pow_sub_clz (x := levels)
  refine ⟨hclz,(hbits ⟨8 - 1 - levels.clz.toNat,h⟩).mp hbit,fun q hq => ?_⟩
  by_contra hne
  have hq' := (hbits q).mpr hne
  rw [BitVec.getLsbD] at hq'
  have := Nat.ge_two_pow_of_testBit hq'
  have hpow : 2 ^ (8 - levels.clz.toNat) ≤ 2 ^ q.val :=
    Nat.pow_le_pow_right (by decide) (by have : 8 - 1 - levels.clz.toNat < q.val := hq; omega)
  omega

/-- A level queue of one of the tables of a core. -/
abbrev Place := Core × RequeueType × Level

def queueAt (queues : Core → CoreRunQueue) (place : Place) : SlotQueue :=
  ((queues place.1).table place.2.1).queues place.2.2

/-- The run queues of all cores stand for a list at each place. -/
structure RunQueuesOk (next : Links) (queues : Core → CoreRunQueue) (lists : Place → List Slot) : Prop where
  threads : Threads next (fun place => (queueAt queues place).head) (fun place => (queueAt queues place).tail) lists
  bits : ∀ core bank (level : Level),
    ((queues core).table bank).nonEmptyLevels.getLsbD level = true ↔ lists (core,bank,level) ≠ []

namespace RunQueuesOk
variable {queues queues' : Core → CoreRunQueue} {lists : Place → List Slot} {core : Core} {bank : RequeueType} {level : Level}
  {next' : Links} {levels : BitVec 8} {queue' : SlotQueue}

theorem new : RunQueuesOk (fun _ => none) (fun _ => {}) fun _ => [] := by
  refine ⟨⟨fun i => ?_,fun i j x hx => nomatch hx⟩,fun core bank level => ?_⟩
  · obtain ⟨core,bank,level⟩ := i
    cases bank <;> exact Threaded.nil _
  · cases bank <;> simp [CoreRunQueue.table]

/-- Only the tables count. -/
theorem congr (h : RunQueuesOk next queues lists) (ht : ∀ core bank, (queues' core).table bank = (queues core).table bank) :
    RunQueuesOk next queues' lists := by
  have hat : ∀ place, queueAt queues' place = queueAt queues place := fun place => by rw [queueAt,ht]; rfl
  refine ⟨?_,fun core bank level => by rw [ht]; exact h.bits core bank level⟩
  simp only [hat]
  exact h.threads

theorem table_setTable (queue : CoreRunQueue) (table : TaskSlotQueueTable) (bank bank' : RequeueType) :
    (queue.setTable table bank).table bank' = if bank' = bank then table else queue.table bank' := by
  cases bank <;> cases bank' <;> rfl

/-- One level queue is replaced, and its bit says whether it is empty. -/
theorem set {table : TaskSlotQueueTable} (h : RunQueuesOk next queues lists)
    (ht : table = ((queues core).table bank).setQueue level queue' levels)
    (hthread : Threaded next' queue'.head queue'.tail l) (hframe : ∀ j, j ≠ (core,bank,level) → ∀ x ∈ lists j, next' x = next x)
    (hl : ∀ j, j ≠ (core,bank,level) → ∀ x ∈ lists j, x ∉ l) (hself : levels.getLsbD level = true ↔ l ≠ [])
    (hother : ∀ q : Level, q ≠ level → levels.getLsbD q = ((queues core).table bank).nonEmptyLevels.getLsbD q) :
    RunQueuesOk next' (Function.update queues core ((queues core).setTable table bank))
      (Function.update lists (core,bank,level) l) := by
  subst ht
  have hat : ∀ place, queueAt (Function.update queues core
      ((queues core).setTable (((queues core).table bank).setQueue level queue' levels) bank)) place =
      if place = (core,bank,level) then queue' else queueAt queues place := by
    rintro ⟨core',bank',level'⟩
    rw [queueAt,queueAt]
    dsimp only
    by_cases hcore : core' = core
    · subst hcore
      rw [Function.update_self,table_setTable]
      by_cases hbank : bank' = bank
      · subst hbank
        rw [if_pos rfl,TaskSlotQueueTable.setQueue]
        dsimp only
        by_cases hlevel : level' = level
        · rw [hlevel,if_pos rfl,Function.update_self]
        · rw [if_neg (by simp [hlevel]),Function.update_of_ne hlevel]
      · rw [if_neg hbank,if_neg (by simp [hbank])]
    · rw [Function.update_of_ne hcore,if_neg (by simp [hcore])]
  refine ⟨?_,fun core' bank' level' => ?_⟩
  · simp only [hat]
    refine h.threads.set ?_ (fun j hj => by rw [if_neg hj]) (fun j hj => by rw [if_neg hj]) hframe hl
    rw [if_pos rfl]
    exact hthread
  · by_cases hcore : core' = core
    · subst hcore
      rw [Function.update_self,table_setTable]
      by_cases hbank : bank' = bank
      · subst hbank
        rw [if_pos rfl,TaskSlotQueueTable.setQueue]
        dsimp only
        by_cases hlevel : level' = level
        · rw [hlevel,Function.update_self]
          exact hself
        · rw [Function.update_of_ne (by simp [hlevel]),hother level' hlevel]
          exact h.bits core' bank' level'
      · rw [if_neg hbank,Function.update_of_ne (by simp [hbank])]
        exact h.bits core' bank' level'
    · rw [Function.update_of_ne hcore,Function.update_of_ne (by simp [hcore])]
      exact h.bits core' bank' level'

theorem push {priority : Nat} (h : RunQueuesOk next queues lists) (hslot : ∀ place, slot ∉ lists place)
    (hp : priority < priorityLevelCount) : ∃ next' queue', (queues core).push next bank slot priority = .ok (next',queue') ∧
      queue'.sleepingTasks = (queues core).sleepingTasks ∧ RunQueuesOk next' (Function.update queues core queue')
        (Function.update lists (core,bank,⟨priority,hp⟩) (lists (core,bank,⟨priority,hp⟩) ++ [slot])) := by
  have hthread := h.threads.threaded (core,bank,⟨priority,hp⟩)
  obtain ⟨hpush,hframe⟩ := SlotQueue.pushBack_spec hthread (hslot (core,bank,⟨priority,hp⟩))
  refine ⟨_,_,by rw [CoreRunQueue.push,TaskSlotQueueTable.push,dif_pos hp]; rfl,by cases bank <;> rfl,
    h.set rfl hpush (fun j hj x hx => ?_) (fun j hj x hx hxl => ?_) ?_ fun q hq => ?_⟩
  · refine hframe x (fun e => hslot j (e ▸ hx)) fun hxl => hj (h.threads.disjoint j _ x hx hxl)
  · rcases List.mem_append.mp hxl with hxl | hxl
    · exact hj (h.threads.disjoint j _ x hx hxl)
    · exact hslot j (List.mem_singleton.mp hxl ▸ hx)
  · rw [getLsbD_setLevel _ ⟨priority,hp⟩]
    simp
  · rw [getLsbD_setLevel _ ⟨priority,hp⟩]
    simp [Ne.symm hq]

/-- A queue that has lost one element. -/
theorem shrink (h : RunQueuesOk next queues lists) (hmem : slot ∈ lists (core,bank,level))
    (hthread : Threaded next' queue'.head queue'.tail ((lists (core,bank,level)).erase slot))
    (hframe : ∀ x, x ∉ lists (core,bank,level) → next' x = next x) :
    RunQueuesOk next' (Function.update queues core ((queues core).setTable (((queues core).table bank).shrink level queue') bank))
      (Function.update lists (core,bank,level) ((lists (core,bank,level)).erase slot)) := by
  have hbit : ((queues core).table bank).nonEmptyLevels.getLsbD level = true :=
    (h.bits core bank level).mpr (List.ne_nil_of_mem hmem)
  refine h.set rfl hthread (fun j hj x hx => hframe x fun hxl => hj (h.threads.disjoint j _ x hx hxl))
    (fun j hj x hx hxl => hj (h.threads.disjoint j _ x hx (List.mem_of_mem_erase hxl))) ?_ fun q hq => ?_
  · split_ifs with hhead
    · rw [getLsbD_clearLevel]
      simp [hthread.head_none.mp hhead]
    · rw [hbit]
      exact ⟨fun _ e => hhead (hthread.head_none.mpr e),fun _ => rfl⟩
  · split_ifs
    · rw [getLsbD_clearLevel]
      simp [Ne.symm hq]
    · rfl

/-- The first task off the processors at the levels of a table, from the first of them on. -/
theorem takeFrom (h : RunQueuesOk next queues lists) (core : Core) (bank : RequeueType) (onCpu : Slot → Bool)
    (levels : List Level) :
    (((queues core).table bank).takeFrom next onCpu levels = .ok (none,next,(queues core).table bank) ∧
      ∀ level ∈ levels, ∀ x ∈ lists (core,bank,level), onCpu x = true) ∨
    ∃ slot level next' table', ((queues core).table bank).takeFrom next onCpu levels = .ok (some slot,next',table') ∧
      slot ∈ lists (core,bank,level) ∧ onCpu slot = false ∧
      RunQueuesOk next' (Function.update queues core ((queues core).setTable table' bank))
        (Function.update lists (core,bank,level) ((lists (core,bank,level)).erase slot)) := by
  induction levels with
  | nil => exact .inl ⟨rfl,fun _ hl => nomatch hl⟩
  | cons level levels ih =>
    rw [TaskSlotQueueTable.takeFrom]
    rcases SlotQueue.removeFirstWhere_spec (!onCpu ·) (h.threads.threaded (core,bank,level)) with
      ⟨hok,hall⟩ | ⟨a,next',queue',ha,hacc,hok,hthread,hframe⟩
    · have hok' : (((queues core).table bank).queues level).removeFirstWhere next (!onCpu ·) = _ := hok
      rw [hok']
      rcases ih with ⟨hrec,hrest⟩ | hsome
      · refine .inl ⟨hrec,fun q hq x hx => ?_⟩
        rcases List.mem_cons.mp hq with rfl | hq
        · simpa using hall x hx
        · exact hrest q hq x hx
      · exact .inr hsome
    · have hok' : (((queues core).table bank).queues level).removeFirstWhere next (!onCpu ·) = _ := hok
      rw [hok']
      exact .inr ⟨a,level,next',_,rfl,ha,by simpa using hacc,h.shrink ha hthread hframe⟩

theorem takeStealableTask (h : RunQueuesOk next queues lists) (onCpu : Slot → Bool) (core : Core) :
    (∃ queue', (queues core).takeStealableTask next onCpu = .ok (none,next,queue') ∧
      ∀ bank level, ∀ x ∈ lists (core,bank,level), onCpu x = true) ∨
    ∃ slot bank level next' queue', (queues core).takeStealableTask next onCpu = .ok (some slot,next',queue') ∧
      slot ∈ lists (core,bank,level) ∧ onCpu slot = false ∧ queue'.sleepingTasks = (queues core).sleepingTasks ∧
      RunQueuesOk next' (Function.update queues core queue')
        (Function.update lists (core,bank,level) ((lists (core,bank,level)).erase slot)) := by
  have hlevels : ∀ level : Level, level ∈ (List.finRange priorityLevelCount).reverse := fun level => by simp
  rw [CoreRunQueue.takeStealableTask,TaskSlotQueueTable.takeTaskNotCurrentlyOnCpu,TaskSlotQueueTable.takeTaskNotCurrentlyOnCpu]
  rcases h.takeFrom core .executingTasks onCpu (List.finRange priorityLevelCount).reverse with
    ⟨hok,hall⟩ | ⟨slot,level,next',table',hok,hmem,hcpu,hrep⟩
  · rw [CoreRunQueue.table] at hok
    rw [hok]
    rcases h.takeFrom core .yieldingTasks onCpu (List.finRange priorityLevelCount).reverse with
      ⟨hok',hall'⟩ | ⟨slot,level,next',table',hok',hmem,hcpu,hrep⟩
    · rw [CoreRunQueue.table] at hok'
      simp only [ok_bind,hok']
      refine .inl ⟨_,rfl,fun bank level x hx => ?_⟩
      cases bank with
      | executingTasks => exact hall level (hlevels level) x hx
      | yieldingTasks => exact hall' level (hlevels level) x hx
    · rw [CoreRunQueue.table] at hok'
      simp only [ok_bind,hok']
      exact .inr ⟨slot,.yieldingTasks,level,next',_,rfl,hmem,hcpu,rfl,hrep⟩
  · rw [CoreRunQueue.table] at hok
    rw [hok]
    exact .inr ⟨slot,.executingTasks,level,next',_,rfl,hmem,hcpu,rfl,hrep⟩

theorem contains_table (h : RunQueuesOk next queues lists) (core : Core) (bank : RequeueType) (slot : Slot) :
    ((queues core).table bank).contains next slot = .ok (decide (∃ level, slot ∈ lists (core,bank,level))) := by
  have hany : ∀ levels : List Level, ((queues core).table bank).anyContains next slot levels =
      .ok (decide (∃ level ∈ levels, slot ∈ lists (core,bank,level))) := by
    intro levels
    induction levels with
    | nil => simp [TaskSlotQueueTable.anyContains]
    | cons level levels ih =>
      have hlevel := SlotQueue.contains_spec slot (h.threads.threaded (core,bank,level))
      rw [queueAt] at hlevel
      rw [TaskSlotQueueTable.anyContains,hlevel,ok_bind,ih]
      by_cases hmem : slot ∈ lists (core,bank,level) <;> simp [hmem]
  rw [TaskSlotQueueTable.contains,hany]
  simp

/-- The tables of the core hold the slots of its lists. -/
theorem contains_iff (h : RunQueuesOk next queues lists) (core : Core) (slot : Slot) :
    (queues core).contains next slot = .ok true ↔ ∃ bank level, slot ∈ lists (core,bank,level) := by
  have hexec : (queues core).executingTasks.contains next slot = _ := h.contains_table core .executingTasks slot
  have hyield : (queues core).yieldingTasks.contains next slot = _ := h.contains_table core .yieldingTasks slot
  rw [CoreRunQueue.contains,hexec,hyield,ok_bind]
  by_cases he : ∃ level, slot ∈ lists (core,.executingTasks,level)
  · rw [if_pos (decide_eq_true he)]
    exact ⟨fun _ => ⟨.executingTasks,he⟩,fun _ => rfl⟩
  · rw [if_neg (by simpa using he),Except.ok.injEq,decide_eq_true_eq]
    constructor
    · exact fun hy => ⟨.yieldingTasks,hy⟩
    · rintro ⟨bank,hb⟩
      cases bank with
      | executingTasks => exact absurd hb he
      | yieldingTasks => exact hb

theorem isEmpty_iff (h : RunQueuesOk next queues lists) (core : Core) (bank : RequeueType) :
    ((queues core).table bank).isEmpty = true ↔ ∀ level, lists (core,bank,level) = [] := by
  rw [TaskSlotQueueTable.isEmpty,decide_eq_true_eq]
  constructor
  · intro hzero level
    by_contra hne
    have hbit := (h.bits core bank level).mpr hne
    rw [hzero] at hbit
    simp at hbit
  · intro hall
    apply BitVec.eq_of_getLsbD_eq
    intro i hi
    have hbit := (h.bits core bank ⟨i,hi⟩).not.mpr (not_not_intro (hall ⟨i,hi⟩))
    rw [Bool.eq_false_iff.mpr hbit]
    simp

/-- The highest level with a task loses its oldest one. -/
theorem popHighestPrioOldestTask (h : RunQueuesOk next queues lists) (core : Core) (bank : RequeueType)
    (hne : ((queues core).table bank).isEmpty = false) :
    ∃ slot level rest table', ((queues core).table bank).popHighestPrioOldestTask next = .ok (slot,table') ∧
      lists (core,bank,level) = slot :: rest ∧ (∀ q : Level, level < q → lists (core,bank,q) = []) ∧
      RunQueuesOk next (Function.update queues core ((queues core).setTable table' bank))
        (Function.update lists (core,bank,level) rest) := by
  have hzero : ((queues core).table bank).nonEmptyLevels ≠ 0#8 := by
    rw [TaskSlotQueueTable.isEmpty,decide_eq_false_iff_not] at hne
    exact hne
  have hlevels := highest_level (h.bits core bank) hzero (by rw [priorityLevelCount]; omega)
  obtain ⟨hclz,htask,hhigh⟩ := hlevels
  rw [TaskSlotQueueTable.popHighestPrioOldestTask,dif_pos hclz]
  generalize (⟨8 - 1 - ((queues core).table bank).nonEmptyLevels.clz.toNat,_⟩ : Level) = level at *
  cases hlist : lists (core,bank,level) with
  | nil => exact absurd hlist htask
  | cons slot rest =>
    have hthread := h.threads.threaded (core,bank,level)
    rw [hlist] at hthread
    obtain ⟨queue',hpop,hrest⟩ := SlotQueue.popFront_spec hthread
    have hpop' : (((queues core).table bank).queues level).popFront next = _ := hpop
    have hmem : slot ∈ lists (core,bank,level) := by rw [hlist]; exact List.mem_cons_self
    have hrest' : Threaded next queue'.head queue'.tail ((lists (core,bank,level)).erase slot) := by
      rw [hlist,List.erase_cons_head]
      exact hrest
    have hshrink := h.shrink hmem hrest' fun _ _ => rfl
    rw [hlist,List.erase_cons_head] at hshrink
    exact ⟨slot,level,rest,_,by dsimp only; rw [hpop']; rfl,hlist,hhigh,hshrink⟩

/-- Where a place goes when the tables of a core change places. -/
def turnedPlace (core : Core) (place : Place) : Place :=
  if place.1 = core then (core,match place.2.1 with
    | .executingTasks => .yieldingTasks
    | .yieldingTasks => .executingTasks,place.2.2)
  else place

theorem turnedPlace_turnedPlace (core : Core) (place : Place) : turnedPlace core (turnedPlace core place) = place := by
  obtain ⟨core',bank,level⟩ := place
  by_cases hcore : core' = core
  · subst hcore
    cases bank <;> simp [turnedPlace]
  · simp [turnedPlace,hcore]

theorem turn (h : RunQueuesOk next queues lists) (core : Core) (he : (queues core).executingTasks.isEmpty = true) :
    RunQueuesOk next (Function.update queues core (queues core).turn) fun place => lists (turnedPlace core place) := by
  have hat : ∀ place : Place, ((Function.update queues core (queues core).turn place.1).table place.2.1) =
      ((queues (turnedPlace core place).1).table (turnedPlace core place).2.1) := by
    rintro ⟨core',bank,level⟩
    by_cases hcore : core' = core
    · subst hcore
      rw [Function.update_self,turnedPlace,CoreRunQueue.turn,if_pos he]
      cases bank <;> simp [CoreRunQueue.table]
    · rw [Function.update_of_ne hcore]
      simp [turnedPlace,hcore]
  have hlevel : ∀ place : Place, (turnedPlace core place).2.2 = place.2.2 := by
    rintro ⟨core',bank,level⟩
    rw [turnedPlace]
    split_ifs <;> rfl
  have hqueue : ∀ place, queueAt (Function.update queues core (queues core).turn) place = queueAt queues (turnedPlace core place) := by
    intro place
    rw [queueAt,queueAt,hat,hlevel]
  refine ⟨?_,fun core' bank level => ?_⟩
  · simp only [hqueue]
    exact h.threads.comp (Function.LeftInverse.injective (turnedPlace_turnedPlace core))
  · have hbits := h.bits (turnedPlace core (core',bank,level)).1 (turnedPlace core (core',bank,level)).2.1 level
    have heta : ((turnedPlace core (core',bank,level)).1,(turnedPlace core (core',bank,level)).2.1,level) =
        turnedPlace core (core',bank,level) := Prod.ext rfl (Prod.ext rfl (hlevel (core',bank,level)).symm)
    rw [heta] at hbits
    rw [hat (core',bank,level)]
    exact hbits

/-- The oldest task of the highest level, behind a change of the tables when the first one is empty. -/
theorem pickNextTask (h : RunQueuesOk next queues lists) (core : Core) :
    ((queues core).pickNextTask next = .ok (none,queues core) ∧ ∀ bank level, lists (core,bank,level) = []) ∨
    ∃ slot level rest queue' lists', (queues core).pickNextTask next = .ok (some slot,queue') ∧
      (lists' = lists ∨ (∀ q, lists (core,.executingTasks,q) = []) ∧ lists' = fun place => lists (turnedPlace core place)) ∧
      lists' (core,.executingTasks,level) = slot :: rest ∧ (∀ q : Level, level < q → lists' (core,.executingTasks,q) = []) ∧
      queue'.sleepingTasks = (queues core).sleepingTasks ∧
      RunQueuesOk next (Function.update queues core queue') (Function.update lists' (core,.executingTasks,level) rest) := by
  have hexec : (queues core).executingTasks.isEmpty = true ↔ _ := h.isEmpty_iff core .executingTasks
  have hyield : (queues core).yieldingTasks.isEmpty = true ↔ _ := h.isEmpty_iff core .yieldingTasks
  rw [CoreRunQueue.pickNextTask]
  by_cases he : (queues core).executingTasks.isEmpty = true
  · by_cases hy : (queues core).yieldingTasks.isEmpty = true
    · rw [he,hy,Bool.true_and,if_pos rfl]
      refine .inl ⟨rfl,fun bank level => ?_⟩
      cases bank with
      | executingTasks => exact hexec.mp he level
      | yieldingTasks => exact hyield.mp hy level
    · rw [he,Bool.true_and,if_neg hy]
      have hturn := h.turn core he
      have hne : ((Function.update queues core (queues core).turn core).table .executingTasks).isEmpty = false := by
        rw [Function.update_self,CoreRunQueue.turn,if_pos he]
        exact Bool.eq_false_iff.mpr hy
      obtain ⟨slot,level,rest,table',hpop,hlist,hhigh,hrep⟩ := hturn.popHighestPrioOldestTask core .executingTasks hne
      rw [Function.update_self] at hpop
      rw [Function.update_self,Function.update_idem] at hrep
      refine .inr ⟨slot,level,rest,_,_,?_,.inr ⟨hexec.mp he,rfl⟩,hlist,hhigh,?_,hrep⟩
      · rw [CoreRunQueue.table] at hpop
        rw [hpop]
        rfl
      · rw [CoreRunQueue.turn,if_pos he]
        rfl
  · have hne : ((queues core).table .executingTasks).isEmpty = false := Bool.eq_false_iff.mpr he
    obtain ⟨slot,level,rest,table',hpop,hlist,hhigh,hrep⟩ := h.popHighestPrioOldestTask core .executingTasks hne
    have hturn : (queues core).turn = queues core := by rw [CoreRunQueue.turn,if_neg he]
    rw [if_neg (by simp [he]),hturn]
    refine .inr ⟨slot,level,rest,{ queues core with executingTasks := table' },lists,?_,.inl rfl,hlist,hhigh,rfl,hrep⟩
    rw [CoreRunQueue.table] at hpop
    rw [hpop]
    rfl

end RunQueuesOk
end MofuOS.Process
