import MofuOS.Process.Wait
import MofuOS.Lib.IntrusiveList

/-! The run queue of a core: two tables of priority levels, each level a queue threaded through the
links of the task slots, which the queues of all cores share. -/
namespace MofuOS.Process
open Lib

def priorityLevelCount : Nat := 8

abbrev Level := Fin priorityLevelCount

/-- The next link of every slot. -/
abbrev Links := Slot → Option Slot

structure SlotQueue where
  head : Option Slot := none
  tail : Option Slot := none
  deriving DecidableEq, Repr

namespace SlotQueue

def pushBack (next : Links) (queue : SlotQueue) (slot : Slot) : Links × SlotQueue :=
  match queue.tail with
  | none => (Function.update next slot none,⟨some slot,some slot⟩)
  | some tail => (Function.update (Function.update next slot none) tail (some slot),⟨queue.head,some slot⟩)

/-- An empty queue has no slot to index the task table with. -/
def popFront (next : Links) (queue : SlotQueue) : Outcome (Slot × SlotQueue) :=
  match queue.head with
  | none => .error .panic
  | some slot => .ok (slot,⟨next slot,if next slot = none then none else queue.tail⟩)

/-- The walk of remove_first_where. Links that run in a circle keep it going for ever. -/
def removeFrom (next : Links) (accepts : Slot → Bool) (queue : SlotQueue) :
    Nat → Option Slot → Option Slot → Outcome (Option Slot × Links × SlotQueue)
  | 0,_,_ => .error .diverge
  | _ + 1,_,none => .ok (none,next,queue)
  | fuel + 1,previous,some cursor =>
    if accepts cursor then
      let tail := if queue.tail = some cursor then previous else queue.tail
      match previous with
      | none => .ok (some cursor,next,⟨next cursor,tail⟩)
      | some slot => .ok (some cursor,Function.update next slot (next cursor),⟨queue.head,tail⟩)
    else removeFrom next accepts queue fuel (some cursor) (next cursor)

def removeFirstWhere (next : Links) (queue : SlotQueue) (accepts : Slot → Bool) : Outcome (Option Slot × Links × SlotQueue) :=
  removeFrom next accepts queue (maxTasks + 1) none queue.head

def containsFrom (next : Links) (slot : Slot) : Nat → Option Slot → Outcome Bool
  | 0,_ => .error .diverge
  | _ + 1,none => .ok false
  | fuel + 1,some cursor => if cursor = slot then .ok true else containsFrom next slot fuel (next cursor)

def contains (next : Links) (queue : SlotQueue) (slot : Slot) : Outcome Bool :=
  containsFrom next slot (maxTasks + 1) queue.head

end SlotQueue

structure TaskSlotQueueTable where
  queues : Level → SlotQueue := fun _ => {}
  nonEmptyLevels : BitVec 8 := 0

namespace TaskSlotQueueTable

def setQueue (table : TaskSlotQueueTable) (level : Level) (queue : SlotQueue) (nonEmptyLevels : BitVec 8) : TaskSlotQueueTable :=
  ⟨Function.update table.queues level queue,nonEmptyLevels⟩

def push (next : Links) (table : TaskSlotQueueTable) (slot : Slot) (priority : Nat) : Outcome (Links × TaskSlotQueueTable) :=
  if h : priority < priorityLevelCount then
    let (next,queue) := (table.queues ⟨priority,h⟩).pushBack next slot
    .ok (next,table.setQueue ⟨priority,h⟩ queue (table.nonEmptyLevels ||| 1#8 <<< priority))
  else .error .panic

def isEmpty (table : TaskSlotQueueTable) : Bool := table.nonEmptyLevels = 0

/-- The bit of a level is cleared once its queue has become empty. -/
def shrink (table : TaskSlotQueueTable) (level : Level) (queue : SlotQueue) : TaskSlotQueueTable :=
  table.setQueue level queue
    (if queue.head = none then table.nonEmptyLevels &&& ~~~(1#8 <<< level.val) else table.nonEmptyLevels)

/-- The oldest task of the highest priority present. -/
def popHighestPrioOldestTask (next : Links) (table : TaskSlotQueueTable) : Outcome (Slot × TaskSlotQueueTable) :=
  if h : table.nonEmptyLevels.clz.toNat < 8 then do
    let level : Level := ⟨8 - 1 - table.nonEmptyLevels.clz.toNat,by rw [priorityLevelCount]; omega⟩
    let (slot,queue) ← (table.queues level).popFront next
    .ok (slot,table.shrink level queue)
  else .error .panic

def takeFrom (next : Links) (table : TaskSlotQueueTable) (onCpu : Slot → Bool) :
    List Level → Outcome (Option Slot × Links × TaskSlotQueueTable)
  | [] => .ok (none,next,table)
  | level :: levels => do
    let (slot,next',queue) ← (table.queues level).removeFirstWhere next (!onCpu ·)
    match slot with
    | none => takeFrom next table onCpu levels
    | some slot => .ok (some slot,next',table.shrink level queue)

def takeTaskNotCurrentlyOnCpu (next : Links) (table : TaskSlotQueueTable) (onCpu : Slot → Bool) :
    Outcome (Option Slot × Links × TaskSlotQueueTable) :=
  takeFrom next table onCpu (List.finRange priorityLevelCount).reverse

def anyContains (next : Links) (table : TaskSlotQueueTable) (slot : Slot) : List Level → Outcome Bool
  | [] => .ok false
  | level :: levels => do
    if ← (table.queues level).contains next slot then .ok true else anyContains next table slot levels

def contains (next : Links) (table : TaskSlotQueueTable) (slot : Slot) : Outcome Bool :=
  anyContains next table slot (List.finRange priorityLevelCount)

end TaskSlotQueueTable

structure SleepingTask where
  taskRef : TaskRef
  wakeTimeUs : Nat
  deriving DecidableEq, Repr

def SleepingTask.isStale (tasks : Tasks) (sleeper : SleepingTask) : Bool := sleeper.taskRef.isStale tasks

/-- The tasks that still have their turn in this epoch, the ones that wait for the next, and the sleepers. -/
structure CoreRunQueue where
  executingTasks : TaskSlotQueueTable := {}
  yieldingTasks : TaskSlotQueueTable := {}
  sleepingTasks : List SleepingTask := []

inductive RequeueType where
  | executingTasks
  | yieldingTasks
  deriving DecidableEq, Repr

namespace CoreRunQueue

def table (queue : CoreRunQueue) : RequeueType → TaskSlotQueueTable
  | .executingTasks => queue.executingTasks
  | .yieldingTasks => queue.yieldingTasks

def setTable (queue : CoreRunQueue) (table : TaskSlotQueueTable) : RequeueType → CoreRunQueue
  | .executingTasks => { queue with executingTasks := table }
  | .yieldingTasks => { queue with yieldingTasks := table }

/-- push_executing_task and push_yielding_task. -/
def push (next : Links) (queue : CoreRunQueue) (bank : RequeueType) (slot : Slot) (priority : Nat) :
    Outcome (Links × CoreRunQueue) := do
  let (next,table) ← (queue.table bank).push next slot priority
  .ok (next,queue.setTable table bank)

def addSleepingTask (tasks : Tasks) (queue : CoreRunQueue) (taskRef : TaskRef) (wakeTimeUs : Nat) : Outcome CoreRunQueue :=
  let room := if queue.sleepingTasks.length = maxTasks then purge (·.isStale tasks) queue.sleepingTasks
    else queue.sleepingTasks
  if room.length < maxTasks then .ok { queue with sleepingTasks := room ++ [⟨taskRef,wakeTimeUs⟩] } else .error .panic

/-- The tables are swapped when the first one is empty. -/
def turn (queue : CoreRunQueue) : CoreRunQueue :=
  if queue.executingTasks.isEmpty then
    { queue with executingTasks := queue.yieldingTasks, yieldingTasks := queue.executingTasks }
  else queue

def pickNextTask (next : Links) (queue : CoreRunQueue) : Outcome (Option Slot × CoreRunQueue) :=
  if queue.executingTasks.isEmpty && queue.yieldingTasks.isEmpty then .ok (none,queue)
  else do
    let (slot,table) ← queue.turn.executingTasks.popHighestPrioOldestTask next
    .ok (some slot,{ queue.turn with executingTasks := table })

/-- A queued task another core may run. -/
def takeStealableTask (next : Links) (queue : CoreRunQueue) (onCpu : Slot → Bool) :
    Outcome (Option Slot × Links × CoreRunQueue) := do
  let (slot,next',table) ← queue.executingTasks.takeTaskNotCurrentlyOnCpu next onCpu
  match slot with
  | some slot => .ok (some slot,next',{ queue with executingTasks := table })
  | none => do
    let (slot,next',table) ← queue.yieldingTasks.takeTaskNotCurrentlyOnCpu next onCpu
    .ok (slot,next',{ queue with yieldingTasks := table })

def contains (next : Links) (queue : CoreRunQueue) (slot : Slot) : Outcome Bool := do
  if ← queue.executingTasks.contains next slot then .ok true else queue.yieldingTasks.contains next slot

end CoreRunQueue
end MofuOS.Process
