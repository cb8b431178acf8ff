import MofuOS.Usize
import Mathlib.Data.List.FinRange

/-! The task table: one slot for each task, recycled when the task has exited. -/
namespace MofuOS.Process

def maxTasks : Nat := 64
def maxCores : Nat := 4

instance : NeZero maxTasks := ⟨by decide⟩
instance : NeZero maxCores := ⟨by decide⟩

/-- An index of the task table. Where the source has INVALID_SLOT an optional slot is none. -/
abbrev Slot := Fin maxTasks
abbrev Core := Fin maxCores

def invalidPid : Nat := usizeMax

inductive TaskState where
  | free
  | creating
  | ready
  | running
  | blocked
  | dead
  deriving DecidableEq, Repr

/-- A task as the wait lists remember it. A pid is never used twice, so it tells a recycled slot. -/
structure TaskRef where
  slot : Slot
  pid : Nat
  deriving DecidableEq, Repr

/-- A slot of the table. The links of the run queues are a table of their own. -/
structure TaskSlot where
  pid : Nat := invalidPid
  state : TaskState := .free
  priority : Nat := 0
  homeCore : Core := 0
  onCpu : Bool := false
  killPending : Bool := false
  exitCodeRequest : Int := 0
  deriving DecidableEq, Repr

namespace TaskSlot

def setState (task : TaskSlot) (state : TaskState) : TaskSlot := { task with state := state }

/-- The compare-and-swap on the state: nothing when the task was not in the first one. -/
def transition (task : TaskSlot) (source target : TaskState) : Option TaskSlot :=
  if task.state = source then some (task.setState target) else none

theorem transition_eq_some {task task' : TaskSlot} {source target : TaskState} :
    task.transition source target = some task' ↔ task.state = source ∧ task' = task.setState target := by
  rw [transition]
  split_ifs with h
  · exact ⟨fun e => ⟨h,(Option.some.inj e).symm⟩,fun e => congrArg some e.2.symm⟩
  · exact ⟨(nomatch ·),fun e => absurd e.1 h⟩

/-- A compare-and-swap whose answer is not used changes the state alone. -/
theorem getD_transition (task : TaskSlot) (source target : TaskState) :
    (task.transition source target).getD task = task.setState (if task.state = source then target else task.state) := by
  rw [transition]
  split_ifs <;> rfl

end TaskSlot

abbrev Tasks := Slot → TaskSlot

def Tasks.new : Tasks := fun _ => {}

/-- A task changes and keeps one of its fields. -/
theorem Tasks.field_update {β : Type} {tasks : Tasks} {slot : Slot} {task : TaskSlot} (field : TaskSlot → β)
    (h : field task = field (tasks slot)) (x : Slot) : field (Function.update tasks slot task x) = field (tasks x) := by
  by_cases hx : x = slot
  · rw [hx,Function.update_self,h]
  · rw [Function.update_of_ne hx]

def findSlotByPid (tasks : Tasks) (pid : Nat) : Option Slot :=
  (List.finRange maxTasks).find? fun slot => (tasks slot).pid = pid

/-- What allocate_task_slot leaves in the slot it has reserved. -/
def TaskSlot.allocated (pid priority : Nat) (homeCore : Core) : TaskSlot :=
  { pid := pid, state := .creating, priority := priority, homeCore := homeCore }

def allocateTaskSlot (tasks : Tasks) (pid priority : Nat) (homeCore : Core) : Option (Slot × Tasks) :=
  ((List.finRange maxTasks).find? fun slot => (tasks slot).state = .free).map fun slot =>
    (slot,Function.update tasks slot (.allocated pid priority homeCore))

def releaseTaskSlot (tasks : Tasks) (slot : Slot) : Tasks :=
  Function.update tasks slot { tasks slot with pid := invalidPid, state := .free }

end MofuOS.Process
