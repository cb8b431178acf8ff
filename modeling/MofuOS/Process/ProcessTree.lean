import MofuOS.Lib.Steps
import MofuOS.Process.CreateProcess

/-! The process table of process/process_manager.rs as a tree: the parent of each process, and the children it
is said to have. -/
namespace MofuOS.Process.ProcessTree
open Lib

def archePid : Nat := 0

inductive ProcessState where
  | ready
  | running
  | waiting
  | terminated
  deriving DecidableEq, Repr

/-- The fields of a process that the table is read by. -/
structure ProcessRecord where
  pid : Nat
  parentPid : Nat
  state : ProcessState := .ready
  children : List Nat := []
  exitCode : Option Int32 := none
  deriving DecidableEq, Repr

structure ProcessManager where
  processes : List ProcessRecord
  newPid : Nat
  deriving DecidableEq, Repr

inductive TerminateError where
  | processNotFound
  | doubleDelete
  deriving DecidableEq, Repr

/-- A pid that get_process takes. -/
def ProcessId : Type := { pid : Nat // pid ≠ invalidPid }

/-- The change of the first process with the pid, if there is one. -/
def updateProcess (pid : Nat) (f : ProcessRecord → ProcessRecord) : List ProcessRecord → List ProcessRecord
  | [] => []
  | process :: processes => if process.pid = pid then f process :: processes else process :: updateProcess pid f processes

namespace ProcessManager

/-- The table that arche is alone in. -/
def initArche : ProcessManager := ⟨[{ pid := archePid, parentPid := archePid }],1⟩

def getProcess (pid : Nat) (m : ProcessManager) : Outcome (Option ProcessRecord) :=
  if pid = invalidPid then .error .panic else .ok (m.processes.find? fun process => process.pid = pid)

def update (pid : Nat) (f : ProcessRecord → ProcessRecord) (m : ProcessManager) : ProcessManager :=
  { m with processes := updateProcess pid f m.processes }

/-- The creation of a process, given whether its memory and its task slot could be had. -/
def createProcessFromElf (parentPid : Nat) (built : Except ProcessError Unit) (m : ProcessManager) :
    Outcome (Except ProcessError Nat × ProcessManager) := do
  match ← m.getProcess parentPid with
  | none => .ok (.error .parentNotFound,m)
  | some _ =>
    match built with
    | .error e => .ok (.error e,{ m with newPid := m.newPid + 1 })
    | .ok () => .ok (.ok m.newPid,⟨m.processes ++ [{ pid := m.newPid, parentPid }],m.newPid + 1⟩)

/-- A child of a process that has ended goes to arche. -/
def reparent (m : ProcessManager) (childPid : Nat) : Outcome ProcessManager := do
  let child ← m.getProcess childPid
  let m := if child.isSome then m.update childPid ({ · with parentPid := archePid }) else m
  let arche ← m.getProcess archePid
  .ok (if arche.isSome then m.update archePid fun arche => { arche with children := arche.children ++ [childPid] } else m)

/-- The children that are asked to end as well, when the process does. -/
def terminateProcess (pid : Nat) (exitCode : Int32) (cascade : Bool) (m : ProcessManager) :
    Outcome (Except TerminateError (List Nat) × ProcessManager) := do
  if pid = invalidPid then .ok (.error .doubleDelete,m)
  else
    match ← m.getProcess pid with
    | none => .ok (.error .processNotFound,m)
    | some process =>
      let ended := m.update pid ({ · with state := .terminated, exitCode := some exitCode })
      if cascade then .ok (.ok process.children,ended)
      else do
        let m ← process.children.foldlM reparent ended
        .ok (.ok [],m)

def cleanupDead (m : ProcessManager) : ProcessManager :=
  { m with processes := m.processes.filter fun process => process.state ≠ .terminated }

end ProcessManager

inductive Call where
  | createProcessFromElf (parentPid : ProcessId) (built : Except ProcessError Unit)
  | terminateProcess (pid : Nat) (exitCode : Int32)
  | cleanupDead

/-- The table after a call, unless the call panics. -/
def exec : Call → ProcessManager → Option ProcessManager
  | .createProcessFromElf parentPid built,m => (m.createProcessFromElf parentPid.val built).toOption.map Prod.snd
  | .terminateProcess pid exitCode,m => (m.terminateProcess pid exitCode false).toOption.map Prod.snd
  | .cleanupDead,m => some m.cleanupDead

/-- Every process that has not ended, but arche, is the child of one that has not. -/
def Connected (m : ProcessManager) : Prop :=
  ∀ process ∈ m.processes, process.state ≠ .terminated → process.pid ≠ archePid →
    ∃ parent ∈ m.processes, parent.pid = process.parentPid ∧ parent.state ≠ .terminated ∧
      parent.children.count process.pid = 1

/-- The call makes a process: its parent is there, its file can be loaded, and there is a slot for its task. -/
def Creates : Call → ProcessManager → Prop
  | .createProcessFromElf parentPid built,m => (∃ parent ∈ m.processes, parent.pid = parentPid.val) ∧ built = .ok ()
  | _,_ => False

/-- No process is ever entered into a list of children. -/
structure Childless (m : ProcessManager) : Prop where
  children : ∀ process ∈ m.processes, process.children = []
  newPid : 0 < m.newPid

section Table
variable {m t : ProcessManager} {pid : Nat} {f : ProcessRecord → ProcessRecord} {call : Call}

theorem mem_updateProcess {processes : List ProcessRecord} {process : ProcessRecord} (h : process ∈ updateProcess pid f processes) :
    ∃ old ∈ processes, process = old ∨ process = f old := by
  induction processes with
  | nil => cases h
  | cons first processes ih =>
    rw [updateProcess] at h
    split_ifs at h
    · obtain rfl | h := List.mem_cons.mp h
      · exact ⟨first,List.mem_cons_self,.inr rfl⟩
      · exact ⟨process,List.mem_cons_of_mem _ h,.inl rfl⟩
    · obtain rfl | h := List.mem_cons.mp h
      · exact ⟨process,List.mem_cons_self,.inl rfl⟩
      · obtain ⟨old,hold,hprocess⟩ := ih h
        exact ⟨old,List.mem_cons_of_mem _ hold,hprocess⟩

theorem getProcess_of_ne (h : pid ≠ invalidPid) : m.getProcess pid = .ok (m.processes.find? fun process => process.pid = pid) :=
  if_neg h

/-- What each call does to a table without children. -/
theorem exec_cases (hm : Childless m) (call : Call) : ∃ t, exec call m = some t ∧
    ((Creates call m ∧ ∃ parentPid, t = ⟨m.processes ++ [{ pid := m.newPid, parentPid }],m.newPid + 1⟩) ∨
      (¬ Creates call m ∧ m.newPid ≤ t.newPid ∧
        ∀ process ∈ t.processes, ∃ old ∈ m.processes, process.pid = old.pid ∧ process.children = old.children)) := by
  have hsame : ∀ process ∈ m.processes, ∃ old ∈ m.processes, process.pid = old.pid ∧ process.children = old.children :=
    fun process hprocess => ⟨process,hprocess,rfl,rfl⟩
  cases call with
  | createProcessFromElf parentPid built =>
    simp only [exec,ProcessManager.createProcessFromElf,getProcess_of_ne parentPid.property,ok_bind,Creates]
    cases hfind : m.processes.find? fun process => process.pid = parentPid.val with
    | none =>
      refine ⟨m,rfl,.inr ⟨?_,Nat.le_refl _,hsame⟩⟩
      rintro ⟨⟨parent,hparent,hpid⟩,-⟩
      exact List.find?_eq_none.mp hfind parent hparent (decide_eq_true hpid)
    | some parent =>
      have hparent : ∃ parent ∈ m.processes, parent.pid = parentPid.val :=
        ⟨parent,List.mem_of_find?_eq_some hfind,by simpa using List.find?_some hfind⟩
      cases built with
      | error e => exact ⟨_,rfl,.inr ⟨fun h => absurd h.2 nofun,Nat.le_succ _,hsame⟩⟩
      | ok _ => exact ⟨_,rfl,.inl ⟨⟨hparent,rfl⟩,parentPid.val,rfl⟩⟩
  | terminateProcess pid exitCode =>
    by_cases hpid : pid = invalidPid
    · exact ⟨m,by simp only [exec,ProcessManager.terminateProcess,if_pos hpid]; rfl,.inr ⟨id,Nat.le_refl _,hsame⟩⟩
    · simp only [exec,ProcessManager.terminateProcess,if_neg hpid,getProcess_of_ne hpid,ok_bind]
      cases hfind : m.processes.find? fun process => process.pid = pid with
      | none => exact ⟨m,rfl,.inr ⟨id,Nat.le_refl _,hsame⟩⟩
      | some process =>
        have hchildren := hm.children process (List.mem_of_find?_eq_some hfind)
        refine ⟨m.update pid ({ · with state := .terminated, exitCode := some exitCode }),by simp only [hchildren]; rfl,
          .inr ⟨id,Nat.le_refl _,fun p hp => ?_⟩⟩
        obtain ⟨old,hold,rfl | rfl⟩ := mem_updateProcess hp
        · exact hsame p hold
        · exact ⟨old,hold,rfl,rfl⟩
  | cleanupDead =>
    exact ⟨_,rfl,.inr ⟨id,Nat.le_refl _,fun process hprocess => hsame process (List.mem_filter.mp hprocess).1⟩⟩

theorem Childless.exec (hm : Childless m) (h : exec call m = some t) : Childless t := by
  obtain ⟨t',ht',⟨-,parentPid,rfl⟩ | ⟨-,hpid,hold⟩⟩ := exec_cases hm call
  · cases ht'.symm.trans h
    refine ⟨fun process hprocess => ?_,Nat.succ_pos _⟩
    obtain hprocess | hprocess := List.mem_append.mp hprocess
    · exact hm.children process hprocess
    · rw [List.mem_singleton.mp hprocess]
  · cases ht'.symm.trans h
    refine ⟨fun process hprocess => ?_,Nat.lt_of_lt_of_le hm.newPid hpid⟩
    obtain ⟨old,hmem,-,hchildren⟩ := hold process hprocess
    rw [hchildren,hm.children old hmem]

/-- As no list of children names anybody, only arche can be where it should be. -/
theorem Childless.connected_iff (hm : Childless m) :
    Connected m ↔ ∀ process ∈ m.processes, process.state ≠ .terminated → process.pid = archePid := by
  constructor
  · intro h process hprocess hstate
    by_contra hpid
    obtain ⟨parent,hparent,-,-,hcount⟩ := h process hprocess hstate hpid
    rw [hm.children parent hparent,List.count_nil] at hcount
    exact absurd hcount (by decide)
  · intro h process hprocess hstate hpid
    exact absurd (h process hprocess hstate) hpid

end Table

theorem initArche_childless : Childless .initArche := ⟨by decide,by decide⟩

/-- After any calls the tree is connected when arche is the only process that has not ended, and not otherwise. -/
theorem reachable_connected_iff {calls : List Call} {t : ProcessManager} (h : steps exec calls .initArche = some t) :
    Connected t ↔ ∀ process ∈ t.processes, process.state ≠ .terminated → process.pid = archePid :=
  (steps_keep (I := Childless) (fun _ _ _ hm => hm.exec) initArche_childless h).connected_iff

/-- The tree stays connected exactly as long as no process is created. -/
theorem connected_iff_creates_nothing (calls : List Call) :
    (∀ done t, done <+: calls → steps exec done .initArche = some t → Connected t) ↔
      stepsMeet exec (fun call m => ¬ Creates call m) calls .initArche := by
  refine steps_all_iff (I := fun m => Childless m ∧ ∀ process ∈ m.processes, process.pid = archePid)
    (fun m hm => hm.1.connected_iff.mpr fun process hprocess _ => hm.2 process hprocess) ?_ ⟨initArche_childless,by decide⟩
  rintro call m ⟨hm,harche⟩
  obtain ⟨t,ht,⟨hcreates,parentPid,htable⟩ | ⟨hnot,-,hold⟩⟩ := exec_cases hm call
  · refine ⟨t,ht,fun h => absurd hcreates h,fun hconnected _ => ?_⟩
    have hnew : ({ pid := m.newPid, parentPid } : ProcessRecord) ∈ t.processes := by
      rw [htable]
      exact List.mem_append_right _ List.mem_cons_self
    exact hm.newPid.ne' ((hm.exec ht).connected_iff.mp hconnected _ hnew nofun)
  · refine ⟨t,ht,fun _ => ⟨hm.exec ht,fun process hprocess => ?_⟩,fun _ => hnot⟩
    obtain ⟨old,hmem,hpid,-⟩ := hold process hprocess
    rw [hpid,harche old hmem]

/-- Arche makes process 1, which makes process 2 and ends: arche has no child, and 2 still has its dead parent. -/
def orphaning : List Call :=
  [.createProcessFromElf ⟨0,by decide⟩ (.ok ()),.createProcessFromElf ⟨1,by decide⟩ (.ok ()),.terminateProcess 1 0]

theorem orphaning_disconnects : ∃ t, steps exec orphaning .initArche = some t ∧
    t.processes = [{ pid := 0, parentPid := 0 },{ pid := 1, parentPid := 0, state := .terminated, exitCode := some 0 },
      { pid := 2, parentPid := 1 }] ∧ ¬ Connected t := by
  refine ⟨_,rfl,rfl,fun h => ?_⟩
  obtain ⟨parent,hparent,hpid,hstate,-⟩ := h { pid := 2, parentPid := 1 } (by decide) nofun (by decide)
  revert parent
  decide

section Creation
variable {F : Type} [DecidableEq F] {s s' : ProcessSystem F} {m : ProcessManager}

/-- The table that the creation of processes works on, and this one. -/
structure Mirrors (s : ProcessSystem F) (m : ProcessManager) : Prop where
  newPid : m.newPid = s.kernel.newPid
  processes : m.processes.map (fun process => (process.pid,process.parentPid)) = s.processes.map fun process => (process.pid,process.parentPid)

private theorem enqueue_newPid {k k' : Kernel} {core : Core} {slot : Slot} {priority : Nat}
    (h : k.coreEnqueueReadyTask core slot priority = .ok k') : k'.newPid = k.newPid := by
  obtain ⟨queued,hpush,h⟩ := bind_eq_ok h
  obtain ⟨⟨next,queue⟩,-,hqueued⟩ := bind_eq_ok hpush
  cases hqueued
  cases h
  split_ifs <;> rfl

private theorem create_newPid {k k' : Kernel} {core : Core} {priority : Nat} (h : k.create core priority = .ok k') :
    k'.newPid = k.newPid + 1 := by
  unfold Kernel.create at h
  cases hslot : allocateTaskSlot k.tasks k.newPid priority core with
  | none =>
    rw [hslot] at h
    cases h
    rfl
  | some slot =>
    simp only [hslot] at h
    exact enqueue_newPid h

private theorem find?_pid_eq_none {α : Type} {pid : α → Nat} {x : Nat} {l : List α} :
    (l.find? fun a => pid a = x) = none ↔ x ∉ l.map pid := by
  simp only [List.find?_eq_none,decide_eq_true_eq,List.mem_map,not_exists,not_and]

/-- A creation with its memory and its task is one of the table's calls. -/
theorem createProcessFromElf_mirrors [Memory.Mapper F] {shared : List (SharedRegion F)} {totalCores parentPid priority : Nat} {elfInfo : ElfLoadInfo}
    {name : String} {answer : Except ProcessError Nat} (hm : Mirrors s m)
    (h : s.createProcessFromElf shared totalCores parentPid elfInfo name priority = .ok (answer,s')) :
    ∃ built m', m.createProcessFromElf parentPid built = .ok (answer,m') ∧ Mirrors s' m' := by
  obtain ⟨found,hget,h⟩ := bind_eq_ok h
  have hpid : parentPid ≠ invalidPid := by
    rintro rfl
    rw [ProcessSystem.getProcess,if_pos rfl] at hget
    cases hget
  rw [ProcessSystem.getProcess,if_neg hpid] at hget
  cases hget
  have hpids : m.processes.map (·.pid) = s.processes.map (·.pid) := by
    have hfst := congrArg (List.map Prod.fst) hm.processes
    rwa [List.map_map,List.map_map] at hfst
  simp only [ProcessManager.createProcessFromElf,getProcess_of_ne hpid,ok_bind]
  cases hfind : s.processes.find? fun process => process.pid = parentPid with
  | none =>
    rw [hfind] at h
    cases h
    rw [find?_pid_eq_none,← hpids,← find?_pid_eq_none] at hfind
    exact ⟨.ok (),m,by simp only [hfind],hm⟩
  | some parent =>
    have hsome : (m.processes.find? fun process => process.pid = parentPid) ≠ none := by
      rw [Ne,find?_pid_eq_none,hpids,← find?_pid_eq_none,hfind]
      nofun
    obtain ⟨parent',hparent'⟩ := Option.ne_none_iff_exists'.mp hsome
    rw [hfind] at h
    obtain ⟨loaded,-,h⟩ := bind_eq_ok h
    have hnext := congrArg (· + 1) hm.newPid
    simp only [hparent']
    cases loaded with
    | error memory =>
      cases h
      exact ⟨.error .schedulerError,_,rfl,hnext,hm.processes⟩
    | ok space =>
      dsimp only at h
      cases hslot : allocateTaskSlot s.kernel.tasks s.kernel.newPid priority (leastLoadedCore totalCores s.kernel) with
      | none =>
        rw [hslot] at h
        cases h
        exact ⟨.error .outOfTaskSlots,_,rfl,hnext,hm.processes⟩
      | some slot =>
        rw [hslot] at h
        obtain ⟨kernel,hkernel,h⟩ := bind_eq_ok h
        cases h
        refine ⟨.ok (),_,by rw [hm.newPid],(create_newPid hkernel).symm,?_⟩
        simp only [List.map_append,hm.processes,List.map_cons,List.map_nil]

end Creation
end MofuOS.Process.ProcessTree
