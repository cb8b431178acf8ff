import MofuOS.Process.Trap
import MofuOS.Lib.Steps

/-! Cores that run ring 3 code and kernel code on the stacks of tasks and schedulers, and go from one to another. The
kernel's own code may do what it likes with the registers and the stack below its caller; what it must leave alone is
what a Rust function leaves alone. Only the words of the stacks, the saved stack pointers and SYSCALL_DATA matter here. -/
namespace MofuOS.Process.Stacks
open Lib

def guardPageSize : Nat := 4096
def perCoreStackSize : Nat := 8 * 4096
def taskKernelStackSize : Nat := 16 * 4096

/-- What runs on a stack of its own in the kernel. -/
inductive Context where
  | task (slot : Slot)
  | scheduler (core : Core)
  deriving DecidableEq, Repr

/-- Where the linker has put the statics. -/
structure Statics where
  kernelTaskStacks : Nat
  schedulerStacks : Nat
  /-- The field saved_rsp of each slot in TASKS. -/
  savedRsp : Slot → Nat
  schedulerRsp : Nat
  syscallData : Nat

namespace Statics
variable (L : Statics)

def stackBottom : Context → Nat
  | .task slot => L.kernelTaskStacks + slot * (guardPageSize + taskKernelStackSize) + guardPageSize
  | .scheduler core => L.schedulerStacks + core * (guardPageSize + perCoreStackSize) + guardPageSize

def stackTop : Context → Nat
  | .task slot => L.stackBottom (.task slot) + taskKernelStackSize
  | .scheduler core => L.stackBottom (.scheduler core) + perCoreStackSize

/-- Where switch_context stores the stack pointer of a context. -/
def rspCell : Context → Nat
  | .task slot => L.savedRsp slot
  | .scheduler core => L.schedulerRsp + 8 * core

/-- SYSCALL_DATA of a core. -/
def syscallCell (core : Core) : Nat := L.syscallData + 64 * core

end Statics

inductive Place where
  | stack (c : Context)
  | rspCell (c : Context)
  | syscallCell (core : Core)
  deriving DecidableEq, Repr

def Statics.span (L : Statics) : Place → Nat × Nat
  | .stack c => (L.stackBottom c,L.stackTop c)
  | .rspCell c => (L.rspCell c,L.rspCell c + 8)
  | .syscallCell core => (L.syscallCell core,L.syscallCell core + 16)

/-- The statics are apart, below 2^64, and aligned as they are declared. -/
structure Layout extends Statics where
  apart : ∀ p q, p ≠ q → (toStatics.span p).2 ≤ (toStatics.span q).1 ∨ (toStatics.span q).2 ≤ (toStatics.span p).1
  bounded : ∀ p, (toStatics.span p).2 < 2^64
  aligned : ∀ c, 16 ∣ toStatics.stackTop c

/-- The call a stub is in: of the handler of an interrupt, of interrupt_return_path, of handle_syscall_inner. -/
inductive Stub where
  | handler
  | returnPath
  | syscall
  deriving DecidableEq, Repr

def Stub.frameSize : Stub → Nat
  | .handler | .returnPath => trapFrameSize
  | .syscall => syscallFrameSize

/-- The end of the part of a stack that is below the frames of the stubs. -/
def Statics.limit (L : Statics) (c : Context) : List (Stub × Nat) → Nat
  | [] => L.stackTop c
  | (_,frame) :: _ => frame

def contexts : List Context := (List.finRange maxTasks).map .task ++ (List.finRange maxCores).map .scheduler

def places : List Place := contexts.map .stack ++ contexts.map .rspCell ++ (List.finRange maxCores).map .syscallCell

structure Cpu where
  regs : Reg → Nat
  rsp : Nat
  fpu : List UInt8
  /-- The first entry of the privilege stack table of the TSS. -/
  rsp0 : Nat

structure System where
  cpu : Core → Cpu
  mem : Nat → Nat
  on : Core → Context
  /-- fpu_state of each slot. -/
  fpuState : Slot → List UInt8
  /-- The stubs of a context that wait for their calls, the last first, each with the address of its frame. -/
  stubs : Context → List (Stub × Nat)
  /-- The slots with a stack that init_task_stack has made. -/
  started : Slot → Bool

namespace System
variable (L : Layout) (s : System)

def machine (core : Core) : Machine Reg := ⟨(s.cpu core).regs,(s.cpu core).rsp,s.mem⟩

def setCpu (core : Core) (cpu : Cpu) : System := { s with cpu := Function.update s.cpu core cpu }

def setMem (mem : Nat → Nat) : System := { s with mem := mem }

/-- The core goes on as m says. -/
def resume (core : Core) (m : Machine Reg) : System :=
  (s.setCpu core { s.cpu core with regs := m.regs,rsp := m.sp }).setMem m.mem

def setStubs (c : Context) (stubs : List (Stub × Nat)) : System := { s with stubs := Function.update s.stubs c stubs }

/-- The part of the stack above is that of the waiting stubs. -/
def limit (c : Context) : Nat := L.limit c (s.stubs c)

def setOn (core : Core) (c : Context) : System := { s with on := Function.update s.on core c }

section Fields
variable {s : System} {core k : Core} {cpu : Cpu} {mem : Nat → Nat} {c : Context} {stubs : List (Stub × Nat)}

@[simp] theorem setCpu_cpu : (s.setCpu core cpu).cpu = Function.update s.cpu core cpu := rfl
@[simp] theorem setCpu_mem : (s.setCpu core cpu).mem = s.mem := rfl
@[simp] theorem setCpu_on : (s.setCpu core cpu).on = s.on := rfl
@[simp] theorem setCpu_fpuState : (s.setCpu core cpu).fpuState = s.fpuState := rfl
@[simp] theorem setCpu_stubs : (s.setCpu core cpu).stubs = s.stubs := rfl
@[simp] theorem setCpu_started : (s.setCpu core cpu).started = s.started := rfl
@[simp] theorem setMem_cpu : (s.setMem mem).cpu = s.cpu := rfl
@[simp] theorem setMem_mem : (s.setMem mem).mem = mem := rfl
@[simp] theorem setMem_on : (s.setMem mem).on = s.on := rfl
@[simp] theorem setMem_fpuState : (s.setMem mem).fpuState = s.fpuState := rfl
@[simp] theorem setMem_stubs : (s.setMem mem).stubs = s.stubs := rfl
@[simp] theorem setMem_started : (s.setMem mem).started = s.started := rfl
@[simp] theorem setStubs_cpu : (s.setStubs c stubs).cpu = s.cpu := rfl
@[simp] theorem setStubs_mem : (s.setStubs c stubs).mem = s.mem := rfl
@[simp] theorem setStubs_on : (s.setStubs c stubs).on = s.on := rfl
@[simp] theorem setStubs_fpuState : (s.setStubs c stubs).fpuState = s.fpuState := rfl
@[simp] theorem setStubs_stubs : (s.setStubs c stubs).stubs = Function.update s.stubs c stubs := rfl
@[simp] theorem setStubs_started : (s.setStubs c stubs).started = s.started := rfl
@[simp] theorem setOn_cpu : (s.setOn core c).cpu = s.cpu := rfl
@[simp] theorem setOn_mem : (s.setOn core c).mem = s.mem := rfl
@[simp] theorem setOn_on : (s.setOn core c).on = Function.update s.on core c := rfl
@[simp] theorem setOn_fpuState : (s.setOn core c).fpuState = s.fpuState := rfl
@[simp] theorem setOn_stubs : (s.setOn core c).stubs = s.stubs := rfl
@[simp] theorem setOn_started : (s.setOn core c).started = s.started := rfl
@[simp] theorem resume_cpu {m : Machine Reg} :
    (s.resume core m).cpu = Function.update s.cpu core { s.cpu core with regs := m.regs,rsp := m.sp } := rfl
@[simp] theorem resume_mem {m : Machine Reg} : (s.resume core m).mem = m.mem := rfl
@[simp] theorem resume_on {m : Machine Reg} : (s.resume core m).on = s.on := rfl
@[simp] theorem resume_fpuState {m : Machine Reg} : (s.resume core m).fpuState = s.fpuState := rfl
@[simp] theorem resume_stubs {m : Machine Reg} : (s.resume core m).stubs = s.stubs := rfl
@[simp] theorem resume_started {m : Machine Reg} : (s.resume core m).started = s.started := rfl

end Fields

def userMode (core : Core) : Bool :=
  match s.on core with
  | .task slot => (s.stubs (.task slot)).isEmpty
  | .scheduler _ => false

def parked (c : Context) : Bool := (List.finRange maxCores).all fun core => s.on core ≠ c

/-- The word belongs to none of the places. -/
def elsewhere (a : Nat) : Bool := places.all fun p => a + 8 ≤ (L.span p).1 || (L.span p).2 ≤ a

/-- The word is in the part of its stack that the context may use. -/
def ownWord (c : Context) (a : Nat) : Bool := L.stackBottom c ≤ a && a + 8 ≤ s.limit L c

def store (writes : List (Nat × Nat)) : System := s.setMem (writes.foldl (fun mem w => Function.update mem w.1 w.2) s.mem)

/-- Room for what a call of switch_context pushes. -/
def roomToSwitch (core : Core) : Bool :=
  !s.userMode core && decide (L.stackBottom (s.on core) + switchFrameSize ≤ (s.cpu core).rsp)

/-- The call of switch_context from one context to another one, with the return address ret. -/
def switchTo (core : Core) (target : Context) (ret : Nat) : System :=
  let m := s.machine core
  let regs := Function.update (Function.update (Function.update m.regs .rip ret) .rdi (L.rspCell (s.on core))) .rsi
    (s.mem (L.rspCell target))
  (s.resume core (Machine.run { m with regs := regs } switchContext)).setOn core target

/-- set_syscall_stack_top and set_privilege_stack_top. -/
def setStackTop (core : Core) (top : Nat) : System :=
  (s.setCpu core { s.cpu core with rsp0 := top }).setMem (Function.update s.mem (L.syscallCell core) top)

def restoreFpu (core : Core) (slot : Slot) : System :=
  s.setCpu core { s.cpu core with fpu := s.fpuState slot }

def saveFpu (core : Core) (slot : Slot) : System :=
  { s with fpuState := Function.update s.fpuState slot (s.cpu core).fpu }

end System

/-- FpuState::new -/
def newFpuState : List UInt8 :=
  ((((((List.replicate 512 0).set 0 0x7F).set 1 0x03).set 24 0x80).set 25 0x1F).set 26 0).set 27 0

inductive Act where
  /-- Ring 3 code. -/
  | user (core : Core) (regs : Reg → Nat) (rsp : Nat) (fpu : List UInt8) (writes : List (Nat × Nat))
  /-- Code of the kernel that neither returns to a stub nor switches. -/
  | kernel (core : Core) (regs : Reg → Nat) (rsp : Nat) (writes : List (Nat × Nat))
  | interrupt (core : Core) (entry : Nat)
  /-- The handler returns, and interrupt_return_path is called. -/
  | handled (core : Core)
  | interruptExit (core : Core)
  | syscall (core : Core) (entry : Nat)
  | syscallExit (core : Core) (ss : Nat)
  | initTaskStack (core : Core) (slot : Slot) (entry userRip userRsp : Nat)
  /-- run_task -/
  | runTask (core : Core) (slot : Slot) (ret : Nat)
  /-- core_switch_executing_yielding -/
  | switchOut (core : Core) (ret : Nat)
  /-- release_task_slot -/
  | release (core : Core) (slot : Slot)

def Act.core : Act → Core
  | .user core .. | .kernel core .. | .interrupt core _ | .handled core | .interruptExit core | .syscall core _
  | .syscallExit core _ | .initTaskStack core .. | .runTask core .. | .switchOut core _ | .release core _ => core

namespace System
variable (L : Layout)

def step : Act → System → Option System
  | .user core regs rsp fpu writes,s =>
    if s.userMode core = true ∧ regs .cs = userCodeSelectorValue ∧ regs .kernelGs = (s.cpu core).regs .kernelGs ∧
        (∀ w ∈ writes, elsewhere L w.1 = true) then
      some ((s.store writes).setCpu core { s.cpu core with regs := regs,rsp := rsp,fpu := fpu })
    else none
  | .kernel core regs rsp writes,s =>
    if s.userMode core = false ∧ regs .cs = kernelCodeSelectorValue ∧ regs .ss % 4 = 0 ∧
        regs .kernelGs = (s.cpu core).regs .kernelGs ∧ (L.stackBottom (s.on core) ≤ rsp ∧ rsp ≤ s.limit L (s.on core) ∧ 8 ∣ rsp) ∧
        (∀ w ∈ writes, elsewhere L w.1 = true ∨ s.ownWord L (s.on core) w.1 = true) then
      some ((s.store writes).setCpu core { s.cpu core with regs := regs,rsp := rsp })
    else none
  | .interrupt core entry,s =>
    if L.stackBottom (s.on core) + trapFrameSize ≤ interruptTop (s.cpu core).rsp0 (s.machine core) then
      let m := interruptStub (s.cpu core).rsp0 entry (s.machine core)
      some ((s.resume core m).setStubs (s.on core) ((.handler,m.sp) :: s.stubs (s.on core)))
    else none
  | .handled core,s =>
    match s.stubs (s.on core) with
    | (.handler,frame) :: rest =>
      if (s.cpu core).rsp = frame then
        some ((s.setMem (interruptReturnPath frame s.mem)).setStubs (s.on core) ((.returnPath,frame) :: rest))
      else none
    | _ => none
  | .interruptExit core,s =>
    match s.stubs (s.on core) with
    | (.returnPath,frame) :: rest =>
      if (s.cpu core).rsp = frame then
        (Process.interruptExit (s.machine core)).map fun m => (s.resume core m).setStubs (s.on core) rest
      else none
    | _ => none
  | .syscall core entry,s =>
    if s.userMode core = true then
      let m := syscallHandler entry (s.machine core)
      some ((s.resume core m).setStubs (s.on core) ((.syscall,m.sp) :: s.stubs (s.on core)))
    else none
  | .syscallExit core ss,s =>
    match s.stubs (s.on core) with
    | (.syscall,frame) :: rest =>
      if (s.cpu core).rsp = frame then
        some ((s.resume core (Process.syscallExit ss (s.machine core))).setStubs (s.on core) rest)
      else none
    | _ => none
  | .initTaskStack core slot entry userRip userRsp,s =>
    if s.userMode core = false ∧ s.started slot = false then
      let frame := L.stackTop (.task slot) - trapFrameSize
      let saved := frame - switchFrameSize
      let mem := writeWords s.mem saved (initialStack entry userRip userRsp)
      some { s with mem := Function.update mem (L.rspCell (.task slot)) saved,
                    stubs := Function.update s.stubs (.task slot) [(.returnPath,frame)],
                    fpuState := Function.update s.fpuState slot newFpuState,
                    started := Function.update s.started slot true }
    else none
  | .runTask core slot ret,s =>
    if s.on core = .scheduler core ∧ s.started slot = true ∧ s.parked (.task slot) = true ∧ s.roomToSwitch L core = true then
      some (((s.setStackTop L core (L.stackTop (.task slot))).restoreFpu core slot).switchTo L core (.task slot) ret)
    else none
  | .switchOut core ret,s =>
    match s.on core with
    | .task slot =>
      if s.roomToSwitch L core = true then some ((s.saveFpu core slot).switchTo L core (.scheduler core) ret) else none
    | .scheduler _ => none
  | .release core slot,s =>
    if s.on core = .scheduler core ∧ s.parked (.task slot) = true then
      some { s.setStubs (.task slot) [] with started := Function.update s.started slot false }
    else none

end System
end MofuOS.Process.Stacks
