import MofuOS.Lib.StackCode
import MofuOS.Process.Task
import Mathlib.Tactic

/-! The code that goes between ring 3 and the kernel, and from one kernel stack to another, instruction for instruction. -/
namespace MofuOS.Process
open Lib

inductive Reg where
  | rax | rcx | rdx | rbx | rbp | rsi | rdi | r8 | r9 | r10 | r11 | r12 | r13 | r14 | r15
  | rip | cs | rflags | ss
  /-- The bases behind GS and MSR_KERNEL_GS_BASE. -/
  | gs | kernelGs
  deriving DecidableEq, Repr

def kernelCodeSelectorValue : Nat := 0x08
def kernelDataSelectorValue : Nat := 0x10
def userDataSelectorValue : Nat := 0x18 ||| 3
def userCodeSelectorValue : Nat := 0x20 ||| 3
def rflagsDefault : Nat := 0x202
/-- The interrupt flag, which is all of SFMASK. -/
def interruptFlag : Nat := 1 <<< 9

def pushAllGprs : List Reg := [.rax,.rcx,.rdx,.rbx,.rbp,.rsi,.rdi,.r8,.r9,.r10,.r11,.r12,.r13,.r14,.r15]
def popAllGprs : List Reg := [.r15,.r14,.r13,.r12,.r11,.r10,.r9,.r8,.rdi,.rsi,.rbp,.rbx,.rdx,.rcx,.rax]

/-- A TrapFrame, lowest address first. -/
def trapFrame (regs : Reg → Nat) (rsp : Nat) : List Nat :=
  popAllGprs.map regs ++ [regs .rip,regs .cs,regs .rflags,rsp,regs .ss]

def trapFrameSize : Nat := 160
def csOffset : Nat := 128
def ssOffset : Nat := 152

/-- What the CPU does on an interrupt: it takes RSP0 when the code was in ring 3, aligns the stack and pushes. -/
def deliverInterrupt (rsp0 entry : Nat) (m : Machine Reg) : Machine Reg :=
  let user := m.regs .cs % 4 == 3
  let pushed := Machine.pushWords { m with sp := (if user then rsp0 else m.sp) / 16 * 16 }
    [m.regs .ss,m.sp,m.regs .rflags,m.regs .cs,m.regs .rip]
  { pushed with regs := fun
    | .cs => kernelCodeSelectorValue
    | .ss => if user then 0 else m.regs .ss
    | .rip => entry
    | .rflags => m.regs .rflags - (m.regs .rflags &&& interruptFlag)
    | r => m.regs r }

/-- interrupt_stub up to the call of the handler. -/
def interruptStub (rsp0 entry : Nat) (m : Machine Reg) : Machine Reg :=
  (deliverInterrupt rsp0 entry m).run (pushAllGprs.map .push ++ [.readSp .rdi])

/-- interrupt_return_path, up to exit_to_user. -/
def interruptReturnPath (frame : Nat) (mem : Nat → Nat) : Nat → Nat :=
  if mem (frame + csOffset) % 4 ≠ 3 then mem else Function.update mem (frame + ssOffset) userDataSelectorValue

/-- It faults when the two selectors are for different rings. -/
def iretq (m : Machine Reg) : Option (Machine Reg) :=
  let m := m.run [.pop .rip,.pop .cs,.pop .rflags]
  let ss := m.mem (Machine.up m.sp)
  if ss % 4 = m.regs .cs % 4 then some { m with regs := Function.update m.regs .ss ss,sp := m.mem m.sp } else none

/-- interrupt_stub behind its calls, and task_first_entry behind its check. -/
def interruptExit (m : Machine Reg) : Option (Machine Reg) := iretq (m.run (popAllGprs.map .pop))

def userRspOffset : Nat := 8

def syscallPushes : List Reg := [.rcx,.r11,.rax,.rdi,.rsi,.rdx,.r10,.r8,.r9,.rbx,.rbp,.r12,.r13,.r14,.r15]
def syscallPops : List Reg := [.r15,.r14,.r13,.r12,.rbp,.rbx,.r9,.r8,.r10,.rdx,.rsi,.rdi]

/-- The syscall instruction. -/
def enterSyscall (entry : Nat) (m : Machine Reg) : Machine Reg :=
  { m with regs := fun
    | .rcx => m.regs .rip
    | .r11 => m.regs .rflags
    | .rip => entry
    | .rflags => m.regs .rflags - (m.regs .rflags &&& interruptFlag)
    | .cs => kernelCodeSelectorValue
    | .ss => kernelDataSelectorValue
    | r => m.regs r }

/-- syscall_handler up to the call of handle_syscall_inner. -/
def syscallHandler (entry : Nat) (m : Machine Reg) : Machine Reg :=
  (enterSyscall entry m).run ([.swap .gs .kernelGs,.storeSp .gs userRspOffset,.loadSp .gs 0,.pushAt .gs userRspOffset,
    .swap .gs .kernelGs] ++ syscallPushes.map .push ++ [.readSp .rdi])

/-- The sysretq instruction. The SS that is seen behind it depends on the machine. -/
def sysretq (ss : Nat) (m : Machine Reg) : Machine Reg :=
  { m with regs := fun
    | .rip => m.regs .rcx
    | .rflags => (m.regs .r11 &&& 0x3C7FD7) ||| 2
    | .cs => userCodeSelectorValue
    | .ss => ss
    | r => m.regs r }

/-- syscall_handler behind the call. -/
def syscallExit (ss : Nat) (m : Machine Reg) : Machine Reg :=
  sysretq ss (m.run (syscallPops.map .pop ++ [.drop,.pop .r11,.pop .rcx,.popSp]))

/-- A SyscallFrame, lowest address first. -/
def syscallFrame (regs : Reg → Nat) (rsp : Nat) : List Nat :=
  syscallPops.map regs ++ [regs .rax,regs .rflags,regs .rip,rsp]

def syscallFrameSize : Nat := 128

def calleeSaved : List Reg := [.rbx,.rbp,.r12,.r13,.r14,.r15]

/-- The call of switch_context, which pushes the return address, and its code. -/
def switchContext : List (Move Reg) :=
  [.push .rip] ++ ([.push .rbx,.push .rbp,.push .r12,.push .r13,.push .r14,.push .r15,
    .storeSp .rdi 0,.setSp .rsi,
    .pop .r15,.pop .r14,.pop .r13,.pop .r12,.pop .rbp,.pop .rbx,.pop .rip])

def switchFrameSize : Nat := 56

/-- The registers of a task that has never run. -/
def initialRegs (userRip : Nat) : Reg → Nat
  | .rip => userRip
  | .cs => userCodeSelectorValue
  | .rflags => rflagsDefault
  | .ss => userDataSelectorValue
  | _ => 0

/-- The words of init_task_stack: the callee-saved registers, the return address and the trap frame. -/
def initialStack (taskFirstEntry userRip userRsp : Nat) : List Nat :=
  List.replicate calleeSaved.length 0 ++ [taskFirstEntry] ++ trapFrame (initialRegs userRip) userRsp

/-- The registers that code in the kernel may leave changed when it returns to another stack. -/
def keptBySwitch : List Reg := .rip :: calleeSaved

theorem switchContext_eq : switchContext = Machine.exchange keptBySwitch .rdi .rsi := rfl

theorem length_trapFrame (regs : Reg → Nat) (rsp : Nat) : 8 * (trapFrame regs rsp).length = trapFrameSize := rfl

section Specs
variable {m : Machine Reg} {rsp0 entry top : Nat} {f : Reg → Nat} {rsp : Nat}

/-- The stack that an interrupt is taken on. -/
def interruptTop (rsp0 : Nat) (m : Machine Reg) : Nat := (if m.regs .cs % 4 == 3 then rsp0 else m.sp) / 16 * 16

/-- An interrupt leaves the registers of the code it came from in a frame on that stack. -/
theorem interruptStub_spec (entry : Nat) (htop : interruptTop rsp0 m = top) (h : trapFrameSize ≤ top) (hlt : top < 2^64) :
    let m' := interruptStub rsp0 entry m
    m'.sp = top - trapFrameSize ∧ WordsAt m'.mem (top - trapFrameSize) (trapFrame m.regs m.sp) ∧
      (∀ x, x < top - trapFrameSize ∨ top ≤ x → m'.mem x = m.mem x) ∧ m'.regs .cs = kernelCodeSelectorValue ∧
      m'.regs .ss = (if m.regs .cs % 4 == 3 then 0 else m.regs .ss) ∧ m'.regs .kernelGs = m.regs .kernelGs := by
  intro m'
  rw [trapFrameSize] at h ⊢
  obtain ⟨mem₁,h₁,hw₁,hr₁⟩ := Machine.pushWords_of_le
    (m := ⟨m.regs,top,m.mem⟩) (show 8 * [m.regs .ss,m.sp,m.regs .rflags,m.regs .cs,m.regs .rip].length ≤ top by
      simp only [List.length_cons,List.length_nil]
      omega) hlt
  have hdel : deliverInterrupt rsp0 entry m = ⟨(deliverInterrupt rsp0 entry m).regs,top - 40,mem₁⟩ := by
    rw [interruptTop] at htop
    simp only [deliverInterrupt,htop]
    rw [h₁]
    rfl
  obtain ⟨mem₂,h₂,hw₂,hr₂⟩ := Machine.run_push (m := ⟨(deliverInterrupt rsp0 entry m).regs,top - 40,mem₁⟩)
    (show 8 * pushAllGprs.length ≤ top - 40 by
      rw [show pushAllGprs.length = 15 from rfl]
      omega) (show top - 40 < 2^64 by omega)
  have hbase : top - 40 - 8 * pushAllGprs.length = top - 160 := by
    rw [show pushAllGprs.length = 15 from rfl]
    omega
  rw [show (⟨(deliverInterrupt rsp0 entry m).regs,top - 40,mem₁⟩ : Machine Reg).sp = top - 40 from rfl,hbase] at h₂ hw₂ hr₂
  have hm' : m' = ⟨Function.update (deliverInterrupt rsp0 entry m).regs .rdi (top - 160),top - 160,mem₂⟩ := by
    show interruptStub rsp0 entry m = _
    rw [interruptStub,Machine.run_append,hdel,h₂]
    rfl
  rw [hm']
  refine ⟨rfl,?_,fun x hx => ?_,rfl,rfl,rfl⟩
  · rw [trapFrame,wordsAt_append]
    refine ⟨hw₂,?_⟩
    rw [show top - 160 + 8 * (popAllGprs.map m.regs).length = top - 40 by
      rw [List.length_map,show popAllGprs.length = 15 from rfl]
      omega]
    exact hw₁.congr fun x hx _ => hr₂ x (.inr hx)
  · exact (hr₂ x (by omega)).trans (hr₁ x (by simp only [List.length_cons,List.length_nil]; omega))

/-- The registers of a frame, with the GS bases of the core. -/
def restored (regs f : Reg → Nat) : Reg → Nat
  | .gs => regs .gs
  | .kernelGs => regs .kernelGs
  | r => f r

/-- The registers that the exit pops on its own stack. -/
private def exitPops : List Reg := popAllGprs ++ [.rip,.cs,.rflags]

/-- The exit loads the registers of the frame, if its selectors are for one ring. -/
theorem interruptExit_spec (h : WordsAt m.mem m.sp (trapFrame f rsp)) (hlt : m.sp + trapFrameSize < 2^64) :
    interruptExit m = if f .ss % 4 = f .cs % 4 then some ⟨restored m.regs f,rsp,m.mem⟩ else none := by
  rw [trapFrameSize] at hlt
  have hframe : trapFrame f rsp = exitPops.map f ++ [rsp,f .ss] := rfl
  rw [hframe,wordsAt_append,List.length_map] at h
  obtain ⟨hwords,hsp,hss,-⟩ := h
  have hlen : exitPops.length = 18 := rfl
  rw [hlen] at hsp hss
  have hpop := Machine.run_pop hwords (List.length_map ..) (by rw [hlen]; omega)
  have hrun : (m.run (popAllGprs.map .pop)).run [.pop .rip,.pop .cs,.pop .rflags] =
      m.run (exitPops.map .pop) := by
    rw [exitPops,List.map_append,Machine.run_append]
    rfl
  rw [interruptExit,iretq,hrun,hpop,hlen]
  have hcs : Machine.assign m.regs exitPops (exitPops.map f) .cs = f .cs := rfl
  simp only [Machine.up_of_lt (show m.sp + 8 * 18 + 8 < 2^64 by omega),hss,hsp,hcs]
  refine if_congr Iff.rfl (congrArg some (congrArg (Machine.mk · rsp m.mem) (funext fun r => ?_))) rfl
  cases r <;> rfl

/-- syscall_handler takes the stack that GS names, and pushes the stack pointer of its caller there. -/
private theorem enterStack (hne : m.mem (m.regs .kernelGs) = top) :
    m.run [.swap .gs .kernelGs,.storeSp .gs userRspOffset,.loadSp .gs 0,.pushAt .gs userRspOffset,.swap .gs .kernelGs] =
      (⟨m.regs,top,Function.update m.mem (m.regs .kernelGs + userRspOffset) m.sp⟩ : Machine Reg).pushWord m.sp := by
  have hswap : Function.update (Function.update (Function.update (Function.update m.regs .gs (m.regs .kernelGs)) .kernelGs
      (m.regs .gs)) .gs (m.regs .gs)) .kernelGs (m.regs .kernelGs) = m.regs := by
    funext r
    cases r <;> rfl
  have hgs : Function.update (Function.update m.regs .gs (m.regs .kernelGs)) .kernelGs (m.regs .gs) .gs = m.regs .kernelGs := rfl
  have htop : Function.update m.mem (m.regs .kernelGs + userRspOffset) m.sp (m.regs .kernelGs + 0) = top := by
    rw [Nat.add_zero,Function.update_of_ne (by rw [userRspOffset]; omega),hne]
  simp only [Machine.run_cons,Machine.run_nil,Machine.move,hgs,htop,Function.update_self,Machine.pushWord_regs,hswap]
  simp only [Machine.pushWord]

/-- A system call leaves the registers of its caller in a frame on the stack that GS names. -/
theorem syscallHandler_spec (entry : Nat) (htop : m.mem (m.regs .kernelGs) = top) (h : syscallFrameSize ≤ top) (hlt : top < 2^64) :
    let m' := syscallHandler entry m
    m'.sp = top - syscallFrameSize ∧ WordsAt m'.mem (top - syscallFrameSize) (syscallFrame m.regs m.sp) ∧
      (∀ x, x < top - syscallFrameSize ∨ top ≤ x → x ≠ m.regs .kernelGs + userRspOffset → m'.mem x = m.mem x) ∧
      m'.regs .cs = kernelCodeSelectorValue ∧ m'.regs .ss = kernelDataSelectorValue ∧
      m'.regs .kernelGs = m.regs .kernelGs := by
  intro m'
  rw [syscallFrameSize] at h ⊢
  obtain ⟨mem₁,h₁,hw₁,hr₁⟩ := Machine.pushWords_of_le
    (m := ⟨(enterSyscall entry m).regs,top,Function.update m.mem (m.regs .kernelGs + userRspOffset) m.sp⟩)
    (show 8 * (m.sp :: syscallPushes.map (enterSyscall entry m).regs).length ≤ top by
      rw [List.length_cons,List.length_map,show syscallPushes.length = 15 from rfl]
      omega) hlt
  have hlen : 8 * (m.sp :: syscallPushes.map (enterSyscall entry m).regs).length = 128 := rfl
  rw [hlen] at h₁ hw₁ hr₁
  have hm' : m' = ⟨Function.update (enterSyscall entry m).regs .rdi (top - 128),top - 128,mem₁⟩ := by
    have hstack := enterStack (m := enterSyscall entry m) htop
    show syscallHandler entry m = _
    rw [syscallHandler,Machine.run_append,Machine.run_append,hstack,Machine.run_push_eq,Machine.pushWord_regs,
      ← Machine.pushWords_cons]
    exact congrArg (Machine.run · [.readSp .rdi]) h₁
  rw [hm']
  refine ⟨rfl,hw₁,fun x hx hne => ?_,rfl,rfl,rfl⟩
  exact (hr₁ x hx).trans (Function.update_of_ne hne ..)

/-- The registers of a caller behind its system call. -/
def returned (ss : Nat) (regs f : Reg → Nat) : Reg → Nat
  | .rax => regs .rax
  | .rcx => f .rip
  | .r11 => f .rflags
  | .rflags => (f .rflags &&& 0x3C7FD7) ||| 2
  | .cs => userCodeSelectorValue
  | .ss => ss
  | .gs => regs .gs
  | .kernelGs => regs .kernelGs
  | r => f r

theorem syscallExit_spec (h : WordsAt m.mem m.sp (syscallFrame f rsp)) (hlt : m.sp + syscallFrameSize < 2^64) (ss : Nat) :
    syscallExit ss m = ⟨returned ss m.regs f,rsp,m.mem⟩ := by
  rw [syscallFrameSize] at hlt
  rw [syscallFrame,wordsAt_append,List.length_map] at h
  obtain ⟨hwords,-,hflags,hrip,hsp,-⟩ := h
  have hlen : syscallPops.length = 12 := rfl
  rw [hlen] at hflags hrip hsp
  have hpop := Machine.run_pop hwords (List.length_map ..) (by rw [hlen]; omega)
  have hrest : (⟨Machine.assign m.regs syscallPops (syscallPops.map f),m.sp + 8 * 12,m.mem⟩ : Machine Reg).run
      [.drop,.pop .r11,.pop .rcx,.popSp] = ⟨Function.update (Function.update
        (Machine.assign m.regs syscallPops (syscallPops.map f)) .r11 (f .rflags)) .rcx (f .rip),rsp,m.mem⟩ := by
    simp only [Machine.run_cons,Machine.run_nil,Machine.move,Machine.up_of_lt (show m.sp + 8 * 12 + 8 < 2^64 by omega),hflags,
      Machine.up_of_lt (show m.sp + 8 * 12 + 8 + 8 < 2^64 by omega),hrip,
      Machine.up_of_lt (show m.sp + 8 * 12 + 8 + 8 + 8 < 2^64 by omega),hsp]
  rw [syscallExit,Machine.run_append,hpop,hlen,hrest]
  refine congrArg (Machine.mk · rsp m.mem) (funext fun r => ?_)
  cases r <;> rfl

end Specs
end MofuOS.Process
