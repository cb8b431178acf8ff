import MofuOS.Process.StackFrames

/-! Every act of a core leaves the kernel stacks in order. -/
namespace MofuOS.Process.Stacks
open Lib

variable {L : Layout} {s t u : System} {c c' : Context} {core k : Core} {slot : Slot} {stub : Stub}
  {frame a x n ss entry ret userRip userRsp rsp : Nat} {rest stubs : List (Stub × Nat)} {mem : Nat → Nat} {act : Act}
  {m : Machine Reg} {regs : Reg → Nat} {fpu : List UInt8} {writes : List (Nat × Nat)}

/-- An act that writes nothing behind the part of the stack that its context may use. -/
structure Below (L : Layout) (s t : System) (core : Core) : Prop extends Local L s t core where
  above : ∀ x, s.limit L (s.on core) ≤ x → x < L.stackTop (s.on core) → t.mem x = s.mem x

theorem Ok.chain (hs : Ok L s) (c : Context) : Chain L.toStatics s.mem c (s.stubs c) := (hs.contexts c).chain

theorem not_parked_on : s.parked (s.on core) ≠ true := fun h => System.parked_iff.mp h core rfl

/-- Below the frames of its stubs an act may write on its own stack, and nowhere else among the places. -/
theorem Below.of_mem (hs : Ok L s) (hcpu : ∀ k, k ≠ core → t.cpu k = s.cpu k) (hon : t.on = s.on)
    (hstubs : ∀ c, c ≠ s.on core → t.stubs c = s.stubs c) (hstarted : t.started = s.started)
    (hmem : ∀ x, t.mem x = s.mem x ∨ (L.stackBottom (s.on core) ≤ x ∧ x < s.limit L (s.on core)) ∨ (∀ p, ¬ InSpan L p x) ∨
      (InSpan L (.syscallCell core) x)) : Below L s t core := by
  have hle := (hs.chain (s.on core)).limit_le
  refine ⟨⟨hcpu,fun k _ => by rw [hon],hstubs,hstarted,fun p x hp _ hk hx => ?_⟩,fun x hx hlt => ?_⟩
  · rcases hmem x with heq | ⟨hb,hl⟩ | hno | hcell
    · exact heq
    · exact absurd hx (InSpan.apart (p := .stack (s.on core)) ⟨hb,hl.trans_le hle⟩ hp.symm)
    · exact absurd hx (hno p)
    · exact absurd hx (hcell.apart hk.symm)
  · have hbottom := (hs.chain (s.on core)).bottom_le
    have hspan : InSpan L (.stack (s.on core)) x := ⟨hbottom.trans hx,hlt⟩
    rcases hmem x with heq | ⟨-,hl⟩ | hno | hcell
    · exact heq
    · exact absurd hx (Nat.not_le.mpr hl)
    · exact absurd hspan (hno _)
    · exact absurd hspan (hcell.apart (by simp))

/-- An act after which the core still runs the same context. -/
theorem Below.ok_same (h : Below L s t core) (hs : Ok L s) (hon : t.on core = s.on core) (hcore : CoreOk L t core)
    (hchain : Chain L.toStatics t.mem (s.on core) (t.stubs (s.on core))) : Ok L t := by
  refine h.toLocal.ok hs hcore ⟨hchain,fun hp => ?_⟩ fun k hk heq => hk (hs.once k core (heq.trans hon))
  exact absurd (hon ▸ hp : t.parked (t.on core) = true) not_parked_on

/-- The frames of the context are still there. -/
theorem Below.chain (h : Below L s t core) (hs : Ok L s) : Chain L.toStatics t.mem (s.on core) (s.stubs (s.on core)) :=
  (hs.chain (s.on core)).congr h.above

/-- The words of a place that is not the stack of c. -/
def OnlyStack (L : Layout) (s : System) (c : Context) (mem : Nat → Nat) : Prop :=
  ∀ x, mem x = s.mem x ∨ (L.stackBottom c ≤ x ∧ x < s.limit L c) ∨ ∀ p, ¬ InSpan L p x

theorem OnlyStack.place (h : OnlyStack L s c mem) (hs : Ok L s) {p : Place} (hp : p ≠ .stack c) (hx : InSpan L p x) :
    mem x = s.mem x := by
  rcases h x with heq | ⟨hb,hl⟩ | hno
  · exact heq
  · exact absurd hx (InSpan.apart (p := .stack c) ⟨hb,hl.trans_le (hs.chain c).limit_le⟩ hp.symm)
  · exact absurd hx (hno p)

theorem store_onlyStack (h : ∀ w ∈ writes, System.elsewhere L w.1 = true ∨ s.ownWord L c w.1 = true) :
    OnlyStack L s c (s.store writes).mem := by
  intro x
  by_cases hx : ∃ w ∈ writes, w.1 = x
  · obtain ⟨w,hmem,rfl⟩ := hx
    rcases h w hmem with helse | hown
    · exact .inr (.inr (System.elsewhere_notSpan helse))
    · rw [System.ownWord,Bool.and_eq_true,decide_eq_true_eq,decide_eq_true_eq] at hown
      exact .inr (.inl ⟨hown.1,by omega⟩)
  · exact .inl (System.store_of_notMem fun w hw' heq => hx ⟨w,hw',heq⟩)

/-- The stack top that a core of a task has for the way into the kernel. -/
theorem CoreOk.of_same (h : CoreOk L s core) (hon : t.on core = s.on core) (hstarted : t.started = s.started)
    (hrsp0 : (t.cpu core).rsp0 = (s.cpu core).rsp0) (hcell : t.mem (L.syscallCell core) = s.mem (L.syscallCell core))
    (hgs : (t.cpu core).regs .kernelGs = (s.cpu core).regs .kernelGs)
    (huser : t.userMode core = true → (t.cpu core).regs .cs = userCodeSelectorValue)
    (hkernel : t.userMode core = false → (t.cpu core).regs .cs = kernelCodeSelectorValue ∧ (t.cpu core).regs .ss % 4 = 0 ∧
      L.stackBottom (s.on core) ≤ (t.cpu core).rsp ∧ (t.cpu core).rsp ≤ t.limit L (s.on core)) : CoreOk L t core := by
  refine ⟨?_,hgs.trans h.gs,huser,?_,?_⟩
  · rw [hon]
    exact h.scheduler
  · rw [hon]
    exact hkernel
  · rw [hon,hrsp0,hcell,hstarted]
    exact h.task

theorem user_below (hs : Ok L s) (h : System.step L (.user core regs rsp fpu writes) s = some t) :
    Below L s t core ∧ Ok L t := by
  rw [System.step] at h
  split_ifs at h with hg
  cases h
  obtain ⟨hu,hcs,hgs,hw⟩ := hg
  have hmem := store_onlyStack (s := s) (c := s.on core) fun w hw' => .inl (hw w hw')
  have hb : Below L s ((s.store writes).setCpu core { s.cpu core with regs := regs,rsp := rsp,fpu := fpu }) core :=
    .of_mem hs (fun k hk => Function.update_of_ne hk ..) rfl (fun _ _ => rfl) rfl fun x => (hmem x).imp_right (.imp_right .inl)
  have hcell := hmem.place hs (by simp) (inSpan_syscallCell core)
  refine ⟨hb,hb.ok_same hs rfl ((hs.cores core).of_same rfl rfl ?_ hcell ?_ (fun _ => ?_) fun hk => ?_) (hb.chain hs)⟩
  · rw [System.setCpu_cpu,Function.update_self]
  · rw [System.setCpu_cpu,Function.update_self]
    exact hgs
  · rw [System.setCpu_cpu,Function.update_self]
    exact hcs
  · exact absurd (hu.symm.trans hk) (by decide)

theorem kernel_below (hs : Ok L s) (h : System.step L (.kernel core regs rsp writes) s = some t) : Below L s t core ∧ Ok L t := by
  rw [System.step] at h
  split_ifs at h with hg
  cases h
  obtain ⟨hu,hcs,hss,hgs,⟨hlow,hhigh,-⟩,hw⟩ := hg
  have hmem := store_onlyStack (s := s) (c := s.on core) hw
  have hb : Below L s ((s.store writes).setCpu core { s.cpu core with regs := regs,rsp := rsp }) core :=
    .of_mem hs (fun k hk => Function.update_of_ne hk ..) rfl (fun _ _ => rfl) rfl fun x => (hmem x).imp_right (.imp_right .inl)
  have hcell := hmem.place hs (by simp) (inSpan_syscallCell core)
  refine ⟨hb,hb.ok_same hs rfl ((hs.cores core).of_same rfl rfl ?_ hcell ?_ (fun hu' => ?_) fun _ => ?_) (hb.chain hs)⟩
  · rw [System.setCpu_cpu,Function.update_self]
  · rw [System.setCpu_cpu,Function.update_self]
    exact hgs
  · exact absurd (hu.symm.trans hu') (by decide)
  · rw [System.setCpu_cpu,Function.update_self]
    exact ⟨hcs,hss,hlow,hhigh⟩

theorem trapFrame_words {f : Reg → Nat} (h : WordsAt mem frame (trapFrame f rsp)) :
    mem (frame + csOffset) = f .cs ∧ mem (frame + rspOffset) = rsp ∧ mem (frame + ssOffset) = f .ss :=
  ⟨h.get (i := 16) rfl,h.get (i := 18) rfl,h.get (i := 19) rfl⟩

/-- A core that has just entered a stub is in the kernel. -/
theorem userMode_pushed (hon : t.on = s.on) (hstubs : t.stubs (s.on core) = (stub,frame) :: rest) : t.userMode core = false := by
  rw [Bool.eq_false_iff]
  intro hu
  have hnil := (System.userMode_iff.mp hu).2
  rw [hon,hstubs] at hnil
  cases hnil

/-- An interrupt is taken below the frames of the context. -/
theorem interruptTop_le (hs : Ok L s) (core : Core) : interruptTop (s.cpu core).rsp0 (s.machine core) ≤ s.limit L (s.on core) := by
  have hc := hs.cores core
  rw [interruptTop]
  show (if (s.cpu core).regs .cs % 4 == 3 then (s.cpu core).rsp0 else (s.cpu core).rsp) / 16 * 16 ≤ _
  cases hu : s.userMode core with
  | true =>
    obtain ⟨htask,hnil⟩ := System.userMode_iff.mp hu
    have htop : (s.cpu core).rsp0 = L.stackTop (s.on core) := by
      cases hon : s.on core with
      | task slot => exact (hc.task slot hon).1
      | scheduler k =>
        rw [hon] at htask
        cases htask
    rw [hc.user hu,if_pos (by decide),htop,System.limit,hnil]
    exact Nat.div_mul_le_self ..
  | false =>
    obtain ⟨hcs,-,-,hle⟩ := hc.kernel hu
    rw [hcs,if_neg (by decide)]
    exact (Nat.div_mul_le_self ..).trans hle

theorem interrupt_below (hs : Ok L s) (h : System.step L (.interrupt core entry) s = some t) :
    (∃ frame, L.stackBottom (s.on core) ≤ frame ∧ t.stubs (s.on core) = (.handler,frame) :: s.stubs (s.on core) ∧
      WordsAt t.mem frame (trapFrame (s.cpu core).regs (s.cpu core).rsp)) ∧ Below L s t core ∧ Ok L t := by
  rw [System.step] at h
  split_ifs at h with hroom
  cases h
  have hc := hs.cores core
  have hle := interruptTop_le hs core
  have hlimit := (hs.chain (s.on core)).limit_le
  have htop := stackTop_lt (L := L) (c := s.on core)
  generalize htop' : interruptTop (s.cpu core).rsp0 (s.machine core) = top at hroom hle
  have hle : top ≤ L.limit (s.on core) (s.stubs (s.on core)) := hle
  obtain ⟨hsp,hwords,hrest,hcs,hss,hgs⟩ := interruptStub_spec entry htop' (by omega) (by omega)
  generalize interruptStub (s.cpu core).rsp0 entry (s.machine core) = m at *
  have hsize : trapFrameSize = 160 := rfl
  obtain ⟨hwcs,hwrsp,hwss⟩ := trapFrame_words hwords
  have hstubs : ((s.resume core m).setStubs (s.on core) ((.handler,m.sp) :: s.stubs (s.on core))).stubs (s.on core) =
      (.handler,m.sp) :: s.stubs (s.on core) := Function.update_self ..
  have hb : Below L s ((s.resume core m).setStubs (s.on core) ((.handler,m.sp) :: s.stubs (s.on core))) core := by
    refine .of_mem hs (fun k hk => Function.update_of_ne hk ..) rfl (fun c hc => Function.update_of_ne hc ..) rfl fun x => ?_
    by_cases hx : x < top - trapFrameSize ∨ top ≤ x
    · exact .inl (hrest x hx)
    · exact .inr (.inl ⟨by omega,show x < L.limit _ _ by omega⟩)
  refine ⟨⟨m.sp,by omega,hstubs,hsp ▸ hwords⟩,hb,hb.ok_same hs rfl ?_ ?_⟩
  · have hmode : ((s.resume core m).setStubs (s.on core) ((.handler,m.sp) :: s.stubs (s.on core))).userMode core = false :=
      userMode_pushed rfl hstubs
    refine hc.of_same rfl rfl ?_ ?_ ?_ (fun hu => absurd (hmode.symm.trans hu) (by decide)) fun _ => ?_
    · rw [System.setStubs_cpu,System.resume_cpu,Function.update_self]
    · refine hrest _ ?_
      have hspan : ¬ InSpan L (.stack (s.on core)) (L.syscallCell core) := fun h => h.apart (by simp) (inSpan_syscallCell core)
      by_contra hno
      exact hspan ⟨show L.stackBottom _ ≤ _ by omega,show _ < L.stackTop _ by omega⟩
    · rw [System.setStubs_cpu,System.resume_cpu,Function.update_self]
      exact hgs
    · rw [System.setStubs_cpu,System.resume_cpu,Function.update_self,System.limit,hstubs,Statics.limit]
      refine ⟨hcs,?_,by dsimp only; omega,Nat.le_refl _⟩
      dsimp only
      rw [hss]
      split_ifs with hu
      · rfl
      · have hk : s.userMode core = false := by
          rw [Bool.eq_false_iff]
          intro hu'
          exact hu (by rw [show (s.machine core).regs .cs = userCodeSelectorValue from hc.user hu']; rfl)
        exact (hc.kernel hk).2.1
  · rw [hstubs]
    refine ⟨by omega,show m.sp + trapFrameSize ≤ _ by omega,?_,hb.chain hs⟩
    rw [FrameOk,System.setStubs_mem,System.resume_mem,hsp,hwcs,hwrsp,hwss]
    · split_ifs with ho
      · have hu : s.userMode core = true := by
          rw [Bool.and_eq_true,List.isEmpty_iff] at ho
          exact System.userMode_iff.mpr ho
        exact ⟨hc.user hu,fun h => by cases h⟩
      · have hu : s.userMode core = false := by
          rw [Bool.eq_false_iff]
          intro hu
          have := System.userMode_iff.mp hu
          rw [this.1,this.2] at ho
          exact ho rfl
        exact hc.kernel hu
    · exact fun h => by cases h

/-- Any frame holds the registers that are read from it. -/
def frameRegs (mem : Nat → Nat) (frame : Nat) : Reg → Nat
  | .r15 => mem frame
  | .r14 => mem (frame+8)
  | .r13 => mem (frame+16)
  | .r12 => mem (frame+24)
  | .r11 => mem (frame+32)
  | .r10 => mem (frame+40)
  | .r9 => mem (frame+48)
  | .r8 => mem (frame+56)
  | .rdi => mem (frame+64)
  | .rsi => mem (frame+72)
  | .rbp => mem (frame+80)
  | .rbx => mem (frame+88)
  | .rdx => mem (frame+96)
  | .rcx => mem (frame+104)
  | .rax => mem (frame+112)
  | .rip => mem (frame+120)
  | .cs => mem (frame+csOffset)
  | .rflags => mem (frame+136)
  | .ss => mem (frame+ssOffset)
  | .gs | .kernelGs => 0

theorem wordsAt_frameRegs : WordsAt mem frame (trapFrame (frameRegs mem frame) (mem (frame+rspOffset))) := by
  simp only [trapFrame,popAllGprs,List.map_cons,List.map_nil,List.cons_append,List.nil_append,WordsAt,frameRegs,csOffset,
    rspOffset,ssOffset,and_self,Nat.add_assoc]

/-- The way back to a frame: interrupt_return_path has made its selectors fit, so iretq does not fault. -/
theorem interruptExit_runs (hs : Ok L s) (hstubs : s.stubs (s.on core) = (.returnPath,frame) :: rest)
    (hrsp : (s.cpu core).rsp = frame) {f : Reg → Nat} (hwords : WordsAt s.mem frame (trapFrame f rsp)) :
    System.step L (.interruptExit core) s =
      some ((s.resume core ⟨restored (s.cpu core).regs f,rsp,s.mem⟩).setStubs (s.on core) rest) := by
  have hchain := hs.chain (s.on core)
  rw [hstubs] at hchain
  obtain ⟨-,hsize,hframe,hrest⟩ := hchain
  have hle := hrest.limit_le
  have htop := stackTop_lt (L := L) (c := s.on core)
  obtain ⟨hcs,-,hss⟩ := trapFrame_words hwords
  have hfit : f .ss % 4 = f .cs % 4 := by
    rw [FrameOk,hcs,hss] at hframe
    · split_ifs at hframe with ho
      · rw [hframe.1,hframe.2 rfl]
        rfl
      · rw [hframe.1,hframe.2.1]
        rfl
    · exact fun h => by cases h
  have hsize : frame + trapFrameSize ≤ L.limit (s.on core) rest := hsize
  have hwords' : WordsAt (s.machine core).mem (s.machine core).sp (trapFrame f rsp) := by
    rw [System.machine,hrsp]
    exact hwords
  have hexit := interruptExit_spec hwords' (show (s.cpu core).rsp + trapFrameSize < 2^64 by omega)
  rw [if_pos hfit] at hexit
  simp only [System.step,hstubs,hrsp,if_true,hexit,Option.map_some]
  rfl

theorem interruptExit_below (hs : Ok L s) (h : System.step L (.interruptExit core) s = some t) :
    ∃ frame rest, s.stubs (s.on core) = (.returnPath,frame) :: rest ∧ (s.cpu core).rsp = frame ∧
      t.stubs (s.on core) = rest ∧ (∀ f rsp, WordsAt s.mem frame (trapFrame f rsp) →
        t.cpu core = { s.cpu core with regs := restored (s.cpu core).regs f,rsp := rsp }) ∧ t.fpuState = s.fpuState ∧
      Below L s t core ∧ Ok L t := by
  have hex : ∃ frame rest, s.stubs (s.on core) = (.returnPath,frame) :: rest ∧ (s.cpu core).rsp = frame := by
    rw [System.step] at h
    split at h
    · split_ifs at h with hrsp
      exact ⟨_,_,‹_›,hrsp⟩
    · cases h
  obtain ⟨frame,rest,hstubs,hrsp⟩ := hex
  have hruns : ∀ f rsp, WordsAt s.mem frame (trapFrame f rsp) → System.step L (.interruptExit core) s =
      some ((s.resume core ⟨restored (s.cpu core).regs f,rsp,s.mem⟩).setStubs (s.on core) rest) :=
    fun _ _ => interruptExit_runs hs hstubs hrsp
  refine ⟨frame,rest,hstubs,hrsp,?_⟩
  have hstep := hruns _ _ wordsAt_frameRegs
  have hchain := hs.chain (s.on core)
  rw [hstubs] at hchain
  obtain ⟨hbottom,hsize,hframe,hrest⟩ := hchain
  have heq : t = (s.resume core ⟨restored (s.cpu core).regs (frameRegs s.mem frame),s.mem (frame+rspOffset),s.mem⟩).setStubs
      (s.on core) rest := Option.some.inj (h.symm.trans hstep)
  have hnew : t.stubs (s.on core) = rest := by
    rw [heq]
    exact Function.update_self ..
  have hb : Below L s t core := by
    rw [heq]
    exact .of_mem hs (fun k hk => Function.update_of_ne hk ..) rfl (fun c hc => Function.update_of_ne hc ..) rfl
      fun x => .inl rfl
  refine ⟨hnew,fun f rsp hwords => ?_,by rw [heq]; rfl,hb,hb.ok_same hs (by rw [heq]; rfl) ?_ ?_⟩
  · rw [Option.some.inj (h.symm.trans (hruns f rsp hwords)),System.setStubs_cpu,System.resume_cpu,Function.update_self]
  · have hcpu : t.cpu core = { s.cpu core with regs := restored (s.cpu core).regs (frameRegs s.mem frame),
                                               rsp := s.mem (frame+rspOffset) } := by
      rw [heq,System.setStubs_cpu,System.resume_cpu,Function.update_self]
    have hon : t.on = s.on := by rw [heq]; rfl
    have hmode : t.userMode core = true ↔ ((s.on core).isTask && rest.isEmpty) = true := by
      rw [System.userMode_iff,hon,hnew,Bool.and_eq_true,List.isEmpty_iff]
    rw [FrameOk] at hframe
    · refine (hs.cores core).of_same (congrFun hon core) (by rw [heq]; rfl) (by rw [hcpu]) (by rw [heq]; rfl) (by rw [hcpu]; rfl)
        (fun hu => ?_) fun hu => ?_
      · rw [if_pos (hmode.mp hu)] at hframe
        rw [hcpu]
        exact hframe.1
      · rw [if_neg fun ho => absurd (hu.symm.trans (hmode.mpr ho)) (by decide)] at hframe
        rw [hcpu,System.limit,hnew]
        exact hframe
    · exact fun h => by cases h
  · rw [hnew,heq]
    exact hrest

theorem interruptReturnPath_of_ne (h : x ≠ frame + ssOffset) : interruptReturnPath frame mem x = mem x := by
  rw [interruptReturnPath]
  split_ifs
  · rfl
  · exact Function.update_of_ne h ..

/-- interrupt_return_path writes the SS of a frame that leads to ring 3, and nothing else. -/
theorem handled_local (hs : Ok L s) (h : System.step L (.handled core) s = some t) :
    ∃ frame rest, s.stubs (s.on core) = (.handler,frame) :: rest ∧ (s.cpu core).rsp = frame ∧
      t = (s.setMem (interruptReturnPath frame s.mem)).setStubs (s.on core) ((.returnPath,frame) :: rest) ∧
      Local L s t core ∧ Ok L t := by
  rw [System.step] at h
  split at h
  next frame rest hstubs =>
    split_ifs at h with hrsp
    cases h
    refine ⟨frame,rest,hstubs,hrsp,rfl,?_⟩
    have hchain := hs.chain (s.on core)
    rw [hstubs] at hchain
    obtain ⟨hbottom,hsize,hframe,hrest⟩ := hchain
    have hsize : frame + 160 ≤ L.limit (s.on core) rest := hsize
    have hle := hrest.limit_le
    have hspan : InSpan L (.stack (s.on core)) (frame + ssOffset) :=
      ⟨hbottom.trans (Nat.le_add_right ..),show frame + ssOffset < L.stackTop _ by rw [ssOffset]; omega⟩
    have hmem : ∀ p x, p ≠ .stack (s.on core) → InSpan L p x → interruptReturnPath frame s.mem x = s.mem x := fun p x hp hx =>
      interruptReturnPath_of_ne fun heq => hspan.apart hp.symm (heq ▸ hx)
    have hnew : ((s.setMem (interruptReturnPath frame s.mem)).setStubs (s.on core) ((.returnPath,frame) :: rest)).stubs
        (s.on core) = (.returnPath,frame) :: rest := Function.update_self ..
    have hl : Local L s ((s.setMem (interruptReturnPath frame s.mem)).setStubs (s.on core) ((.returnPath,frame) :: rest)) core :=
      ⟨fun _ _ => rfl,fun _ _ => rfl,fun c hc => Function.update_of_ne hc ..,rfl,fun p x hp _ _ hx => hmem p x hp hx⟩
    have hmode : s.userMode core = false := userMode_pushed rfl hstubs
    have hmode' : ((s.setMem (interruptReturnPath frame s.mem)).setStubs (s.on core) ((.returnPath,frame) :: rest)).userMode
        core = false := userMode_pushed (s := s) rfl hnew
    refine ⟨hl,hl.ok hs ((hs.cores core).of_same rfl rfl rfl (hmem _ _ (by simp) (inSpan_syscallCell core)) rfl
      (fun hu => absurd (hmode'.symm.trans hu) (by decide)) fun _ => ?_) ⟨?_,fun hp => ?_⟩ fun k hk heq => hk (hs.once k core heq)⟩
    · have hk := (hs.cores core).kernel hmode
      rw [System.limit,hstubs] at hk
      rw [System.limit,hnew]
      exact hk
    · rw [hnew]
      refine ⟨hbottom,hsize,?_,hrest.congr fun x hx hlt => interruptReturnPath_of_ne (by rw [ssOffset]; omega)⟩
      have hcs : interruptReturnPath frame s.mem (frame + csOffset) = s.mem (frame + csOffset) :=
        interruptReturnPath_of_ne (by rw [ssOffset,csOffset]; omega)
      have hsp : interruptReturnPath frame s.mem (frame + rspOffset) = s.mem (frame + rspOffset) :=
        interruptReturnPath_of_ne (by rw [ssOffset,rspOffset]; omega)
      rw [FrameOk] at hframe ⊢
      · rw [System.setStubs_mem,System.setMem_mem,hcs,hsp]
        split_ifs at hframe ⊢ with ho
        · refine ⟨hframe.1,fun _ => ?_⟩
          rw [interruptReturnPath,hframe.1,if_neg (by decide),Function.update_self]
        · refine ⟨hframe.1,?_,hframe.2.2⟩
          rw [interruptReturnPath,hframe.1,if_pos (by decide)]
          exact hframe.2.1
      · exact fun h => by cases h
      · exact fun h => by cases h
    · exact absurd hp not_parked_on
  · cases h

theorem syscall_below (hs : Ok L s) (h : System.step L (.syscall core entry) s = some t) :
    s.userMode core = true ∧ t.stubs (s.on core) = [(.syscall,L.stackTop (s.on core) - syscallFrameSize)] ∧
      WordsAt t.mem (L.stackTop (s.on core) - syscallFrameSize) (syscallFrame (s.cpu core).regs (s.cpu core).rsp) ∧
      t.fpuState = s.fpuState ∧ (t.cpu core).fpu = (s.cpu core).fpu ∧ Below L s t core ∧ Ok L t := by
  rw [System.step] at h
  split_ifs at h with hu
  cases h
  obtain ⟨htask,hnil⟩ := System.userMode_iff.mp hu
  have hc := hs.cores core
  have hfits := trapFrame_fits (L := L) (c := s.on core)
  have hlt := stackTop_lt (L := L) (c := s.on core)
  have htop : s.mem (L.syscallCell core) = L.stackTop (s.on core) := by
    cases hon : s.on core with
    | task slot => exact (hc.task slot hon).2.1
    | scheduler k =>
      rw [hon] at htask
      cases htask
  rw [trapFrameSize] at hfits
  have hsize : syscallFrameSize = 128 := rfl
  obtain ⟨hsp,hwords,hrest,hcs,hss,hgs⟩ := syscallHandler_spec (m := s.machine core) entry
    (show s.mem ((s.cpu core).regs .kernelGs) = _ by rw [hc.gs,htop]) (show syscallFrameSize ≤ L.stackTop (s.on core) by omega) hlt
  have hgsCell : (s.machine core).regs .kernelGs = L.syscallCell core := hc.gs
  rw [hgsCell] at hrest hgs
  generalize syscallHandler entry (s.machine core) = m at *
  have hstubs : ((s.resume core m).setStubs (s.on core) ((.syscall,m.sp) :: s.stubs (s.on core))).stubs (s.on core) =
      [(.syscall,m.sp)] := by
    rw [hnil]
    exact Function.update_self ..
  have hlimit : s.limit L (s.on core) = L.stackTop (s.on core) := by rw [System.limit,hnil,Statics.limit]
  have hb : Below L s ((s.resume core m).setStubs (s.on core) ((.syscall,m.sp) :: s.stubs (s.on core))) core := by
    refine .of_mem hs (fun k hk => Function.update_of_ne hk ..) rfl (fun c hc => Function.update_of_ne hc ..) rfl fun x => ?_
    by_cases hx : x < L.stackTop (s.on core) - syscallFrameSize ∨ L.stackTop (s.on core) ≤ x
    · by_cases hcell : x = L.syscallCell core + userRspOffset
      · refine .inr (.inr (.inr ⟨?_,?_⟩))
        · rw [hcell]
          exact Nat.le_add_right ..
        · rw [hcell,userRspOffset]
          exact Nat.add_lt_add_left (by decide) _
      · exact .inl (hrest x hx hcell)
    · refine .inr (.inl ⟨?_,?_⟩)
      · omega
      · rw [hlimit]
        omega
  have hmode : ((s.resume core m).setStubs (s.on core) ((.syscall,m.sp) :: s.stubs (s.on core))).userMode core = false :=
    userMode_pushed rfl hstubs
  refine ⟨hu,by rw [hstubs,hsp],hwords,rfl,?_,hb,hb.ok_same hs rfl (hc.of_same rfl rfl ?_ ?_ ?_
    (fun hu' => absurd (hmode.symm.trans hu') (by decide)) fun _ => ?_) ?_⟩
  · rw [System.setStubs_cpu,System.resume_cpu,Function.update_self]
  · rw [System.setStubs_cpu,System.resume_cpu,Function.update_self]
  · refine hrest _ ?_ (by rw [userRspOffset]; omega)
    have hspan : ¬ InSpan L (.stack (s.on core)) (L.syscallCell core) := fun h => h.apart (by simp) (inSpan_syscallCell core)
    by_contra hno
    exact hspan ⟨show L.stackBottom _ ≤ _ by omega,show _ < L.stackTop _ by omega⟩
  · rw [System.setStubs_cpu,System.resume_cpu,Function.update_self]
    exact hgs.trans hc.gs.symm
  · rw [System.setStubs_cpu,System.resume_cpu,Function.update_self,System.limit,hstubs,Statics.limit]
    exact ⟨hcs,by dsimp only; rw [hss]; rfl,by dsimp only; omega,Nat.le_refl _⟩
  · rw [hstubs]
    exact ⟨by omega,show m.sp + 128 ≤ L.stackTop _ by omega,show (_ && true) = true by rw [htask]; rfl,trivial⟩

def syscallRegs (mem : Nat → Nat) (frame : Nat) : Reg → Nat
  | .r15 => mem frame
  | .r14 => mem (frame+8)
  | .r13 => mem (frame+16)
  | .r12 => mem (frame+24)
  | .rbp => mem (frame+32)
  | .rbx => mem (frame+40)
  | .r9 => mem (frame+48)
  | .r8 => mem (frame+56)
  | .r10 => mem (frame+64)
  | .rdx => mem (frame+72)
  | .rsi => mem (frame+80)
  | .rdi => mem (frame+88)
  | .rax => mem (frame+96)
  | .rflags => mem (frame+104)
  | .rip => mem (frame+112)
  | _ => 0

theorem wordsAt_syscallRegs : WordsAt mem frame (syscallFrame (syscallRegs mem frame) (mem (frame+120))) := by
  simp only [syscallFrame,syscallPops,List.map_cons,List.map_nil,List.cons_append,List.nil_append,WordsAt,syscallRegs,and_self,
    Nat.add_assoc]

theorem syscallExit_runs (ss : Nat) (hs : Ok L s) (hstubs : s.stubs (s.on core) = (.syscall,frame) :: rest)
    (hrsp : (s.cpu core).rsp = frame) {f : Reg → Nat} (hwords : WordsAt s.mem frame (syscallFrame f rsp)) :
    System.step L (.syscallExit core ss) s =
      some ((s.resume core ⟨returned ss (s.cpu core).regs f,rsp,s.mem⟩).setStubs (s.on core) rest) := by
  have hchain := hs.chain (s.on core)
  rw [hstubs] at hchain
  obtain ⟨-,hsize,-,hrest⟩ := hchain
  have hle := hrest.limit_le
  have hlt := stackTop_lt (L := L) (c := s.on core)
  have hsize : frame + syscallFrameSize ≤ L.limit (s.on core) rest := hsize
  have hwords' : WordsAt (s.machine core).mem (s.machine core).sp (syscallFrame f rsp) := by
    rw [System.machine,hrsp]
    exact hwords
  have hexit := syscallExit_spec hwords' (show (s.cpu core).rsp + syscallFrameSize < 2^64 by omega) ss
  simp only [System.step,hstubs,hrsp,if_true,hexit]
  rfl

theorem syscallExit_below (hs : Ok L s) (h : System.step L (.syscallExit core ss) s = some t) :
    ∃ frame, s.stubs (s.on core) = [(.syscall,frame)] ∧ (s.cpu core).rsp = frame ∧ t.stubs (s.on core) = [] ∧
      (∀ f rsp, WordsAt s.mem frame (syscallFrame f rsp) →
        t.cpu core = { s.cpu core with regs := returned ss (s.cpu core).regs f,rsp := rsp }) ∧ t.fpuState = s.fpuState ∧
      Below L s t core ∧ Ok L t := by
  have hex : ∃ frame rest, s.stubs (s.on core) = (.syscall,frame) :: rest ∧ (s.cpu core).rsp = frame := by
    rw [System.step] at h
    split at h
    · split_ifs at h with hrsp
      exact ⟨_,_,‹_›,hrsp⟩
    · cases h
  obtain ⟨frame,rest,hstubs,hrsp⟩ := hex
  have hruns : ∀ f rsp, WordsAt s.mem frame (syscallFrame f rsp) → System.step L (.syscallExit core ss) s =
      some ((s.resume core ⟨returned ss (s.cpu core).regs f,rsp,s.mem⟩).setStubs (s.on core) rest) :=
    fun _ _ => syscallExit_runs ss hs hstubs hrsp
  have hstep := hruns _ _ wordsAt_syscallRegs
  have hchain := hs.chain (s.on core)
  rw [hstubs] at hchain
  obtain ⟨-,-,hframe,-⟩ := hchain
  obtain ⟨htask,hnil⟩ := Bool.and_eq_true_iff.mp (show ((s.on core).isTask && rest.isEmpty) = true from hframe)
  obtain rfl := List.isEmpty_iff.mp hnil
  have heq := Option.some.inj (h.symm.trans hstep)
  have hnew : t.stubs (s.on core) = [] := by
    rw [heq]
    exact Function.update_self ..
  have hb : Below L s t core := by
    rw [heq]
    exact .of_mem hs (fun k hk => Function.update_of_ne hk ..) rfl (fun c hc => Function.update_of_ne hc ..) rfl
      fun x => .inl rfl
  have hon : t.on = s.on := by rw [heq]; rfl
  have hmode : t.userMode core = true := System.userMode_iff.mpr (by rw [hon]; exact ⟨htask,hnew⟩)
  have hcpu : ∀ f rsp, WordsAt s.mem frame (syscallFrame f rsp) →
      t.cpu core = { s.cpu core with regs := returned ss (s.cpu core).regs f,rsp := rsp } := fun f rsp hwords => by
    rw [Option.some.inj (h.symm.trans (hruns f rsp hwords)),System.setStubs_cpu,System.resume_cpu,Function.update_self]
  have hcpu' := hcpu _ _ wordsAt_syscallRegs
  refine ⟨frame,hstubs,hrsp,hnew,hcpu,by rw [heq]; rfl,hb,hb.ok_same hs (congrFun hon core) ?_ (by rw [hnew]; trivial)⟩
  refine (hs.cores core).of_same (congrFun hon core) (by rw [heq]; rfl) (by rw [hcpu']) (by rw [heq]; rfl) (by rw [hcpu']; rfl)
    (fun _ => by rw [hcpu']; rfl) fun hu => absurd (hmode.symm.trans hu) (by decide)

/-- What a context leaves for its next turn: the registers f that a call keeps, from address a on. -/
def Saved (mem : Nat → Nat) (a : Nat) (f : Reg → Nat) : Prop := WordsAt mem a (keptBySwitch.reverse.map f)

def savedRegs (mem : Nat → Nat) (a : Nat) : Reg → Nat
  | .r15 => mem a
  | .r14 => mem (a+8)
  | .r13 => mem (a+16)
  | .r12 => mem (a+24)
  | .rbp => mem (a+32)
  | .rbx => mem (a+40)
  | .rip => mem (a+48)
  | _ => 0

theorem wordsAt_savedRegs : Saved mem a (savedRegs mem a) := by
  simp only [Saved,keptBySwitch,calleeSaved,List.reverse_cons,List.reverse_nil,List.nil_append,List.cons_append,List.map_cons,
    List.map_nil,WordsAt,savedRegs,and_self,Nat.add_assoc]

/-- The core has left its context, which can be taken up again, and goes on where the target stopped with registers f. -/
structure Switched (L : Layout) (s t : System) (core : Core) (target : Context) (ret : Nat) (f : Reg → Nat) : Prop where
  on : t.on = Function.update s.on core target
  stubs : t.stubs = s.stubs
  started : t.started = s.started
  fpuState : t.fpuState = s.fpuState
  others : ∀ k, k ≠ core → t.cpu k = s.cpu k
  rsp : (t.cpu core).rsp = s.mem (L.rspCell target) + switchFrameSize
  fpu : (t.cpu core).fpu = (s.cpu core).fpu
  rsp0 : (t.cpu core).rsp0 = (s.cpu core).rsp0
  loaded : ∀ r ∈ keptBySwitch, (t.cpu core).regs r = f r
  kept : (t.cpu core).regs .cs = (s.cpu core).regs .cs ∧ (t.cpu core).regs .ss = (s.cpu core).regs .ss ∧
    (t.cpu core).regs .kernelGs = (s.cpu core).regs .kernelGs
  saved : Saved t.mem ((s.cpu core).rsp - switchFrameSize) (Function.update (s.cpu core).regs .rip ret)
  cell : t.mem (L.rspCell (s.on core)) = (s.cpu core).rsp - switchFrameSize
  frame : ∀ x, x < (s.cpu core).rsp - switchFrameSize ∨ (s.cpu core).rsp ≤ x → x ≠ L.rspCell (s.on core) → t.mem x = s.mem x

theorem switchTo_spec (ret : Nat) {target : Context} {f : Reg → Nat} (hlow : L.stackBottom (s.on core) + switchFrameSize ≤ (s.cpu core).rsp)
    (hhigh : (s.cpu core).rsp ≤ L.stackTop (s.on core)) (hne : target ≠ s.on core)
    (ha : L.stackBottom target ≤ s.mem (L.rspCell target))
    (ha' : s.mem (L.rspCell target) + switchFrameSize ≤ L.stackTop target) (hwords : Saved s.mem (s.mem (L.rspCell target)) f) :
    Switched L s (s.switchTo L core target ret) core target ret f := by
  have hlt := stackTop_lt (L := L) (c := s.on core)
  have hlt' := stackTop_lt (L := L) (c := target)
  have hlen : 8 * keptBySwitch.length = switchFrameSize := rfl
  have hspan : ∀ x, L.stackBottom (s.on core) ≤ x → x < L.stackTop (s.on core) → InSpan L (.stack (s.on core)) x :=
    fun _ h h' => ⟨h,h'⟩
  have hcell : L.rspCell (s.on core) < (s.cpu core).rsp - switchFrameSize ∨ (s.cpu core).rsp ≤ L.rspCell (s.on core) := by
    by_contra hno
    exact (hspan (L.rspCell (s.on core)) (by omega) (by omega)).apart (by simp) inSpan_rspCell
  have hapart : s.mem (L.rspCell target) + switchFrameSize ≤ L.stackBottom (s.on core) ∨
      L.stackTop (s.on core) ≤ s.mem (L.rspCell target) := by
    rcases L.apart (.stack target) (.stack (s.on core)) (by simpa using hne) with h | h
    · exact .inl (ha'.trans h)
    · exact .inr (Nat.le_trans h ha)
  have hcell' : L.rspCell (s.on core) < s.mem (L.rspCell target) ∨
      s.mem (L.rspCell target) + switchFrameSize ≤ L.rspCell (s.on core) := by
    by_contra hno
    have hin : InSpan L (.stack target) (L.rspCell (s.on core)) :=
      ⟨show L.stackBottom target ≤ _ by omega,show _ < L.stackTop target by omega⟩
    exact hin.apart (by simp) inSpan_rspCell
  generalize hregs : Function.update (Function.update (Function.update (s.cpu core).regs .rip ret) .rdi (L.rspCell (s.on core)))
    .rsi (s.mem (L.rspCell target)) = regs
  have hdi : regs .rdi = L.rspCell (s.on core) := by rw [← hregs]; rfl
  have hsi : regs .rsi = s.mem (L.rspCell target) := by rw [← hregs]; rfl
  have hcell₁ : regs .rdi < (s.cpu core).rsp - 8 * keptBySwitch.length ∨ (s.cpu core).rsp ≤ regs .rdi := by
    rw [hdi,hlen]
    exact hcell
  have hwords₁ : WordsAt s.mem (regs .rsi) (keptBySwitch.reverse.map f) := by
    rw [hsi]
    exact hwords
  obtain ⟨mem,hrun,hsaved,hcellval,hframe⟩ := Machine.run_exchange (m := ⟨regs,(s.cpu core).rsp,s.mem⟩)
    (show 8 * keptBySwitch.length ≤ (s.cpu core).rsp by omega) (show (s.cpu core).rsp < 2^64 by omega) hcell₁ hwords₁ (by simp)
    (by dsimp only; rw [hsi,hlen]; omega) (by dsimp only; rw [hsi,hlen]; omega) (by dsimp only; rw [hsi,hdi,hlen]; exact hcell')
  dsimp only at hrun hsaved hcellval hframe
  rw [hdi] at hcellval hframe
  rw [hlen] at hsaved hcellval hframe
  rw [hsi,hlen,← switchContext_eq] at hrun
  have ht : s.switchTo L core target ret = (s.resume core ⟨Machine.assign regs keptBySwitch.reverse (keptBySwitch.reverse.map f),
      s.mem (L.rspCell target) + switchFrameSize,mem⟩).setOn core target := by
    rw [← hrun,← hregs]
    rfl
  rw [ht]
  refine ⟨rfl,rfl,rfl,rfl,fun k hk => Function.update_of_ne hk ..,?_,?_,?_,fun r hr => ?_,?_,?_,hcellval,hframe⟩
  · rw [System.setOn_cpu,System.resume_cpu,Function.update_self]
  · rw [System.setOn_cpu,System.resume_cpu,Function.update_self]
  · rw [System.setOn_cpu,System.resume_cpu,Function.update_self]
  · rw [System.setOn_cpu,System.resume_cpu,Function.update_self]
    exact Machine.assign_map (List.nodup_reverse.mpr (by decide)) (List.mem_reverse.mpr hr)
  · have hother : ∀ r, r ∉ keptBySwitch → r ≠ .rdi → r ≠ .rsi →
        Machine.assign regs keptBySwitch.reverse (keptBySwitch.reverse.map f) r = (s.cpu core).regs r := by
      intro r hr hd hs
      rw [Machine.assign_of_notMem (fun h => hr (List.mem_reverse.mp h)),← hregs,Function.update_of_ne hs,
        Function.update_of_ne hd,Function.update_of_ne]
      rintro rfl
      exact hr List.mem_cons_self
    rw [System.setOn_cpu,System.resume_cpu,Function.update_self]
    exact ⟨hother .cs (by decide) (by decide) (by decide),hother .ss (by decide) (by decide) (by decide),
      hother .kernelGs (by decide) (by decide) (by decide)⟩
  · have hmap : keptBySwitch.reverse.map regs = keptBySwitch.reverse.map (Function.update (s.cpu core).regs .rip ret) := by
      rw [← hregs]
      rfl
    rw [hmap] at hsaved
    exact hsaved

/-- A call of switch_context from a context to one that has switched out. -/
theorem switched_ok (ret : Nat) {target : Context} {f : Reg → Nat} (hs : Ok L s) (hroom : s.roomToSwitch L core = true)
    (hparked : s.parked target = true) (hpresent : Present s target) (hscheduler : ∀ k, target = .scheduler k → k = core)
    (htask : ∀ slot, target = .task slot → (s.cpu core).rsp0 = L.stackTop (.task slot) ∧
      s.mem (L.syscallCell core) = L.stackTop (.task slot))
    (hwords : Saved s.mem (s.mem (L.rspCell target)) f) :
    Switched L s (s.switchTo L core target ret) core target ret f ∧ Below L s (s.switchTo L core target ret) core ∧
      Ok L (s.switchTo L core target ret) := by
  rw [System.roomToSwitch,Bool.and_eq_true,Bool.not_eq_true',decide_eq_true_eq] at hroom
  obtain ⟨hmode,hlow⟩ := hroom
  have hc := hs.cores core
  obtain ⟨hcs,hss,-,hhigh⟩ := hc.kernel hmode
  have hne : target ≠ s.on core := fun h => System.parked_iff.mp hparked core h.symm
  have hout := (hs.contexts target).switchedOut hparked hpresent
  have hle := (hs.chain (s.on core)).limit_le
  have hle' := (hs.chain target).limit_le
  have hsize : switchFrameSize = 56 := rfl
  have hsw := switchTo_spec ret hlow (hhigh.trans hle) hne hout.bottom (hout.limit.trans hle') hwords
  generalize s.switchTo L core target ret = t at hsw ⊢
  have hframe : ∀ x, ¬ InSpan L (.stack (s.on core)) x → ¬ InSpan L (.rspCell (s.on core)) x → t.mem x = s.mem x := by
    intro x hstack hcell
    refine hsw.frame x ?_ fun heq => hcell (heq ▸ inSpan_rspCell)
    by_contra hno
    exact hstack ⟨show L.stackBottom _ ≤ x by omega,show x < L.stackTop _ from Nat.lt_of_lt_of_le (by omega) (hhigh.trans hle)⟩
  have hl : Local L s t core := by
    refine ⟨hsw.others,fun k hk => ?_,fun c _ => by rw [hsw.stubs],hsw.started,fun p x hp hp' _ hx =>
      hframe x (fun h => hx.apart hp h) fun h => hx.apart hp' h⟩
    rw [hsw.on,Function.update_of_ne hk]
  have hb : Below L s t core := by
    refine ⟨hl,fun x hx hlt => hsw.frame x (.inr (hhigh.trans hx)) fun heq => ?_⟩
    have hin : InSpan L (.stack (s.on core)) x := ⟨(hs.chain (s.on core)).bottom_le.trans hx,hlt⟩
    exact hin.apart (by simp) (heq ▸ inSpan_rspCell)
  have hon : t.on core = target := by rw [hsw.on,Function.update_self]
  refine ⟨hsw,hb,hl.ok hs ?_ ⟨hb.chain hs |> fun h => by rw [hsw.stubs]; exact h,fun _ _ => ?_⟩ fun k hk heq => ?_⟩
  · have hmode' : t.userMode core = false := by
      rw [Bool.eq_false_iff]
      intro hu
      rw [System.userMode_iff,hon,hsw.stubs] at hu
      exact hout.stubs hu.1 hu.2
    refine ⟨?_,hsw.kept.2.2.trans hc.gs,fun hu => absurd (hmode'.symm.trans hu) (by decide),fun _ => ?_,fun slot hslot => ?_⟩
    · rw [hon]
      exact hscheduler
    · rw [hon,hsw.kept.1,hsw.kept.2.1,hsw.rsp,System.limit,hsw.stubs]
      exact ⟨hcs,hss,hout.bottom.trans (Nat.le_add_right ..),hout.limit⟩
    · rw [hon] at hslot
      obtain ⟨hrsp0,hcell⟩ := htask slot hslot
      rw [hsw.rsp0,hsw.started,hframe _ (fun h => h.apart (by simp) (inSpan_syscallCell core))
        (fun h => h.apart (by simp) (inSpan_syscallCell core))]
      refine ⟨hrsp0,hcell,?_⟩
      rw [hslot] at hpresent
      exact hpresent
  · refine ⟨?_,?_,fun ht => ?_⟩
    · rw [hsw.cell]
      omega
    · rw [hsw.cell,System.limit,hsw.stubs]
      have : (s.cpu core).rsp ≤ L.limit (s.on core) (s.stubs (s.on core)) := hhigh
      omega
    · rw [hsw.stubs]
      intro hnil
      rw [System.userMode_iff.mpr ⟨ht,hnil⟩] at hmode
      cases hmode
  · rw [hon] at heq
    exact System.parked_iff.mp hparked k heq

theorem Below.trans (h : Below L s t core) (h' : Below L t u core) (hon : t.on core = s.on core)
    (hstubs : t.stubs (s.on core) = s.stubs (s.on core)) : Below L s u core := by
  refine ⟨⟨fun k hk => (h'.cpu k hk).trans (h.cpu k hk),fun k hk => (h'.on k hk).trans (h.on k hk),fun c hc => ?_,
    h'.started.trans h.started,fun p x h₁ h₂ h₃ hx => ?_⟩,fun x hx hlt => ?_⟩
  · exact (h'.stubs c (hon ▸ hc)).trans (h.stubs c hc)
  · exact (h'.places p x (hon ▸ h₁) (hon ▸ h₂) h₃ hx).trans (h.places p x h₁ h₂ h₃ hx)
  · refine (h'.above x ?_ (hon ▸ hlt)).trans (h.above x hx hlt)
    rw [System.limit,hon,hstubs]
    exact hx

theorem saveFpu_below (hs : Ok L s) (core : Core) (slot : Slot) :
    Below L s (s.saveFpu core slot) core ∧ Ok L (s.saveFpu core slot) := by
  have hb : Below L s (s.saveFpu core slot) core := .of_mem hs (fun _ _ => rfl) rfl (fun _ _ => rfl) rfl fun _ => .inl rfl
  exact ⟨hb,hb.ok_same hs rfl ((hs.cores core).of_same rfl rfl rfl rfl rfl (hs.cores core).user (hs.cores core).kernel) (hb.chain hs)⟩

theorem setStackTop_cpu : ((s.setStackTop L core n).restoreFpu core slot).cpu core =
    { s.cpu core with rsp0 := n,fpu := s.fpuState slot } := by
  rw [System.restoreFpu,System.setCpu_cpu,Function.update_self,System.setStackTop,System.setMem_cpu,System.setCpu_cpu,
    Function.update_self]
  rfl

/-- run_task sets the stacks of the core while its scheduler still runs. -/
theorem setStackTop_below (hs : Ok L s) (hon : s.on core = .scheduler core) (slot : Slot) :
    Below L s ((s.setStackTop L core n).restoreFpu core slot) core ∧ Ok L ((s.setStackTop L core n).restoreFpu core slot) := by
  have hb : Below L s ((s.setStackTop L core n).restoreFpu core slot) core := by
    refine .of_mem hs (fun k hk => ?_) rfl (fun _ _ => rfl) rfl fun x => ?_
    · exact (Function.update_of_ne hk ..).trans (Function.update_of_ne hk ..)
    · by_cases hx : x = L.syscallCell core
      · exact .inr (.inr (.inr (hx ▸ inSpan_syscallCell core)))
      · exact .inl (Function.update_of_ne hx ..)
  have hc := hs.cores core
  refine ⟨hb,hb.ok_same hs rfl ⟨hc.scheduler,?_,fun hu => ?_,fun hu => ?_,fun slot hslot => ?_⟩ (hb.chain hs)⟩
  · rw [setStackTop_cpu]
    exact hc.gs
  · rw [setStackTop_cpu]
    exact hc.user hu
  · rw [setStackTop_cpu]
    exact hc.kernel hu
  · have hslot : s.on core = .task slot := hslot
    rw [hon] at hslot
    cases hslot

/-- A scheduler that has left its core waits for it. -/
theorem scheduler_parked (hs : Ok L s) (hon : s.on core = .task slot) : s.parked (.scheduler core) = true := by
  rw [System.parked_iff]
  intro k hk
  obtain rfl := (hs.cores k).scheduler core hk
  rw [hk] at hon
  cases hon

/-- core_switch_executing_yielding goes on with the scheduler of the core. -/
theorem switchOut_below (hs : Ok L s) (h : System.step L (.switchOut core ret) s = some t) :
    ∃ slot, s.on core = .task slot ∧ (∀ f, Saved s.mem (s.mem (L.rspCell (.scheduler core))) f →
      Switched L (s.saveFpu core slot) t core (.scheduler core) ret f) ∧ Below L s t core ∧ Ok L t := by
  rw [System.step] at h
  split at h
  next slot hon =>
    split_ifs at h with hroom
    cases h
    obtain ⟨hb₁,hs₁⟩ := saveFpu_below hs core slot
    have hparked := scheduler_parked hs hon
    have hroom₁ : (s.saveFpu core slot).roomToSwitch L core = true := hroom
    have hparked₁ : (s.saveFpu core slot).parked (.scheduler core) = true := hparked
    have hsw := fun f => switched_ok (f := f) ret hs₁ hroom₁ hparked₁ trivial
      (fun k hk => (Context.scheduler.inj hk).symm) fun slot hslot => by cases hslot
    obtain ⟨-,hb,hok⟩ := hsw _ wordsAt_savedRegs
    exact ⟨slot,hon,fun f hf => (hsw f hf).1,hb₁.trans hb rfl rfl,hok⟩
  · cases h

/-- run_task goes on with a task that has switched out. -/
theorem runTask_below (hs : Ok L s) (h : System.step L (.runTask core slot ret) s = some t) :
    s.on core = .scheduler core ∧ (∀ f, Saved s.mem (s.mem (L.rspCell (.task slot))) f →
      Switched L ((s.setStackTop L core (L.stackTop (.task slot))).restoreFpu core slot) t core (.task slot) ret f) ∧
      Below L s t core ∧ Ok L t := by
  rw [System.step] at h
  split_ifs at h with hg
  cases h
  obtain ⟨hon,hstarted,hparked,hroom⟩ := hg
  obtain ⟨hb₁,hs₁⟩ := setStackTop_below (n := L.stackTop (.task slot)) hs hon slot
  have hcell : ((s.setStackTop L core (L.stackTop (.task slot))).restoreFpu core slot).mem (L.rspCell (.task slot)) =
      s.mem (L.rspCell (.task slot)) := hb₁.places (.rspCell (.task slot)) _ (by simp) (by simp [hon]) (by simp) inSpan_rspCell
  have hroom₁ : ((s.setStackTop L core (L.stackTop (.task slot))).restoreFpu core slot).roomToSwitch L core = true := by
    rw [System.roomToSwitch] at hroom ⊢
    rw [setStackTop_cpu]
    exact hroom
  have htop : ((s.setStackTop L core (L.stackTop (.task slot))).restoreFpu core slot).mem (L.syscallCell core) =
      L.stackTop (.task slot) := Function.update_self ..
  have hstack : ∀ f, Saved s.mem (s.mem (L.rspCell (.task slot))) f →
      Saved ((s.setStackTop L core (L.stackTop (.task slot))).restoreFpu core slot).mem
        (((s.setStackTop L core (L.stackTop (.task slot))).restoreFpu core slot).mem (L.rspCell (.task slot))) f := by
    intro f hf
    have hout := (hs.contexts (.task slot)).switchedOut hparked hstarted
    have hle := (hs.chain (.task slot)).limit_le
    rw [hcell]
    refine WordsAt.congr hf fun x hx hlt => hb₁.places (.stack (.task slot)) x (by simp [hon]) (by simp) (by simp) ?_
    have hlt : x < s.mem (L.rspCell (.task slot)) + 56 := hlt
    exact ⟨hout.bottom.trans hx,hlt.trans_le (hout.limit.trans hle)⟩
  have hsw := fun f hf => switched_ok (f := f) ret hs₁ hroom₁
    (show ((s.setStackTop L core (L.stackTop (.task slot))).restoreFpu core slot).parked (.task slot) = true from hparked) hstarted
    (fun k hk => by cases hk) (fun slot' hslot => by
      obtain rfl := Context.task.inj hslot
      exact ⟨by rw [setStackTop_cpu],htop⟩) hf
  obtain ⟨-,hb,hok⟩ := hsw _ (hstack _ wordsAt_savedRegs)
  exact ⟨hon,fun f hf => (hsw f (hstack f hf)).1,hb₁.trans hb rfl rfl,hok⟩

/-- Only the slot of a task that no core runs has changed. -/
structure SlotOnly (L : Layout) (s t : System) (slot : Slot) : Prop where
  cpu : t.cpu = s.cpu
  on : t.on = s.on
  away : s.parked (.task slot) = true
  stubs : ∀ c, c ≠ .task slot → t.stubs c = s.stubs c
  started : ∀ slot', slot' ≠ slot → t.started slot' = s.started slot'
  places : ∀ p x, p ≠ .stack (.task slot) → p ≠ .rspCell (.task slot) → InSpan L p x → t.mem x = s.mem x

theorem SlotOnly.contextOk (h : SlotOnly L s t slot) (hs : Ok L s) (hne : c ≠ .task slot) : ContextOk L t c := by
  have hc := hs.contexts c
  have hstubs := h.stubs c hne
  refine ⟨?_,fun hparked hpresent => ?_⟩
  · rw [hstubs]
    exact hc.chain.congr fun x hx hlt => h.places (.stack c) x (by simpa using hne) (by simp) ⟨hc.chain.bottom_le.trans hx,hlt⟩
  · have hpresent' : Present s c := by
      cases c with
      | task slot' =>
        rw [Present,h.started slot' (by simpa using hne)] at hpresent
        exact hpresent
      | scheduler k => trivial
    have hout := hc.switchedOut (by rw [System.parked,← h.on]; exact hparked) hpresent'
    have hcell := h.places (.rspCell c) _ (by simp) (by simpa using hne) inSpan_rspCell
    refine ⟨?_,?_,?_⟩
    · rw [hcell]
      exact hout.bottom
    · rw [hcell,System.limit,hstubs]
      exact hout.limit
    · rw [hstubs]
      exact hout.stubs

theorem SlotOnly.ok (h : SlotOnly L s t slot) (hs : Ok L s) (hcontext : ContextOk L t (.task slot))
    (hfresh : t.started slot = false → t.stubs (.task slot) = []) : Ok L t := by
  have haway := System.parked_iff.mp h.away
  refine ⟨fun c => ?_,fun k => ?_,fun k k' heq => ?_,fun slot' hslot => ?_⟩
  · by_cases hc : c = .task slot
    · exact hc ▸ hcontext
    · exact h.contextOk hs hc
  · have hc := hs.cores k
    have hstubs := h.stubs _ (haway k)
    have hmode : t.userMode k = s.userMode k := by
      rw [Bool.eq_iff_iff,System.userMode_iff,System.userMode_iff,h.on,hstubs]
    refine ⟨?_,?_,?_,?_,fun slot' hslot => ?_⟩
    · rw [h.on]
      exact hc.scheduler
    · rw [h.cpu]
      exact hc.gs
    · rw [hmode,h.cpu]
      exact hc.user
    · rw [hmode,h.cpu,h.on,System.limit,hstubs]
      exact hc.kernel
    · rw [h.on] at hslot
      have hne : slot' ≠ slot := fun heq => haway k (heq ▸ hslot)
      rw [h.cpu,h.started slot' hne,h.places (.syscallCell k) _ (by simp) (by simp) (inSpan_syscallCell k)]
      exact hc.task slot' hslot
  · rw [h.on] at heq
    exact hs.once k k' heq
  · by_cases hne : slot' = slot
    · subst hne
      exact hfresh hslot
    · rw [h.started slot' hne] at hslot
      rw [h.stubs _ (by simpa using hne)]
      exact hs.fresh slot' hslot

theorem release_slotOnly (hs : Ok L s) (h : System.step L (.release core slot) s = some t) : SlotOnly L s t slot ∧ Ok L t := by
  rw [System.step] at h
  split_ifs at h with hg
  cases h
  have ho : SlotOnly L s { s.setStubs (.task slot) [] with started := Function.update s.started slot false } slot :=
    ⟨rfl,rfl,hg.2,fun c hc => Function.update_of_ne hc ..,fun slot' hne => Function.update_of_ne hne ..,fun _ _ _ _ _ => rfl⟩
  have hnil : ({ s.setStubs (.task slot) [] with started := Function.update s.started slot false } : System).stubs (.task slot) = [] :=
    Function.update_self ..
  refine ⟨ho,ho.ok hs ⟨?_,fun _ hpresent => ?_⟩ fun _ => hnil⟩
  · rw [hnil]
    trivial
  · have hfalse : Function.update s.started slot false slot = true := hpresent
    rw [Function.update_self] at hfalse
    cases hfalse

/-- A slot that is not in use is on no core. -/
theorem parked_of_not_started (hs : Ok L s) (h : s.started slot = false) : s.parked (.task slot) = true := by
  rw [System.parked_iff]
  intro k hk
  have hst := ((hs.cores k).task slot hk).2.2
  rw [h] at hst
  cases hst

/-- The frame that init_task_stack makes leads to ring 3. -/
theorem initTaskStack_frame (h : System.step L (.initTaskStack core slot entry userRip userRsp) s = some t) :
    t.stubs (.task slot) = [(.returnPath,L.stackTop (.task slot) - trapFrameSize)] ∧
      WordsAt t.mem (L.stackTop (.task slot) - trapFrameSize) (trapFrame (initialRegs userRip) userRsp) ∧
      t.mem (L.rspCell (.task slot)) = L.stackTop (.task slot) - trapFrameSize - switchFrameSize ∧
      t.fpuState slot = newFpuState := by
  rw [System.step] at h
  split_ifs at h
  cases h
  refine ⟨Function.update_self ..,?_,Function.update_self ..,Function.update_self ..⟩
  have hbottom : L.stackTop (.task slot) = L.stackBottom (.task slot) + 65536 := rfl
  have hframeSize : trapFrameSize = 160 := rfl
  have hswitchSize : switchFrameSize = 56 := rfl
  generalize hframe : L.stackTop (.task slot) - trapFrameSize = frame
  have hwords : WordsAt (writeWords s.mem (frame - switchFrameSize) (initialStack entry userRip userRsp))
      (frame - switchFrameSize) (initialStack entry userRip userRsp) := wordsAt_writeWords
  have htrap := (wordsAt_append.mp hwords).2
  have hseven : (List.replicate calleeSaved.length 0 ++ [entry]).length = 7 := rfl
  rw [hseven,show frame - switchFrameSize + 8 * 7 = frame by omega] at htrap
  -- saved_rsp is not on the stack
  refine htrap.congr fun x hx hlt => Function.update_of_ne (fun heq => ?_) ..
  rw [length_trapFrame] at hlt
  have hspan : InSpan L (.stack (.task slot)) x :=
    ⟨show L.stackBottom (.task slot) ≤ x by omega,show x < L.stackTop (.task slot) by omega⟩
  exact hspan.apart (by simp) (heq ▸ inSpan_rspCell)

/-- A new task has switched out in front of task_first_entry. -/
theorem initTaskStack_slotOnly (hs : Ok L s) (h : System.step L (.initTaskStack core slot entry userRip userRsp) s = some t) :
    s.started slot = false ∧ SlotOnly L s t slot ∧ Ok L t := by
  obtain ⟨hstubs,hwords,hcell,-⟩ := initTaskStack_frame h
  rw [System.step] at h
  split_ifs at h with hg
  cases h
  obtain ⟨-,hst⟩ := hg
  have hbottom : L.stackTop (.task slot) = L.stackBottom (.task slot) + 65536 := rfl
  have hframeSize : trapFrameSize = 160 := rfl
  have hswitchSize : switchFrameSize = 56 := rfl
  generalize hframe : L.stackTop (.task slot) - trapFrameSize = frame at hstubs hwords hcell ⊢
  generalize ht : ({ s with mem := Function.update (writeWords s.mem (frame - switchFrameSize)
                              (initialStack entry userRip userRsp)) (L.rspCell (.task slot)) (frame - switchFrameSize),
                            stubs := Function.update s.stubs (.task slot) [(.returnPath,frame)],
                            fpuState := Function.update s.fpuState slot newFpuState,
                            started := Function.update s.started slot true } : System) = t at hstubs hwords hcell ⊢
  have ho : SlotOnly L s t slot := by
    rw [← ht]
    refine ⟨rfl,rfl,parked_of_not_started hs hst,fun c hc => Function.update_of_ne hc ..,fun slot' hne =>
      Function.update_of_ne hne ..,fun p x hp hp' hx => ?_⟩
    have hne : x ≠ L.rspCell (.task slot) := by
      rintro rfl
      exact hx.apart hp' inSpan_rspCell
    refine (Function.update_of_ne hne ..).trans (writeWords_of_outside ?_)
    rw [show (initialStack entry userRip userRsp).length = 27 from rfl]
    by_contra hno
    exact hx.apart hp ⟨show L.stackBottom (.task slot) ≤ x by omega,show x < L.stackTop (.task slot) by omega⟩
  have hstarted : t.started slot = true := by
    rw [← ht]
    exact Function.update_self ..
  refine ⟨hst,ho,ho.ok hs ⟨?_,fun _ _ => ⟨?_,?_,fun _ hnil => ?_⟩⟩ fun hfalse => ?_⟩
  · obtain ⟨hcs,-,hss⟩ := trapFrame_words hwords
    rw [hstubs]
    refine ⟨by omega,show frame + 160 ≤ L.stackTop (.task slot) by omega,?_,trivial⟩
    rw [FrameOk]
    · rw [hcs,hss]
      exact ⟨rfl,fun _ => rfl⟩
    · exact fun h => by cases h
  · rw [hcell]
    omega
  · rw [hcell,System.limit,hstubs,Statics.limit]
    omega
  · rw [hstubs] at hnil
    cases hnil
  · rw [hstarted] at hfalse
    cases hfalse

theorem step_ok (hs : Ok L s) (h : System.step L act s = some t) : Ok L t := by
  cases act with
  | user => exact (user_below hs h).2
  | kernel => exact (kernel_below hs h).2
  | interrupt => exact (interrupt_below hs h).2.2
  | handled =>
    obtain ⟨_,_,-,-,-,-,hok⟩ := handled_local hs h
    exact hok
  | interruptExit =>
    obtain ⟨_,_,-,-,-,-,-,-,hok⟩ := interruptExit_below hs h
    exact hok
  | syscall => exact (syscall_below hs h).2.2.2.2.2.2
  | syscallExit =>
    obtain ⟨_,-,-,-,-,-,-,hok⟩ := syscallExit_below hs h
    exact hok
  | initTaskStack => exact (initTaskStack_slotOnly hs h).2.2
  | runTask => exact (runTask_below hs h).2.2.2
  | switchOut =>
    obtain ⟨_,-,-,-,hok⟩ := switchOut_below hs h
    exact hok
  | release => exact (release_slotOnly hs h).2

/-- The cores have just entered their scheduler loops. -/
structure Booted (L : Layout) (s : System) : Prop where
  on : ∀ core, s.on core = .scheduler core
  stubs : ∀ c, s.stubs c = []
  regs : ∀ core, (s.cpu core).regs .cs = kernelCodeSelectorValue ∧ (s.cpu core).regs .ss % 4 = 0 ∧
    (s.cpu core).regs .kernelGs = L.syscallCell core
  rsp : ∀ core, L.stackBottom (.scheduler core) ≤ (s.cpu core).rsp ∧ (s.cpu core).rsp ≤ L.stackTop (.scheduler core)
  started : ∀ slot, s.started slot = false

theorem Booted.ok (h : Booted L s) : Ok L s := by
  refine ⟨fun c => ⟨?_,fun hparked hpresent => ?_⟩,fun core => ⟨fun k hk => ?_,(h.regs core).2.2,fun hu => ?_,fun _ => ?_,fun slot hslot => ?_⟩,
    fun k k' heq => ?_,fun slot _ => h.stubs _⟩
  · rw [h.stubs]
    trivial
  · cases c with
    | task slot =>
      rw [Present,h.started] at hpresent
      cases hpresent
    | scheduler core => exact absurd (h.on core) (System.parked_iff.mp hparked core)
  · rw [h.on] at hk
    exact (Context.scheduler.inj hk).symm
  · have htask := (System.userMode_iff.mp hu).1
    rw [h.on] at htask
    cases htask
  · rw [h.on,System.limit,h.stubs]
    exact ⟨(h.regs core).1,(h.regs core).2.1,h.rsp core⟩
  · rw [h.on] at hslot
    cases hslot
  · rw [h.on,h.on] at heq
    exact Context.scheduler.inj heq

theorem run_ok {acts : List Act} (hs : Ok L s) (h : steps (System.step L) acts s = some t) : Ok L t :=
  steps_keep (fun _ _ _ hs hstep => step_ok hs hstep) hs h

end MofuOS.Process.Stacks
