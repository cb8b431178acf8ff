import MofuOS.Process.StackSteps

/-! What the stubs and switch_context are for: whatever happens in between, on whatever core, code goes on with the
registers it had. -/
namespace MofuOS.Process.Stacks
open Lib

variable {L : Layout} {s t u w : System} {c : Context} {core core' k : Core} {slot : Slot} {stub : Stub}
  {frame n ss entry ret ret' rsp userRip userRsp : Nat} {rest pre stubs : List (Stub × Nat)} {mem : Nat → Nat} {act : Act} {acts before : List Act}
  {f : Reg → Nat}

/-- What an act does to the stubs of its context: nothing, or one is entered or left. -/
def StubsMove (old new : List (Stub × Nat)) : Prop := new = old ∨ (∃ p, new = p :: old) ∨ ∃ p, old = p :: new

/-- An act is that of a core on its context, interrupt_return_path aside, or it is about a slot that no core runs. -/
theorem step_kind (hs : Ok L s) (h : System.step L act s = some t) :
    (∃ core, Below L s t core ∧ StubsMove (s.stubs (s.on core)) (t.stubs (s.on core))) ∨
      (∃ core, act = .handled core) ∨
      ∃ slot, SlotOnly L s t slot ∧ (s.started slot = false ∨ t.stubs (.task slot) = [] ∧ t.started slot = false) := by
  cases act with
  | user core =>
    refine .inl ⟨core,(user_below hs h).1,.inl ?_⟩
    rw [System.step] at h
    split_ifs at h
    cases h
    rfl
  | kernel core =>
    refine .inl ⟨core,(kernel_below hs h).1,.inl ?_⟩
    rw [System.step] at h
    split_ifs at h
    cases h
    rfl
  | interrupt core =>
    obtain ⟨⟨frame,-,hstubs,-⟩,hb,-⟩ := interrupt_below hs h
    exact .inl ⟨core,hb,.inr (.inl ⟨_,hstubs⟩)⟩
  | handled core => exact .inr (.inl ⟨core,rfl⟩)
  | interruptExit core =>
    obtain ⟨frame,rest,hstubs,-,hnew,-,-,hb,-⟩ := interruptExit_below hs h
    exact .inl ⟨core,hb,.inr (.inr ⟨_,by rw [hnew]; exact hstubs⟩)⟩
  | syscall core =>
    obtain ⟨hu,hstubs,-,-,-,hb,-⟩ := syscall_below hs h
    refine .inl ⟨core,hb,.inr (.inl ⟨(.syscall,L.stackTop (s.on core) - syscallFrameSize),?_⟩)⟩
    rw [hstubs,(System.userMode_iff.mp hu).2]
  | syscallExit core =>
    obtain ⟨frame,hstubs,-,hnew,-,-,hb,-⟩ := syscallExit_below hs h
    exact .inl ⟨core,hb,.inr (.inr ⟨_,by rw [hnew]; exact hstubs⟩)⟩
  | initTaskStack core slot =>
    obtain ⟨hst,ho,-⟩ := initTaskStack_slotOnly hs h
    exact .inr (.inr ⟨slot,ho,.inl hst⟩)
  | runTask core slot =>
    obtain ⟨hon,hsw,hb,-⟩ := runTask_below hs h
    exact .inl ⟨core,hb,.inl (congrFun (hsw _ wordsAt_savedRegs).stubs _)⟩
  | switchOut core =>
    obtain ⟨slot,hon,hsw,hb,-⟩ := switchOut_below hs h
    exact .inl ⟨core,hb,.inl (congrFun (hsw _ wordsAt_savedRegs).stubs _)⟩
  | release core slot =>
    obtain ⟨ho,-⟩ := release_slotOnly hs h
    refine .inr (.inr ⟨slot,ho,.inr ?_⟩)
    rw [System.step] at h
    split_ifs at h
    cases h
    exact ⟨Function.update_self ..,Function.update_self ..⟩

/-- A frame further out is behind those further in. -/
theorem Chain.behind {L : Statics} (h : Chain L mem c (pre ++ (stub,frame) :: rest)) :
    L.limit c (pre ++ (stub,frame) :: rest) ≤ frame ∧ frame + stub.frameSize ≤ L.stackTop c ∧ L.stackBottom c ≤ frame := by
  induction pre with
  | nil => exact ⟨Nat.le_refl _,h.2.1.trans h.2.2.2.limit_le,h.1⟩
  | cons p pre ih =>
    obtain ⟨hle,htop,hbottom⟩ := ih h.2.2.2
    have hsize : p.2 + p.1.frameSize ≤ L.limit c (pre ++ (stub,frame) :: rest) := h.2.1
    refine ⟨?_,htop,hbottom⟩
    show p.2 ≤ frame
    omega

/-- The registers of a frame when interrupt_return_path has seen it. -/
def returning (f : Reg → Nat) : Reg → Nat := if f .cs % 4 ≠ 3 then f else Function.update f .ss userDataSelectorValue

theorem wordsAt_returning (h : WordsAt mem frame (trapFrame f rsp)) :
    WordsAt (interruptReturnPath frame mem) frame (trapFrame (returning f) rsp) := by
  rw [interruptReturnPath,(trapFrame_words h).1,returning]
  split_ifs
  · exact h
  · exact h.set (i := 19) (show 19 < 20 by decide) userDataSelectorValue

/-- The stubs in rest wait for the one that keeps the registers f in its frame, which waits for the ones in front of it. -/
def Interrupted (s : System) (c : Context) (rest : List (Stub × Nat)) (frame : Nat) (f : Reg → Nat) (rsp : Nat) : Prop :=
  ∃ pre stub, s.stubs c = pre ++ (stub,frame) :: rest ∧
    ((stub = .handler ∧ WordsAt s.mem frame (trapFrame f rsp)) ∨
      (stub = .returnPath ∧ WordsAt s.mem frame (trapFrame (returning f) rsp)))

/-- The frame of a system call. -/
def Calling (s : System) (c : Context) (rest : List (Stub × Nat)) (frame : Nat) (f : Reg → Nat) (rsp : Nat) : Prop :=
  ∃ pre, s.stubs c = pre ++ (.syscall,frame) :: rest ∧ WordsAt s.mem frame (syscallFrame f rsp)

/-- Frames are left alone as long as their stubs wait, but for what interrupt_return_path does. -/
theorem frames_kept (hs : Ok L s) (h : System.step L act s = some t) (hstubs : s.stubs c = pre ++ (stub,frame) :: rest)
    (hlen : rest.length < (t.stubs c).length) (hact : ∀ core, act = .handled core → s.on core = c → pre ≠ []) :
    (∃ pre', t.stubs c = pre' ++ (stub,frame) :: rest) ∧
      ∀ x, frame ≤ x → x < frame + stub.frameSize → t.mem x = s.mem x := by
  have hchain := hs.chain c
  rw [hstubs] at hchain
  obtain ⟨hlimit,htop,hbottom⟩ := hchain.behind
  have hstack : ∀ x, frame ≤ x → x < frame + stub.frameSize → InSpan L (.stack c) x := fun x hx hlt =>
    ⟨hbottom.trans hx,hlt.trans_le htop⟩
  have aside : ∀ {core}, Local L s t core → c ≠ s.on core → (∃ pre', t.stubs c = pre' ++ (stub,frame) :: rest) ∧
      ∀ x, frame ≤ x → x < frame + stub.frameSize → t.mem x = s.mem x := by
    intro core hl hne
    refine ⟨⟨pre,(hl.stubs c hne).trans hstubs⟩,fun x hx hlt => ?_⟩
    exact hl.places (.stack c) x (by simpa using hne) (by simp) (by simp) (hstack x hx hlt)
  rcases step_kind hs h with ⟨core,hb,hmove⟩ | ⟨core,rfl⟩ | ⟨slot,ho,hslot⟩
  · by_cases hc : c = s.on core
    · subst hc
      refine ⟨?_,fun x hx hlt => hb.above x ?_ (hlt.trans_le htop)⟩
      · rcases hmove with heq | ⟨p,heq⟩ | ⟨p,heq⟩
        · exact ⟨pre,heq.trans hstubs⟩
        · exact ⟨p :: pre,by rw [heq,hstubs]; rfl⟩
        · cases pre with
          | nil =>
            obtain ⟨-,hrest⟩ := List.cons_eq_cons.mp (heq.symm.trans hstubs)
            rw [hrest] at hlen
            exact absurd hlen (Nat.lt_irrefl _)
          | cons p' pre =>
            obtain ⟨-,hrest⟩ := List.cons_eq_cons.mp (heq.symm.trans hstubs)
            exact ⟨pre,hrest⟩
      · rw [System.limit,hstubs]
        exact hlimit.trans hx
    · exact aside hb.toLocal hc
  · obtain ⟨fr,rest',hold,-,rfl,hl,-⟩ := handled_local hs h
    by_cases hc : c = s.on core
    · subst hc
      -- the frame that interrupt_return_path writes to is one further in
      cases pre with
      | nil => exact absurd rfl (hact core rfl rfl)
      | cons p pre =>
        obtain ⟨rfl,rfl⟩ := List.cons_eq_cons.mp (hold.symm.trans hstubs)
        have hfit : fr + 160 ≤ L.limit (s.on core) (pre ++ (stub,frame) :: rest) := hchain.2.1
        have hbehind := hchain.2.2.2.behind.1
        refine ⟨⟨(.returnPath,fr) :: pre,Function.update_self ..⟩,fun x hx _ => interruptReturnPath_of_ne ?_⟩
        rw [ssOffset]
        omega
    · exact aside hl hc
  · by_cases hc : c = .task slot
    · subst hc
      rcases hslot with hst | ⟨hnil,-⟩
      · rw [hs.fresh slot hst] at hstubs
        exact absurd hstubs.symm (by simp)
      · rw [hnil] at hlen
        exact absurd hlen (Nat.not_lt_zero _)
    · refine ⟨⟨pre,(ho.stubs c hc).trans hstubs⟩,fun x hx hlt => ?_⟩
      exact ho.places (.stack c) x (by simpa using hc) (by simp) (hstack x hx hlt)

theorem Interrupted.step (hi : Interrupted s c rest frame f rsp) (hs : Ok L s) (h : System.step L act s = some t)
    (hlen : rest.length < (t.stubs c).length) : Interrupted t c rest frame f rsp := by
  obtain ⟨pre,stub,hstubs,hwords⟩ := hi
  by_cases hact : ∃ core, act = .handled core ∧ s.on core = c ∧ pre = []
  · obtain ⟨core,rfl,rfl,rfl⟩ := hact
    obtain ⟨fr,rest',hold,-,rfl,-⟩ := handled_local hs h
    obtain ⟨hp,rfl⟩ := List.cons_eq_cons.mp (hold.symm.trans hstubs)
    obtain ⟨rfl,rfl⟩ := Prod.ext_iff.mp hp
    refine ⟨[],.returnPath,Function.update_self ..,.inr ⟨rfl,?_⟩⟩
    rcases hwords with ⟨-,hw⟩ | ⟨hno,-⟩
    · exact wordsAt_returning hw
    · cases hno
  · obtain ⟨⟨pre',hpre'⟩,hmem⟩ := frames_kept hs h hstubs hlen fun core hh hon hnil => hact ⟨core,hh,hon,hnil⟩
    have hsize : stub.frameSize = 160 := by
      rcases hwords with ⟨rfl,-⟩ | ⟨rfl,-⟩
      · rfl
      · rfl
    rw [hsize] at hmem
    exact ⟨pre',stub,hpre',hwords.imp (And.imp_right fun hw => hw.congr hmem) (And.imp_right fun hw => hw.congr hmem)⟩

theorem Calling.step (hi : Calling s c rest frame f rsp) (hs : Ok L s) (h : System.step L act s = some t)
    (hlen : rest.length < (t.stubs c).length) : Calling t c rest frame f rsp := by
  obtain ⟨pre,hstubs,hwords⟩ := hi
  obtain ⟨⟨pre',hpre'⟩,hmem⟩ := frames_kept hs h hstubs hlen fun core hh hon hnil => by
    subst hh hon hnil
    obtain ⟨_,_,hold,-⟩ := handled_local hs h
    cases hold.symm.trans hstubs
  exact ⟨pre',hpre',hwords.congr hmem⟩

/-- The floating point registers of a task, where it runs or where they are kept for it. -/
structure HasFpu (s : System) (slot : Slot) (fpu : List UInt8) : Prop where
  running : ∀ core, s.on core = .task slot → (s.cpu core).fpu = fpu
  parked : s.parked (.task slot) = true → s.fpuState slot = fpu

theorem resume_fpu (m : Machine Reg) (k : Core) : ((s.resume core m).cpu k).fpu = (s.cpu k).fpu := by
  rw [System.resume_cpu]
  by_cases hk : k = core
  · rw [hk,Function.update_self]
  · rw [Function.update_of_ne hk]

namespace HasFpu
variable {fpu : List UInt8}

theorem of_same (h : HasFpu s slot fpu) (hon : t.on = s.on) (hcpu : ∀ k, s.on k = .task slot → (t.cpu k).fpu = (s.cpu k).fpu)
    (hstate : t.fpuState slot = s.fpuState slot) : HasFpu t slot fpu := by
  refine ⟨fun core hcore => ?_,fun hp => hstate.trans (h.parked ?_)⟩
  · rw [hon] at hcore
    exact (hcpu core hcore).trans (h.running core hcore)
  · rw [System.parked,← hon]
    exact hp

/-- A core goes from one context to another. -/
theorem switched {target : Context} {s₁ : System} (h : HasFpu s slot fpu) (hsw : Switched L s₁ t core target ret f)
    (hon : s₁.on = s.on) (hcpu : ∀ k, k ≠ core → s₁.cpu k = s.cpu k) (hparked : s.parked target = true)
    (hin : target = .task slot → (s₁.cpu core).fpu = s.fpuState slot)
    (hout : s₁.fpuState slot = if s.on core = .task slot then (s.cpu core).fpu else s.fpuState slot) : HasFpu t slot fpu := by
  refine ⟨fun k hk => ?_,fun hp => ?_⟩
  · rw [hsw.on,hon] at hk
    by_cases hkc : k = core
    · subst hkc
      rw [Function.update_self] at hk
      rw [hsw.fpu,hin hk,h.parked (hk ▸ hparked)]
    · rw [Function.update_of_ne hkc] at hk
      rw [hsw.others k hkc,hcpu k hkc,h.running k hk]
  · rw [hsw.fpuState,hout]
    split_ifs with hcore
    · exact h.running core hcore
    · refine h.parked (System.parked_iff.mpr fun k hk => ?_)
      by_cases hkc : k = core
      · exact hcore (hkc ▸ hk)
      · refine System.parked_iff.mp hp k ?_
        rw [hsw.on,hon,Function.update_of_ne hkc]
        exact hk

/-- Only ring 3 code of the task changes them. -/
theorem step (h : HasFpu s slot fpu) (hs : Ok L s) (hstubs : s.stubs (.task slot) ≠ []) (hstep : System.step L act s = some t) :
    HasFpu t slot fpu := by
  cases act with
  | user core =>
    rw [System.step] at hstep
    split_ifs at hstep with hg
    cases hstep
    refine h.of_same rfl (fun k hk => ?_) rfl
    have hne : k ≠ core := by
      rintro rfl
      have hnil := (System.userMode_iff.mp hg.1).2
      rw [hk] at hnil
      exact hstubs hnil
    rw [System.setCpu_cpu,Function.update_of_ne hne]
    rfl
  | kernel core =>
    rw [System.step] at hstep
    split_ifs at hstep
    cases hstep
    refine h.of_same rfl (fun k _ => ?_) rfl
    rw [System.setCpu_cpu]
    by_cases hk : k = core
    · rw [hk,Function.update_self]
    · rw [Function.update_of_ne hk]
      rfl
  | interrupt core =>
    rw [System.step] at hstep
    split_ifs at hstep
    cases hstep
    exact h.of_same rfl (fun k _ => resume_fpu _ k) rfl
  | handled core =>
    obtain ⟨_,_,-,-,rfl,-⟩ := handled_local hs hstep
    exact h.of_same rfl (fun _ _ => rfl) rfl
  | interruptExit core =>
    rw [System.step] at hstep
    split at hstep
    · split_ifs at hstep
      obtain ⟨m,-,rfl⟩ := Option.map_eq_some_iff.mp hstep
      exact h.of_same rfl (fun k _ => resume_fpu _ k) rfl
    · cases hstep
  | syscall core =>
    rw [System.step] at hstep
    split_ifs at hstep
    cases hstep
    exact h.of_same rfl (fun k _ => resume_fpu _ k) rfl
  | syscallExit core ss =>
    rw [System.step] at hstep
    generalize Process.syscallExit ss (s.machine core) = m at hstep
    split at hstep
    · split_ifs at hstep
      cases hstep
      exact h.of_same rfl (fun k _ => resume_fpu m k) rfl
    · cases hstep
  | initTaskStack core slot' =>
    obtain ⟨hst,-⟩ := initTaskStack_slotOnly hs hstep
    rw [System.step] at hstep
    split_ifs at hstep
    cases hstep
    have hne : slot ≠ slot' := fun heq => hstubs (hs.fresh slot (heq ▸ hst))
    exact h.of_same rfl (fun _ _ => rfl) (Function.update_of_ne hne ..)
  | runTask core slot' =>
    obtain ⟨hon,hsw,-⟩ := runTask_below hs hstep
    have hparked : s.parked (.task slot') = true := by
      rw [System.step] at hstep
      split_ifs at hstep with hg
      exact hg.2.2.1
    refine h.switched (hsw _ wordsAt_savedRegs) rfl (fun k hk => ?_) hparked (fun heq => ?_) ?_
    · exact (Function.update_of_ne hk ..).trans (Function.update_of_ne hk ..)
    · obtain rfl := Context.task.inj heq
      rw [setStackTop_cpu]
    · rw [hon,if_neg (by simp)]
      rfl
  | switchOut core =>
    obtain ⟨slot',hon,hsw,-⟩ := switchOut_below hs hstep
    refine h.switched (hsw _ wordsAt_savedRegs) rfl (fun _ _ => rfl) (scheduler_parked hs hon) (fun heq => by cases heq) ?_
    rw [hon]
    by_cases hslot : slot' = slot
    · rw [hslot,if_pos rfl]
      exact Function.update_self ..
    · rw [if_neg fun heq => hslot (Context.task.inj heq)]
      exact Function.update_of_ne (fun heq => hslot heq.symm) ..
  | release core slot' =>
    rw [System.step] at hstep
    split_ifs at hstep
    cases hstep
    exact h.of_same rfl (fun _ _ => rfl) rfl

end HasFpu

/-- What every step keeps between states with C holds at the end of a run through such states. -/
theorem run_while {C P : System → Prop} (hstep : ∀ {act s t}, Ok L s → System.step L act s = some t → C s → C t → P s → P t)
    (hs : Ok L s) (hp : P s) (hc : stepsMeet (System.step L) (fun _ => C) acts s) (hlast : C t)
    (h : steps (System.step L) acts s = some t) : P t := by
  induction acts generalizing s with
  | nil =>
    cases h
    exact hp
  | cons act acts ih =>
    obtain ⟨s',hact,hrest⟩ := steps_cons h
    have hnext : C s' := by
      cases acts with
      | nil =>
        cases hrest
        exact hlast
      | cons act' acts => exact (hc.2 s' hact).1
    exact ih (step_ok hs hact) (hstep hs hact hc.1 hnext hp) (hc.2 s' hact) hrest

theorem hasFpu_of_running (hs : Ok L s) (hon : s.on core = .task slot) : HasFpu s slot (s.cpu core).fpu := by
  refine ⟨fun k hk => by rw [hs.once k core (hk.trans hon.symm)],fun hp => ?_⟩
  exact absurd hon (System.parked_iff.mp hp core)

theorem interrupt_same (h : System.step L (.interrupt core entry) s = some t) : t.on = s.on ∧ ∀ k, (t.cpu k).fpu = (s.cpu k).fpu := by
  rw [System.step] at h
  split_ifs at h
  cases h
  exact ⟨rfl,resume_fpu _⟩

theorem syscall_same (h : System.step L (.syscall core entry) s = some t) : t.on = s.on ∧ ∀ k, (t.cpu k).fpu = (s.cpu k).fpu := by
  rw [System.step] at h
  split_ifs at h
  cases h
  exact ⟨rfl,resume_fpu _⟩

/-- While a stub of a task waits, its floating point registers are kept for it. -/
theorem HasFpu.run {fpu : List UInt8} (h : HasFpu t slot fpu) (ht : Ok L t)
    (hwait : stepsMeet (System.step L) (fun _ s => n < (s.stubs (.task slot)).length) acts t)
    (hlast : n < (u.stubs (.task slot)).length) (hrun : steps (System.step L) acts t = some u) : HasFpu u slot fpu := by
  refine run_while (P := fun s => HasFpu s slot fpu) (fun hs hstep hlen _ h => h.step hs ?_ hstep) ht h hwait hlast hrun
  exact List.ne_nil_of_length_pos (Nat.zero_lt_of_lt hlen)

theorem Interrupted.run (hi : Interrupted t c rest frame f rsp) (ht : Ok L t)
    (hwait : stepsMeet (System.step L) (fun _ s => rest.length < (s.stubs c).length) acts t)
    (hlast : rest.length < (u.stubs c).length) (hrun : steps (System.step L) acts t = some u) : Interrupted u c rest frame f rsp :=
  run_while (P := fun s => Interrupted s c rest frame f rsp) (fun hs hstep _ hlen hi => hi.step hs hstep hlen) ht hi hwait hlast hrun

theorem Calling.run (hi : Calling t c rest frame f rsp) (ht : Ok L t)
    (hwait : stepsMeet (System.step L) (fun _ s => rest.length < (s.stubs c).length) acts t)
    (hlast : rest.length < (u.stubs c).length) (hrun : steps (System.step L) acts t = some u) : Calling u c rest frame f rsp :=
  run_while (P := fun s => Calling s c rest frame f rsp) (fun hs hstep _ hlen hi => hi.step hs hstep hlen) ht hi hwait hlast hrun

/-- The exit of a stub does not fault, and loads what its frame was made for. -/
theorem Interrupted.exit (hi : Interrupted u c rest frame f rsp) (hu : Ok L u) (hon : u.on core = c)
    (hback : u.stubs c = (.returnPath,(u.cpu core).rsp) :: rest) :
    ∃ w, System.step L (.interruptExit core) u = some w ∧ w.on = u.on ∧ w.stubs c = rest ∧
      w.cpu core = { u.cpu core with regs := restored (u.cpu core).regs (returning f),rsp := rsp } := by
  obtain ⟨pre,stub,hpre,hkept⟩ := hi
  -- no other stub is in front of it
  obtain rfl : pre = [] := by
    have hlen := congrArg List.length (hpre.symm.trans hback)
    rw [List.length_append,List.length_cons,List.length_cons] at hlen
    exact List.eq_nil_of_length_eq_zero (by omega)
  obtain ⟨hp,-⟩ := List.cons_eq_cons.mp (hpre.symm.trans hback)
  obtain ⟨rfl,rfl⟩ := Prod.ext_iff.mp hp
  have hwords : WordsAt u.mem (u.cpu core).rsp (trapFrame (returning f) rsp) := by
    rcases hkept with ⟨hno,-⟩ | ⟨-,hw⟩
    · cases hno
    · exact hw
  subst hon
  refine ⟨_,interruptExit_runs hu hback rfl hwords,rfl,Function.update_self ..,?_⟩
  rw [System.setStubs_cpu,System.resume_cpu,Function.update_self]

theorem restored_returning {regs : Reg → Nat} {r : Reg} (h₁ : r ≠ .ss) (h₂ : r ≠ .gs) (h₃ : r ≠ .kernelGs) :
    restored regs (returning f) r = f r := by
  have hret : returning f r = f r := by
    rw [returning]
    split_ifs
    · rfl
    · exact Function.update_of_ne h₁ ..
  rw [← hret]
  cases r <;> first | rfl | exact absurd rfl h₂ | exact absurd rfl h₃

/-- Statics that are apart. -/
def tightStatics : Statics := ⟨0x100000,0x600000,fun slot => 0x700000 + 8 * slot,0x700400,0x700800⟩

def EndsBefore (p q : Place) : Prop := (tightStatics.span p).2 ≤ (tightStatics.span q).1

instance : DecidableRel EndsBefore := fun _ _ => inferInstanceAs (Decidable (_ ≤ _))

instance : Trans EndsBefore EndsBefore EndsBefore where
  trans {_ q _} h₁ h₂ := by
    have hle : (tightStatics.span q).1 ≤ (tightStatics.span q).2 := by
      rcases q with c | c | core
      · cases c <;> exact Nat.le_add_right ..
      · exact Nat.le_add_right ..
      · exact Nat.le_add_right ..
    exact Nat.le_trans h₁ (Nat.le_trans hle h₂)

instance : Std.Symm fun p q => EndsBefore p q ∨ EndsBefore q p := ⟨fun _ _ => Or.symm⟩

/-- They are in the order of places. -/
theorem tightStatics_apart {p q : Place} (hne : p ≠ q) : EndsBefore p q ∨ EndsBefore q p := by
  have hchain : places.IsChain EndsBefore := by decide +kernel
  have hpair : places.Pairwise fun p q => EndsBefore p q ∨ EndsBefore q p := (List.isChain_iff_pairwise.mp hchain).imp Or.inl
  exact hpair.forall (mem_places p) (mem_places q) hne

def tightLayout : Layout where
  toStatics := tightStatics
  apart _ _ := tightStatics_apart
  bounded p := (show ∀ p ∈ places, (tightStatics.span p).2 < 2^64 by decide +kernel) p (mem_places p)
  aligned c := by
    cases c with
    | task slot =>
      show 16 ∣ 0x100000 + slot.val * 69632 + 4096 + 65536
      omega
    | scheduler core =>
      show 16 ∣ 0x600000 + core.val * 36864 + 4096 + 32768
      omega

/-- The cores in front of their schedulers. -/
def tightSystem : System where
  cpu core := ⟨fun
    | .cs => kernelCodeSelectorValue
    | .kernelGs => tightStatics.syscallCell core
    | _ => 0,tightStatics.stackTop (.scheduler core),[],0⟩
  mem _ := 0
  on := .scheduler
  fpuState _ := []
  stubs _ := []
  started _ := false

theorem tightSystem_booted : Booted tightLayout tightSystem :=
  ⟨fun _ => rfl,fun _ => rfl,fun _ => ⟨rfl,rfl,rfl⟩,fun _ => ⟨Nat.le_add_right ..,Nat.le_refl _⟩,fun _ => rfl⟩

/-- A task gets into ring 3 on core 0. -/
def firstActs : List Act := [.initTaskStack 0 0 0xE000 0x400000 0x7FF000,.runTask 0 0 0xA000,.interruptExit 0,
  .user 0 (fun
    | .cs => userCodeSelectorValue
    | .kernelGs => 0x700800
    | .rbx => 7
    | .rip => 0x400123
    | _ => 1) 0x7FEF00 [3] []]

/-- It leaves core 0, where another task starts, and goes on on core 1. -/
def movedActs : List Act := [.switchOut 0 0xB000,.initTaskStack 0 1 0xE000 0x400000 0x7FF000,.runTask 0 1 0xA000,.interruptExit 0,
  .runTask 1 0 0xC000]

/-- An interrupt is transparent. Whatever the cores do while its stub waits, whichever core the context is on when the
calls of the stub have returned: the exit does not fault, and the interrupted code has its registers, with the user
data selector in SS where it is in ring 3, which has its floating point registers as well. -/
theorem interrupt_transparent {s₀ : System} (hboot : Booted L s₀) (hreach : steps (System.step L) before s₀ = some s)
    (hin : System.step L (.interrupt core entry) s = some t) (hrun : steps (System.step L) acts t = some u)
    (hwait : stepsMeet (System.step L) (fun _ s' => (s.stubs (s.on core)).length < (s'.stubs (s.on core)).length) acts t)
    (hon : u.on core' = s.on core) (hback : u.stubs (s.on core) = (.returnPath,(u.cpu core').rsp) :: s.stubs (s.on core)) :
    ∃ w, System.step L (.interruptExit core') u = some w ∧ w.stubs (s.on core) = s.stubs (s.on core) ∧
      (w.cpu core').rsp = (s.cpu core).rsp ∧
      (∀ r, r ≠ .ss → r ≠ .gs → r ≠ .kernelGs → (w.cpu core').regs r = (s.cpu core).regs r) ∧
      ((w.cpu core').regs .ss = if s.userMode core then userDataSelectorValue else (s.cpu core).regs .ss) ∧
      (s.userMode core = true → w.userMode core' = true ∧ (w.cpu core').fpu = (s.cpu core).fpu) := by
  have hs := run_ok hboot.ok hreach
  obtain ⟨⟨frame,-,hstubs,hwords⟩,hb,ht⟩ := interrupt_below hs hin
  have hfirst : Interrupted t (s.on core) (s.stubs (s.on core)) frame (s.cpu core).regs (s.cpu core).rsp :=
    ⟨[],.handler,hstubs,.inl ⟨rfl,hwords⟩⟩
  have hlast : (s.stubs (s.on core)).length < (u.stubs (s.on core)).length := by
    rw [hback]
    exact Nat.lt_add_one _
  obtain ⟨w,hexit,hsame,hnew,hcpu⟩ := (hfirst.run ht hwait hlast hrun).exit (run_ok ht hrun) hon hback
  refine ⟨w,hexit,hnew,by rw [hcpu],fun r h₁ h₂ h₃ => ?_,?_,fun hmode => ?_⟩
  · rw [hcpu]
    exact restored_returning h₁ h₂ h₃
  · rw [hcpu]
    show returning (s.cpu core).regs .ss = _
    rw [returning]
    cases hmode : s.userMode core with
    | true =>
      rw [(hs.cores core).user hmode,if_neg (by decide),if_pos rfl,Function.update_self]
    | false => rw [((hs.cores core).kernel hmode).1,if_pos (by decide),if_neg (by decide)]
  · obtain ⟨htask,hnil⟩ := System.userMode_iff.mp hmode
    refine ⟨System.userMode_iff.mpr (by rw [hsame,hon]; exact ⟨htask,hnew.trans hnil⟩),?_⟩
    cases hslot : s.on core with
    | scheduler k =>
      rw [hslot] at htask
      cases htask
    | task slot =>
      obtain ⟨hsame,hfpu⟩ := interrupt_same hin
      have hrunning := (hasFpu_of_running ht (show t.on core = .task slot by rw [hsame]; exact hslot)).run ht
        (hslot ▸ hwait) (hslot ▸ hlast) hrun
      rw [hcpu,← hfpu]
      exact hrunning.running core' (hon.trans hslot)

/-- The task is interrupted on core 0 and goes on on core 1. -/
theorem interrupt_transparent_moved : ∃ s w, steps (System.step tightLayout) firstActs tightSystem = some s ∧
    steps (System.step tightLayout) (.interrupt 0 0xD000 :: .handled 0 :: movedActs ++ [.interruptExit 1]) s = some w ∧
    w.userMode 1 = true ∧ (w.cpu 1).rsp = (s.cpu 0).rsp ∧ (w.cpu 1).regs .rbx = (s.cpu 0).regs .rbx ∧
    (w.cpu 1).fpu = (s.cpu 0).fpu := by
  have hcheck : ((steps (System.step tightLayout) firstActs tightSystem).bind fun s =>
      (System.step tightLayout (.interrupt 0 0xD000) s).bind fun t =>
      (steps (System.step tightLayout) (.handled 0 :: movedActs) t).map fun u =>
        (stepsCheck (System.step tightLayout) (fun _ s' => decide ((s.stubs (s.on 0)).length < (s'.stubs (s.on 0)).length))
          (.handled 0 :: movedActs) t &&
        decide (u.on 1 = s.on 0 ∧ u.stubs (s.on 0) = (.returnPath,(u.cpu 1).rsp) :: s.stubs (s.on 0) ∧
          s.userMode 0 = true))) = some true := by decide +kernel
  obtain ⟨s,hs,hcheck⟩ := Option.bind_eq_some_iff.mp hcheck
  obtain ⟨t,ht,hcheck⟩ := Option.bind_eq_some_iff.mp hcheck
  obtain ⟨u,hu,hcheck⟩ := Option.map_eq_some_iff.mp hcheck
  obtain ⟨hwait,hlast⟩ := Bool.and_eq_true_iff.mp hcheck
  obtain ⟨hon,hback,hmode⟩ := of_decide_eq_true hlast
  obtain ⟨w,hw,-,hrsp,hregs,-,huser⟩ := interrupt_transparent tightSystem_booted hs ht hu
    (stepsMeet_of_check _ (fun _ _ => of_decide_eq_true) hwait) hon hback
  refine ⟨s,w,hs,?_,(huser hmode).1,hrsp,hregs .rbx (by decide) (by decide) (by decide),(huser hmode).2⟩
  rw [List.cons_append,steps,ht,Option.bind_some,steps_append hu,steps,hw]
  rfl

/-- So is a system call, but for its result in rax, and for rcx and r11. The flags are those that sysretq can
restore. -/
theorem syscall_transparent {s₀ : System} (hboot : Booted L s₀) (hreach : steps (System.step L) before s₀ = some s)
    (hin : System.step L (.syscall core entry) s = some t) (hrun : steps (System.step L) acts t = some u)
    (hwait : stepsMeet (System.step L) (fun _ s' => 0 < (s'.stubs (s.on core)).length) acts t)
    (hon : u.on core' = s.on core) (hback : u.stubs (s.on core) = [(.syscall,(u.cpu core').rsp)]) :
    ∃ w, System.step L (.syscallExit core' ss) u = some w ∧ w.userMode core' = true ∧
      (w.cpu core').rsp = (s.cpu core).rsp ∧ (w.cpu core').fpu = (s.cpu core).fpu ∧
      (w.cpu core').regs .rax = (u.cpu core').regs .rax ∧ (w.cpu core').regs .rcx = (s.cpu core).regs .rip ∧
      (w.cpu core').regs .r11 = (s.cpu core).regs .rflags ∧
      (w.cpu core').regs .rflags = ((s.cpu core).regs .rflags &&& 0x3C7FD7) ||| 2 ∧
      (w.cpu core').regs .cs = userCodeSelectorValue ∧
      ∀ r, r ∉ [Reg.rax,.rcx,.r11,.rflags,.cs,.ss,.gs,.kernelGs] → (w.cpu core').regs r = (s.cpu core).regs r := by
  have hs := run_ok hboot.ok hreach
  obtain ⟨hmode,hstubs,hwords,-,hfpu,-,ht⟩ := syscall_below hs hin
  have hlast : 0 < (u.stubs (s.on core)).length := by
    rw [hback]
    exact Nat.one_pos
  have hfirst : Calling t (s.on core) [] (L.stackTop (s.on core) - syscallFrameSize) (s.cpu core).regs (s.cpu core).rsp :=
    ⟨[],hstubs,hwords⟩
  obtain ⟨pre,hpre,hkept⟩ := hfirst.run ht hwait hlast hrun
  obtain ⟨rfl,hframe⟩ : pre = [] ∧ L.stackTop (s.on core) - syscallFrameSize = (u.cpu core').rsp := by
    cases pre with
    | nil =>
      obtain ⟨hp,-⟩ := List.cons_eq_cons.mp (hpre.symm.trans hback)
      exact ⟨rfl,(Prod.ext_iff.mp hp).2⟩
    | cons p pre =>
      have hlen := congrArg List.length (hpre.symm.trans hback)
      simp at hlen
  rw [hframe] at hkept
  have hexit := syscallExit_runs ss (run_ok ht hrun) (hon ▸ hback) rfl hkept
  obtain ⟨htask,-⟩ := System.userMode_iff.mp hmode
  have hcpu : ((((u.resume core' ⟨returned ss (u.cpu core').regs (s.cpu core).regs,(s.cpu core).rsp,u.mem⟩).setStubs (u.on core')
      []).cpu core')) = { u.cpu core' with regs := returned ss (u.cpu core').regs (s.cpu core).regs,rsp := (s.cpu core).rsp } := by
    rw [System.setStubs_cpu,System.resume_cpu,Function.update_self]
  refine ⟨_,hexit,System.userMode_iff.mpr ⟨by rw [System.setStubs_on,System.resume_on,hon]; exact htask,Function.update_self ..⟩,
    by rw [hcpu],?_,by rw [hcpu]; rfl,by rw [hcpu]; rfl,by rw [hcpu]; rfl,by rw [hcpu]; rfl,by rw [hcpu]; rfl,
    fun r hr => ?_⟩
  · cases hslot : s.on core with
    | scheduler k =>
      rw [hslot] at htask
      cases htask
    | task slot =>
      have hrunning := (hasFpu_of_running ht (show t.on core = .task slot by rw [(syscall_same hin).1]; exact hslot)).run ht
        (hslot ▸ hwait) (hslot ▸ hlast) hrun
      rw [hcpu,← hfpu]
      exact hrunning.running core' (hon.trans hslot)
  · rw [hcpu]
    cases r <;> first | rfl | exact absurd (by decide) hr

/-- The system call of a task ends on core 1. -/
theorem syscall_transparent_moved : ∃ s w, steps (System.step tightLayout) firstActs tightSystem = some s ∧
    steps (System.step tightLayout) (.syscall 0 0xD000 :: movedActs ++ [.syscallExit 1 0x1B]) s = some w ∧
    w.userMode 1 = true ∧ (w.cpu 1).rsp = (s.cpu 0).rsp ∧ (w.cpu 1).regs .rbx = (s.cpu 0).regs .rbx ∧
    (w.cpu 1).regs .rflags = ((s.cpu 0).regs .rflags &&& 0x3C7FD7) ||| 2 ∧ (w.cpu 1).fpu = (s.cpu 0).fpu := by
  have hcheck : ((steps (System.step tightLayout) firstActs tightSystem).bind fun s =>
      (System.step tightLayout (.syscall 0 0xD000) s).bind fun t => (steps (System.step tightLayout) movedActs t).map fun u =>
        (stepsCheck (System.step tightLayout) (fun _ s' => decide (0 < (s'.stubs (s.on 0)).length)) movedActs t &&
        decide (u.on 1 = s.on 0 ∧ u.stubs (s.on 0) = [(.syscall,(u.cpu 1).rsp)]))) = some true := by decide +kernel
  obtain ⟨s,hs,hcheck⟩ := Option.bind_eq_some_iff.mp hcheck
  obtain ⟨t,ht,hcheck⟩ := Option.bind_eq_some_iff.mp hcheck
  obtain ⟨u,hu,hcheck⟩ := Option.map_eq_some_iff.mp hcheck
  obtain ⟨hwait,hlast⟩ := Bool.and_eq_true_iff.mp hcheck
  obtain ⟨hon,hback⟩ := of_decide_eq_true hlast
  obtain ⟨w,hw,huser,hrsp,hfpu,-,-,-,hflags,-,hregs⟩ := syscall_transparent tightSystem_booted hs ht hu
    (stepsMeet_of_check _ (fun _ _ => of_decide_eq_true) hwait) hon hback
  refine ⟨s,w,hs,?_,huser,hrsp,hregs .rbx (by decide),hflags,hfpu⟩
  rw [List.cons_append,steps,ht,Option.bind_some,steps_append hu,steps,hw]
  rfl

/-- A new task enters ring 3 where it is to start, with nothing in its registers but what init_task_stack put there,
whatever happens before its slot gets to run. -/
theorem task_starts {s₀ : System} (hboot : Booted L s₀) (hreach : steps (System.step L) before s₀ = some s)
    (hin : System.step L (.initTaskStack core slot entry userRip userRsp) s = some t)
    (hrun : steps (System.step L) acts t = some u)
    (hwait : stepsMeet (System.step L) (fun _ s' => 0 < (s'.stubs (.task slot)).length) acts t)
    (hon : u.on core' = .task slot) (hback : u.stubs (.task slot) = [(.returnPath,(u.cpu core').rsp)]) :
    ∃ w, System.step L (.interruptExit core') u = some w ∧ w.userMode core' = true ∧ (w.cpu core').rsp = userRsp ∧
      (∀ r, r ≠ .gs → r ≠ .kernelGs → (w.cpu core').regs r = initialRegs userRip r) ∧ (w.cpu core').fpu = newFpuState := by
  have hs := run_ok hboot.ok hreach
  obtain ⟨hst,ho,ht⟩ := initTaskStack_slotOnly hs hin
  obtain ⟨hstubs,hwords,-,hstate⟩ := initTaskStack_frame hin
  have hsame : returning (initialRegs userRip) = initialRegs userRip :=
    (if_neg (by rw [initialRegs]; decide)).trans (Function.update_eq_self Reg.ss (initialRegs userRip))
  have hfirst : Interrupted t (.task slot) [] (L.stackTop (.task slot) - trapFrameSize) (initialRegs userRip) userRsp :=
    ⟨[],.returnPath,hstubs,.inr ⟨rfl,hsame.symm ▸ hwords⟩⟩
  have hlast : 0 < (u.stubs (.task slot)).length := by
    rw [hback]
    exact Nat.one_pos
  have hfpu : HasFpu t slot newFpuState := by
    refine ⟨fun k hk => ?_,fun _ => hstate⟩
    rw [ho.on] at hk
    exact absurd hk (System.parked_iff.mp ho.away k)
  obtain ⟨w,hexit,hsameOn,hnew,hcpu⟩ := (hfirst.run ht hwait hlast hrun).exit (run_ok ht hrun) hon hback
  refine ⟨w,hexit,System.userMode_iff.mpr ?_,by rw [hcpu],fun r h₁ h₂ => ?_,?_⟩
  · rw [hsameOn,hon]
    exact ⟨rfl,hnew⟩
  · rw [hcpu,hsame]
    cases r <;> first | rfl | exact absurd rfl h₁ | exact absurd rfl h₂
  · rw [hcpu]
    exact (hfpu.run ht hwait hlast hrun).running core' hon

/-- The first task starts on core 1, behind another one. -/
theorem task_starts_second : ∃ w, steps (System.step tightLayout) [.initTaskStack 0 0 0xE000 0x400000 0x7FF000,
      .initTaskStack 0 1 0xE000 0x500000 0x7FF000,.runTask 0 1 0xA000,.runTask 1 0 0xA000,.interruptExit 1] tightSystem = some w ∧
    (w.cpu 1).rsp = 0x7FF000 ∧ (w.cpu 1).regs .rip = 0x400000 ∧ (w.cpu 1).fpu = newFpuState := by
  have hcheck : ((System.step tightLayout (.initTaskStack 0 0 0xE000 0x400000 0x7FF000) tightSystem).bind fun t =>
      (steps (System.step tightLayout) [.initTaskStack 0 1 0xE000 0x500000 0x7FF000,.runTask 0 1 0xA000,.runTask 1 0 0xA000] t).map
        fun u => (stepsCheck (System.step tightLayout) (fun _ s' => decide (0 < (s'.stubs (.task 0)).length))
          [.initTaskStack 0 1 0xE000 0x500000 0x7FF000,.runTask 0 1 0xA000,.runTask 1 0 0xA000] t &&
        decide (u.on 1 = .task 0 ∧ u.stubs (.task 0) = [(.returnPath,(u.cpu 1).rsp)]))) = some true := by decide +kernel
  obtain ⟨t,ht,hcheck⟩ := Option.bind_eq_some_iff.mp hcheck
  obtain ⟨u,hu,hcheck⟩ := Option.map_eq_some_iff.mp hcheck
  obtain ⟨hwait,hlast⟩ := Bool.and_eq_true_iff.mp hcheck
  obtain ⟨hon,hback⟩ := of_decide_eq_true hlast
  obtain ⟨w,hw,-,hrsp,hregs,hfpu⟩ := task_starts tightSystem_booted (show steps _ [] tightSystem = some tightSystem from rfl) ht hu
    (stepsMeet_of_check _ (fun _ _ => of_decide_eq_true) hwait) hon hback
  refine ⟨w,?_,hrsp,hregs .rip (by decide) (by decide),hfpu⟩
  rw [steps,ht,Option.bind_some]
  exact (steps_append hu).trans (by rw [steps,hw]; rfl)

/-- Nothing touches the stack of a context that is on no core, unless its slot is given to another task. -/
theorem away_kept (hs : Ok L s) (h : System.step L act s = some t) (hparked : s.parked c = true) (hold : Present s c)
    (hnew : Present t c) : t.stubs c = s.stubs c ∧ t.mem (L.rspCell c) = s.mem (L.rspCell c) ∧
      ∀ x, InSpan L (.stack c) x → t.mem x = s.mem x := by
  have aside : ∀ {core}, Local L s t core → t.stubs c = s.stubs c ∧ t.mem (L.rspCell c) = s.mem (L.rspCell c) ∧
      ∀ x, InSpan L (.stack c) x → t.mem x = s.mem x := by
    intro core hl
    have hne : c ≠ s.on core := fun heq => System.parked_iff.mp hparked core heq.symm
    exact ⟨hl.stubs c hne,hl.places (.rspCell c) _ (by simp) (by simpa using hne) (by simp) inSpan_rspCell,
      fun x hx => hl.places (.stack c) x (by simpa using hne) (by simp) (by simp) hx⟩
  rcases step_kind hs h with ⟨core,hb,-⟩ | ⟨core,rfl⟩ | ⟨slot,ho,hslot⟩
  · exact aside hb.toLocal
  · obtain ⟨_,_,-,-,-,hl,-⟩ := handled_local hs h
    exact aside hl
  · have hne : c ≠ .task slot := by
      rintro rfl
      rcases hslot with hst | ⟨-,hst⟩
      · exact absurd (hst.symm.trans hold) (by decide)
      · exact absurd (hst.symm.trans hnew) (by decide)
    exact ⟨ho.stubs c hne,ho.places (.rspCell c) _ (by simp) (by simpa using hne) inSpan_rspCell,
      fun x hx => ho.places (.stack c) x (by simpa using hne) (by simp) hx⟩

theorem away_run (ht : Ok L t) (hpresent : Present u c) (hparked : u.parked c = true)
    (haway : stepsMeet (System.step L) (fun _ s => s.parked c = true ∧ Present s c) acts t)
    (hrun : steps (System.step L) acts t = some u) : u.stubs c = t.stubs c ∧ u.mem (L.rspCell c) = t.mem (L.rspCell c) ∧
      ∀ x, InSpan L (.stack c) x → u.mem x = t.mem x := by
  refine run_while (C := fun s => s.parked c = true ∧ Present s c) (P := fun s => s.stubs c = t.stubs c ∧
    s.mem (L.rspCell c) = t.mem (L.rspCell c) ∧ ∀ x, InSpan L (.stack c) x → s.mem x = t.mem x)
    (fun hs hstep hc hc' hp => ?_) ht ⟨rfl,rfl,fun _ _ => rfl⟩ haway ⟨hparked,hpresent⟩ hrun
  obtain ⟨h₁,h₂,h₃⟩ := away_kept hs hstep hc.1 hc.2 hc'.2
  exact ⟨h₁.trans hp.1,h₂.trans hp.2.1,fun x hx => (h₃ x hx).trans (hp.2.2 x hx)⟩

/-- A task that switches out is in the kernel, with room on its stack. -/
theorem switchOut_room (hs : Ok L s) (hon : s.on core = .task slot) (h : System.step L (.switchOut core ret) s = some t) :
    s.stubs (.task slot) ≠ [] ∧ L.stackBottom (.task slot) + switchFrameSize ≤ (s.cpu core).rsp ∧
      (s.cpu core).rsp ≤ L.stackTop (.task slot) := by
  rw [System.step,hon] at h
  dsimp only at h
  split_ifs at h with hroom
  rw [System.roomToSwitch,Bool.and_eq_true,Bool.not_eq_true',decide_eq_true_eq,hon] at hroom
  have hhigh := ((hs.cores core).kernel hroom.1).2.2.2
  rw [hon] at hhigh
  refine ⟨fun hnil => ?_,hroom.2,hhigh.trans (hs.chain (.task slot)).limit_le⟩
  rw [System.userMode_iff.mpr ⟨by rw [hon]; rfl,by rw [hon]; exact hnil⟩] at hroom
  cases hroom.1

/-- So are those of a task that is on no core. -/
theorem HasFpu.away {fpu : List UInt8} (h : HasFpu t slot fpu) (ht : Ok L t) (hparked : u.parked (.task slot) = true)
    (hstarted : u.started slot = true)
    (haway : stepsMeet (System.step L) (fun _ s => s.parked (.task slot) = true ∧ s.started slot = true) acts t)
    (hrun : steps (System.step L) acts t = some u) : HasFpu u slot fpu := by
  refine run_while (C := fun s => s.parked (.task slot) = true ∧ s.started slot = true) (P := fun s => HasFpu s slot fpu)
    (fun hs hstep hc _ h => h.step hs ?_ hstep) ht h haway ⟨hparked,hstarted⟩ hrun
  exact ((hs.contexts (.task slot)).switchedOut hc.1 hc.2).stubs rfl

theorem runTask_guard (h : System.step L (.runTask core slot ret) s = some t) :
    s.parked (.task slot) = true ∧ s.started slot = true := by
  rw [System.step] at h
  split_ifs at h with hg
  exact ⟨hg.2.2.1,hg.2.1⟩

/-- A task that has switched out goes on behind its call of switch_context, with the registers that a call keeps, with
its floating point registers and with its stack, on whatever core it is run again. -/
theorem task_resumes {s₀ : System} (hboot : Booted L s₀) (hreach : steps (System.step L) before s₀ = some s)
    (hon : s.on core = .task slot) (hout : System.step L (.switchOut core ret) s = some t)
    (hrun : steps (System.step L) acts t = some u)
    (haway : stepsMeet (System.step L) (fun _ s' => s'.parked (.task slot) = true ∧ s'.started slot = true) acts t)
    (hin : System.step L (.runTask core' slot ret') u = some w) :
    (w.cpu core').rsp = (s.cpu core).rsp ∧ (w.cpu core').regs .rip = ret ∧
      (∀ r ∈ calleeSaved, (w.cpu core').regs r = (s.cpu core).regs r) ∧ (w.cpu core').fpu = (s.cpu core).fpu ∧
      w.stubs (.task slot) = s.stubs (.task slot) ∧
      ∀ x, (s.cpu core).rsp ≤ x → x < L.stackTop (.task slot) → w.mem x = s.mem x := by
  have hs := run_ok hboot.ok hreach
  obtain ⟨hstubs,hlow,hhigh⟩ := switchOut_room hs hon hout
  obtain ⟨slot',hon',hleft,hbelow,ht⟩ := switchOut_below hs hout
  obtain rfl : slot' = slot := Context.task.inj (hon'.symm.trans hon)
  have hleft := hleft _ wordsAt_savedRegs
  have hu := run_ok ht hrun
  obtain ⟨honu,hback,hb,-⟩ := runTask_below hu hin
  obtain ⟨hparked,hstarted⟩ := runTask_guard hin
  obtain ⟨hstubsu,hcellu,hstacku⟩ := away_run (c := .task slot') ht hstarted hparked haway hrun
  have hsize : switchFrameSize = 56 := rfl
  have hcell : u.mem (L.rspCell (.task slot')) = (s.cpu core).rsp - switchFrameSize := by
    have hcellt := hleft.cell
    rw [show (s.saveFpu core slot').on core = .task slot' from hon] at hcellt
    exact hcellu.trans hcellt
  have hsaved : Saved u.mem (u.mem (L.rspCell (.task slot'))) (Function.update (s.cpu core).regs .rip ret) := by
    rw [hcell]
    refine WordsAt.congr hleft.saved fun x hx hlt => hstacku x ?_
    have hx : (s.cpu core).rsp - switchFrameSize ≤ x := hx
    have hlt : x < (s.cpu core).rsp - switchFrameSize + 56 := hlt
    exact ⟨show L.stackBottom (.task slot') ≤ x by omega,show x < L.stackTop (.task slot') by omega⟩
  have hback := hback _ hsaved
  refine ⟨?_,?_,fun r hr => ?_,?_,?_,fun x hx hlt => ?_⟩
  · have hne : L.rspCell (.task slot') ≠ L.syscallCell core' := fun heq =>
      (inSpan_rspCell (L := L) (c := .task slot')).apart (q := .syscallCell core') (by simp) (heq ▸ inSpan_syscallCell core')
    rw [hback.rsp,show ((u.setStackTop L core' (L.stackTop (.task slot'))).restoreFpu core' slot').mem (L.rspCell (.task slot')) =
      u.mem (L.rspCell (.task slot')) from Function.update_of_ne hne ..,hcell]
    omega
  · rw [hback.loaded .rip List.mem_cons_self,Function.update_self]
  · have hne : r ≠ .rip := by
      rintro rfl
      exact absurd hr (by decide)
    rw [hback.loaded r (List.mem_cons_of_mem _ hr),Function.update_of_ne hne]
  · have hfpu := ((hasFpu_of_running hs hon).step hs hstubs hout).away ht hparked hstarted haway hrun
    rw [hback.fpu,setStackTop_cpu]
    exact hfpu.parked hparked
  · rw [hback.stubs]
    exact hstubsu.trans (congrFun hleft.stubs _)
  · have hspan : InSpan L (.stack (.task slot')) x := ⟨show L.stackBottom (.task slot') ≤ x by omega,hlt⟩
    rw [hb.places (.stack (.task slot')) x (by rw [honu]; simp) (by simp) (by simp) hspan,hstacku x hspan]
    refine hleft.frame x (.inr hx) fun heq => ?_
    rw [show (s.saveFpu core slot').on core = .task slot' from hon] at heq
    exact hspan.apart (by simp) (heq ▸ inSpan_rspCell)

/-- It goes on on core 1 when it has left core 0 in a system call. -/
theorem task_resumes_moved : ∃ s w, steps (System.step tightLayout) (firstActs ++ [.syscall 0 0xD000]) tightSystem = some s ∧
    steps (System.step tightLayout) movedActs s = some w ∧ (w.cpu 1).rsp = (s.cpu 0).rsp ∧ (w.cpu 1).regs .rip = 0xB000 ∧
    (w.cpu 1).regs .rbx = (s.cpu 0).regs .rbx := by
  have hcheck : ((steps (System.step tightLayout) (firstActs ++ [.syscall 0 0xD000]) tightSystem).bind fun s =>
      (System.step tightLayout (.switchOut 0 0xB000) s).bind fun t =>
      (steps (System.step tightLayout) [.initTaskStack 0 1 0xE000 0x400000 0x7FF000,.runTask 0 1 0xA000,.interruptExit 0] t).bind
        fun u => (System.step tightLayout (.runTask 1 0 0xC000) u).map fun _ =>
          (stepsCheck (System.step tightLayout) (fun _ s' => decide (s'.parked (.task 0) = true ∧ s'.started 0 = true))
            [.initTaskStack 0 1 0xE000 0x400000 0x7FF000,.runTask 0 1 0xA000,.interruptExit 0] t &&
          decide (s.on 0 = .task 0))) = some true := by decide +kernel
  obtain ⟨s,hs,hcheck⟩ := Option.bind_eq_some_iff.mp hcheck
  obtain ⟨t,ht,hcheck⟩ := Option.bind_eq_some_iff.mp hcheck
  obtain ⟨u,hu,hcheck⟩ := Option.bind_eq_some_iff.mp hcheck
  obtain ⟨w,hw,hcheck⟩ := Option.map_eq_some_iff.mp hcheck
  obtain ⟨haway,hlast⟩ := Bool.and_eq_true_iff.mp hcheck
  obtain ⟨hrsp,hrip,hregs,-⟩ := task_resumes tightSystem_booted hs (of_decide_eq_true hlast) ht hu
    (stepsMeet_of_check _ (fun _ _ => of_decide_eq_true) haway) hw
  refine ⟨s,w,hs,?_,hrsp,hrip,hregs .rbx (by decide)⟩
  rw [movedActs,steps,ht,Option.bind_some]
  exact (steps_append hu).trans (by rw [steps,hw]; rfl)

end MofuOS.Process.Stacks
