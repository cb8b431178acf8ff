import MofuOS.Process.KernelStacks

/-! What holds of the kernel stacks in every run: the frames of the waiting stubs are stacked up to the top, each with the
selectors of the ring it came from, and a context that has switched out has its registers below them. -/
namespace MofuOS.Process.Stacks
open Lib

def rspOffset : Nat := 144

def Context.isTask : Context → Bool
  | .task _ => true
  | .scheduler _ => false

/-- The selectors in a frame, and the stack pointer where it leads back into the kernel. -/
def FrameOk (L : Statics) (mem : Nat → Nat) (c : Context) (rest : List (Stub × Nat)) (frame : Nat) : Stub → Prop
  | .syscall => (c.isTask && rest.isEmpty) = true
  | stub =>
    if c.isTask && rest.isEmpty then
      mem (frame + csOffset) = userCodeSelectorValue ∧ (stub = .returnPath → mem (frame + ssOffset) = userDataSelectorValue)
    else mem (frame + csOffset) = kernelCodeSelectorValue ∧ mem (frame + ssOffset) % 4 = 0 ∧
      L.stackBottom c ≤ mem (frame + rspOffset) ∧ mem (frame + rspOffset) ≤ L.limit c rest

/-- The frames of a context are stacked. -/
def Chain (L : Statics) (mem : Nat → Nat) (c : Context) : List (Stub × Nat) → Prop
  | [] => True
  | (stub,frame) :: rest => L.stackBottom c ≤ frame ∧ frame + stub.frameSize ≤ L.limit c rest ∧
      FrameOk L mem c rest frame stub ∧ Chain L mem c rest

variable {L : Layout} {s t : System} {c c' : Context} {core k : Core} {slot : Slot} {stub : Stub} {frame a x n : Nat}
  {rest stubs : List (Stub × Nat)} {mem mem' : Nat → Nat} {act : Act} {m : Machine Reg}

namespace Chain

theorem limit_le {L : Statics} (h : Chain L mem c stubs) : L.limit c stubs ≤ L.stackTop c := by
  induction stubs with
  | nil => exact Nat.le_refl _
  | cons p rest ih =>
    obtain ⟨stub,frame⟩ := p
    have := ih h.2.2.2
    have := h.2.1
    rw [Statics.limit]
    omega

theorem bottom_le {L : Statics} (h : Chain L mem c stubs) : L.stackBottom c ≤ L.limit c stubs := by
  cases stubs with
  | nil => cases c <;> exact Nat.le_add_right ..
  | cons p rest => exact h.1

/-- Only the words of the frames and behind them matter. -/
theorem congr {L : Statics} (h : Chain L mem c stubs) (heq : ∀ x, L.limit c stubs ≤ x → x < L.stackTop c → mem' x = mem x) :
    Chain L mem' c stubs := by
  induction stubs with
  | nil => trivial
  | cons p rest ih =>
    obtain ⟨stub,frame⟩ := p
    obtain ⟨hbottom,hsize,hframe,hrest⟩ := h
    have hle := hrest.limit_le
    refine ⟨hbottom,hsize,?_,ih hrest fun x hx hlt => heq x ?_ hlt⟩
    · cases stub with
      | syscall => exact hframe
      | handler =>
        rw [Stub.frameSize,trapFrameSize] at hsize
        have hword : ∀ off, off < 160 → mem' (frame + off) = mem (frame + off) := fun off hoff =>
          heq _ (Nat.le_add_right ..) (by omega)
        simp only [FrameOk,hword csOffset (by decide),hword ssOffset (by decide),hword rspOffset (by decide)] at hframe ⊢
        exact hframe
      | returnPath =>
        rw [Stub.frameSize,trapFrameSize] at hsize
        have hword : ∀ off, off < 160 → mem' (frame + off) = mem (frame + off) := fun off hoff =>
          heq _ (Nat.le_add_right ..) (by omega)
        simp only [FrameOk,hword csOffset (by decide),hword ssOffset (by decide),hword rspOffset (by decide)] at hframe ⊢
        exact hframe
    · rw [Statics.limit]
      omega

end Chain

/-- The context is one that may be run. -/
def Present (s : System) : Context → Prop
  | .task slot => s.started slot = true
  | .scheduler _ => True

/-- Where a context that has switched out has left its registers. -/
structure SwitchedOut (L : Layout) (s : System) (c : Context) : Prop where
  bottom : L.stackBottom c ≤ s.mem (L.rspCell c)
  limit : s.mem (L.rspCell c) + switchFrameSize ≤ s.limit L c
  stubs : c.isTask = true → s.stubs c ≠ []

structure ContextOk (L : Layout) (s : System) (c : Context) : Prop where
  chain : Chain L.toStatics s.mem c (s.stubs c)
  switchedOut : s.parked c = true → Present s c → SwitchedOut L s c

/-- In the kernel the stack pointer is in the context's part of its stack. -/
structure CoreOk (L : Layout) (s : System) (core : Core) : Prop where
  scheduler : ∀ k, s.on core = .scheduler k → k = core
  gs : (s.cpu core).regs .kernelGs = L.syscallCell core
  user : s.userMode core = true → (s.cpu core).regs .cs = userCodeSelectorValue
  kernel : s.userMode core = false → (s.cpu core).regs .cs = kernelCodeSelectorValue ∧ (s.cpu core).regs .ss % 4 = 0 ∧
    L.stackBottom (s.on core) ≤ (s.cpu core).rsp ∧ (s.cpu core).rsp ≤ s.limit L (s.on core)
  task : ∀ slot, s.on core = .task slot →
    (s.cpu core).rsp0 = L.stackTop (.task slot) ∧ s.mem (L.syscallCell core) = L.stackTop (.task slot) ∧ s.started slot = true

structure Ok (L : Layout) (s : System) : Prop where
  contexts : ∀ c, ContextOk L s c
  cores : ∀ core, CoreOk L s core
  once : ∀ k k', s.on k = s.on k' → k = k'
  fresh : ∀ slot, s.started slot = false → s.stubs (.task slot) = []

def InSpan (L : Layout) (p : Place) (x : Nat) : Prop := (L.span p).1 ≤ x ∧ x < (L.span p).2

theorem InSpan.apart {p q : Place} (h : InSpan L p x) (hne : p ≠ q) : ¬ InSpan L q x := by
  rintro ⟨hq,hq'⟩
  obtain ⟨hp,hp'⟩ := h
  rcases L.apart p q hne with hle | hle
  · omega
  · omega

theorem inSpan_rspCell : InSpan L (.rspCell c) (L.rspCell c) := ⟨Nat.le_refl _,Nat.lt_add_of_pos_right (by decide)⟩

theorem inSpan_syscallCell (core : Core) : InSpan L (.syscallCell core) (L.syscallCell core) :=
  ⟨Nat.le_refl _,Nat.lt_add_of_pos_right (by decide)⟩

theorem stackTop_lt : L.stackTop c < 2^64 := L.bounded (.stack c)

theorem trapFrame_fits : L.stackBottom c + trapFrameSize ≤ L.stackTop c := by
  cases c with
  | task slot =>
    rw [Statics.stackTop,trapFrameSize,taskKernelStackSize]
    omega
  | scheduler core =>
    rw [Statics.stackTop,trapFrameSize,perCoreStackSize]
    omega

theorem mem_places (p : Place) : p ∈ places := by
  have hc : ∀ c, c ∈ contexts := by
    intro c
    rw [contexts,List.mem_append,List.mem_map,List.mem_map]
    cases c with
    | task slot => exact .inl ⟨slot,List.mem_finRange slot,rfl⟩
    | scheduler core => exact .inr ⟨core,List.mem_finRange core,rfl⟩
  rw [places,List.mem_append,List.mem_append,List.mem_map,List.mem_map,List.mem_map]
  cases p with
  | stack c => exact .inl (.inl ⟨c,hc c,rfl⟩)
  | rspCell c => exact .inl (.inr ⟨c,hc c,rfl⟩)
  | syscallCell core => exact .inr ⟨core,List.mem_finRange core,rfl⟩

namespace System

theorem parked_iff : s.parked c = true ↔ ∀ core, s.on core ≠ c := by
  rw [parked,List.all_eq_true]
  exact ⟨fun h core => of_decide_eq_true (h core (List.mem_finRange core)),fun h core _ => decide_eq_true (h core)⟩

theorem elsewhere_notSpan {a : Nat} (h : elsewhere L a = true) (p : Place) : ¬ InSpan L p a := by
  have hp := List.all_eq_true.mp h p (mem_places p)
  rw [Bool.or_eq_true,decide_eq_true_eq,decide_eq_true_eq] at hp
  rintro ⟨h₁,h₂⟩
  omega

theorem store_of_notMem {writes : List (Nat × Nat)} (h : ∀ w ∈ writes, w.1 ≠ x) : (s.store writes).mem x = s.mem x := by
  rw [store,setMem_mem]
  generalize s.mem = mem
  induction writes generalizing mem with
  | nil => rfl
  | cons w ws ih =>
    rw [List.foldl_cons,ih (fun w' hw' => h w' (List.mem_cons_of_mem _ hw')),
      Function.update_of_ne fun e => h w List.mem_cons_self e.symm]

theorem userMode_iff : s.userMode core = true ↔ (s.on core).isTask = true ∧ s.stubs (s.on core) = [] := by
  rw [userMode]
  cases h : s.on core with
  | task slot => simp [Context.isTask]
  | scheduler k => simp [Context.isTask]

end System

/-- What an act of a core leaves alone: the other cores and contexts, their places, and on its own stack the frames. -/
structure Local (L : Layout) (s t : System) (core : Core) : Prop where
  cpu : ∀ k, k ≠ core → t.cpu k = s.cpu k
  on : ∀ k, k ≠ core → t.on k = s.on k
  stubs : ∀ c, c ≠ s.on core → t.stubs c = s.stubs c
  started : t.started = s.started
  places : ∀ p x, p ≠ .stack (s.on core) → p ≠ .rspCell (s.on core) → p ≠ .syscallCell core → InSpan L p x → t.mem x = s.mem x

namespace Local

theorem coreOk (h : Local L s t core) (hs : Ok L s) (hne : k ≠ core) : CoreOk L t k := by
  have hc := hs.cores k
  have hon : s.on k ≠ s.on core := fun heq => hne (hs.once k core heq)
  have hstubs := h.stubs _ hon
  have hmode : t.userMode k = s.userMode k := by
    rw [Bool.eq_iff_iff,System.userMode_iff,System.userMode_iff,h.on k hne,hstubs]
  refine ⟨?_,?_,?_,?_,?_⟩
  · rw [h.on k hne]
    exact hc.scheduler
  · rw [h.cpu k hne]
    exact hc.gs
  · rw [hmode,h.cpu k hne]
    exact hc.user
  · rw [hmode,h.cpu k hne,h.on k hne,System.limit,hstubs]
    exact hc.kernel
  · rw [h.cpu k hne,h.on k hne,h.started,
      h.places (.syscallCell k) _ (by simp) (by simp) (by simpa using hne) (inSpan_syscallCell k)]
    exact hc.task

theorem contextOk (h : Local L s t core) (hs : Ok L s) (hne : c ≠ s.on core) : ContextOk L t c := by
  have hc := hs.contexts c
  have hstubs := h.stubs c hne
  have hstack : ∀ x, InSpan L (.stack c) x → t.mem x = s.mem x := fun x =>
    h.places _ x (by simpa using hne) (by simp) (by simp)
  refine ⟨?_,fun hparked hpresent => ?_⟩
  · rw [hstubs]
    exact hc.chain.congr fun x hx hlt => hstack x ⟨hc.chain.bottom_le.trans hx,hlt⟩
  · have hpark : s.parked c = true := by
      rw [System.parked_iff] at hparked ⊢
      intro k
      by_cases hk : k = core
      · rw [hk]
        exact hne.symm
      · rw [← h.on k hk]
        exact hparked k
    have hpresent' : Present s c := by
      cases c with
      | task slot =>
        rw [Present,h.started] at hpresent
        exact hpresent
      | scheduler k => trivial
    have hout := hc.switchedOut hpark hpresent'
    have hcell := h.places (.rspCell c) _ (by simp) (by simpa using hne) (by simp) inSpan_rspCell
    refine ⟨?_,?_,?_⟩
    · rw [hcell]
      exact hout.bottom
    · rw [hcell,System.limit,hstubs]
      exact hout.limit
    · rw [hstubs]
      exact hout.stubs

/-- An act of a core after which the core and its context are in order leaves everything in order. -/
theorem ok (h : Local L s t core) (hs : Ok L s) (hcore : CoreOk L t core) (hcontext : ContextOk L t (s.on core))
    (honce : ∀ k, k ≠ core → s.on k ≠ t.on core) : Ok L t := by
  refine ⟨fun c => ?_,fun k => ?_,fun k k' heq => ?_,fun slot hslot => ?_⟩
  · by_cases hc : c = s.on core
    · exact hc ▸ hcontext
    · exact h.contextOk hs hc
  · by_cases hk : k = core
    · exact hk ▸ hcore
    · exact h.coreOk hs hk
  · by_cases hk : k = core
    · by_cases hk' : k' = core
      · rw [hk,hk']
      · rw [hk,h.on k' hk'] at heq
        exact absurd heq.symm (honce k' hk')
    · by_cases hk' : k' = core
      · rw [hk',h.on k hk] at heq
        exact absurd heq (honce k hk)
      · rw [h.on k hk,h.on k' hk'] at heq
        exact hs.once k k' heq
  · rw [h.started] at hslot
    have hnil := hs.fresh slot hslot
    by_cases hc : Context.task slot = s.on core
    · have hst := ((hs.cores core).task slot hc.symm).2.2
      rw [hslot] at hst
      cases hst
    · rw [h.stubs _ hc]
      exact hnil

end Local

end MofuOS.Process.Stacks
