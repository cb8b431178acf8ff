import MofuOS.Lib.Steps
import Mathlib.Logic.Function.Basic
import Mathlib.Tactic.SplitIfs

/-! The double buffering of a window: WindowBuffer of graphics/window.rs, the part of compose that
reads it, and UserSurface of the user library. Both sides keep their own idea of the back buffer, and
one flag passes between them. -/
namespace MofuOS.Graphics
open Lib

/-- The two allocations of a window, by their role when it was created. -/
inductive PixelBuffer where
  | first
  | second
  deriving DecidableEq, Repr

/-- The pixels of a buffer. -/
abbrev Frame (n : Nat) := Fin n → UInt32

structure WindowBuffer where
  backBuffer : PixelBuffer
  frontBuffer : PixelBuffer
  needsSwap : Bool

structure UserSurface where
  pixels : PixelBuffer
  pixelsSecond : PixelBuffer

def UserSurface.swap (s : UserSurface) : UserSurface := ⟨s.pixelsSecond,s.pixels⟩

/-- The main loop of a program draws, presents and swaps. -/
inductive Program where
  | draws
  | swaps
  deriving DecidableEq, Repr

/-- Where compose is with a window: in try_swap, or copying the pixels of the front buffer that are
on the screen. -/
inductive Compose (n : Nat) where
  | idle
  | loadNeedsSwap (offsets : List (Fin n))
  | loadBuffers (offsets : List (Fin n))
  | storeBack (offsets : List (Fin n)) (back front : PixelBuffer)
  | storeFront (offsets : List (Fin n)) (back : PixelBuffer)
  | clearNeedsSwap (offsets : List (Fin n))
  | loadFront (offsets : List (Fin n))
  | copy (src : PixelBuffer) (offsets : List (Fin n)) (copied : List (Fin n × UInt32))
  deriving DecidableEq

/-- The window as its program and the compositor share it. What was presented and what was shown is
recorded for the proofs. -/
structure Screen (n : Nat) where
  buffer : WindowBuffer := ⟨.first,.second,false⟩
  memory : PixelBuffer → Frame n := fun _ _ => 0
  surface : UserSurface := ⟨.first,.second⟩
  program : Program := .draws
  compose : Compose n := .idle
  presented : List (Frame n) := []
  shown : List (List (Fin n × UInt32)) := []

/-- Draw is one store to a pixel, compose the start of a composition that copies these pixels, compositor its
next load or store. -/
inductive Act (n : Nat) where
  | draw (offset : Fin n) (color : UInt32)
  | present
  | swap
  | compose (offsets : List (Fin n))
  | compositor

variable {n : Nat}

/-- One load or store of compose. -/
def Compose.step (s : Screen n) : Compose n → Option (Screen n)
  | .idle => none
  | .loadNeedsSwap offsets =>
    some { s with compose := if s.buffer.needsSwap then .loadBuffers offsets else .loadFront offsets }
  | .loadBuffers offsets => some { s with compose := .storeBack offsets s.buffer.backBuffer s.buffer.frontBuffer }
  | .storeBack offsets back front => some { s with buffer.backBuffer := front, compose := .storeFront offsets back }
  | .storeFront offsets back => some { s with buffer.frontBuffer := back, compose := .clearNeedsSwap offsets }
  | .clearNeedsSwap offsets => some { s with buffer.needsSwap := false, compose := .loadFront offsets }
  | .loadFront offsets => some { s with compose := .copy s.buffer.frontBuffer offsets [] }
  | .copy src (offset :: offsets) copied =>
    some { s with compose := .copy src offsets (copied ++ [(offset,s.memory src offset)]) }
  | .copy _ [] copied => some { s with compose := .idle, shown := s.shown ++ [copied] }

/-- Compose holds the lock of the compositor, and present takes it. -/
def step : Act n → Screen n → Option (Screen n)
  | .draw offset color, s =>
    if s.program = .draws then
      some { s with memory := Function.update s.memory s.surface.pixels (Function.update (s.memory s.surface.pixels) offset color) }
    else none
  | .present, s =>
    if s.program = .draws ∧ s.compose = .idle then
      some { s with
        buffer.needsSwap := true
        program := .swaps
        presented := s.presented ++ [s.memory s.surface.pixels] }
    else none
  | .swap, s => if s.program = .swaps then some { s with surface := s.surface.swap, program := .draws } else none
  | .compose offsets, s => if s.compose = .idle then some { s with compose := .loadNeedsSwap offsets } else none
  | .compositor, s => s.compose.step s

/-- Every pixel that was copied is that of one frame, which was presented. -/
def FromPresented (s : Screen n) (copied : List (Fin n × UInt32)) : Prop := ∃ frame ∈ s.presented, ∀ e ∈ copied, e.2 = frame e.1

/-- The program does not draw into what compose reads, and what compose shows was presented. -/
structure KeepsApart (s : Screen n) : Prop where
  apart : ∀ src offsets copied, s.compose = .copy src offsets copied → s.program = .draws → s.surface.pixels ≠ src
  copying : ∀ src offsets copied, s.compose = .copy src offsets copied → FromPresented s copied
  shown : ∀ copied ∈ s.shown, FromPresented s copied

/-- The last frame was taken before the next is presented, and nothing is composed before the first. -/
def Paced : Act n → Screen n → Prop
  | .present, s => s.buffer.needsSwap = false
  | .compose _, s => s.presented ≠ []
  | _, _ => True

/-- The buffer that this composition reads, or the next one if none is under way. -/
def WindowBuffer.target (b : WindowBuffer) : Compose n → PixelBuffer
  | .idle => if b.needsSwap then b.backBuffer else b.frontBuffer
  | .loadNeedsSwap _ => if b.needsSwap then b.backBuffer else b.frontBuffer
  | .loadBuffers _ => b.backBuffer
  | .storeBack _ back _ => back
  | .storeFront _ back => back
  | .clearNeedsSwap _ => b.frontBuffer
  | .loadFront _ => b.frontBuffer
  | .copy src _ _ => src

/-- The two pointers differ, but between the two stores that exchange them. -/
def WindowBuffer.Pointers (b : WindowBuffer) : Compose n → Prop
  | .idle => b.backBuffer ≠ b.frontBuffer
  | .loadNeedsSwap _ => b.backBuffer ≠ b.frontBuffer
  | .loadBuffers _ => b.backBuffer ≠ b.frontBuffer
  | .storeBack _ back front => back ≠ front
  | .storeFront _ back => b.backBuffer ≠ back
  | .clearNeedsSwap _ => b.backBuffer ≠ b.frontBuffer
  | .loadFront _ => b.backBuffer ≠ b.frontBuffer ∧ b.needsSwap = false
  | .copy src _ _ => b.backBuffer ≠ b.frontBuffer ∧ b.needsSwap = false ∧ src = b.frontBuffer

namespace Screen
variable {s t : Screen n}

def target (s : Screen n) : PixelBuffer := s.buffer.target s.compose

/-- The program draws into the other buffer than the one that is read, until it presents it. -/
structure Ok (s : Screen n) : Prop where
  surface : s.surface.pixels ≠ s.surface.pixelsSecond
  pointers : s.buffer.Pointers s.compose
  program : s.program = .draws ↔ s.surface.pixels ≠ s.target
  frame : ∀ frame, s.presented.getLast? = some frame → s.memory s.target = frame
  composing : s.compose ≠ .idle → s.presented ≠ []
  copied : ∀ src offsets copied, s.compose = .copy src offsets copied → ∀ e ∈ copied, e.2 = s.memory src e.1
  shown : ∀ copied ∈ s.shown, FromPresented s copied

/-- What has been copied so far is of the frame that was presented last. -/
theorem Ok.fromPresented {src : PixelBuffer} {offsets : List (Fin n)} {copied : List (Fin n × UInt32)} (h : s.Ok)
    (hc : s.compose = .copy src offsets copied) : FromPresented s copied := by
  have hne := h.composing (by rw [hc]; exact nofun)
  have hframe := h.frame _ (List.getLast?_eq_some_getLast hne)
  have htarget : s.target = src := by rw [target,hc]; rfl
  rw [htarget] at hframe
  refine ⟨_,List.getLast_mem hne,fun e he => ?_⟩
  rw [← hframe]
  exact h.copied src offsets copied hc e he

theorem Ok.keepsApart (h : s.Ok) : KeepsApart s where
  apart src offsets copied hc hp := by
    have hne := h.program.mp hp
    rwa [target,hc] at hne
  copying _ _ _ hc := h.fromPresented hc
  shown := h.shown

/-- A step that moves no pixel, presents nothing and does not change which buffer is read. -/
private theorem Ok.of_target (h : s.Ok) (hsurface : t.surface = s.surface) (hprogram : t.program = s.program)
    (hmemory : t.memory = s.memory) (hpresented : t.presented = s.presented) (hne : s.presented ≠ [])
    (htarget : t.target = s.target) (hpointers : t.buffer.Pointers t.compose)
    (hcopied : ∀ src offsets copied, t.compose = .copy src offsets copied → ∀ e ∈ copied, e.2 = s.memory src e.1)
    (hshown : ∀ copied ∈ t.shown, FromPresented s copied) : t.Ok where
  surface := by rw [hsurface]; exact h.surface
  pointers := hpointers
  program := by rw [hprogram,hsurface,htarget]; exact h.program
  frame := by rw [hpresented,hmemory,htarget]; exact h.frame
  composing _ := by rw [hpresented]; exact hne
  copied := by rw [hmemory]; exact hcopied
  shown := by simpa only [FromPresented,hpresented] using hshown

private theorem Ok.compose (h : s.Ok) (hstep : s.compose.step s = some t) : t.Ok := by
  have hpointers := h.pointers
  cases hc : s.compose with
  | idle =>
    rw [hc] at hstep
    cases hstep
  | loadNeedsSwap offsets =>
    rw [hc] at hstep hpointers
    cases hstep
    have hne := h.composing (by rw [hc]; exact nofun)
    cases hswap : s.buffer.needsSwap with
    | true =>
      refine h.of_target rfl rfl rfl rfl hne ?_ ?_ ?_ h.shown
      · simp only [target,hc,WindowBuffer.target,hswap,if_true]
      · simp only [if_true]
        exact hpointers
      · simp
    | false =>
      refine h.of_target rfl rfl rfl rfl hne ?_ ?_ ?_ h.shown
      · simp only [target,hc,WindowBuffer.target,hswap,Bool.false_eq_true,if_false]
      · simp only [Bool.false_eq_true,if_false]
        exact ⟨hpointers,hswap⟩
      · simp
  | loadBuffers offsets =>
    rw [hc] at hstep hpointers
    cases hstep
    refine h.of_target rfl rfl rfl rfl (h.composing (by rw [hc]; exact nofun)) ?_ hpointers nofun h.shown
    simp only [target,hc,WindowBuffer.target]
  | storeBack offsets back front =>
    rw [hc] at hstep hpointers
    cases hstep
    refine h.of_target rfl rfl rfl rfl (h.composing (by rw [hc]; exact nofun)) ?_ hpointers.symm nofun h.shown
    simp only [target,hc,WindowBuffer.target]
  | storeFront offsets back =>
    rw [hc] at hstep hpointers
    cases hstep
    refine h.of_target rfl rfl rfl rfl (h.composing (by rw [hc]; exact nofun)) ?_ hpointers nofun h.shown
    simp only [target,hc,WindowBuffer.target]
  | clearNeedsSwap offsets =>
    rw [hc] at hstep hpointers
    cases hstep
    refine h.of_target rfl rfl rfl rfl (h.composing (by rw [hc]; exact nofun)) ?_ ⟨hpointers,rfl⟩ nofun h.shown
    simp only [target,hc,WindowBuffer.target]
  | loadFront offsets =>
    rw [hc] at hstep hpointers
    cases hstep
    refine h.of_target rfl rfl rfl rfl (h.composing (by rw [hc]; exact nofun)) ?_ ⟨hpointers.1,hpointers.2,rfl⟩ ?_ h.shown
    · simp only [target,hc,WindowBuffer.target]
    · rintro src offsets copied hcopy
      cases hcopy
      exact nofun
  | copy src offsets copied =>
    have hne := h.composing (by rw [hc]; exact nofun)
    have hcopied := h.copied src offsets copied hc
    have hframe := h.fromPresented hc
    rw [hc] at hstep hpointers
    cases offsets with
    | cons offset offsets =>
      cases hstep
      refine h.of_target rfl rfl rfl rfl hne ?_ hpointers ?_ h.shown
      · simp only [target,hc,WindowBuffer.target]
      · rintro src' offsets' copied' hcopy e he
        cases hcopy
        obtain he | he := List.mem_append.mp he
        · exact hcopied e he
        · rw [List.mem_singleton.mp he]
    | nil =>
      cases hstep
      refine h.of_target rfl rfl rfl rfl hne ?_ hpointers.1 nofun ?_
      · simp only [target,hc,WindowBuffer.target,hpointers.2.1,Bool.false_eq_true,if_false]
        exact hpointers.2.2.symm
      · intro l hl
        obtain hl | hl := List.mem_append.mp hl
        · exact h.shown l hl
        · rw [List.mem_singleton.mp hl]
          exact hframe

private theorem eq_of_ne {a b c : PixelBuffer} (hab : a ≠ b) (hcb : c ≠ b) : a = c := by
  cases a <;> cases b <;> cases c <;> simp_all

private theorem Ok.step {act : Act n} (h : s.Ok) (hp : Paced act s) (hstep : Graphics.step act s = some t) : t.Ok := by
  cases act with
  | draw offset color =>
    simp only [Graphics.step] at hstep
    split_ifs at hstep with hdraws
    cases hstep
    have hne := h.program.mp hdraws
    refine ⟨h.surface,h.pointers,h.program,?_,h.composing,?_,h.shown⟩
    · intro frame hframe
      exact (Function.update_of_ne hne.symm ..).trans (h.frame frame hframe)
    · intro src offsets copied hc e he
      have hsrc : s.target = src := by rw [target,hc]; rfl
      simp only [Function.update_of_ne (hsrc ▸ hne.symm)]
      exact h.copied src offsets copied hc e he
  | present =>
    simp only [Graphics.step] at hstep
    split_ifs at hstep with hcall
    cases hstep
    obtain ⟨hdraws,hidle⟩ := hcall
    have hne := h.program.mp hdraws
    have hpointers := h.pointers
    simp only [target,hidle,WindowBuffer.target,WindowBuffer.Pointers] at hne hpointers
    rw [if_neg (by rw [hp]; exact Bool.false_ne_true)] at hne
    have hback : s.surface.pixels = s.buffer.backBuffer := eq_of_ne hne hpointers
    refine ⟨h.surface,by rw [hidle]; exact hpointers,?_,?_,fun hc => absurd hidle hc,?_,?_⟩
    · simp [target,hidle,WindowBuffer.target,hback]
    · simp [target,hidle,WindowBuffer.target,hback]
    · simp [hidle]
    · intro copied hl
      obtain ⟨frame,hf,hall⟩ := h.shown copied hl
      exact ⟨frame,List.mem_append_left _ hf,hall⟩
  | swap =>
    simp only [Graphics.step] at hstep
    split_ifs at hstep with hswaps
    cases hstep
    have hpixels : s.surface.pixels = s.target := by
      by_contra hne
      rw [h.program.mpr hne] at hswaps
      cases hswaps
    refine ⟨h.surface.symm,h.pointers,iff_of_true rfl ?_,h.frame,h.composing,h.copied,h.shown⟩
    exact fun he => h.surface (hpixels.trans he.symm)
  | compose offsets =>
    simp only [Graphics.step] at hstep
    split_ifs at hstep with hidle
    cases hstep
    have hpointers := h.pointers
    rw [hidle] at hpointers
    refine h.of_target rfl rfl rfl rfl hp ?_ hpointers nofun h.shown
    simp only [target,hidle,WindowBuffer.target]
  | compositor => exact h.compose hstep

end Screen

/-- In every run in which no frame is presented before the last one was taken, and none composed
before the first, the two sides keep apart. -/
theorem steps_keepsApart {acts : List (Act n)} {s : Screen n} (hp : stepsMeet step Paced acts {})
    (h : steps step acts {} = some s) : KeepsApart s := by
  have hstart : Screen.Ok ({} : Screen n) :=
    ⟨nofun,nofun,iff_of_true rfl nofun,nofun,fun hc => absurd rfl hc,nofun,nofun⟩
  exact (steps_invariant (fun _ _ _ hp hs h => hs.step hp h) hp hstart h).keepsApart

/-- The second frame is presented after the first was composed. -/
def pacedRun : List (Act 1) :=
  [.draw 0 1,.present,.swap,.compose [0],.draw 0 2] ++ List.replicate 8 .compositor ++ [.present]

theorem steps_keepsApart_paced : ∃ s, stepsMeet step Paced pacedRun {} ∧ steps step pacedRun {} = some s ∧
    s.shown = [[(0,1)]] ∧ KeepsApart s := by
  have hrun : (steps step pacedRun {}).map (fun s => s.shown) = some [[(0,1)]] := by
    decide +kernel
  have hp : stepsMeet step Paced pacedRun {} := by
    refine stepsMeet_of_check (fun act s => match act with
      | .present => !s.buffer.needsSwap
      | .compose _ => !s.presented.isEmpty
      | _ => true) ?_ (by decide +kernel)
    intro act s h
    cases act with
    | present => simpa [Paced] using h
    | compose offsets => simpa [Paced] using h
    | _ => trivial
  obtain ⟨s,hs,hshown⟩ := Option.map_eq_some_iff.mp hrun
  exact ⟨s,hp,hs,hshown,steps_keepsApart hp hs⟩

/-- Two frames are presented before the first composition, which then reads the buffer that the
program draws the third one into. -/
def hastyRun : List (Act 1) :=
  [.draw 0 1,.present,.swap,.draw 0 2,.present,.swap,.draw 0 3,.compose [0]] ++ List.replicate 7 .compositor

theorem steps_draws_into_front : ∃ s, steps step hastyRun {} = some s ∧ s.program = .draws ∧
    s.compose = .copy s.surface.pixels [] [(0,3)] ∧ (s.presented.map fun frame => frame 0) = [1,2] ∧ ¬ KeepsApart s := by
  have hrun : (steps step hastyRun {}).map (fun s =>
      (decide (s.program = .draws ∧ s.compose = .copy s.surface.pixels [] [(0,3)]),s.presented.map fun frame => frame 0)) =
        some (true,[1,2]) := by
    decide +kernel
  obtain ⟨s,hs,hview⟩ := Option.map_eq_some_iff.mp hrun
  obtain ⟨hd,hpresented⟩ := Prod.mk.inj hview
  obtain ⟨hdraws,hcopy⟩ := of_decide_eq_true hd
  exact ⟨s,hs,hdraws,hcopy,hpresented,fun h => h.apart _ _ _ hcopy hdraws rfl⟩

end MofuOS.Graphics
