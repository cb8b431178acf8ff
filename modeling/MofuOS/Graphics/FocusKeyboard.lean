import MofuOS.Graphics.FocusVisible

/-! The keyboard follows the focus: the focused window publishes what the compositor knows of it, the others nothing,
as long as no new window takes the place of a focused one while the keyboard is in use. -/
namespace MofuOS.Graphics.Focus
open Lib Events Compose
open Memory (heapSizeBytes)
open Windows (invalidWindowId)
variable {fb : FrameBufferTarget} {p : Profile} {keys : KeyCodes} {c c' : Compositor fb}

section Property

/-- The keyboard as a window is to see it. -/
def Compositor.seenBy (c : Compositor fb) (id : Nat) : KeyboardState :=
  if id = c.currentlyFocusedWindow then c.keyboardState else {}

/-- The focused window publishes the keyboard state, and every other visible window that no key is down. -/
def Published (c : Compositor fb) : Prop := ∀ (i : Nat) (w : Window fb) (page : EventPage),
  c.windows[i]? = some w → w.isVisible = true → w.eventBuffer = some page → Publishes (c.seenBy i) page

/-- If the focus moves, the window that had it has been sent the releases that fit into its ring. -/
def Released (c c' : Compositor fb) : Prop := c'.currentlyFocusedWindow ≠ c.currentlyFocusedWindow →
  ∀ w page q, c.windows[c.currentlyFocusedWindow]? = some w → w.eventBuffer = some page → page.buffer.Holds q →
    ∃ w' page', c'.windows[c.currentlyFocusedWindow]? = some w' ∧ w'.eventBuffer = some page' ∧
      page'.buffer.Holds (q ++ c.keyboardState.releases.take (maxEventCount - q.length))

/-- A new window with an event buffer does not take the place of the focused one, or the keyboard is idle. -/
def KeepsPublished (a : Action) (c : Compositor fb) : Prop :=
  match a with
  | .createWindow _ _ _ width height room page => Accepted fb width height ∧ (room = true ∧ c.windows.length < heapSizeBytes) ∧
    page = true ∧ c.newWindowId = c.currentlyFocusedWindow → c.keyboardState.keyDown = .new ∧ c.keyboardState.modifiers = 0
  | _ => True

end Property
section Published

theorem Published.start : Published ({} : Compositor fb) := nofun

/-- Windows may change as long as what they publish stays what they are to see. -/
theorem Published.of_windows (h : Published c) (hsame : ∀ (i : Nat) (u : Window fb) (page' : EventPage), c'.windows[i]? = some u →
      u.isVisible = true → u.eventBuffer = some page' → ∃ w page, c.windows[i]? = some w ∧ w.isVisible = true ∧
        w.eventBuffer = some page ∧ (Publishes (c.seenBy i) page → Publishes (c'.seenBy i) page')) : Published c' := by
  intro i u page' hu hvisible hpage'
  obtain ⟨w,page,hw,hwvisible,hpage,hkeeps⟩ := hsame i u page' hu hvisible hpage'
  exact hkeeps (h i w page hw hwvisible hpage)

theorem Published.stacked (h : Published c) (id zIndex : Nat) : Published (c.stacked id zIndex) := by
  refine h.of_windows fun i u page' hu hvisible hpage' => ?_
  rw [Compositor.stacked,List.getElem?_modify] at hu
  obtain ⟨w,hw,rfl⟩ := Option.map_eq_some_iff.mp hu
  refine ⟨w,page',hw,?_,?_,fun hpublishes => hpublishes⟩
  · split_ifs at hvisible <;> exact hvisible
  · split_ifs at hpage' <;> exact hpage'

/-- A change of focus leaves the old window with no key down and shows the keyboard to the new one. -/
theorem Published.refocused (h : Published c) (hrings : Rings c.windows) {id : Nat} (hne : id ≠ c.currentlyFocusedWindow) (top : Nat) :
    Published (c.refocused id top) := by
  refine h.of_windows fun i u page' hu hvisible hpage' => ?_
  rw [getElem?_refocused hne] at hu
  obtain ⟨w,hw,rfl⟩ := Option.map_eq_some_iff.mp hu
  obtain ⟨page,hpage,rfl⟩ := Option.map_eq_some_iff.mp hpage'
  refine ⟨w,page,hw,hvisible,hpage,?_⟩
  have hseen : (c.refocused id top).seenBy i = if i = id then c.keyboardState else {} := rfl
  unfold Compositor.handover
  rw [hseen]
  by_cases hi : i = id
  · rw [if_pos hi,if_pos hi]
    exact fun _ => ⟨rfl,rfl⟩
  rw [if_neg hi,if_neg hi]
  by_cases hfocus : i = c.currentlyFocusedWindow
  · obtain ⟨q,hq⟩ := hrings i w page hw hpage
    obtain ⟨released,hrelease,_,hkeyDown,hmodifiers⟩ := page.releaseHeldKeys_holds (k := c.keyboardState) hq
    rw [if_pos hfocus,left_of_ok hrelease]
    exact fun _ => ⟨hkeyDown,hmodifiers⟩
  · rw [if_neg hfocus,Compositor.seenBy,if_neg hfocus]
    exact fun hpublishes => hpublishes

theorem Published.focusWindow (h : Published c) (hconsistent : c.Consistent) {id : Nat} (hrun : c.focusWindow p id = .ok c') :
    Published c' := by
  have hfocusing := focusWindow_focusing p id hconsistent.rings
  rw [hrun] at hfocusing
  cases hfocusing with
  | same => exact h
  | missing => exact h
  | moved top w hmove => exact h.refocused hconsistent.rings hmove.2 _

/-- A new window publishes that no key is down. -/
theorem Published.placed (h : Published c) (hconsistent : c.Consistent) {shape : PlacedWindow fb} {pid : Nat} {page : Bool}
    (hidle : page = true → c.newWindowId = c.currentlyFocusedWindow → c.keyboardState.keyDown = .new ∧ c.keyboardState.modifiers = 0) :
    Published (c.placed shape pid page) := by
  intro i u page' hu hvisible hpage'
  have hseen : (c.placed shape pid page).seenBy i = c.seenBy i := rfl
  rw [hseen]
  rw [getElem?_placed hconsistent] at hu
  split_ifs at hu with hi
  · cases hu
    cases page with
    | false => cases hpage'
    | true =>
      cases hpage'
      unfold Compositor.seenBy
      split_ifs with hfocus
      · obtain ⟨hkeyDown,hmodifiers⟩ := hidle rfl (hi.symm.trans hfocus)
        exact ⟨hkeyDown.symm,hmodifiers.symm⟩
      · exact ⟨rfl,rfl⟩
  · exact h i u page' hu hvisible hpage'

/-- Hiding windows shows the keyboard to no other one. -/
theorem Published.hide (h : Published c) (hidden : Nat → Window fb → Prop) [∀ i w, Decidable (hidden i w)]
    (hfocus : c'.currentlyFocusedWindow = c.currentlyFocusedWindow) (hkeyboard : c'.keyboardState = c.keyboardState)
    (hwindows : ∀ i : Nat, c'.windows[i]? = (c.windows[i]?).map fun w => if hidden i w then w.hide else w) : Published c' := by
  refine h.of_windows fun i u page' hu hvisible hpage' => ?_
  rw [hwindows] at hu
  obtain ⟨w,hw,rfl⟩ := Option.map_eq_some_iff.mp hu
  split_ifs at hvisible hpage' with hhidden
  · cases hvisible
  · refine ⟨w,page',hw,hvisible,hpage',?_⟩
    unfold Compositor.seenBy
    rw [hfocus,hkeyboard]
    exact fun hpublishes => hpublishes

theorem Published.delivered (h : Published c) (hconsistent : c.Consistent) (input : Input) : Published (c.delivered input) := by
  refine h.of_windows fun i u page' hu hvisible hpage' => ?_
  change (c.windows.modify _ _)[i]? = some u at hu
  rw [List.getElem?_modify] at hu
  obtain ⟨w,hw,rfl⟩ := Option.map_eq_some_iff.mp hu
  have hfocus : (c.delivered input).currentlyFocusedWindow = c.currentlyFocusedWindow := (deliver_rest input c).2.1
  unfold Compositor.seenBy
  rw [hfocus]
  by_cases hi : c.currentlyFocusedWindow = i
  · subst hi
    rw [if_pos rfl] at hvisible hpage'
    obtain ⟨page,hpage,rfl⟩ := Option.map_eq_some_iff.mp hpage'
    obtain ⟨q,hq⟩ := hconsistent.rings _ w page hw hpage
    refine ⟨w,page,hw,hvisible,hpage,fun hpublishes => ?_⟩
    rw [if_pos rfl] at hpublishes ⊢
    exact publishes_deliver hq input hpublishes
  · rw [if_neg hi] at hvisible hpage'
    refine ⟨w,page',hw,hvisible,hpage',?_⟩
    rw [if_neg (Ne.symm hi),if_neg (Ne.symm hi)]
    exact fun hpublishes => hpublishes

theorem Published.focusTarget (h : Published c) (hconsistent : c.Consistent) {target : Option Nat}
    (hrun : c.focusTarget p target = .ok c') : Published c' := by
  cases target with
  | none =>
    cases hrun
    exact h
  | some id => exact h.focusWindow hconsistent hrun

end Published
section Released

theorem Released.of_same (hfocus : c'.currentlyFocusedWindow = c.currentlyFocusedWindow) : Released c c' :=
  fun hne => absurd hfocus hne

/-- A change of focus sends the releases to the window that had it. -/
theorem released_refocused (id top : Nat) : Released c (c.refocused id top) := by
  intro hne w page q hw hpage hholds
  have hmove : id ≠ c.currentlyFocusedWindow := hne
  obtain ⟨released,hrelease,hreleased,_⟩ := page.releaseHeldKeys_holds (k := c.keyboardState) hholds
  refine ⟨_,released,(getElem?_refocused hmove).trans (congrArg _ hw),?_,hreleased⟩
  dsimp only
  rw [hpage,Option.map_some,Compositor.handover,if_neg (Ne.symm hmove),if_pos rfl,left_of_ok hrelease]

theorem released_focusWindow (h : c.Consistent) {id : Nat} (hrun : c.focusWindow p id = .ok c') : Released c c' := by
  have hfocusing := focusWindow_focusing p id h.rings
  rw [hrun] at hfocusing
  cases hfocusing with
  | same => exact .of_same rfl
  | missing => exact .of_same rfl
  | moved top => exact released_refocused id top.zIndex

theorem released_focusTarget (h : c.Consistent) {target : Option Nat} (hrun : c.focusTarget p target = .ok c') : Released c c' := by
  cases target with
  | none =>
    cases hrun
    exact .of_same rfl
  | some id => exact released_focusWindow h hrun

/-- A new window in another slot changes nothing for the window that loses the focus to it. -/
theorem released_created (h : c.Consistent) (hsmall : c.windows.length < heapSizeBytes) {shape : PlacedWindow fb} {pid : Nat}
    {page : Bool} (hrun : (c.placed shape pid page).focusWindow p c.newWindowId = .ok c') :
    Released c (c'.stacked c.newWindowId 7) := by
  intro hne w pg q hw hpage hholds
  have hplaced : (c.placed shape pid page).Consistent := h.placed hsmall
  have hother : c.currentlyFocusedWindow ≠ c.newWindowId := by
    intro heq
    rw [Compositor.focusWindow,if_pos (.inr heq.symm)] at hrun
    cases hrun
    exact hne rfl
  obtain ⟨w',page',hw',hpage',hreleased⟩ := released_focusWindow hplaced hrun hne w pg q
    ((getElem?_placed h).trans ((if_neg hother).trans hw)) hpage hholds
  refine ⟨w',page',?_,hpage',hreleased⟩
  exact (List.getElem?_modify_ne _ _ (Ne.symm hother)).trans hw'

theorem released_delivered {target : Option Nat} (h : c.Consistent) (hrun : c.focusTarget p target = .ok c') (input : Input) :
    Released c (c'.delivered input) := by
  intro hne w page q hw hpage hholds
  have hfocus : (c'.delivered input).currentlyFocusedWindow = c'.currentlyFocusedWindow := (deliver_rest input c').2.1
  rw [hfocus] at hne
  obtain ⟨w',page',hw',hpage',hreleased⟩ := released_focusTarget h hrun hne w page q hw hpage hholds
  exact ⟨w',page',(List.getElem?_modify_ne _ _ hne).trans hw',hpage',hreleased⟩

/-- Every step sends the releases of a lost focus. -/
theorem released_exec (h : c.Consistent) {a : Action} (hrun : exec p keys a c = .ok c') : Released c c' := by
  cases a with
  | createWindow pid x y width height room page =>
    obtain rfl | ⟨shape,c₁,hsmall,hfocus,rfl⟩ := createWindow_cases h hrun
    · exact .of_same rfl
    · exact released_created h hsmall hfocus
  | destroyWindow id =>
    cases hrun
    exact .of_same (destroyWindow_rest id c).1
  | destroyWindowsOfProcess pid =>
    cases hrun
    exact .of_same (destroyWindowsOfProcess_rest h pid).1
  | focusWindow id => exact released_focusWindow h hrun
  | clearTransient =>
    cases hrun
    exact .of_same rfl
  | input input =>
    obtain ⟨mouseX,mouseY,target,c₁,_,hfocus,rfl⟩ := (processInputEvent_iff h input).mp hrun
    have hreleased := released_delivered (h.moved mouseX mouseY) hfocus input
    exact hreleased
  | tryRead id =>
    rw [tryRead_eq] at hrun
    cases hrun
    exact .of_same rfl

end Released
section Run

/-- A step keeps what the windows publish if it meets the condition. -/
theorem Published.exec (h : Published c) (hconsistent : c.Consistent) {a : Action} (hkeeps : KeepsPublished a c)
    (hrun : exec p keys a c = .ok c') : Published c' := by
  cases a with
  | createWindow pid x y width height room page =>
    change c.sysCreateWindow p pid x y width height room page = .ok c' at hrun
    rw [sysCreateWindow_eq hconsistent] at hrun
    split_ifs at hrun with hsize hroom
    · obtain ⟨c₁,hfocus,hrun⟩ := bind_eq_ok hrun
      cases hrun
      have hplaced : (c.placed ⟨x,y,width,height,true,hsize.1,hsize.2⟩ pid page).Consistent := hconsistent.placed hroom.2
      refine Published.stacked ?_ _ 7
      exact (h.placed hconsistent fun hpage hnew => hkeeps ⟨hsize,hroom,hpage,hnew⟩).focusWindow hplaced hfocus
    · cases hrun
      exact h
  | destroyWindow id =>
    cases hrun
    obtain ⟨hfocus,hkeyboard,_⟩ := destroyWindow_rest id c
    exact h.hide (fun i _ => i = id) hfocus hkeyboard fun i => getElem?_destroyWindow hconsistent
  | destroyWindowsOfProcess pid =>
    cases hrun
    obtain ⟨hfocus,hkeyboard,_⟩ := destroyWindowsOfProcess_rest hconsistent pid
    exact h.hide (fun _ w => w.ownerPid = pid) hfocus hkeyboard fun i => getElem?_destroyWindowsOfProcess hconsistent
  | focusWindow id => exact h.focusWindow hconsistent hrun
  | clearTransient =>
    cases hrun
    refine h.of_windows fun i u page' hu hvisible hpage' => ⟨u,page',hu,hvisible,hpage',fun hpublishes => ?_⟩
    unfold Compositor.seenBy at hpublishes ⊢
    split_ifs at hpublishes ⊢ <;> exact hpublishes
  | input input =>
    obtain ⟨mouseX,mouseY,target,c₁,_,hfocus,rfl⟩ := (processInputEvent_iff hconsistent input).mp hrun
    have hmoved : Published ({ c with mouseX, mouseY } : Compositor fb) := h
    have hc₁ := (hconsistent.moved mouseX mouseY).focusTarget hfocus
    exact (hmoved.focusTarget (hconsistent.moved mouseX mouseY) hfocus).delivered hc₁ input
  | tryRead id =>
    rw [tryRead_eq] at hrun
    cases hrun
    refine h.of_windows fun i u page' hu hvisible hpage' => ?_
    rw [List.getElem?_modify] at hu
    obtain ⟨w,hw,rfl⟩ := Option.map_eq_some_iff.mp hu
    split_ifs at hvisible hpage'
    · obtain ⟨page,hpage,rfl⟩ := Option.map_eq_some_iff.mp hpage'
      exact ⟨w,page,hw,hvisible,hpage,fun hpublishes => hpublishes⟩
    · exact ⟨w,page',hw,hvisible,hpage',fun hpublishes => hpublishes⟩

/-- A step that does not meet the condition shows a keyboard in use as idle. -/
theorem not_published_exec (h : c.Consistent) {a : Action} (hnot : ¬ KeepsPublished a c) :
    ∃ c', exec p keys a c = .ok c' ∧ ¬ Published c' := by
  cases a with
  | createWindow pid x y width height room page =>
    unfold KeepsPublished at hnot
    obtain ⟨⟨hsize,hroom,rfl,hnew⟩,hused⟩ := Classical.not_imp.mp hnot
    have hfocus : (c.placed ⟨x,y,width,height,true,hsize.1,hsize.2⟩ pid true).focusWindow p c.newWindowId =
        .ok (c.placed ⟨x,y,width,height,true,hsize.1,hsize.2⟩ pid true) := by
      rw [Compositor.focusWindow,if_pos (.inr hnew)]
    refine ⟨(c.placed ⟨x,y,width,height,true,hsize.1,hsize.2⟩ pid true).stacked c.newWindowId 7,?_,fun hpublished => ?_⟩
    · rw [exec,sysCreateWindow_eq h,dif_pos hsize,if_pos hroom,hfocus]
      rfl
    · have hwindow : ((c.placed ⟨x,y,width,height,true,hsize.1,hsize.2⟩ pid true).stacked c.newWindowId 7).windows[c.newWindowId]? = _ :=
        (List.getElem?_modify_eq ..).trans (congrArg _ ((getElem?_placed h).trans (if_pos rfl)))
      obtain ⟨hkeyDown,hmodifiers⟩ := hpublished _ _ .zeroed hwindow rfl rfl
      have hseen : ((c.placed ⟨x,y,width,height,true,hsize.1,hsize.2⟩ pid true).stacked c.newWindowId 7).seenBy c.newWindowId =
          c.keyboardState := if_pos hnew
      rw [hseen] at hkeyDown hmodifiers
      exact hused ⟨hkeyDown.symm,hmodifiers.symm⟩
  | _ => exact absurd trivial hnot

/-- The windows of every reached state publish the keyboard as its focus says, and every lost focus sends the releases,
exactly when the steps of the run meet the condition. -/
theorem run_publishes_iff (fb : FrameBufferTarget) (p : Profile) (keys : KeyCodes) (acts : List Action) :
    (∀ before c, before <+: acts → steps (step p keys) before ({} : Compositor fb) = some c →
      Published c ∧ ∀ a c', step p keys a c = some c' → Released c c') ↔
    stepsMeet (step p keys) KeepsPublished acts ({} : Compositor fb) := by
  refine steps_good_iff (I := fun c : Compositor fb => c.Consistent ∧ Published c)
    (fun c hc => ⟨hc.2,fun a c' hstep => released_exec hc.1 (of_toOption hstep)⟩)
    (fun a c c' hc hkeeps hstep => ⟨hc.1.exec (of_toOption hstep),hc.2.exec hc.1 hkeeps (of_toOption hstep)⟩)
    (fun a c hc hnot => ?_) ⟨.start,.start⟩
  obtain ⟨c',hrun,hpublished⟩ := not_published_exec hc.1 hnot
  exact ⟨c',by rw [step,hrun]; rfl,fun hgood => hpublished hgood.1⟩

/-- The focused window is destroyed while a key is held, and the next window takes its place. -/
theorem idle_page_for_held_key : ¬ ∀ c, steps (step .release ⟨0,1,2⟩)
    [.create 0 0,.input (.keyState 30 .pressed 0),.destroyWindow 0,.create 0 0]
    ({} : Compositor smallScreen.toFrameBufferTarget) = some c → Published c := by
  intro hclaim
  have hview : ((steps (step .release ⟨0,1,2⟩) [.create 0 0,.input (.keyState 30 .pressed 0),.destroyWindow 0,.create 0 0]
      ({} : Compositor smallScreen.toFrameBufferTarget)).map fun c => (c.currentlyFocusedWindow,
        c.windows.map fun w => (w.isVisible,w.eventBuffer.map (·.keyDown (KeyBitset.word 30))),c.keyboardState.keyDown (KeyBitset.word 30))) =
      some (0,[(true,some (0 : UInt64))],(2^30 : UInt64)) := by decide +kernel
  cases hrun : steps (step .release ⟨0,1,2⟩) [.create 0 0,.input (.keyState 30 .pressed 0),.destroyWindow 0,.create 0 0]
      ({} : Compositor smallScreen.toFrameBufferTarget) with
  | none =>
    rw [hrun] at hview
    cases hview
  | some c =>
    rw [hrun] at hview
    obtain ⟨hfocus,hrest⟩ := Prod.mk.inj (Option.some.inj hview)
    obtain ⟨hwindows,hkeyboard⟩ := Prod.mk.inj hrest
    obtain ⟨w,hw⟩ : ∃ w, c.windows = [w] := List.length_eq_one_iff.mp (by simpa using congrArg List.length hwindows)
    rw [hw,List.map_singleton] at hwindows
    obtain ⟨hvisible,hpages⟩ := Prod.mk.inj (List.head_eq_of_cons_eq hwindows)
    obtain ⟨page,hpage,hkeyDown⟩ := Option.map_eq_some_iff.mp hpages
    have hpublishes := (hclaim c hrun 0 w page (by rw [hw]; rfl) hvisible hpage).1
    rw [Compositor.seenBy,if_pos hfocus.symm] at hpublishes
    have hzero : (0 : UInt64) = 2^30 := (hkeyDown.symm.trans (congrFun hpublishes (KeyBitset.word 30))).trans hkeyboard
    exact absurd hzero (by decide)

end Run
end MofuOS.Graphics.Focus
