import MofuOS.Graphics.HitTest

/-! The focus names a visible window as long as no call moves it to a hidden one and no focused window is destroyed.
A new window has it until it goes elsewhere. -/
namespace MofuOS.Graphics.Focus
open Lib Events Compose
open Memory (heapSizeBytes)
open Windows (invalidWindowId)

/-- A compositor, and the window that was created last unless another one was focused since. -/
structure Session (fb : FrameBufferTarget) where
  compositor : Compositor fb := {}
  newest : Option Nat := none

/-- The size of a window that CreateWindow accepts. -/
abbrev Accepted (fb : FrameBufferTarget) (width height : UInt32) : Prop :=
  (1 ≤ width.toNat ∧ width.toNat ≤ fb.width.toNat) ∧ 1 ≤ height.toNat ∧ height.toNat ≤ fb.height.toNat

/-- The id of the window that an action creates. -/
def Action.created {fb : FrameBufferTarget} (c : Compositor fb) : Action → Option Nat
  | .createWindow _ _ _ width height _ _ => if Accepted fb width height then some c.newWindowId else none
  | _ => none

namespace Session
variable {fb : FrameBufferTarget}

def step (p : Profile) (keys : KeyCodes) (a : Action) (s : Session fb) : Option (Session fb) :=
  (Focus.step p keys a s.compositor).map fun compositor => {
    compositor
    newest := (a.created s.compositor).or
      (if compositor.currentlyFocusedWindow = s.compositor.currentlyFocusedWindow then s.newest else none) }

end Session

/-- What the page publishes is the state of the keyboard. -/
def Publishes (k : KeyboardState) (page : EventPage) : Prop := page.keyDown = k.keyDown ∧ page.modifiers = k.modifiers

section Property
variable {fb : FrameBufferTarget}

/-- The focus is on a visible window, if on one. -/
def OnVisible (c : Compositor fb) : Prop :=
  c.currentlyFocusedWindow = invalidWindowId ∨ ∃ w, c.windows[c.currentlyFocusedWindow]? = some w ∧ w.isVisible = true

/-- The newest window, as long as it is visible, is focused and has seen the keyboard. -/
def NewestOk (newest : Option Nat) (c : Compositor fb) : Prop := ∀ (id : Nat) (w : Window fb), newest = some id →
  c.windows[id]? = some w → w.isVisible = true →
    c.currentlyFocusedWindow = id ∧ ∃ page, w.eventBuffer = some page ∧ Publishes c.keyboardState page

structure Session.FocusOk (s : Session fb) : Prop where
  focused : OnVisible s.compositor
  newest : NewestOk s.newest s.compositor

end Property

variable {fb : FrameBufferTarget} {p : Profile} {keys : KeyCodes} {c c' : Compositor fb} {w : Window fb} {id i : Nat}

/-- There is a z_index above those of the windows. -/
def RoomAbove (p : Profile) (windows : List (Window fb)) : Prop := p.checks = true → ∀ w ∈ windows, w.zIndex + 1 < 2^8

/-- A call of focus_window that does nothing, or finds the table not empty and no hidden window. -/
def MayFocus (p : Profile) (id : Nat) (c : Compositor fb) : Prop :=
  id = invalidWindowId ∨ id = c.currentlyFocusedWindow ∨
    c.windows ≠ [] ∧ ∀ w, c.windows[id]? = some w → w.isVisible = true ∧ RoomAbove p c.windows

/-- The step keeps the focus on a visible window. -/
def KeepsFocus (p : Profile) (keys : KeyCodes) (a : Action) (s : Session fb) : Prop :=
  match a with
  | .createWindow _ _ _ width height room page => Accepted fb width height →
    (room = true ∧ s.compositor.windows.length < heapSizeBytes) ∧ page = true ∧
      RoomAbove p (s.compositor.windows.filter fun w => w.id != s.compositor.newWindowId)
  | .destroyWindow id => id = invalidWindowId ∨ id ≠ s.compositor.currentlyFocusedWindow
  | .destroyWindowsOfProcess pid =>
    ∀ w, s.compositor.windows[s.compositor.currentlyFocusedWindow]? = some w → w.ownerPid ≠ pid
  | .focusWindow id => MayFocus p id s.compositor
  | .input input => ∀ mouseX mouseY id, s.compositor.aim p keys input = .ok (mouseX,mouseY,some id) → MayFocus p id s.compositor
  | .clearTransient => True
  | .tryRead _ => True

section Focus

theorem visible_of_restyled {windows windows' : List (Window fb)} (h : Restyled windows windows') :
    (∃ w, windows[i]? = some w ∧ w.isVisible = true) ↔ ∃ w', windows'[i]? = some w' ∧ w'.isVisible = true := by
  constructor
  · rintro ⟨w,hw,hvisible⟩
    obtain ⟨z,b,hwindow,_⟩ := h.same i w hw
    exact ⟨_,hwindow,hvisible⟩
  · rintro ⟨w',hw',hvisible⟩
    have hlt := (List.getElem?_eq_some_iff.mp hw').1
    have hw := List.getElem?_eq_getElem (h.length ▸ hlt)
    obtain ⟨z,b,hwindow,_⟩ := h.same i _ hw
    cases hw'.symm.trans hwindow
    exact ⟨_,hw,hvisible⟩

theorem roomAbove_iff {windows : List (Window fb)} {top : Window fb} (htop : maxByKey (·.zIndex) windows = some top) :
    RoomAbove p windows ↔ (p.checks = true → top.zIndex + 1 < 2^8) := by
  obtain ⟨hmem,hle⟩ := maxByKey_mem htop
  refine ⟨fun h hp => h hp top hmem,fun h hp w hw => ?_⟩
  have := hle w hw
  have := h hp
  omega

/-- A change of focus succeeds and ends on a visible window exactly when it may be made. -/
theorem focusWindow_visible_iff (h : c.Consistent) (hvisible : OnVisible c) :
    MayFocus p id c ↔ ∃ c', c.focusWindow p id = .ok c' ∧ OnVisible c' := by
  have hfocusing := focusWindow_focusing p id h.rings
  generalize c.focusWindow p id = r at hfocusing
  cases hfocusing with
  | same hsame => exact ⟨fun _ => ⟨c,rfl,hvisible⟩,fun _ => hsame.imp_right .inl⟩
  | empty hmove hempty =>
    refine ⟨fun hmay => ?_,nofun⟩
    obtain hmay | hmay | hmay := hmay
    · exact absurd hmay hmove.1
    · exact absurd hmay hmove.2
    · exact absurd hempty hmay.1
  | missing hmove hne hnone =>
    refine ⟨fun _ => ⟨c,rfl,hvisible⟩,fun _ => .inr (.inr ⟨hne,fun w hw => ?_⟩)⟩
    rw [hnone] at hw
    cases hw
  | overflow top w hmove htop hw hp hover =>
    refine ⟨fun hmay => ?_,nofun⟩
    obtain hmay | hmay | hmay := hmay
    · exact absurd hmay hmove.1
    · exact absurd hmay hmove.2
    · exact absurd ((roomAbove_iff htop).mp (hmay.2 w hw).2 hp) (Nat.not_lt.mpr hover)
  | moved top w hmove htop hw hroom =>
    have htarget := visible_of_restyled (i := id) (h.restyled_refocused id top.zIndex)
    constructor
    · rintro (hmay | hmay | hmay)
      · exact absurd hmay hmove.1
      · exact absurd hmay hmove.2
      · exact ⟨_,rfl,.inr (htarget.mp ⟨w,hw,(hmay.2 w hw).1⟩)⟩
    · rintro ⟨c',hc',hinvalid | hwindow⟩
      · cases hc'
        exact absurd hinvalid hmove.1
      · cases hc'
        obtain ⟨u,hu,huvisible⟩ := htarget.mpr hwindow
        have hne : c.windows ≠ [] := by
          intro hnil
          rw [hnil] at hw
          cases hw
        refine .inr (.inr ⟨hne,fun v hv => ⟨?_,(roomAbove_iff htop).mpr hroom⟩⟩)
        cases hv.symm.trans hu
        exact huvisible

end Focus

section Newest

theorem publishes_deliver {page : EventPage} {q : List InputEvent} (h : page.buffer.Holds q) (input : Input)
    (hpublishes : Publishes c.keyboardState page) :
    Publishes (c.deliver input).1.keyboardState (left (c.deliver input).2 page) := by
  cases input with
  | keyState code state modifiers =>
    have hpublished : (page.publishKeyboardState (c.keyboardState.update code state (modifiers &&& keyModifierBits)).keyDown
        (c.keyboardState.update code state (modifiers &&& keyModifierBits)).modifiers).buffer.Holds q := h
    obtain ⟨page',hpush,_,hkeyDown,hmodifiers⟩ := EventPage.push_holds hpublished (Input.keyState code state modifiers).event
    have hleft : left (c.deliver (.keyState code state modifiers)).2 page = page' := left_of_ok hpush
    exact hleft.symm ▸ ⟨hkeyDown,hmodifiers⟩
  | _ =>
    obtain ⟨page',hpush,_,hkeyDown,hmodifiers⟩ := page.push_holds h _
    exact (left_of_ok hpush).symm ▸ ⟨hkeyDown.trans hpublishes.1,hmodifiers.trans hpublishes.2⟩

theorem NewestOk.delivered {newest : Option Nat} (hnewest : NewestOk newest c) (h : c.Consistent) (input : Input) :
    NewestOk newest (c.delivered input) := by
  intro id w hid hw hvisible
  have hfocus : (c.delivered input).currentlyFocusedWindow = c.currentlyFocusedWindow := (deliver_rest input c).2.1
  change (c.windows.modify _ _)[id]? = some w at hw
  rw [List.getElem?_modify] at hw
  obtain ⟨u,hu,rfl⟩ := Option.map_eq_some_iff.mp hw
  have huvisible : u.isVisible = true := by
    split_ifs at hvisible <;> exact hvisible
  obtain ⟨rfl,page,hpage,hpublishes⟩ := hnewest id u hid hu huvisible
  obtain ⟨q,hq⟩ := h.rings _ u page hu hpage
  refine ⟨hfocus,left (c.deliver input).2 page,?_,publishes_deliver hq input hpublishes⟩
  rw [if_pos rfl,Window.onBuffer,hpage]
  rfl

theorem NewestOk.restyled {newest : Option Nat} {windows : List (Window fb)} (hnewest : NewestOk newest c)
    (hsame : ∀ (i : Nat) (u : Window fb), windows[i]? = some u → ∃ w, c.windows[i]? = some w ∧ (u.isVisible = true → w.isVisible = true ∧
      ∀ page, w.eventBuffer = some page → Publishes c.keyboardState page →
        ∃ page', u.eventBuffer = some page' ∧ Publishes c.keyboardState page')) :
    NewestOk newest { c with windows } := by
  intro id u hid hu hvisible
  obtain ⟨w,hw,hkeeps⟩ := hsame id u hu
  obtain ⟨hwvisible,hpages⟩ := hkeeps hvisible
  obtain ⟨hfocus,page,hpage,hpublishes⟩ := hnewest id w hid hw hwvisible
  exact ⟨hfocus,hpages page hpage hpublishes⟩

end Newest
section Create
variable (shape : PlacedWindow fb) (pid : Nat) (page : Bool)

/-- The new window is not the focused one. -/
theorem newWindowId_ne (h : c.Consistent) (hvisible : OnVisible c) : c.newWindowId ≠ c.currentlyFocusedWindow := by
  intro heq
  obtain hinvalid | ⟨w,hw,hwvisible⟩ := hvisible
  · have hle : c.newWindowId ≤ c.windows.length := h.slots.newSlot_le
    have hsmall := h.small
    rw [heq,hinvalid] at hle
    exact absurd (Nat.le_trans hle hsmall) (by decide)
  · rw [← heq] at hw
    rw [hidden_of_newWindowId h hw] at hwvisible
    cases hwvisible

theorem mem_placed (h : c.Consistent) : w ∈ (c.placed shape pid page).windows ↔
    w = newWindow shape pid page c.newWindowId ∨ w ∈ c.windows.filter fun w => w.id != c.newWindowId := by
  rw [List.mem_iff_getElem?,List.mem_filter,bne_iff_ne]
  constructor
  · rintro ⟨i,hi⟩
    rw [getElem?_placed h] at hi
    split_ifs at hi with hnew
    · exact .inl (Option.some.inj hi).symm
    · have hid : w.id = i := h.slots.ids i w hi
      exact .inr ⟨List.mem_of_getElem? hi,hid.symm ▸ hnew⟩
  · rintro (rfl | ⟨hmem,hne⟩)
    · exact ⟨c.newWindowId,(getElem?_placed h).trans (if_pos rfl)⟩
    · obtain ⟨i,hi⟩ := List.getElem?_of_mem hmem
      have hid : w.id = i := h.slots.ids i w hi
      exact ⟨i,(getElem?_placed h).trans ((if_neg (hid ▸ hne)).trans hi)⟩

theorem roomAbove_placed (h : c.Consistent) : RoomAbove p (c.placed shape pid page).windows ↔
    RoomAbove p (c.windows.filter fun w => w.id != c.newWindowId) := by
  refine imp_congr_right fun _ => ⟨fun hroom w hw => hroom w ((mem_placed shape pid page h).mpr (.inr hw)),fun hroom w hw => ?_⟩
  obtain rfl | hw := (mem_placed shape pid page h).mp hw
  · exact Nat.lt_of_lt_of_le (Nat.lt_succ_self 1) (by decide)
  · exact hroom w hw

/-- The focus moves to a new window unless there is no z_index above the others. -/
theorem focusWindow_placed (p : Profile) (h : c.Consistent) (hsmall : c.windows.length < heapSizeBytes) (hvisible : OnVisible c) :
    (RoomAbove p (c.windows.filter fun w => w.id != c.newWindowId) ↔
      ∃ c₁, (c.placed shape pid page).focusWindow p c.newWindowId = .ok c₁) ∧
    ∀ c₁, (c.placed shape pid page).focusWindow p c.newWindowId = .ok c₁ →
      ∃ top, c₁ = (c.placed shape pid page).refocused c.newWindowId top := by
  have hplaced : (c.placed shape pid page).Consistent := h.placed hsmall
  have hnew : (c.placed shape pid page).windows[c.newWindowId]? = some (newWindow shape pid page c.newWindowId) :=
    (getElem?_placed h).trans (if_pos rfl)
  have hne := newWindowId_ne h hvisible
  have hfocusing := focusWindow_focusing p c.newWindowId hplaced.rings
  rw [← roomAbove_placed shape pid page h]
  generalize (c.placed shape pid page).focusWindow p c.newWindowId = r at hfocusing
  cases hfocusing with
  | same hsame => exact absurd hsame (not_or.mpr ⟨hplaced.window_ne hnew,hne⟩)
  | empty _ hempty =>
    rw [hempty] at hnew
    cases hnew
  | missing _ _ hnone =>
    rw [hnew] at hnone
    cases hnone
  | overflow top w _ htop _ hp hover =>
    exact ⟨⟨fun hroom => absurd ((roomAbove_iff htop).mp hroom hp) (Nat.not_lt.mpr hover),nofun⟩,nofun⟩
  | moved top w _ htop _ hroom =>
    refine ⟨⟨fun _ => ⟨_,rfl⟩,fun _ => (roomAbove_iff htop).mpr hroom⟩,fun c₁ hc₁ => ?_⟩
    cases hc₁
    exact ⟨_,rfl⟩

/-- The new window after the whole call: it is focused, and has seen the keyboard if it has an event buffer. -/
theorem created_window (top : Nat) (h : c.Consistent) (hvisible : OnVisible c) :
    ∃ w, (((c.placed shape pid page).refocused c.newWindowId top).stacked c.newWindowId 7).windows[c.newWindowId]? = some w ∧
      w.isVisible = true ∧ w.eventBuffer = if page then
        some (EventPage.zeroed.publishKeyboardState c.keyboardState.keyDown c.keyboardState.modifiers) else none := by
  have hnew : (c.placed shape pid page).windows[c.newWindowId]? = some (newWindow shape pid page c.newWindowId) :=
    (getElem?_placed h).trans (if_pos rfl)
  have hrefocused : ((c.placed shape pid page).refocused c.newWindowId top).windows[c.newWindowId]? = _ :=
    getElem?_refocused (newWindowId_ne h hvisible)
  rw [hnew] at hrefocused
  refine ⟨_,(List.getElem?_modify_eq ..).trans (congrArg _ hrefocused),rfl,?_⟩
  unfold Compositor.handover
  cases page <;> simp [newWindow,Compositor.placed]

end Create
section Step

/-- What a session remembers of its newest window. -/
def Session.next (a : Action) (s : Session fb) (c' : Compositor fb) : Option Nat :=
  (a.created s.compositor).or (if c'.currentlyFocusedWindow = s.compositor.currentlyFocusedWindow then s.newest else none)

variable {s t : Session fb}

theorem Session.step_iff {a : Action} : s.step p keys a = some t ↔ ∃ c', exec p keys a s.compositor = .ok c' ∧ t = ⟨c',s.next a c'⟩ := by
  rw [Session.step,Option.map_eq_some_iff]
  constructor
  · rintro ⟨c',hrun,rfl⟩
    exact ⟨c',of_toOption hrun,rfl⟩
  · rintro ⟨c',hrun,rfl⟩
    exact ⟨c',by rw [Focus.step,hrun]; rfl,rfl⟩

theorem createWindow_keeps_iff (h : s.compositor.Consistent) (hok : s.FocusOk) (pid : Nat) (x y : Int32) (width height : UInt32)
    (room page : Bool) : KeepsFocus p keys (.createWindow pid x y width height room page) s ↔
      ∃ c', s.compositor.sysCreateWindow p pid x y width height room page = .ok c' ∧
        Session.FocusOk ⟨c',s.next (.createWindow pid x y width height room page) c'⟩ := by
  rw [sysCreateWindow_eq h]
  by_cases hsize : Accepted fb width height
  · have hnext : ∀ c', s.next (.createWindow pid x y width height room page) c' = some s.compositor.newWindowId := by
      intro c'
      rw [Session.next,Action.created,if_pos hsize]
      rfl
    have hkeeps : KeepsFocus p keys (.createWindow pid x y width height room page) s ↔
        (room = true ∧ s.compositor.windows.length < heapSizeBytes) ∧ page = true ∧
          RoomAbove p (s.compositor.windows.filter fun w => w.id != s.compositor.newWindowId) := ⟨fun h => h hsize,fun h _ => h⟩
    rw [dif_pos hsize,hkeeps]
    simp only [hnext]
    by_cases hroom : room = true ∧ s.compositor.windows.length < heapSizeBytes
    · rw [if_pos hroom]
      generalize (⟨x,y,width,height,true,hsize.1,hsize.2⟩ : PlacedWindow fb) = shape
      obtain ⟨hruns,hresult⟩ := focusWindow_placed shape pid page p h hroom.2 hok.focused
      constructor
      · rintro ⟨_,rfl,habove⟩
        obtain ⟨c₁,hc₁⟩ := hruns.mp habove
        obtain ⟨top,rfl⟩ := hresult c₁ hc₁
        obtain ⟨w,hw,hvisible,hbuffer⟩ := created_window shape pid true top h hok.focused
        refine ⟨_,by rw [hc₁]; rfl,.inr ⟨w,hw,hvisible⟩,fun id u hid hu huvisible => ?_⟩
        cases hid
        cases hw.symm.trans hu
        exact ⟨rfl,_,hbuffer,rfl,rfl⟩
      · rintro ⟨c',hc',hok'⟩
        obtain ⟨c₁,hc₁,hc'⟩ := bind_eq_ok hc'
        cases hc'
        obtain ⟨top,rfl⟩ := hresult c₁ hc₁
        obtain ⟨w,hw,hvisible,hbuffer⟩ := created_window shape pid page top h hok.focused
        obtain ⟨_,pg,hpage,_⟩ := hok'.newest _ w rfl hw hvisible
        refine ⟨hroom,?_,hruns.mpr ⟨_,hc₁⟩⟩
        cases page with
        | true => rfl
        | false =>
          rw [hbuffer] at hpage
          cases hpage
    · rw [if_neg hroom]
      refine ⟨fun hkeeps => absurd hkeeps.1 hroom,?_⟩
      rintro ⟨c',hc',-⟩
      cases hc'
  · have hnext : s.next (.createWindow pid x y width height room page) s.compositor = s.newest := by
      rw [Session.next,Action.created,if_neg hsize,if_pos rfl]
      rfl
    rw [dif_neg hsize]
    refine ⟨fun _ => ⟨_,rfl,hok.focused,?_⟩,fun _ haccepted => absurd haccepted hsize⟩
    rw [hnext]
    exact hok.newest

/-- Hiding windows keeps the focus on a visible one exactly when the focused one is not among them. -/
theorem hide_keeps_iff {newest : Option Nat} (hidden : Nat → Window fb → Prop) [∀ i w, Decidable (hidden i w)] (h : c.Consistent)
    (hok : Session.FocusOk ⟨c,newest⟩) (hfocus : c'.currentlyFocusedWindow = c.currentlyFocusedWindow)
    (hkeyboard : c'.keyboardState = c.keyboardState)
    (hwindows : ∀ i : Nat, c'.windows[i]? = (c.windows[i]?).map fun w => if hidden i w then w.hide else w) :
    Session.FocusOk ⟨c',newest⟩ ↔ ∀ w, c.windows[c.currentlyFocusedWindow]? = some w → ¬ hidden c.currentlyFocusedWindow w := by
  constructor
  · rintro ⟨hvisible,_⟩ w hw hhidden
    obtain hinvalid | ⟨u,hu,huvisible⟩ := hvisible
    · exact h.window_ne hw (hfocus.symm.trans hinvalid)
    · change c'.windows[c'.currentlyFocusedWindow]? = some u at hu
      rw [hfocus,hwindows,hw,Option.map_some,if_pos hhidden] at hu
      cases hu
      cases huvisible
  · intro hnot
    refine ⟨?_,fun id u hid hu huvisible => ?_⟩
    · obtain hinvalid | ⟨w,hw,hvisible⟩ := hok.focused
      · exact .inl (hfocus.trans hinvalid)
      · refine .inr ⟨w,?_,hvisible⟩
        change c'.windows[c'.currentlyFocusedWindow]? = some w
        rw [hfocus,hwindows,hw,Option.map_some,if_neg (hnot w hw)]
    · rw [hwindows] at hu
      obtain ⟨w,hw,rfl⟩ := Option.map_eq_some_iff.mp hu
      split_ifs at huvisible ⊢ with hhidden
      · cases huvisible
      · rw [hfocus,hkeyboard]
        exact hok.newest id w hid hw huvisible

/-- An action that creates nothing and leaves the focus where it is remembers the newest window. -/
theorem next_of_same {a : Action} (hcreated : a.created s.compositor = none)
    (hfocus : c'.currentlyFocusedWindow = s.compositor.currentlyFocusedWindow) : s.next a c' = s.newest := by
  rw [Session.next,hcreated,if_pos hfocus]
  rfl

theorem newestOk_next {a : Action} (hcreated : a.created s.compositor = none)
    (hfocus : c'.currentlyFocusedWindow = s.compositor.currentlyFocusedWindow) (hok : NewestOk s.newest c') :
    NewestOk (s.next a c') c' := by
  rw [next_of_same hcreated hfocus]
  exact hok

theorem destroyWindow_keeps_iff (h : s.compositor.Consistent) (hok : s.FocusOk) (id : Nat) :
    KeepsFocus p keys (.destroyWindow id) s ↔
      Session.FocusOk ⟨s.compositor.destroyWindow id,s.next (.destroyWindow id) (s.compositor.destroyWindow id)⟩ := by
  obtain ⟨hfocus,hkeyboard,_⟩ := destroyWindow_rest id s.compositor
  rw [next_of_same rfl hfocus,hide_keeps_iff (fun i _ => i = id) h hok hfocus hkeyboard fun i => getElem?_destroyWindow h]
  constructor
  · rintro (rfl | hne) w hw heq
    · exact h.window_ne hw heq
    · exact hne heq.symm
  · intro hnot
    by_cases heq : id = s.compositor.currentlyFocusedWindow
    · obtain hinvalid | ⟨w,hw,_⟩ := hok.focused
      · exact .inl (heq.trans hinvalid)
      · exact absurd heq.symm (hnot w hw)
    · exact .inr heq

theorem destroyWindowsOfProcess_keeps_iff (h : s.compositor.Consistent) (hok : s.FocusOk) (pid : Nat) :
    KeepsFocus p keys (.destroyWindowsOfProcess pid) s ↔ Session.FocusOk ⟨s.compositor.destroyWindowsOfProcess pid,
      s.next (.destroyWindowsOfProcess pid) (s.compositor.destroyWindowsOfProcess pid)⟩ := by
  obtain ⟨hfocus,hkeyboard,_⟩ := destroyWindowsOfProcess_rest h pid
  rw [next_of_same rfl hfocus,hide_keeps_iff (fun _ w => w.ownerPid = pid) h hok hfocus hkeyboard
    fun i => getElem?_destroyWindowsOfProcess h]
  rfl

/-- A change of focus forgets the newest window, unless it changes nothing. -/
theorem newestOk_focusWindow (hok : NewestOk s.newest c) (hconsistent : c.Consistent) (hrun : c.focusWindow p id = .ok c') :
    NewestOk (if c'.currentlyFocusedWindow = c.currentlyFocusedWindow then s.newest else none) c' := by
  have hfocusing := focusWindow_focusing p id hconsistent.rings
  rw [hrun] at hfocusing
  cases hfocusing with
  | same =>
    rw [if_pos rfl]
    exact hok
  | missing =>
    rw [if_pos rfl]
    exact hok
  | moved top w hmove =>
    have hfocus : (c.refocused id top.zIndex).currentlyFocusedWindow ≠ c.currentlyFocusedWindow := hmove.2
    rw [if_neg hfocus]
    exact nofun

theorem focusWindow_keeps_iff (h : s.compositor.Consistent) (hok : s.FocusOk) (id : Nat) :
    KeepsFocus p keys (.focusWindow id) s ↔ ∃ c', s.compositor.focusWindow p id = .ok c' ∧
      Session.FocusOk ⟨c',s.next (.focusWindow id) c'⟩ := by
  refine (focusWindow_visible_iff h hok.focused).trans (exists_congr fun c' => and_congr_right fun hrun => ?_)
  exact ⟨fun hvisible => ⟨hvisible,newestOk_focusWindow hok.newest h hrun⟩,fun hok' => hok'.focused⟩

theorem onVisible_delivered (h : c.Consistent) (input : Input) : OnVisible (c.delivered input) ↔ OnVisible c := by
  have hfocus : (c.delivered input).currentlyFocusedWindow = c.currentlyFocusedWindow := (deliver_rest input c).2.1
  have hwindows := Restyled.onBuffer h.rings h.zIndices (keeps_deliver input c) c.currentlyFocusedWindow
  unfold OnVisible
  rw [hfocus]
  exact or_congr_right (visible_of_restyled hwindows).symm

/-- An input event that finds its target keeps the focus on a visible window exactly when it may go there. -/
theorem input_keeps_iff (h : s.compositor.Consistent) (hok : s.FocusOk) (input : Input) {mouseX mouseY : Int}
    {target : Option Nat} (haim : s.compositor.aim p keys input = .ok (mouseX,mouseY,target)) :
    KeepsFocus p keys (.input input) s ↔ ∃ c', exec p keys (.input input) s.compositor = .ok c' ∧
      Session.FocusOk ⟨c',s.next (.input input) c'⟩ := by
  have hmoved := h.moved mouseX mouseY
  have hnewest : NewestOk s.newest { s.compositor with mouseX, mouseY } := hok.newest
  have hfocus : KeepsFocus p keys (.input input) s ↔ ∃ c₁, ({ s.compositor with mouseX, mouseY } : Compositor fb).focusTarget p
      target = .ok c₁ ∧ OnVisible c₁ := by
    cases target with
    | none =>
      refine ⟨fun _ => ⟨_,rfl,hok.focused⟩,fun _ mouseX' mouseY' id haim' => ?_⟩
      cases haim.symm.trans haim'
    | some id =>
      refine Iff.trans ?_ (focusWindow_visible_iff hmoved hok.focused)
      refine ⟨fun hkeeps => hkeeps mouseX mouseY id haim,fun hmay mouseX' mouseY' id' haim' => ?_⟩
      cases haim.symm.trans haim'
      exact hmay
  have hruns : ∀ c', exec p keys (.input input) s.compositor = .ok c' ↔ ∃ c₁,
      ({ s.compositor with mouseX, mouseY } : Compositor fb).focusTarget p target = .ok c₁ ∧ c' = c₁.delivered input := by
    refine fun c' => (processInputEvent_iff h input).trans ⟨?_,?_⟩
    · rintro ⟨mouseX',mouseY',target',c₁,haim',hc₁,rfl⟩
      cases haim.symm.trans haim'
      exact ⟨c₁,hc₁,rfl⟩
    · rintro ⟨c₁,hc₁,rfl⟩
      exact ⟨mouseX,mouseY,target,c₁,haim,hc₁,rfl⟩
  rw [hfocus]
  constructor
  · rintro ⟨c₁,hc₁,hvisible⟩
    have hc₁' := hmoved.focusTarget hc₁
    refine ⟨_,(hruns _).mpr ⟨c₁,hc₁,rfl⟩,(onVisible_delivered hc₁' input).mpr hvisible,?_⟩
    have hsame : s.next (.input input) (c₁.delivered input) =
        if c₁.currentlyFocusedWindow = s.compositor.currentlyFocusedWindow then s.newest else none := by
      have hdelivered : (c₁.delivered input).currentlyFocusedWindow = c₁.currentlyFocusedWindow := (deliver_rest input c₁).2.1
      rw [Session.next,hdelivered]
      rfl
    rw [hsame]
    refine NewestOk.delivered ?_ hc₁' input
    cases target with
    | none =>
      cases hc₁
      rw [if_pos rfl]
      exact hnewest
    | some id =>
      have hkept := newestOk_focusWindow hnewest hmoved hc₁
      exact hkept
  · rintro ⟨c',hc',hok'⟩
    obtain ⟨c₁,hc₁,rfl⟩ := (hruns c').mp hc'
    exact ⟨c₁,hc₁,(onVisible_delivered (hmoved.focusTarget hc₁) input).mp hok'.focused⟩

end Step
section Run
variable {screen : Screen} {s t : Session screen.toFrameBufferTarget}

/-- What holds between the steps of a run that keeps the focus on visible windows. -/
structure Session.Sound (s : Session screen.toFrameBufferTarget) : Prop extends s.FocusOk where
  consistent : s.compositor.Consistent
  onScreen : OnScreen s.compositor

theorem Session.Sound.start : ({} : Session screen.toFrameBufferTarget).Sound :=
  ⟨⟨.inl rfl,nofun⟩,.start,⟨⟨Int.le_refl 0,Int.natCast_pos.mpr screen.width_pos⟩,Int.le_refl 0,Int.natCast_pos.mpr screen.height_pos⟩⟩

/-- A step keeps the focus on a visible window exactly when it meets the condition. -/
theorem Session.Sound.keeps_iff (h : s.Sound) (a : Action) : KeepsFocus p keys a s ↔
    ∃ c', exec p keys a s.compositor = .ok c' ∧ Session.FocusOk ⟨c',s.next a c'⟩ := by
  have hok := h.toFocusOk
  cases a with
  | createWindow pid x y width height room page => exact createWindow_keeps_iff h.consistent hok pid x y width height room page
  | destroyWindow id =>
    refine (destroyWindow_keeps_iff h.consistent hok id).trans ⟨fun hok' => ⟨_,rfl,hok'⟩,?_⟩
    rintro ⟨c',hc',hok'⟩
    cases hc'
    exact hok'
  | destroyWindowsOfProcess pid =>
    refine (destroyWindowsOfProcess_keeps_iff h.consistent hok pid).trans ⟨fun hok' => ⟨_,rfl,hok'⟩,?_⟩
    rintro ⟨c',hc',hok'⟩
    cases hc'
    exact hok'
  | focusWindow id => exact focusWindow_keeps_iff h.consistent hok id
  | clearTransient =>
    have hkept : NewestOk s.newest { s.compositor with keyboardState := s.compositor.keyboardState.clearTransient } := hok.newest
    exact ⟨fun _ => ⟨_,rfl,hok.focused,newestOk_next (a := .clearTransient) rfl rfl hkept⟩,fun _ => trivial⟩
  | input input =>
    obtain ⟨mouseX,mouseY,target,haim,_⟩ := aim_runs p keys h.onScreen input
    exact input_keeps_iff h.consistent hok input haim
  | tryRead id =>
    refine ⟨fun _ => ⟨_,tryRead_eq s.compositor id,?_,?_⟩,fun _ => trivial⟩
    · exact hok.focused.imp_right
        (visible_of_restyled (Restyled.onBuffer h.consistent.rings h.consistent.zIndices keeps_tryRead id)).mp
    · refine newestOk_next (a := .tryRead id) rfl rfl (hok.newest.restyled fun i u hu => ?_)
      rw [List.getElem?_modify] at hu
      obtain ⟨w,hw,rfl⟩ := Option.map_eq_some_iff.mp hu
      refine ⟨w,hw,fun hvisible => ⟨by split_ifs at hvisible <;> exact hvisible,fun page hpage hpublishes => ?_⟩⟩
      split_ifs
      · exact ⟨{ page with buffer := page.buffer.tryRead.2 },congrArg (Option.map _) hpage,hpublishes⟩
      · exact ⟨page,hpage,hpublishes⟩

theorem onScreen_exec {c c' : Compositor screen.toFrameBufferTarget} (h : c.Consistent) (hon : OnScreen c) {a : Action}
    (hrun : exec p keys a c = .ok c') : OnScreen c' := by
  have hfocus : ∀ {c c' : Compositor screen.toFrameBufferTarget} {id : Nat}, c.Consistent → OnScreen c →
      c.focusWindow p id = .ok c' → OnScreen c' := by
    intro c c' id h hon hrun
    have hfocusing := focusWindow_focusing p id h.rings
    rw [hrun] at hfocusing
    cases hfocusing <;> exact hon
  cases a with
  | createWindow pid x y width height room page =>
    obtain rfl | ⟨shape,c₁,hsmall,hc₁,rfl⟩ := createWindow_cases h hrun
    · exact hon
    · have hon₁ : OnScreen c₁ := hfocus (h.placed hsmall) hon hc₁
      exact hon₁
  | destroyWindow id =>
    cases hrun
    obtain ⟨_,_,hx,hy⟩ := destroyWindow_rest id c
    unfold OnScreen
    rw [hx,hy]
    exact hon
  | destroyWindowsOfProcess pid =>
    cases hrun
    obtain ⟨_,_,hx,hy⟩ := destroyWindowsOfProcess_rest h pid
    unfold OnScreen
    rw [hx,hy]
    exact hon
  | focusWindow id => exact hfocus h hon hrun
  | clearTransient =>
    cases hrun
    exact hon
  | input input =>
    obtain ⟨mouseX,mouseY,target,c₁,haim,hc₁,rfl⟩ := (processInputEvent_iff h input).mp hrun
    obtain ⟨mouseX',mouseY',target',haim',hmoved⟩ := aim_runs p keys hon input
    cases haim.symm.trans haim'
    obtain ⟨_,_,_,_,hx,hy⟩ := deliver_rest input c₁
    have hon₁ : OnScreen c₁ := by
      cases target with
      | none =>
        cases hc₁
        exact hmoved
      | some id => exact hfocus (h.moved mouseX mouseY) hmoved hc₁
    refine ⟨?_,?_⟩
    · change 0 ≤ (c₁.deliver input).1.mouseX ∧ (c₁.deliver input).1.mouseX < _
      rw [hx]
      exact hon₁.1
    · change 0 ≤ (c₁.deliver input).1.mouseY ∧ (c₁.deliver input).1.mouseY < _
      rw [hy]
      exact hon₁.2
  | tryRead id =>
    rw [tryRead_eq] at hrun
    cases hrun
    exact hon

/-- A run goes through, with the focus on a visible window and on the newest one until it is moved, exactly when its
steps meet the condition. -/
theorem run_keeps_focus_iff (screen : Screen) (p : Profile) (keys : KeyCodes) (acts : List Action) :
    (∀ before, before <+: acts → ∃ s : Session screen.toFrameBufferTarget,
      steps (Session.step p keys) before {} = some s ∧ s.FocusOk) ↔
    stepsMeet (Session.step p keys) (KeepsFocus p keys) acts ({} : Session screen.toFrameBufferTarget) := by
  refine steps_run_iff (I := Session.Sound) (fun s hs => hs.toFocusOk) (fun a s hs hkeeps => ?_) (fun a s t hs ht hok => ?_) .start
  · obtain ⟨c',hrun,hok⟩ := (hs.keeps_iff a).mp hkeeps
    exact ⟨_,Session.step_iff.mpr ⟨c',hrun,rfl⟩,hok,hs.consistent.exec hrun,onScreen_exec hs.consistent hs.onScreen hrun⟩
  · obtain ⟨c',hrun,rfl⟩ := Session.step_iff.mp ht
    exact (hs.keeps_iff a).mpr ⟨c',hrun,hok⟩

/-- A window of 10 by 10 pixels at the given place. -/
def Action.create (x y : Int32) : Action := .createWindow 1 x y 10 10 true true

def smallScreen : Screen := ⟨Compose.screen,⟨by decide,by decide,by decide⟩,by decide,by decide⟩

/-- The only window is destroyed, and keeps the focus. -/
theorem focus_on_destroyed : ¬ ∃ s : Session smallScreen.toFrameBufferTarget,
    steps (Session.step .release ⟨0,1,2⟩) [.create 0 0,.destroyWindow 0] {} = some s ∧ s.FocusOk := by
  rintro ⟨s,hs,hok⟩
  have hview : ((steps (Session.step .release ⟨0,1,2⟩) [.create 0 0,.destroyWindow 0]
      ({} : Session smallScreen.toFrameBufferTarget)).map fun s =>
        (s.compositor.currentlyFocusedWindow,s.compositor.windows.map (·.isVisible))) = some (0,[false]) := by decide +kernel
  rw [hs] at hview
  obtain ⟨hfocus,hvisible⟩ := Prod.mk.inj (Option.some.inj hview)
  obtain hinvalid | ⟨w,hw,hwvisible⟩ := hok.focused
  · exact absurd (hfocus.symm.trans hinvalid) (by decide)
  · have hmem := List.mem_map_of_mem (f := (·.isVisible)) (List.mem_of_getElem? hw)
    rw [hvisible,hwvisible] at hmem
    cases List.mem_singleton.mp hmem

end Run
end MofuOS.Graphics.Focus
