import MofuOS.Graphics.FocusSpec

/-! The steps of the compositor one by one: a creation fills a slot and moves the focus there, a destruction hides
a window, and an input event moves the focus to its target, if it has one, and goes to the focused window. -/
namespace MofuOS.Graphics.Focus
open Lib Events Compose
open Memory (heapSizeBytes)
open Windows (invalidWindowId)
variable {fb : FrameBufferTarget} {p : Profile} {keys : KeyCodes} {c c' : Compositor fb} {windows : List (Window fb)}
  {w : Window fb} {id i : Nat}

section Create

def Compositor.newWindowId (c : Compositor fb) : Nat := Slots.newSlot c.nextWindowId c.freeWindowIds

/-- The window that create_window makes. -/
def newWindow (shape : PlacedWindow fb) (pid : Nat) (page : Bool) (id : Nat) : Window fb :=
  { shape with id, ownerPid := pid, zIndex := 0, isVisible := true, eventBuffer := if page then some .zeroed else none }

/-- The compositor with the new window in its table, before the focus moves. -/
def Compositor.placed (shape : PlacedWindow fb) (pid : Nat) (page : Bool) (c : Compositor fb) : Compositor fb := { c with
  nextWindowId := if c.freeWindowIds = [] then c.nextWindowId + 1 else c.nextWindowId
  freeWindowIds := c.freeWindowIds.tail
  windows := Slots.put c.windows c.newWindowId (newWindow shape pid page c.newWindowId) }

/-- One window with its z_index set. -/
def Compositor.stacked (id zIndex : Nat) (c : Compositor fb) : Compositor fb :=
  { c with windows := c.windows.modify id fun w => { w with zIndex } }

variable {shape : PlacedWindow fb} {pid : Nat} {page : Bool}

theorem getElem?_placed (h : c.Consistent) : (c.placed shape pid page).windows[i]? =
    if i = c.newWindowId then some (newWindow shape pid page c.newWindowId) else c.windows[i]? :=
  Slots.getElem?_put h.slots.newSlot_le

/-- The window whose slot is used again is hidden. -/
theorem hidden_of_newWindowId (h : c.Consistent) (hw : c.windows[c.newWindowId]? = some w) : w.isVisible = false :=
  h.slots.replaced hw

theorem Compositor.Consistent.placed (h : c.Consistent) (hsmall : c.windows.length < heapSizeBytes) :
    (c.placed shape pid page).Consistent := by
  have hnew : ∀ (i : Nat) (w : Window fb), (c.placed shape pid page).windows[i]? = some w →
      w = newWindow shape pid page c.newWindowId ∨ c.windows[i]? = some w := by
    intro i w hw
    rw [getElem?_placed h] at hw
    split_ifs at hw
    · exact .inl (Option.some.inj hw).symm
    · exact .inr hw
  refine ⟨h.slots.place rfl,?_,fun i w hw hhidden => ?_,fun i w pg hw hpage => ?_,fun i w hw => ?_⟩
  · have hle := h.slots.newSlot_le
    have hlength : (c.placed shape pid page).windows.length = max c.windows.length (c.newWindowId + 1) := Slots.length_put hle
    rw [hlength]
    unfold Compositor.newWindowId
    omega
  · obtain rfl | hw := hnew i w hw
    · cases hhidden
    · exact h.hidden i w hw hhidden
  · obtain rfl | hw := hnew i w hw
    · cases page with
      | false => cases hpage
      | true =>
        cases hpage
        exact ⟨[],.new⟩
    · exact h.rings i w pg hw hpage
  · obtain rfl | hw := hnew i w hw
    · exact Nat.zero_lt_succ _
    · exact h.zIndices i w hw

theorem setZIndex_eq {zIndex : Nat} (h : c.Consistent) (hw : c.windows[id]? = some w) :
    c.setZIndex id zIndex = .ok (c.stacked id zIndex) := by
  obtain ⟨hlt,rfl⟩ := List.getElem?_eq_some_iff.mp hw
  have hset : c.windows.set id { c.windows[id] with zIndex } = c.windows.modify id fun w => { w with zIndex } := by
    refine List.ext_getElem? fun j => ?_
    rw [List.getElem?_modify,List.getElem?_set]
    by_cases hj : id = j
    · subst hj
      simp [hlt]
    · simp [hj]
  rw [Compositor.setZIndex,if_neg (h.window_ne hw),hw]
  dsimp only
  rw [hset]
  rfl

/-- Moving the focus keeps every window. -/
theorem window_of_focusWindow (h : c.Consistent) (hrun : c.focusWindow p id = .ok c') (hw : c.windows[i]? = some w) :
    ∃ z b, c'.windows[i]? = some { w with zIndex := z, eventBuffer := b } := by
  have hfocusing := focusWindow_focusing p id h.rings
  rw [hrun] at hfocusing
  cases hfocusing with
  | same => exact ⟨w.zIndex,w.eventBuffer,hw⟩
  | missing => exact ⟨w.zIndex,w.eventBuffer,hw⟩
  | moved top =>
    obtain ⟨z,b,hwindow,_⟩ := (h.restyled_refocused id top.zIndex).same i w hw
    exact ⟨z,b,hwindow⟩

theorem createWindow_eq (h : c.Consistent) (hsmall : c.windows.length < heapSizeBytes) :
    c.createWindow p shape pid true page = (do
      let c' ← (c.placed shape pid page).focusWindow p c.newWindowId
      .ok (c.newWindowId,c')) := by
  have hnext : (c.nextWindowId + 1) % 2^32 = c.nextWindowId + 1 := by
    have hlength := h.slots.length
    have hheap : heapSizeBytes < 2^32 := by decide
    exact Nat.mod_eq_of_lt (by omega)
  have htake : c.takeWindowId = (c.newWindowId,{ c with
      nextWindowId := if c.freeWindowIds = [] then c.nextWindowId + 1 else c.nextWindowId
      freeWindowIds := c.freeWindowIds.tail }) := by
    unfold Compositor.takeWindowId Compositor.newWindowId Slots.newSlot
    cases hfree : c.freeWindowIds with
    | nil =>
      dsimp only [List.headD_nil,List.tail_nil]
      rw [hnext,if_pos rfl]
    | cons i rest => simp
  rw [Compositor.createWindow,if_neg (by simp [hsmall]),htake]
  rfl

/-- CreateWindow places the window, moves the focus to it, and sets its z_index. -/
theorem sysCreateWindow_eq (h : c.Consistent) (x y : Int32) (width height : UInt32) (room : Bool) :
    c.sysCreateWindow p pid x y width height room page =
      if hsize : (1 ≤ width.toNat ∧ width.toNat ≤ fb.width.toNat) ∧ 1 ≤ height.toNat ∧ height.toNat ≤ fb.height.toNat then
        if room = true ∧ c.windows.length < heapSizeBytes then do
          let c' ← (c.placed ⟨x,y,width,height,true,hsize.1,hsize.2⟩ pid page).focusWindow p c.newWindowId
          .ok (c'.stacked c.newWindowId 7)
        else .error .panic
      else .ok c := by
  unfold Compositor.sysCreateWindow
  by_cases hsize : (1 ≤ width.toNat ∧ width.toNat ≤ fb.width.toNat) ∧ 1 ≤ height.toNat ∧ height.toNat ≤ fb.height.toNat
  · rw [dif_pos hsize,dif_pos hsize]
    by_cases hroom : room = true ∧ c.windows.length < heapSizeBytes
    · rw [if_pos hroom]
      obtain ⟨rfl,hsmall⟩ := hroom
      rw [createWindow_eq h hsmall]
      have hplaced : (c.placed ⟨x,y,width,height,true,hsize.1,hsize.2⟩ pid page).Consistent := h.placed hsmall
      cases hrun : (c.placed ⟨x,y,width,height,true,hsize.1,hsize.2⟩ pid page).focusWindow p c.newWindowId with
      | error fault => rfl
      | ok c' =>
        obtain ⟨z,b,hwindow⟩ := window_of_focusWindow hplaced hrun ((getElem?_placed h).trans (if_pos rfl))
        exact setZIndex_eq (hplaced.focusWindow hrun) hwindow
    · rw [if_neg hroom,Compositor.createWindow,if_pos]
      · rfl
      · cases room with
        | false => exact .inl (by decide)
        | true => exact .inr (Nat.not_lt.mp fun hlt => hroom ⟨rfl,hlt⟩)
  · rw [dif_neg hsize,dif_neg hsize]

end Create

section Destroy

theorem hide_eq (hhidden : w.isVisible = false) (hnone : w.eventBuffer = none) : w.hide = w := by
  unfold Window.hide
  rw [← hhidden,← hnone]

theorem destroyWindow_eq (id : Nat) (c : Compositor fb) : c.destroyWindow id = c ∧
      (∀ w, id ≠ invalidWindowId → c.windows[id]? = some w → w.isVisible = false) ∨
    ∃ w, id ≠ invalidWindowId ∧ c.windows[id]? = some w ∧ w.isVisible = true ∧ c.destroyWindow id =
      { c with windows := c.windows.set id w.hide, freeWindowIds := id :: c.freeWindowIds } := by
  unfold Compositor.destroyWindow
  by_cases hid : id = invalidWindowId
  · rw [if_pos hid]
    exact .inl ⟨rfl,fun _ hne => absurd hid hne⟩
  rw [if_neg hid]
  cases hw : c.windows[id]? with
  | none => exact .inl ⟨rfl,nofun⟩
  | some w =>
    dsimp only
    by_cases hvisible : w.isVisible = true
    · rw [if_pos hvisible]
      exact .inr ⟨w,hid,rfl,hvisible,rfl⟩
    · rw [if_neg hvisible]
      refine .inl ⟨rfl,fun u _ hu => ?_⟩
      cases hu
      exact Bool.eq_false_iff.mpr hvisible

/-- What destroy_window leaves in a slot. -/
theorem getElem?_destroyWindow (h : c.Consistent) : (c.destroyWindow id).windows[i]? =
    (c.windows[i]?).map fun w => if i = id then w.hide else w := by
  obtain ⟨heq,hhidden⟩ | ⟨w,hid,hw,hvisible,heq⟩ := destroyWindow_eq id c
  · rw [heq]
    cases hwi : c.windows[i]? with
    | none => rfl
    | some w =>
      rw [Option.map_some]
      by_cases hi : i = id
      · subst hi
        have hwhidden := hhidden w (h.window_ne hwi) hwi
        rw [if_pos rfl,hide_eq hwhidden (h.hidden i w hwi hwhidden)]
      · rw [if_neg hi]
  · rw [heq,List.getElem?_set]
    by_cases hi : id = i
    · subst hi
      have hlt := (List.getElem?_eq_some_iff.mp hw).1
      rw [hw,if_pos rfl,if_pos hlt,Option.map_some,if_pos rfl]
    · simp only [if_neg hi,if_neg (Ne.symm hi),Option.map_id']

theorem Compositor.Consistent.destroyWindow (h : c.Consistent) (id : Nat) : (c.destroyWindow id).Consistent := by
  have hslot : ∀ (i : Nat) (u : Window fb), (c.destroyWindow id).windows[i]? = some u →
      ∃ w, c.windows[i]? = some w ∧ (u = w ∨ u = w.hide) := by
    intro i u hu
    rw [getElem?_destroyWindow h] at hu
    obtain ⟨w,hw,rfl⟩ := Option.map_eq_some_iff.mp hu
    refine ⟨w,hw,?_⟩
    split_ifs
    · exact .inr rfl
    · exact .inl rfl
  refine ⟨?_,?_,fun i u hu hhidden => ?_,fun i u page hu hpage => ?_,fun i u hu => ?_⟩
  · obtain ⟨heq,_⟩ | ⟨w,_,hw,hvisible,heq⟩ := destroyWindow_eq id c
    · rw [heq]
      exact h.slots
    · rw [heq]
      exact h.slots.hide hw hvisible rfl rfl
  · obtain ⟨heq,_⟩ | ⟨w,_,_,_,heq⟩ := destroyWindow_eq id c
    · rw [heq]
      exact h.small
    · rw [heq,List.length_set]
      exact h.small
  · obtain ⟨w,hw,rfl | rfl⟩ := hslot i u hu
    · exact h.hidden i _ hw hhidden
    · rfl
  · obtain ⟨w,hw,rfl | rfl⟩ := hslot i u hu
    · exact h.rings i _ page hw hpage
    · cases hpage
  · obtain ⟨w,hw,rfl | rfl⟩ := hslot i u hu
    · exact h.zIndices i _ hw
    · exact h.zIndices i w hw

theorem destroyWindow_rest (id : Nat) (c : Compositor fb) :
    (c.destroyWindow id).currentlyFocusedWindow = c.currentlyFocusedWindow ∧
      (c.destroyWindow id).keyboardState = c.keyboardState ∧ (c.destroyWindow id).mouseX = c.mouseX ∧
      (c.destroyWindow id).mouseY = c.mouseY := by
  obtain ⟨heq,_⟩ | ⟨w,_,_,_,heq⟩ := destroyWindow_eq id c <;> rw [heq] <;> exact ⟨rfl,rfl,rfl,rfl⟩

/-- Destroying several windows, one after the other. -/
theorem foldl_destroyWindow (ids : List Nat) (h : c.Consistent) :
    (ids.foldl (fun c id => c.destroyWindow id) c).Consistent ∧
      (∀ i : Nat, (ids.foldl (fun c id => c.destroyWindow id) c).windows[i]? =
        (c.windows[i]?).map fun w => if i ∈ ids then w.hide else w) ∧
      (ids.foldl (fun c id => c.destroyWindow id) c).currentlyFocusedWindow = c.currentlyFocusedWindow ∧
      (ids.foldl (fun c id => c.destroyWindow id) c).keyboardState = c.keyboardState ∧
      (ids.foldl (fun c id => c.destroyWindow id) c).mouseX = c.mouseX ∧
      (ids.foldl (fun c id => c.destroyWindow id) c).mouseY = c.mouseY := by
  induction ids generalizing c with
  | nil => exact ⟨h,fun i => by simp,rfl,rfl,rfl,rfl⟩
  | cons id ids ih =>
    obtain ⟨hconsistent,hwindows,hfocus,hkeyboard,hx,hy⟩ := ih (h.destroyWindow id)
    obtain ⟨hfocus₁,hkeyboard₁,hx₁,hy₁⟩ := destroyWindow_rest id c
    refine ⟨hconsistent,fun i => ?_,hfocus.trans hfocus₁,hkeyboard.trans hkeyboard₁,hx.trans hx₁,hy.trans hy₁⟩
    rw [List.foldl_cons,hwindows,getElem?_destroyWindow h]
    cases c.windows[i]? with
    | none => rfl
    | some w =>
      rw [Option.map_some,Option.map_some,Option.map_some]
      by_cases hi : i = id <;> by_cases hids : i ∈ ids <;> simp [hi,hids,Window.hide]

theorem mem_ownedWindowIds {pid : Nat} (h : c.Consistent) : i ∈ c.ownedWindowIds pid ↔
    ∃ w, c.windows[i]? = some w ∧ w.isVisible = true ∧ w.ownerPid = pid := by
  unfold Compositor.ownedWindowIds
  simp only [List.mem_map,List.mem_filter,Bool.and_eq_true,beq_iff_eq]
  constructor
  · rintro ⟨w,⟨hmem,hvisible,howner⟩,rfl⟩
    obtain ⟨j,hw⟩ := List.getElem?_of_mem hmem
    have hid : w.id = j := h.slots.ids j w hw
    exact ⟨w,hid ▸ hw,hvisible,howner⟩
  · rintro ⟨w,hw,hvisible,howner⟩
    exact ⟨w,⟨List.mem_of_getElem? hw,hvisible,howner⟩,h.slots.ids i w hw⟩

theorem destroyWindowsOfProcess_rest (h : c.Consistent) (pid : Nat) :
    (c.destroyWindowsOfProcess pid).currentlyFocusedWindow = c.currentlyFocusedWindow ∧
      (c.destroyWindowsOfProcess pid).keyboardState = c.keyboardState ∧ (c.destroyWindowsOfProcess pid).mouseX = c.mouseX ∧
      (c.destroyWindowsOfProcess pid).mouseY = c.mouseY := (foldl_destroyWindow _ h).2.2

theorem getElem?_destroyWindowsOfProcess {pid : Nat} (h : c.Consistent) : (c.destroyWindowsOfProcess pid).windows[i]? =
    (c.windows[i]?).map fun w => if w.ownerPid = pid then w.hide else w := by
  refine ((foldl_destroyWindow _ h).2.1 i).trans (Option.map_congr fun w hw => ?_)
  have hmem : i ∈ c.ownedWindowIds pid ↔ _ := mem_ownedWindowIds h
  by_cases howner : w.ownerPid = pid
  · rw [if_pos howner]
    cases hvisible : w.isVisible with
    | true => rw [if_pos (hmem.mpr ⟨w,hw,hvisible,howner⟩)]
    | false =>
      have hsame := hide_eq hvisible (h.hidden i w hw hvisible)
      rw [hsame,ite_self]
  · rw [if_neg howner,if_neg fun hi => ?_]
    obtain ⟨u,hu,_,howner'⟩ := hmem.mp hi
    cases hw.symm.trans hu
    exact howner howner'

end Destroy

section Input

/-- A call that moves the focus to a window, if it has one to go to. -/
def Compositor.focusTarget (p : Profile) (target : Option Nat) (c : Compositor fb) : Outcome (Compositor fb) :=
  match target with
  | some id => c.focusWindow p id
  | none => .ok c

/-- The window that a click goes to. -/
def Compositor.clickTarget (p : Profile) (x y : Int) (c : Compositor fb) : Outcome (Option Nat) := do
  if ← c.clickStays p x y then .ok none else windowAt p x y c.windows

/-- Where an input event moves the mouse and the focus. -/
def Compositor.aim (p : Profile) (keys : KeyCodes) (input : Input) (c : Compositor fb) : Outcome (Int × Int × Option Nat) :=
  match input with
  | .keyState _ _ _ => .ok (c.mouseX,c.mouseY,none)
  | .key code state _ => .ok (c.mouseX,c.mouseY,c.switchTarget keys code state)
  | .char _ _ _ => .ok (c.mouseX,c.mouseY,none)
  | .mouse value extra => do
    let mouse := decodeMouse (.new .mouseEvent value extra)
    let mouseX ← moveMouse p c.mouseX mouse.xDelta fb.width.toNat
    let mouseY ← moveMouse p c.mouseY mouse.yDelta fb.height.toNat
    let target ← (if mouse.buttons ≠ 0 then c.clickTarget p mouseX mouseY else .ok none)
    .ok (mouseX,mouseY,target)

/-- What is done with the event buffer of the focused window. -/
def Compositor.deliver (input : Input) (c : Compositor fb) : Compositor fb × (EventPage → Outcome EventPage) :=
  match input with
  | .keyState code state modifiers =>
    let keyboardState := c.keyboardState.update code state (modifiers &&& keyModifierBits)
    ({ c with keyboardState },fun page =>
      (page.publishKeyboardState keyboardState.keyDown keyboardState.modifiers).push input.event)
  | _ => (c,(·.push input.event))

theorem handleMouseClick_eq (x y : Int) (c : Compositor fb) : c.handleMouseClick p x y = (do
    let target ← c.clickTarget p x y
    c.focusTarget p target) := by
  unfold Compositor.handleMouseClick Compositor.clickTarget Compositor.findAndFocusWindowAt
  cases c.clickStays p x y with
  | error fault => rfl
  | ok stays =>
    cases stays with
    | true => rfl
    | false =>
      change (windowAt p x y c.windows >>= _) = (windowAt p x y c.windows >>= _)
      cases windowAt p x y c.windows with
      | error fault => rfl
      | ok target =>
        cases target with
        | none => rfl
        | some id =>
          -- the check for the focused window is made again by focus_window
          change (if id ≠ c.currentlyFocusedWindow then c.focusWindow p id else .ok c) = c.focusWindow p id
          by_cases hid : id = c.currentlyFocusedWindow
          · rw [if_neg (not_not.mpr hid),Compositor.focusWindow,if_pos (.inr hid)]
          · rw [if_pos hid]

/-- An input event moves the mouse, then the focus, and goes to the focused window. -/
theorem processInputEvent_eq (input : Input) (c : Compositor fb) : c.processInputEvent p keys input.event = (do
    let (mouseX,mouseY,target) ← c.aim p keys input
    let c ← ({ c with mouseX, mouseY } : Compositor fb).focusTarget p target
    let (c,call) := c.deliver input
    c.onFocused call) := by
  have hraw : ∀ state : KeyState, KeyState.fromRaw p state.toRaw = .ok state := by
    intro state
    cases p <;> cases state <;> rfl
  have hcode : ∀ code : UInt8, debugAssert p (code.toUInt32.toNat < keyCount) = .ok () := by
    intro code
    have hlt : code.toNat < keyCount := code.toNat_lt
    rw [debugAssert,UInt8.toNat_toUInt32,decide_eq_true hlt,Bool.not_true,Bool.and_false]
    rfl
  cases input with
  | keyState code state modifiers =>
    change (debugAssert p (decide (code.toUInt32.toNat < keyCount)) >>= fun _ => KeyState.fromRaw p state.toRaw >>= _) = _
    rw [hcode,ok_bind,hraw,ok_bind]
    simp only [Input.event,InputEvent.newKeyState,InputEvent.withModifiers,InputEvent.new,UInt8.toUInt8_toUInt32,
      InputEvent.keyModifiers]
    rfl
  | key code state modifiers =>
    change (debugAssert p (decide (code.toUInt32.toNat < keyCount)) >>= fun _ => KeyState.fromRaw p state.toRaw >>= _) = _
    rw [hcode,ok_bind,hraw,ok_bind]
    simp only [Input.event,InputEvent.newKey,InputEvent.withModifiers,InputEvent.new,UInt8.toUInt8_toUInt32]
    rfl
  | char code state modifiers => rfl
  | mouse value extra =>
    change c.handleMouseEvent p (.new .mouseEvent value extra) = _
    simp only [Compositor.handleMouseEvent,Compositor.aim,Compositor.deliver,Input.event]
    generalize decodeMouse (.new .mouseEvent value extra) = mouse
    cases moveMouse p c.mouseX mouse.xDelta fb.width.toNat with
    | error fault => rfl
    | ok mouseX =>
      simp only [ok_bind]
      cases moveMouse p c.mouseY mouse.yDelta fb.height.toNat with
      | error fault => rfl
      | ok mouseY =>
        simp only [ok_bind]
        by_cases hbuttons : mouse.buttons ≠ 0
        · rw [if_pos hbuttons,if_pos hbuttons,handleMouseClick_eq]
          change (c.clickTarget p mouseX mouseY >>= _) >>= _ = (c.clickTarget p mouseX mouseY >>= _) >>= _
          cases c.clickTarget p mouseX mouseY with
          | error fault => rfl
          | ok target => rfl
        · rw [if_neg hbuttons,if_neg hbuttons]
          rfl

/-- The compositor after the event has reached the focused window. -/
def Compositor.delivered (input : Input) (c : Compositor fb) : Compositor fb :=
  { (c.deliver input).1 with
    windows := c.windows.modify c.currentlyFocusedWindow (Window.onBuffer (left (c.deliver input).2)) }

theorem deliver_total (input : Input) (c : Compositor fb) {page : EventPage} {q : List InputEvent} (h : page.buffer.Holds q) :
    ∃ page', (c.deliver input).2 page = .ok page' ∧ ∃ q', page'.buffer.Holds q' := by
  cases input with
  | keyState code state modifiers =>
    have hpublished : (page.publishKeyboardState (c.keyboardState.update code state (modifiers &&& keyModifierBits)).keyDown
        (c.keyboardState.update code state (modifiers &&& keyModifierBits)).modifiers).buffer.Holds q := h
    obtain ⟨page',hpush,hholds,_⟩ := EventPage.push_holds hpublished (Input.keyState code state modifiers).event
    exact ⟨page',hpush,_,hholds⟩
  | _ =>
    obtain ⟨page',hpush,hholds,_⟩ := page.push_holds h _
    exact ⟨page',hpush,_,hholds⟩

theorem keeps_deliver (input : Input) (c : Compositor fb) : Keeps (left (c.deliver input).2) := by
  intro page q h
  obtain ⟨page',hcall,q',hholds⟩ := deliver_total input c h
  exact ⟨q',(left_of_ok hcall).symm ▸ hholds⟩

theorem deliver_rest (input : Input) (c : Compositor fb) : (c.deliver input).1.windows = c.windows ∧
    (c.deliver input).1.currentlyFocusedWindow = c.currentlyFocusedWindow ∧
    (c.deliver input).1.nextWindowId = c.nextWindowId ∧ (c.deliver input).1.freeWindowIds = c.freeWindowIds ∧
    (c.deliver input).1.mouseX = c.mouseX ∧ (c.deliver input).1.mouseY = c.mouseY := by
  cases input <;> exact ⟨rfl,rfl,rfl,rfl,rfl,rfl⟩

theorem onFocused_deliver (h : c.Consistent) (input : Input) :
    (c.deliver input).1.onFocused (c.deliver input).2 = .ok (c.delivered input) := by
  have hwindows := (deliver_rest input c).1
  refine (onFocused_eq (fun w page hw hpage => ?_) (by rw [hwindows]; exact h.length_le)).trans ?_
  · rw [hwindows] at hw
    obtain ⟨q,hq⟩ := h.rings _ w page hw hpage
    obtain ⟨page',hcall,_⟩ := deliver_total input c hq
    exact ⟨page',hcall⟩
  · cases input <;> rfl

theorem Compositor.Consistent.moved (h : c.Consistent) (mouseX mouseY : Int) : ({ c with mouseX, mouseY } : Compositor fb).Consistent :=
  ⟨h.slots,h.small,h.hidden,h.rings,h.zIndices⟩

theorem Compositor.Consistent.focusTarget (h : c.Consistent) {target : Option Nat} (hrun : c.focusTarget p target = .ok c') :
    c'.Consistent := by
  cases target with
  | none =>
    cases hrun
    exact h
  | some id => exact h.focusWindow hrun

theorem Compositor.Consistent.delivered (h : c.Consistent) (input : Input) : (c.delivered input).Consistent := by
  obtain ⟨_,_,hnext,hfree,_⟩ := deliver_rest input c
  exact h.restyled hnext hfree (Restyled.onBuffer h.rings h.zIndices (keeps_deliver input c) _)

/-- An input event is processed when it finds its target and the focus moves there. -/
theorem processInputEvent_iff (h : c.Consistent) (input : Input) : c.processInputEvent p keys input.event = .ok c' ↔
    ∃ mouseX mouseY target c₁, c.aim p keys input = .ok (mouseX,mouseY,target) ∧
      ({ c with mouseX, mouseY } : Compositor fb).focusTarget p target = .ok c₁ ∧ c' = c₁.delivered input := by
  rw [processInputEvent_eq]
  constructor
  · intro hrun
    obtain ⟨⟨mouseX,mouseY,target⟩,haim,hrun⟩ := bind_eq_ok hrun
    obtain ⟨c₁,hfocus,hrun⟩ := bind_eq_ok hrun
    have hdelivered := onFocused_deliver ((h.moved mouseX mouseY).focusTarget hfocus) input
    exact ⟨mouseX,mouseY,target,c₁,haim,hfocus,Except.ok.inj (hrun.symm.trans hdelivered)⟩
  · rintro ⟨mouseX,mouseY,target,c₁,haim,hfocus,rfl⟩
    rw [haim,ok_bind]
    dsimp only
    rw [hfocus,ok_bind]
    exact onFocused_deliver ((h.moved mouseX mouseY).focusTarget hfocus) input

end Input
theorem tryRead_eq (c : Compositor fb) (id : Nat) : exec p keys (.tryRead id) c = .ok { c with
    windows := c.windows.modify id (Window.onBuffer fun page => { page with buffer := page.buffer.tryRead.2 }) } := by
  rw [exec,onEventBuffer_eq fun _ page _ _ => ⟨_,rfl⟩]
  rfl

/-- What a step of CreateWindow does, unless the call is refused. -/
theorem createWindow_cases (h : c.Consistent) {pid : Nat} {x y : Int32} {width height : UInt32} {room page : Bool}
    (hrun : c.sysCreateWindow p pid x y width height room page = .ok c') : c' = c ∨
      ∃ shape c₁, c.windows.length < heapSizeBytes ∧ (c.placed shape pid page).focusWindow p c.newWindowId = .ok c₁ ∧
        c' = c₁.stacked c.newWindowId 7 := by
  rw [sysCreateWindow_eq h] at hrun
  split_ifs at hrun with hsize hroom
  · obtain ⟨c₁,hfocus,hrun⟩ := bind_eq_ok hrun
    cases hrun
    exact .inr ⟨_,c₁,hroom.2,hfocus,rfl⟩
  · cases hrun
    exact .inl rfl

theorem Compositor.Consistent.start : ({} : Compositor fb).Consistent :=
  ⟨.empty,Nat.zero_le _,nofun,nofun,nofun⟩

theorem Compositor.Consistent.exec (h : c.Consistent) {a : Action} (hrun : exec p keys a c = .ok c') : c'.Consistent := by
  cases a with
  | createWindow pid x y width height room page =>
    obtain rfl | ⟨shape,c₁,hsmall,hfocus,rfl⟩ := createWindow_cases h hrun
    · exact h
    · have hc₁ := (h.placed hsmall).focusWindow hfocus
      exact hc₁.restyled rfl rfl (Restyled.stacked hc₁.rings hc₁.zIndices (by decide))
  | destroyWindow id =>
    cases hrun
    exact h.destroyWindow id
  | destroyWindowsOfProcess pid =>
    cases hrun
    exact (foldl_destroyWindow _ h).1
  | focusWindow id => exact h.focusWindow hrun
  | clearTransient =>
    cases hrun
    exact ⟨h.slots,h.small,h.hidden,h.rings,h.zIndices⟩
  | input input =>
    obtain ⟨mouseX,mouseY,target,c₁,_,hfocus,rfl⟩ := (processInputEvent_iff h input).mp hrun
    exact ((h.moved mouseX mouseY).focusTarget hfocus).delivered input
  | tryRead id =>
    rw [tryRead_eq] at hrun
    cases hrun
    exact h.restyled rfl rfl (Restyled.onBuffer h.rings h.zIndices keeps_tryRead id)

end MofuOS.Graphics.Focus
