import MofuOS.Events.KeyboardState
import MofuOS.Graphics.Compose
import MofuOS.Graphics.WindowSystem
import Mathlib.Data.List.Sort

/-! Focus and stacking of windows in graphics/compositor.rs, and the input that reaches their event buffers. Where
the buffers are mapped and which frames they take is left to the window system. -/
namespace MofuOS.Graphics.Focus
open Lib Events Compose
open Memory (heapSizeBytes)
open Windows (invalidWindowId)

def normalizeZIndexThreshold : Nat := 250

/-- The codes of the keyboard package that the compositor looks for. -/
structure KeyCodes where
  lAlt : UInt8
  arrowLeft : UInt8
  arrowRight : UInt8

structure MouseEvent where
  xDelta : Int16
  yDelta : Int16
  buttons : UInt16
  xOverflow : Bool
  yOverflow : Bool

def decodeMouse (event : InputEvent) : MouseEvent where
  xDelta := event.value.toInt32.toInt16
  yDelta := (event.extra &&& 0xFFFF).toUInt16.toInt16
  buttons := (event.extra >>> 16).toUInt16 &&& 0x07
  xOverflow := (event.extra >>> 19) &&& 0x03 &&& 0x01 != 0
  yOverflow := (event.extra >>> 19) &&& 0x03 &&& 0x02 != 0

/-- The event buffer is a page that the window has to itself. -/
structure Window (fb : FrameBufferTarget) extends PlacedWindow fb where
  id : Nat
  ownerPid : Nat
  zIndex : Nat
  eventBuffer : Option EventPage

/-- A window as destroy_window leaves it. -/
def Window.hide {fb : FrameBufferTarget} (w : Window fb) : Window fb := { w with isVisible := false, eventBuffer := none }

/-- The stack of free ids has its top in front. -/
structure Compositor (fb : FrameBufferTarget) where
  nextWindowId : Nat := 0
  currentlyFocusedWindow : Nat := invalidWindowId
  freeWindowIds : List Nat := []
  windows : List (Window fb) := []
  mouseX : Int := 0
  mouseY : Int := 0
  keyboardState : KeyboardState := {}
  /-- In the page that all programs share. -/
  sharedFocusedWindowId : Nat := 0

/-- Iterator::max_by_key, which takes the last of several. -/
def maxByKey {α : Type} (key : α → Nat) (l : List α) : Option α :=
  l.foldl (fun best a => match best with
    | none => some a
    | some b => if key b ≤ key a then some a else some b) none

variable {fb : FrameBufferTarget} (p : Profile)

section Windows

def zIndexAt (windows : List (Window fb)) (slot : Nat) : Nat := (windows[slot]?).elim 0 (·.zIndex)

/-- The slots of the visible windows, sorted by z_index. -/
def stackingOrder (windows : List (Window fb)) : List Nat :=
  ((List.range windows.length).filter fun slot => (windows[slot]?).any (·.isVisible)).insertionSort fun a b =>
    zIndexAt windows a ≤ zIndexAt windows b

/-- The visible windows are numbered in their order. -/
def normalizeZIndices (windows : List (Window fb)) : List (Window fb) :=
  windows.mapIdx fun slot w => if w.isVisible then { w with zIndex := (stackingOrder windows).idxOf slot % 2^8 } else w

/-- A call on the event buffer of a window, if there is one. -/
def onEventBuffer (id : Nat) (call : EventPage → Outcome EventPage) (windows : List (Window fb)) :
    Outcome (List (Window fb)) :=
  match windows[id]?, (windows[id]?).bind (·.eventBuffer) with
  | some w, some page => do
    let page ← call page
    .ok (windows.set id { w with eventBuffer := some page })
  | _, _ => .ok windows

/-- Whether the window covers a pixel of the screen. -/
def contains (x y : Int) (w : Window fb) : Outcome Bool := do
  if x < w.x.toInt then .ok false
  else
    let right ← signed32 p (w.x.toInt + asI32 w.width.toNat)
    if right ≤ x then .ok false
    else if y < w.y.toInt then .ok false
    else
      let bottom ← signed32 p (w.y.toInt + asI32 w.height.toNat)
      .ok (y < bottom)

/-- The window that a click finds. -/
def windowAt (x y : Int) (windows : List (Window fb)) : Outcome (Option Nat) := do
  let found ← (windows.filter (·.isVisible)).mapM fun w => do
    let inside ← contains p x y w
    .ok (if inside then some w else none)
  .ok ((maxByKey (·.zIndex) found.reduceOption).map (·.id))

end Windows

namespace Compositor

def setZIndex (id zIndex : Nat) (c : Compositor fb) : Outcome (Compositor fb) :=
  if id = invalidWindowId then .ok c
  else
    match c.windows[id]? with
    | some w => .ok { c with windows := c.windows.set id { w with zIndex } }
    | none => .error .panic

def focusWindow (id : Nat) (c : Compositor fb) : Outcome (Compositor fb) :=
  if id = invalidWindowId ∨ id = c.currentlyFocusedWindow then .ok c
  else
    match maxByKey (·.zIndex) c.windows with
    | none => .error .panic
    | some top =>
      match c.windows[id]? with
      | none => .ok c
      | some w => do
        let zIndex ← unsigned p 8 (top.zIndex + 1)
        let windows := c.windows.set id { w with zIndex }
        let windows := if top.zIndex > normalizeZIndexThreshold then normalizeZIndices windows else windows
        let windows ← onEventBuffer c.currentlyFocusedWindow (·.releaseHeldKeys c.keyboardState) windows
        let windows ← onEventBuffer id
          (fun page => .ok (page.publishKeyboardState c.keyboardState.keyDown c.keyboardState.modifiers)) windows
        .ok { c with windows, currentlyFocusedWindow := id, sharedFocusedWindowId := id }

/-- The id of the next window, and what is left of the ids. -/
def takeWindowId (c : Compositor fb) : Nat × Compositor fb :=
  match c.freeWindowIds with
  | id :: freeWindowIds => (id,{ c with freeWindowIds })
  | [] => (c.nextWindowId,{ c with nextWindowId := (c.nextWindowId + 1) % 2^32 })

def putWindow (w : Window fb) (c : Compositor fb) : Compositor fb :=
  { c with windows := if w.id ≥ c.windows.length then c.windows ++ [w] else c.windows.set w.id w }

/-- The kernel heap may have no room for the buffers of the window, and has none for a table of its own length.
The page of the event buffer may not be had. -/
def createWindow (placed : PlacedWindow fb) (pid : Nat) (room page : Bool) (c : Compositor fb) :
    Outcome (Nat × Compositor fb) :=
  if ¬ room ∨ heapSizeBytes ≤ c.windows.length then .error .panic
  else do
    let (id,c) := c.takeWindowId
    let window : Window fb := { placed with
      id
      ownerPid := pid
      zIndex := 0
      isVisible := true
      eventBuffer := if page then some .zeroed else none }
    let c ← (c.putWindow window).focusWindow p id
    .ok (id,c)

/-- The system call CreateWindow. -/
def sysCreateWindow (pid : Nat) (x y : Int32) (width height : UInt32) (room page : Bool) (c : Compositor fb) :
    Outcome (Compositor fb) :=
  if h : (1 ≤ width.toNat ∧ width.toNat ≤ fb.width.toNat) ∧ 1 ≤ height.toNat ∧ height.toNat ≤ fb.height.toNat then do
    let (id,c) ← c.createWindow p ⟨x,y,width,height,true,h.1,h.2⟩ pid room page
    c.setZIndex id 7
  else .ok c

def destroyWindow (id : Nat) (c : Compositor fb) : Compositor fb :=
  if id = invalidWindowId then c
  else
    match c.windows[id]? with
    | none => c
    | some w =>
      if w.isVisible then
        { c with
          windows := c.windows.set id { w with isVisible := false, eventBuffer := none }
          freeWindowIds := id :: c.freeWindowIds }
      else c

def ownedWindowIds (pid : Nat) (c : Compositor fb) : List Nat :=
  (c.windows.filter fun w => w.isVisible && w.ownerPid == pid).map (·.id)

def destroyWindowsOfProcess (pid : Nat) (c : Compositor fb) : Compositor fb :=
  (c.ownedWindowIds pid).foldl (fun c id => c.destroyWindow id) c

/-- A call on the event buffer of the focused window. -/
def onFocused (call : EventPage → Outcome EventPage) (c : Compositor fb) : Outcome (Compositor fb) :=
  if c.currentlyFocusedWindow = invalidWindowId then .ok c
  else do
    let windows ← onEventBuffer c.currentlyFocusedWindow call c.windows
    .ok { c with windows }

def handleKeyStateEvent (event : InputEvent) (c : Compositor fb) : Outcome (Compositor fb) := do
  debugAssert p (event.value.toNat < keyCount)
  let state ← KeyState.fromRaw p event.extra
  let c := { c with keyboardState := c.keyboardState.update event.value.toUInt8 state event.keyModifiers }
  c.onFocused fun page => (page.publishKeyboardState c.keyboardState.keyDown c.keyboardState.modifiers).push event

/-- The window that Alt and an arrow go to. -/
def switchTarget (keys : KeyCodes) (key : UInt8) (state : KeyState) (c : Compositor fb) : Option Nat :=
  if c.keyboardState.keyDown.test keys.lAlt ∧ state = .pressed then
    if key = keys.arrowLeft then some (c.currentlyFocusedWindow - 1)
    else if key = keys.arrowRight then some ((c.currentlyFocusedWindow + 1) % 2^32)
    else none
  else none

def handleKeyboardEvent (keys : KeyCodes) (event : InputEvent) (c : Compositor fb) : Outcome (Compositor fb) := do
  debugAssert p (event.value.toNat < keyCount)
  let state ← KeyState.fromRaw p event.extra
  let c ← (match c.switchTarget keys event.value.toUInt8 state with
    | some id => c.focusWindow p id
    | none => .ok c)
  c.onFocused (·.push event)

def findAndFocusWindowAt (x y : Int) (c : Compositor fb) : Outcome (Compositor fb) := do
  match ← windowAt p x y c.windows with
  | some id => if id ≠ c.currentlyFocusedWindow then c.focusWindow p id else .ok c
  | none => .ok c

/-- Whether the focused window is clicked. -/
def clickStays (x y : Int) (c : Compositor fb) : Outcome Bool :=
  if c.currentlyFocusedWindow = invalidWindowId then .ok false
  else
    match c.windows[c.currentlyFocusedWindow]? with
    | some w => if w.isVisible then contains p x y w else .ok false
    | none => .ok false

def handleMouseClick (x y : Int) (c : Compositor fb) : Outcome (Compositor fb) := do
  if ← c.clickStays p x y then .ok c else c.findAndFocusWindowAt p x y

end Compositor

/-- Where the mouse is along one axis after a move. A screen without pixels is a panic of clamp. -/
def moveMouse (position : Int) (delta : Int16) (screen : Nat) : Outcome Int := do
  let moved ← signed32 p (position + delta.toInt)
  let last ← signed32 p (asI32 (asU32 screen) - 1)
  if last < 0 then .error .panic else .ok (max 0 (min moved last))

namespace Compositor

def handleMouseEvent (event : InputEvent) (c : Compositor fb) : Outcome (Compositor fb) := do
  let mouse := decodeMouse event
  let mouseX ← moveMouse p c.mouseX mouse.xDelta fb.width.toNat
  let mouseY ← moveMouse p c.mouseY mouse.yDelta fb.height.toNat
  let c := { c with mouseX, mouseY }
  let c ← (if mouse.buttons ≠ 0 then c.handleMouseClick p mouseX mouseY else .ok c)
  c.onFocused (·.push event)

/-- The body of the loop of process_input_events. -/
def processInputEvent (keys : KeyCodes) (event : InputEvent) (c : Compositor fb) : Outcome (Compositor fb) :=
  match event.eventType with
  | .mouseEvent => c.handleMouseEvent p event
  | .keyEvent => c.handleKeyboardEvent p keys event
  | .keyStateEvent => c.handleKeyStateEvent p event
  | _ => c.onFocused (·.push event)

end Compositor

/-- What the interrupt handlers put into the input buffer. -/
inductive Input where
  | keyState (code : UInt8) (state : KeyState) (modifiers : UInt32)
  | key (code : UInt8) (state : KeyState) (modifiers : UInt32)
  | char (code : UInt32) (state : KeyState) (modifiers : UInt32)
  | mouse (value extra : UInt32)

def Input.event : Input → InputEvent
  | .keyState code state modifiers => .newKeyState code.toUInt32 state modifiers
  | .key code state modifiers => .newKey code.toUInt32 state modifiers
  | .char code state modifiers => .newChar code state modifiers
  | .mouse value extra => .new .mouseEvent value extra

/-- TryRead is a program that takes an event of its window. -/
inductive Action where
  | createWindow (pid : Nat) (x y : Int32) (width height : UInt32) (room page : Bool)
  | destroyWindow (id : Nat)
  | destroyWindowsOfProcess (pid : Nat)
  | focusWindow (id : Nat)
  | clearTransient
  | input (input : Input)
  | tryRead (id : Nat)

/-- Everything that holds the lock of the compositor is one step. -/
def exec (keys : KeyCodes) : Action → Compositor fb → Outcome (Compositor fb)
  | .createWindow pid x y width height room page, c => c.sysCreateWindow p pid x y width height room page
  | .destroyWindow id, c => .ok (c.destroyWindow id)
  | .destroyWindowsOfProcess pid, c => .ok (c.destroyWindowsOfProcess pid)
  | .focusWindow id, c => c.focusWindow p id
  | .clearTransient, c => .ok { c with keyboardState := c.keyboardState.clearTransient }
  | .input input, c => c.processInputEvent p keys input.event
  | .tryRead id, c => do
    let windows ← onEventBuffer id (fun page => .ok { page with buffer := page.buffer.tryRead.2 }) c.windows
    .ok { c with windows }

/-- A panic leaves no state. -/
def step (keys : KeyCodes) (a : Action) (c : Compositor fb) : Option (Compositor fb) := (exec p keys a c).toOption

end MofuOS.Graphics.Focus
