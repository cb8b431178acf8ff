import MofuOS.Events.EventRing
import MofuOS.Events.HostilePage
import MofuOS.Usize

/-! The keyboard as events/keyboard_state.rs keeps it, and the calls of events/event_buffer.rs that put it into
the page of a window, each without an interruption. -/
namespace MofuOS.Events
open Lib

def keyCount : Nat := 256
def bitsPerWord : Nat := 64

inductive KeyState where
  | pressed
  | released
  deriving DecidableEq, Repr

namespace KeyState

def toRaw : KeyState → UInt32
  | .pressed => 0
  | .released => 1

def fromRaw (p : Profile) (raw : UInt32) : Outcome KeyState := do
  debugAssert p (raw ≤ KeyState.released.toRaw)
  .ok (if raw = KeyState.pressed.toRaw then .pressed else .released)

end KeyState

/-- The bits that KeyModifiers has. -/
def keyModifierBits : UInt32 := 0xFF

namespace InputEvent

def keyModifiers (event : InputEvent) : UInt32 := event.modifiers &&& keyModifierBits

def withModifiers (modifiers : UInt32) (event : InputEvent) : InputEvent := { event with modifiers }

def newKey (keycode : UInt32) (state : KeyState) (modifiers : UInt32) : InputEvent :=
  (new .keyEvent keycode state.toRaw).withModifiers modifiers

def newKeyState (keycode : UInt32) (state : KeyState) (modifiers : UInt32) : InputEvent :=
  (new .keyStateEvent keycode state.toRaw).withModifiers modifiers

def newChar (keycode : UInt32) (state : KeyState) (modifiers : UInt32) : InputEvent :=
  (new .charEvent keycode state.toRaw).withModifiers modifiers

end InputEvent

abbrev KeyBitset : Type := Fin bitsetWordCount → UInt64

namespace KeyBitset

def new : KeyBitset := fun _ => 0

/-- The word of a key and its bit there. -/
def word (key : UInt8) : Fin bitsetWordCount := ⟨key.toNat / bitsPerWord,by
  have := key.toNat_lt
  unfold bitsPerWord bitsetWordCount
  omega⟩
def bit (key : UInt8) : UInt64 := 1 <<< UInt64.ofNat (key.toNat % bitsPerWord)

def test (key : UInt8) (words : KeyBitset) : Bool := words (word key) &&& bit key != 0
def set (key : UInt8) (words : KeyBitset) : KeyBitset := Function.update words (word key) (words (word key) ||| bit key)
def clear (key : UInt8) (words : KeyBitset) : KeyBitset := Function.update words (word key) (words (word key) &&& ~~~bit key)

end KeyBitset

structure KeyboardState where
  keyDown : KeyBitset := .new
  keyPressed : KeyBitset := .new
  keyReleased : KeyBitset := .new
  modifiers : UInt32 := 0

namespace KeyboardState

def update (key : UInt8) (state : KeyState) (modifiers : UInt32) (k : KeyboardState) : KeyboardState :=
  match state with
  | .pressed => { k with
      modifiers
      keyPressed := if k.keyDown.test key then k.keyPressed else k.keyPressed.set key
      keyDown := k.keyDown.set key }
  | .released => { k with
      modifiers
      keyDown := k.keyDown.clear key
      keyReleased := k.keyReleased.set key }

def clearTransient (k : KeyboardState) : KeyboardState := { k with keyPressed := .new, keyReleased := .new }

end KeyboardState

namespace EventBuffer

/-- Returns whether there was room. -/
def push (event : InputEvent) (b : EventBuffer) : Outcome (Bool × EventBuffer) :=
  if b.eventCount.toNat ≥ maxEventCount then .ok (false,b)
  else if h : b.writeIdx.toNat < maxEventCount then
    .ok (true,{ b with
      events := Function.update b.events ⟨_,h⟩ event
      writeIdx := nextIdx ⟨_,h⟩
      eventCount := b.eventCount + 1 })
  else .error .panic

/-- What the program calls. -/
def tryRead (b : EventBuffer) : Option InputEvent × EventBuffer :=
  if b.eventCount = 0 then (none,b)
  else if h : b.readIdx.toNat < maxEventCount then
    (some (b.events ⟨_,h⟩),{ b with readIdx := nextIdx ⟨_,h⟩, eventCount := b.eventCount - 1 })
  else (none,{ b with readIdx := 0 })

end EventBuffer

namespace EventPage

/-- A page as it is allocated. -/
def zeroed : EventPage := ⟨.new,0,KeyBitset.new⟩

/-- An event for which there is no room is dropped. -/
def push (event : InputEvent) (page : EventPage) : Outcome EventPage := do
  let (_,buffer) ← page.buffer.push event
  .ok { page with buffer }

def publishKeyboardState (keyDown : KeyBitset) (modifiers : UInt32) (page : EventPage) : EventPage :=
  { page with keyDown, modifiers }

/-- The compositor's release_held_keys. -/
def releaseHeldKeys (k : KeyboardState) (page : EventPage) : Outcome EventPage := do
  let page ← (List.range keyCount).foldlM (fun (page : EventPage) key =>
    if k.keyDown.test (UInt8.ofNat key) then page.push (.newKeyState (UInt32.ofNat key) .released 0) else .ok page) page
  .ok (page.publishKeyboardState .new 0)

end EventPage

/-- The ring holds these events, oldest first. -/
structure EventBuffer.Holds (b : EventBuffer) (q : List InputEvent) : Prop where
  count : b.eventCount.toNat = q.length
  le : q.length ≤ maxEventCount
  laid : ∃ r, b.readIdx.toNat = r % maxEventCount ∧ b.writeIdx.toNat = (r + q.length) % maxEventCount ∧
    Ring.Laid b.events r q

namespace EventBuffer.Holds
variable {b : EventBuffer} {q : List InputEvent} {event : InputEvent}

theorem new : EventBuffer.new.Holds [] := ⟨rfl,Nat.zero_le _,0,rfl,rfl,nofun⟩

/-- A push appends the event, if there is room. -/
theorem push (h : b.Holds q) (event : InputEvent) :
    ∃ r, b.push event = .ok r ∧ r.2.Holds (q ++ [event].take (maxEventCount - q.length)) := by
  obtain ⟨r,hread,hwrite,hlaid⟩ := h.laid
  have hlt : b.writeIdx.toNat < maxEventCount := hwrite ▸ Nat.mod_lt _ (by decide)
  unfold EventBuffer.push
  split_ifs with hfull
  · rw [h.count] at hfull
    refine ⟨_,rfl,?_⟩
    rw [Nat.sub_eq_zero_of_le hfull,List.take_zero,List.append_nil]
    exact h
  · rw [h.count,Nat.not_le] at hfull
    have hidx : (⟨b.writeIdx.toNat,hlt⟩ : Fin maxEventCount) = Fin.ofNat maxEventCount (r + q.length) := Fin.ext hwrite
    refine ⟨_,rfl,?_⟩
    rw [List.take_of_length_le (by simp; omega),hidx]
    refine ⟨?_,?_,r,hread,?_,?_⟩
    · rw [add_one_toNat (by rw [h.count]; exact hfull),h.count,List.length_append,List.length_singleton]
    · rw [List.length_append,List.length_singleton]
      omega
    · rw [nextIdx_toNat,List.length_append,List.length_singleton,Nat.add_assoc]
    · exact (hlaid.store hfull).append (Function.update_self ..)

/-- A read takes the oldest event. -/
theorem tryRead (h : b.Holds q) : b.tryRead.1 = q.head? ∧ b.tryRead.2.Holds q.tail := by
  obtain ⟨r,hread,hwrite,hlaid⟩ := h.laid
  have hlt : b.readIdx.toNat < maxEventCount := hread ▸ Nat.mod_lt _ (by decide)
  have hidx : (⟨b.readIdx.toNat,hlt⟩ : Fin maxEventCount) = Fin.ofNat maxEventCount r := Fin.ext hread
  cases q with
  | nil =>
    have hzero : b.eventCount = 0 := UInt32.toNat_inj.mp h.count
    rw [EventBuffer.tryRead,if_pos hzero]
    exact ⟨rfl,h⟩
  | cons e q =>
    have hpos : 0 < b.eventCount.toNat := by
      rw [h.count]
      exact Nat.succ_pos _
    have hne : b.eventCount ≠ 0 := by
      intro hzero
      rw [hzero] at hpos
      exact Nat.lt_irrefl _ hpos
    rw [EventBuffer.tryRead,if_neg hne,dif_pos hlt]
    refine ⟨?_,?_,Nat.le_of_succ_le h.le,r + 1,?_,?_,hlaid.tail⟩
    · rw [hidx,hlaid.head]
      rfl
    · rw [sub_one_toNat hpos,h.count]
      rfl
    · rw [hidx,nextIdx_toNat]
    · rw [hwrite,List.length_cons,List.tail_cons]
      congr 1
      omega

end EventBuffer.Holds

section Release
variable {k : KeyboardState} {page : EventPage} {q : List InputEvent}

theorem EventPage.push_holds (h : page.buffer.Holds q) (event : InputEvent) :
    ∃ page', page.push event = .ok page' ∧ page'.buffer.Holds (q ++ [event].take (maxEventCount - q.length)) ∧
      page'.keyDown = page.keyDown ∧ page'.modifiers = page.modifiers := by
  obtain ⟨r,hr,hholds⟩ := h.push event
  refine ⟨{ page with buffer := r.2 },?_,hholds,rfl,rfl⟩
  rw [EventPage.push,hr]
  rfl

/-- The releases of the keys that are held. -/
def KeyboardState.releases (k : KeyboardState) : List InputEvent :=
  ((List.range keyCount).filter fun key => k.keyDown.test (UInt8.ofNat key)).map fun key =>
    .newKeyState (UInt32.ofNat key) .released 0

/-- The releases are pushed as long as there is room, and no key is left down. -/
theorem EventPage.releaseHeldKeys_holds (h : page.buffer.Holds q) :
    ∃ page', page.releaseHeldKeys k = .ok page' ∧ page'.buffer.Holds (q ++ k.releases.take (maxEventCount - q.length)) ∧
      page'.keyDown = KeyBitset.new ∧ page'.modifiers = 0 := by
  have hloop : ∀ keys : List Nat, ∃ page', keys.foldlM (fun (page : EventPage) key =>
      if k.keyDown.test (UInt8.ofNat key) then page.push (.newKeyState (UInt32.ofNat key) .released 0) else .ok page) page =
        (.ok page' : Outcome EventPage) ∧ page'.buffer.Holds (q ++ ((keys.filter fun key => k.keyDown.test (UInt8.ofNat key)).map
          fun key => .newKeyState (UInt32.ofNat key) .released 0).take (maxEventCount - q.length)) := by
    intro keys
    induction keys generalizing page q with
    | nil => exact ⟨page,rfl,by simpa using h⟩
    | cons key keys ih =>
      rw [List.foldlM_cons,List.filter_cons]
      split_ifs with hheld
      · obtain ⟨page₁,hpush,hholds,_⟩ := page.push_holds h (.newKeyState (UInt32.ofNat key) .released 0)
        obtain ⟨page',hrest,hholds'⟩ := ih hholds
        refine ⟨page',by rw [hpush,ok_bind,hrest],?_⟩
        rw [List.map_cons]
        obtain hroom | hfull := Nat.lt_or_ge q.length maxEventCount
        · obtain ⟨n,hn⟩ : ∃ n, maxEventCount - q.length = n + 1 := ⟨maxEventCount - q.length - 1,by omega⟩
          have hn' : maxEventCount - (q.length + 1) = n := by omega
          rw [hn] at hholds' ⊢
          simpa [hn'] using hholds'
        · simpa [Nat.sub_eq_zero_of_le hfull] using hholds'
      · exact ih h
  obtain ⟨page',hrun,hholds⟩ := hloop (List.range keyCount)
  refine ⟨page'.publishKeyboardState .new 0,?_,hholds,rfl,rfl⟩
  rw [EventPage.releaseHeldKeys,hrun]
  rfl

end Release
end MofuOS.Events
