import MofuOS.Lib.Ring
import MofuOS.Lib.RelyGuarantee
import MofuOS.Memory.UserMem

/-! The event ring of events/event_buffer.rs and its reader in the user library, one load or
store at a time. The kernel pushes, one program reads, and the page is all they share. -/
namespace MofuOS.Events
open Lib

inductive EventType where
  | none
  | charEvent
  | keyEvent
  | mouseEvent
  | keyStateEvent
  deriving DecidableEq, Repr

structure InputEvent where
  eventType : EventType
  pad : BitVec 24
  value : UInt32
  extra : UInt32
  modifiers : UInt32
  deriving DecidableEq, Repr

namespace InputEvent

def new (eventType : EventType) (value extra : UInt32) : InputEvent := ⟨eventType,0,value,extra,0⟩

/-- The double words of an event. -/
def words : Nat := 4

/-- One double word of an event is copied over another event. -/
def copyWord (k : Nat) (source target : InputEvent) : InputEvent :=
  match k with
  | 0 => { target with eventType := source.eventType, pad := source.pad }
  | 1 => { target with value := source.value }
  | 2 => { target with extra := source.extra }
  | _ => { target with modifiers := source.modifiers }

end InputEvent

/-- Four counters and the words of the key bitset. -/
def bufferHeaderSize : Nat := 4 * 4 + 8 * 4

def maxEventCount : Nat := (Memory.pageSize - bufferHeaderSize) / 16

instance : NeZero maxEventCount := ⟨by decide⟩

/-- The modifiers and the key bitset of the header are left out: neither party's queue code reads them. -/
structure EventBuffer where
  writeIdx : UInt32
  readIdx : UInt32
  eventCount : UInt32
  events : Fin maxEventCount → InputEvent

def EventBuffer.new : EventBuffer := ⟨0,0,0,fun _ => .new .none 0 0⟩

inductive Party where
  | kernel
  | user
  deriving DecidableEq, Repr

/-- Where the kernel is in push. -/
inductive Push where
  | idle
  | loadCount (event : InputEvent)
  | loadWriteIdx (event : InputEvent)
  | storeEvent (event : InputEvent) (idx : Fin maxEventCount) (k : Nat)
  | storeWriteIdx (event : InputEvent) (idx : Fin maxEventCount)
  | addCount (event : InputEvent)
  | panicked
  deriving DecidableEq

/-- Where the program is in try_read. -/
inductive TryRead where
  | idle
  | loadCount
  | loadReadIdx
  | resetReadIdx
  | loadEvent (idx : Fin maxEventCount) (k : Nat) (event : InputEvent)
  | storeReadIdx (idx : Fin maxEventCount) (event : InputEvent)
  | subCount (event : InputEvent)
  deriving DecidableEq

/-- The page, and how the calls on it have ended so far, in order. -/
structure Channel where
  buffer : EventBuffer
  answers : List (Answer InputEvent)

def Channel.answer (c : Channel) (a : Answer InputEvent) : Channel := { c with answers := c.answers ++ [a] }

/-- (idx + 1) % MAX_EVENT_COUNT. The index was checked, so that nothing wraps before. -/
def nextIdx (idx : Fin maxEventCount) : UInt32 := UInt32.ofNat ((idx.val + 1) % maxEventCount)

/-- The next load or store of push. A call starts with the event it is given. -/
def push (event : InputEvent) (p : Push) (c : Channel) : Push × Channel :=
  match p with
  | .idle => (.loadCount event,c)
  | .loadCount e => if c.buffer.eventCount.toNat ≥ maxEventCount then (.idle,c.answer (.full e)) else (.loadWriteIdx e,c)
  | .loadWriteIdx e =>
    if h : c.buffer.writeIdx.toNat < maxEventCount then (.storeEvent e ⟨_,h⟩ 0,c) else (.panicked,c)
  | .storeEvent e idx k =>
    -- write_volatile, a double word at a time
    (if k + 1 < InputEvent.words then .storeEvent e idx (k + 1) else .storeWriteIdx e idx,
      { c with buffer.events := Function.update c.buffer.events idx (.copyWord k e (c.buffer.events idx)) })
  | .storeWriteIdx e idx => (.addCount e,{ c with buffer.writeIdx := nextIdx idx })
  | .addCount e => (.idle,Channel.answer { c with buffer.eventCount := c.buffer.eventCount + 1 } (.pushed e))
  | .panicked => (.panicked,c)

/-- The next load or store of try_read. -/
def tryRead (p : TryRead) (c : Channel) : TryRead × Channel :=
  match p with
  | .idle => (.loadCount,c)
  | .loadCount => if c.buffer.eventCount = 0 then (.idle,c.answer .empty) else (.loadReadIdx,c)
  | .loadReadIdx =>
    if h : c.buffer.readIdx.toNat < maxEventCount then (.loadEvent ⟨_,h⟩ 0 (.new .none 0 0),c) else (.resetReadIdx,c)
  | .resetReadIdx => (.idle,Channel.answer { c with buffer.readIdx := 0 } .empty)
  | .loadEvent idx k event =>
    let event := InputEvent.copyWord k (c.buffer.events idx) event
    (if k + 1 < InputEvent.words then .loadEvent idx (k + 1) event else .storeReadIdx idx event,c)
  | .storeReadIdx idx event => (.subCount event,{ c with buffer.readIdx := nextIdx idx })
  | .subCount event => (.idle,Channel.answer { c with buffer.eventCount := c.buffer.eventCount - 1 } (.taken event))

abbrev Caller : Party → Type
  | .kernel => Push
  | .user => TryRead

/-- One party makes its next load or store. The event is the one the kernel pushes when it starts a call. -/
def move : (a : Party) → InputEvent → Caller a → Channel → Option (Caller a × Channel)
  | .kernel, event, p, c => some (push event p c)
  | .user, _, p, c => some (tryRead p c)

/-- Both parties before their first call on a zeroed page. -/
def start : Team Caller Channel where
  agents
    | .kernel => Push.idle
    | .user => TryRead.idle
  shared := ⟨.new,[]⟩

/-- Loads and stores of the two parties in any order. -/
abbrev interleave (acts : List (Party × InputEvent)) (team : Team Caller Channel) : Option (Team Caller Channel) :=
  steps (Team.step move) acts team

end MofuOS.Events
