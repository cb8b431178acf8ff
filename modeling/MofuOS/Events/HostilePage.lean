import MofuOS.Events.EventBuffer

/-! The kernel's calls on an event page whose program writes to it whatever it likes, whenever it
likes. Every load and store of the kernel finds a page of the program's choice. -/
namespace MofuOS.Events
open Lib

/-- KEY_COUNT / BITS_PER_WORD. -/
def bitsetWordCount : Nat := 256 / 64

/-- The whole page: the ring, and the keyboard state in its header. -/
structure EventPage where
  buffer : EventBuffer
  modifiers : UInt32
  keyDown : Fin bitsetWordCount → UInt64

inductive KernelCall where
  | push (event : InputEvent)
  | isEmpty
  | publishKeyboardState (words : Fin bitsetWordCount → UInt64) (modifiers : UInt32)

/-- Where the kernel is in a call on the page. -/
inductive KernelPc where
  | idle
  | push (p : Push)
  | isEmpty
  | storeKeyDown (words : Fin bitsetWordCount → UInt64) (modifiers : UInt32) (k : Fin bitsetWordCount)
  | storeModifiers (modifiers : UInt32)

inductive KernelAnswer where
  | pushed (a : Answer InputEvent)
  | empty (b : Bool)
  | published

/-- The kernel, the page as it last saw it, and how its calls have ended. -/
structure KernelSide where
  pc : KernelPc
  page : EventPage
  answers : List KernelAnswer

namespace KernelSide

def call : KernelCall → KernelPc
  | .push event => .push (.loadCount event)
  | .isEmpty => .isEmpty
  | .publishKeyboardState words modifiers => .storeKeyDown words modifiers ⟨0,by decide⟩

/-- A push that is idle again has returned. -/
def ofPush : Push → KernelPc
  | .idle => .idle
  | p => .push p

/-- The next load or store of push. -/
def accessPush (p : Push) (s : KernelSide) : KernelSide :=
  let (p',c) := Events.push (.new .none 0 0) p ⟨s.page.buffer,[]⟩
  { pc := ofPush p'
    page := { s.page with buffer := c.buffer }
    answers := s.answers ++ c.answers.map .pushed }

/-- The next load or store of the kernel, or its next call. -/
def access (next : KernelCall) (s : KernelSide) : KernelSide :=
  match s.pc with
  | .idle => { s with pc := call next }
  | .push p => accessPush p s
  | .isEmpty => { s with pc := .idle, answers := s.answers ++ [.empty (s.page.buffer.eventCount = 0)] }
  | .storeKeyDown words modifiers k =>
    { s with
      pc := if h : k.val + 1 < bitsetWordCount then .storeKeyDown words modifiers ⟨_,h⟩ else .storeModifiers modifiers
      page := { s.page with keyDown := Function.update s.page.keyDown k (words k) } }
  | .storeModifiers modifiers =>
    { s with pc := .idle, page := { s.page with modifiers := modifiers }, answers := s.answers ++ [.published] }

/-- The program has made the page what it likes, and the kernel goes on. -/
def step (act : KernelCall × EventPage) (s : KernelSide) : Option KernelSide := some (access act.1 { s with page := act.2 })

/-- Between two calls. -/
def idle (page : EventPage) : KernelSide := ⟨.idle,page,[]⟩

/-- The bytes of the page that the next access writes: their offset and their number. -/
def store : KernelPc → Option (Nat × Nat)
  | .push (.storeEvent _ idx k) => some (bufferHeaderSize + 16 * idx.val + 4 * k,4)
  | .push (.storeWriteIdx _ _) => some (0,4)
  | .push (.addCount _) => some (8,4)
  | .storeKeyDown _ _ k => some (16 + 8 * k.val,8)
  | .storeModifiers _ => some (12,4)
  | _ => none

/-- The kernel has not panicked, its arithmetic stays in range, and the next access writes into the
header or into the array of events. -/
structure Harmless (s : KernelSide) : Prop where
  running : s.pc ≠ .push .panicked
  unwrapped : ∀ e idx, s.pc = .push (.storeWriteIdx e idx) → idx.val + 1 < UInt32.size
  inside : ∀ offset length, store s.pc = some (offset,length) → offset + length ≤ bufferHeaderSize ∨
    bufferHeaderSize ≤ offset ∧ offset + length ≤ bufferHeaderSize + 16 * maxEventCount

/-- A push that loads the write index finds one of the array. -/
def indexed (act : KernelCall × EventPage) (s : KernelSide) : Prop :=
  ∀ e, s.pc = .push (.loadWriteIdx e) → act.2.buffer.writeIdx.toNat < maxEventCount

/-- The words of an event are stored one after the other. -/
def InCall (s : KernelSide) : Prop :=
  s.pc ≠ .push .panicked ∧ ∀ e idx k, s.pc = .push (.storeEvent e idx k) → k < InputEvent.words

theorem InCall.harmless {s : KernelSide} (h : InCall s) : Harmless s := by
  obtain ⟨pc,page,answers⟩ := s
  refine ⟨h.1,fun e idx hpc => ?_,fun offset length hstore => ?_⟩
  · exact Nat.lt_of_le_of_lt idx.isLt (by decide)
  · cases pc with
    | push p =>
      cases p with
      | storeEvent e idx k =>
        have hk : k < 4 := h.2 e idx k rfl
        cases hstore
        have := idx.isLt
        exact .inr ⟨by omega,by omega⟩
      | storeWriteIdx =>
        cases hstore
        exact .inl (by decide)
      | addCount =>
        cases hstore
        exact .inl (by decide)
      | _ => cases hstore
    | storeKeyDown words modifiers k =>
      cases hstore
      have hk : k.val < 4 := k.isLt
      exact .inl (by simp only [bufferHeaderSize]; omega)
    | storeModifiers =>
      cases hstore
      exact .inl (by decide)
    | _ => cases hstore

private theorem inCall_ofPush {p : Push} {page : EventPage} {answers : List KernelAnswer} (hp : p ≠ .panicked)
    (hk : ∀ e idx k, p = .storeEvent e idx k → k < InputEvent.words) : InCall ⟨ofPush p,page,answers⟩ := by
  cases p with
  | panicked => exact absurd rfl hp
  | storeEvent e idx k =>
    refine ⟨nofun,fun e' idx' k' h => ?_⟩
    cases h
    exact hk e idx k rfl
  | _ => exact ⟨nofun,nofun⟩

/-- What push does next, from an index that was checked. -/
private theorem push_next {p : Push} {event : InputEvent} {c : Channel}
    (hidx : ∀ e, p = .loadWriteIdx e → c.buffer.writeIdx.toNat < maxEventCount) (hp : p ≠ .panicked) :
    (Events.push event p c).1 ≠ .panicked ∧
      ∀ e idx k, (Events.push event p c).1 = .storeEvent e idx k → k < InputEvent.words := by
  cases p with
  | panicked => exact absurd rfl hp
  | loadCount e =>
    simp only [Events.push]
    split_ifs <;> simp
  | loadWriteIdx e =>
    simp only [Events.push,dif_pos (hidx e rfl)]
    refine ⟨by simp,fun e' idx k h => ?_⟩
    cases h
    decide
  | storeEvent e idx k =>
    simp only [Events.push]
    split_ifs with hlt
    · refine ⟨by simp,fun e' idx' k' h => ?_⟩
      cases h
      exact hlt
    · simp
  | _ => simp [Events.push]

theorem InCall.step {s : KernelSide} (h : InCall s) (act : KernelCall × EventPage) :
    ∃ t, step act s = some t ∧ (indexed act s → InCall t) ∧ (Harmless t → indexed act s) := by
  obtain ⟨pc,page,answers⟩ := s
  refine ⟨_,rfl,fun hidx => ?_,fun ht e hpc => ?_⟩
  · cases pc with
    | push p =>
      obtain ⟨hrunning,hword⟩ := @push_next p (.new .none 0 0) ⟨act.2.buffer,[]⟩ (fun e he => hidx e (congrArg _ he))
        fun hp => h.1 (congrArg _ hp)
      exact inCall_ofPush hrunning hword
    | idle =>
      obtain ⟨call,page'⟩ := act
      cases call <;> exact ⟨nofun,nofun⟩
    | storeKeyDown words modifiers k =>
      simp only [access]
      split_ifs <;> exact ⟨nofun,nofun⟩
    | _ => exact ⟨nofun,nofun⟩
  · cases hpc
    by_contra hout
    refine ht.running ?_
    simp only [access,accessPush,Events.push,dif_neg hout]
    rfl

/-- A run of kernel calls over a page that the program changes before every access is harmless all along
exactly when every push that found room loads an index of the array. -/
theorem run_harmless_iff {acts : List (KernelCall × EventPage)} {page : EventPage} :
    (∀ before s, before <+: acts → steps step before (idle page) = some s → Harmless s) ↔
      stepsMeet step indexed acts (idle page) :=
  steps_all_iff (fun _ => InCall.harmless) (fun act _ h => h.step act) ⟨nofun,nofun⟩

/-- A page with room, and with its write index behind the array. -/
def badIndex : EventPage := ⟨{ EventBuffer.new with writeIdx := 253 },0,fun _ => 0⟩

/-- A program sets the write index of its own page to the size of the array, and the next key that it is sent
brings the kernel down. -/
theorem bad_index_panics : ¬ ∀ acts s, steps step acts (idle badIndex) = some s → Harmless s := by
  intro h
  exact (h (List.replicate 3 (.push (.new .charEvent 97 0),badIndex)) _ rfl).running rfl

end KernelSide
end MofuOS.Events
