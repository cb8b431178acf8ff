import MofuOS.Process.KernelStacks
import MofuOS.Lib.WaitsFor

/-! Spin locks that keep interrupts off while they are held, on cores that are interrupted and switch contexts. -/
namespace MofuOS.Util
open Lib Process Process.Stacks

/-- The mutex inside, of which lock makes one try after the other. -/
class InnerMutex (M : Type) where
  new : M
  isLocked : M → Bool
  tryLock : M → Option M
  unlock : M → M
  /-- A new mutex can be taken. -/
  isLocked_new : isLocked new = false
  /-- A try fails on a taken mutex and takes any other. -/
  tryLock_eq_none : ∀ m, tryLock m = none ↔ isLocked m = true
  isLocked_of_tryLock : ∀ m m', tryLock m = some m' → isLocked m' = true
  /-- The end of a guard frees the mutex. -/
  isLocked_unlock : ∀ m, isLocked (unlock m) = false

variable {ι M : Type} [DecidableEq ι] [InnerMutex M]

structure IrqMutexGuard (ι : Type) where
  lock : ι
  interruptsWereEnabled : Bool

/-- Where code is in the functions of a lock. -/
inductive Doing (ι : Type) where
  | running
  /-- In lock, with interrupts off. -/
  | spinning (guard : IrqMutexGuard ι)
  /-- In drop, behind the unlock. -/
  | unlocked (interruptsWereEnabled : Bool)

/-- The code of a task, of a scheduler or of a handler, with its guards, the last first. -/
structure Frame (ι : Type) where
  guards : List (IrqMutexGuard ι)
  doing : Doing ι

namespace Frame

def new : Frame ι := ⟨[],.running⟩

def isRunning (f : Frame ι) : Bool :=
  match f.doing with
  | .running => true
  | _ => false

def locks (f : Frame ι) : List ι := f.guards.map IrqMutexGuard.lock

/-- The lock that the code spins for in vain. -/
def blockedOn (f : Frame ι) (locked : ι → Bool) : Option ι :=
  match f.doing with
  | .spinning guard => if locked guard.lock = true then some guard.lock else none
  | _ => none

/-- The interrupt flags that the code has read and not set again, the last first. -/
def saved (f : Frame ι) : List Bool :=
  (match f.doing with
    | .running => []
    | .spinning guard => [guard.interruptsWereEnabled]
    | .unlocked were => [were]) ++ f.guards.map IrqMutexGuard.interruptsWereEnabled

end Frame

/-- The code of a context, and what it has interrupted. -/
structure Code (ι : Type) where
  frame : Frame ι
  interrupted : List (Frame ι)

def Code.frames (c : Code ι) : List (Frame ι) := c.frame :: c.interrupted

def Code.locks (c : Code ι) : List ι := c.frames.flatMap Frame.locks

structure Locks (ι M : Type) where
  inner : ι → M
  code : Context → Code ι
  on : Core → Context
  interruptsEnabled : Core → Bool

namespace Locks
variable (s : Locks ι M)

def locked (l : ι) : Bool := InnerMutex.isLocked (s.inner l)

def frame (core : Core) : Frame ι := (s.code (s.on core)).frame

def setCode (core : Core) (c : Code ι) : Locks ι M := { s with code := Function.update s.code (s.on core) c }

def setFrame (core : Core) (f : Frame ι) : Locks ι M := s.setCode core { s.code (s.on core) with frame := f }

def setInterrupts (core : Core) (enabled : Bool) : Locks ι M :=
  { s with interruptsEnabled := Function.update s.interruptsEnabled core enabled }

def setInner (l : ι) (m : M) : Locks ι M := { s with inner := Function.update s.inner l m }

end Locks

inductive LockAct (ι : Type) where
  /-- IrqMutex::lock up to the lock of the inner mutex. -/
  | lock (core : Core) (l : ι)
  /-- One try of the inner mutex. -/
  | spin (core : Core)
  | tryLock (core : Core) (l : ι)
  /-- drop of one of the guards, up to the unlock. -/
  | unlock (core : Core) (i : Nat)
  /-- The rest of drop. -/
  | restore (core : Core)
  | interrupt (core : Core)
  | iret (core : Core)
  | enable (core : Core)
  | disable (core : Core)
  /-- switch_context -/
  | switch (core : Core) (target : Context)

def Locks.step : LockAct ι → Locks ι M → Option (Locks ι M)
  | .lock core l,s =>
    if (s.frame core).isRunning = true then
      some ((s.setFrame core { s.frame core with doing := .spinning ⟨l,s.interruptsEnabled core⟩ }).setInterrupts core false)
    else none
  | .spin core,s =>
    match (s.frame core).doing with
    | .spinning guard =>
      match InnerMutex.tryLock (s.inner guard.lock) with
      | none => some s
      | some m => some ((s.setFrame core ⟨guard :: (s.frame core).guards,.running⟩).setInner guard.lock m)
    | _ => none
  | .tryLock core l,s =>
    if (s.frame core).isRunning = true then
      match InnerMutex.tryLock (s.inner l) with
      | none => some s
      | some m => some (((s.setFrame core ⟨⟨l,s.interruptsEnabled core⟩ :: (s.frame core).guards,.running⟩).setInterrupts core
        false).setInner l m)
    else none
  | .unlock core i,s =>
    if (s.frame core).isRunning = true then
      (s.frame core).guards[i]?.map fun guard =>
        (s.setFrame core ⟨(s.frame core).guards.eraseIdx i,.unlocked guard.interruptsWereEnabled⟩).setInner guard.lock
          (InnerMutex.unlock (s.inner guard.lock))
    else none
  | .restore core,s =>
    match (s.frame core).doing with
    | .unlocked were =>
      some ((s.setFrame core { s.frame core with doing := .running }).setInterrupts core (s.interruptsEnabled core || were))
    | _ => none
  | .interrupt core,s =>
    if s.interruptsEnabled core = true then
      some ((s.setCode core ⟨.new,(s.code (s.on core)).frames⟩).setInterrupts core false)
    else none
  | .iret core,s =>
    match (s.code (s.on core)).interrupted with
    | f :: rest =>
      if (s.frame core).isRunning = true ∧ (s.frame core).guards.isEmpty = true then
        some ((s.setCode core ⟨f,rest⟩).setInterrupts core true)
      else none
    | [] => none
  | .enable core,s => if (s.frame core).isRunning = true then some (s.setInterrupts core true) else none
  | .disable core,s => if (s.frame core).isRunning = true then some (s.setInterrupts core false) else none
  | .switch core target,s =>
    if (s.frame core).isRunning = true ∧ s.interruptsEnabled core = false ∧ (∀ k, s.on k ≠ target) then
      some { s with on := Function.update s.on core target }
    else none

/-- How the kernel uses its locks: guards go out of scope in order, and code that holds one neither enables interrupts
nor switches. -/
def Scoped : LockAct ι → Locks ι M → Prop
  | .unlock _ i,_ => i = 0
  | .enable core,s => (s.frame core).guards = []
  | .switch core _,s => (s.frame core).guards = []
  | _,_ => True

/-- Code waits only for locks that come behind those it holds. -/
def Ordered (rank : ι → Nat) : LockAct ι → Locks ι M → Prop
  | .lock core l,s => ∀ l' ∈ (s.frame core).locks, rank l' < rank l
  | _,_ => True

instance (rank : ι → Nat) (act : LockAct ι) (s : Locks ι M) : Decidable (Ordered rank act s) :=
  match act with
  | .lock core l => inferInstanceAs (Decidable (∀ l' ∈ (s.frame core).locks, rank l' < rank l))
  | .spin _ | .tryLock _ _ | .unlock _ _ | .restore _ | .interrupt _ | .iret _ | .enable _ | .disable _ | .switch _ _ =>
    inferInstanceAs (Decidable True)

/-- A system whose contexts are at their beginning. -/
def Locks.initial (on : Core → Context) : Locks ι M := ⟨fun _ => InnerMutex.new,fun _ => ⟨.new,[]⟩,on,fun _ => false⟩

variable {s t : Locks ι M} {m : M} {core : Core} {c : Context} {code : Code ι} {f : Frame ι} {l : ι} {act : LockAct ι} {acts : List (LockAct ι)}
  {rank : ι → Nat} {e b : Bool} {saved : List Bool} {on : Core → Context}

namespace Frame

omit [DecidableEq ι] in
theorem isRunning_iff : f.isRunning = true ↔ f.doing = .running := by
  rw [isRunning]
  cases f.doing <;> simp

omit [DecidableEq ι] in
theorem saved_eq_nil_iff : f.saved = [] ↔ f.guards = [] ∧ f.isRunning = true := by
  rw [saved,isRunning,List.append_eq_nil_iff,List.map_eq_nil_iff,and_comm]
  cases f.doing <;> simp

omit [DecidableEq ι] in
theorem locks_ne_nil (h : l ∈ f.locks) : f.guards ≠ [] := by
  intro hnil
  rw [locks,hnil] at h
  cases h

omit [DecidableEq ι] in
theorem blockedOn_eq_some {locked : ι → Bool} (h : f.blockedOn locked = some l) :
    (∃ guard, f.doing = .spinning guard ∧ guard.lock = l) ∧ locked l = true := by
  rw [blockedOn] at h
  split at h
  next guard hdoing =>
    split_ifs at h with hlocked
    cases h
    exact ⟨⟨guard,hdoing,rfl⟩,hlocked⟩
  · cases h

end Frame

namespace Locks

theorem locked_update (h : t.inner = Function.update s.inner l m) :
    t.locked = Function.update s.locked l (InnerMutex.isLocked m) := by
  funext l'
  rw [locked,h]
  by_cases heq : l' = l
  · rw [heq,Function.update_self,Function.update_self]
  · rw [Function.update_of_ne heq,Function.update_of_ne heq]
    rfl

omit [DecidableEq ι] in
/-- A try that succeeds finds the lock free. -/
theorem free_of_tryLock (htry : InnerMutex.tryLock (s.inner l) = some m) : s.locked l ≠ true := by
  intro hlocked
  rw [(InnerMutex.tryLock_eq_none _).mpr hlocked] at htry
  cases htry

theorem locked_of_tryLock (htry : InnerMutex.tryLock (s.inner l) = some m) (h : t.inner = Function.update s.inner l m) :
    t.locked = Function.update s.locked l true := by
  rw [locked_update h,InnerMutex.isLocked_of_tryLock _ _ htry]

end Locks

/-- No two guards are of one lock, and the locks that are taken are those of the guards. -/
structure Exclusive (s : Locks ι M) : Prop where
  nodup : ∀ c, (s.code c).locks.Nodup
  apart : ∀ c c', c ≠ c' → ∀ l ∈ (s.code c).locks, l ∉ (s.code c').locks
  locked : ∀ l, s.locked l = true ↔ ∃ c, l ∈ (s.code c).locks

namespace Exclusive

omit [DecidableEq ι] in
/-- The locks of one context become those of code, all of them its own or free. -/
theorem update (h : Exclusive s) (hcode : t.code = Function.update s.code c code) (hnodup : code.locks.Nodup)
    (hapart : ∀ l ∈ code.locks, l ∈ (s.code c).locks ∨ s.locked l = false)
    (hlocked : ∀ l, t.locked l = true ↔ l ∈ code.locks ∨ s.locked l = true ∧ l ∉ (s.code c).locks) : Exclusive t := by
  have hself : t.code c = code := by rw [hcode,Function.update_self]
  have hother : ∀ c', c' ≠ c → t.code c' = s.code c' := fun c' hc' => by rw [hcode,Function.update_of_ne hc']
  have hfree : ∀ c' l, c' ≠ c → l ∈ code.locks → l ∉ (s.code c').locks := by
    intro c' l hc' hl hl'
    rcases hapart l hl with hown | hno
    · exact h.apart c c' hc'.symm l hown hl'
    · rw [(h.locked l).mpr ⟨c',hl'⟩] at hno
      cases hno
  refine ⟨fun c' => ?_,fun c' c'' hne l hl hl' => ?_,fun l => (hlocked l).trans ⟨fun hl => ?_,fun ⟨c',hl⟩ => ?_⟩⟩
  · by_cases hc : c' = c
    · rw [hc,hself]
      exact hnodup
    · rw [hother c' hc]
      exact h.nodup c'
  · by_cases hc : c' = c
    · rw [hc,hself] at hl
      rw [hother c'' (fun heq => hne (hc.trans heq.symm))] at hl'
      exact hfree c'' l (fun heq => hne (hc.trans heq.symm)) hl hl'
    · rw [hother c' hc] at hl
      by_cases hc' : c'' = c
      · rw [hc',hself] at hl'
        exact hfree c' l hc hl' hl
      · rw [hother c'' hc'] at hl'
        exact h.apart c' c'' hne l hl hl'
  · rcases hl with hl | ⟨hl,hno⟩
    · exact ⟨c,hself.symm ▸ hl⟩
    · obtain ⟨c',hl⟩ := (h.locked l).mp hl
      have hc : c' ≠ c := fun heq => hno (heq ▸ hl)
      exact ⟨c',(hother c' hc).symm ▸ hl⟩
  · by_cases hc : c' = c
    · rw [hc,hself] at hl
      exact .inl hl
    · rw [hother c' hc] at hl
      exact .inr ⟨(h.locked l).mpr ⟨c',hl⟩,h.apart c' c hc l hl⟩

theorem keep (h : Exclusive s) (hcode : t.code = Function.update s.code c code) (hlocked : t.locked = s.locked)
    (hsame : code.locks = (s.code c).locks) : Exclusive t := by
  refine h.update hcode (hsame ▸ h.nodup c) (fun l hl => .inl (hsame ▸ hl)) fun l => ?_
  rw [hlocked,hsame]
  refine ⟨fun hl => ?_,fun hl => hl.elim (fun hl => (h.locked l).mpr ⟨c,hl⟩) And.left⟩
  by_cases hmem : l ∈ (s.code c).locks
  · exact .inl hmem
  · exact .inr ⟨hl,hmem⟩

theorem acquire (h : Exclusive s) (hfree : s.locked l ≠ true) (hcode : t.code = Function.update s.code c code)
    (hlocked : t.locked = Function.update s.locked l true) (hnew : code.locks = l :: (s.code c).locks) : Exclusive t := by
  have hno : l ∉ (s.code c).locks := fun hl => hfree ((h.locked l).mpr ⟨c,hl⟩)
  refine h.update hcode (hnew ▸ List.nodup_cons.mpr ⟨hno,h.nodup c⟩) (fun l' hl => ?_) fun l' => ?_
  · rw [hnew] at hl
    rcases List.mem_cons.mp hl with rfl | hl
    · exact .inr (Bool.not_eq_true _ ▸ hfree)
    · exact .inl hl
  · rw [hlocked,hnew,List.mem_cons]
    by_cases heq : l' = l
    · rw [heq,Function.update_self]
      exact ⟨fun _ => .inl (.inl rfl),fun _ => rfl⟩
    · rw [Function.update_of_ne heq]
      by_cases hmem : l' ∈ (s.code c).locks
      · exact ⟨fun _ => .inl (.inr hmem),fun _ => (h.locked l').mpr ⟨c,hmem⟩⟩
      · simp [heq,hmem]

theorem release (h : Exclusive s) (hcode : t.code = Function.update s.code c code)
    (hlocked : t.locked = Function.update s.locked l false) (hold : (s.code c).locks.Perm (l :: code.locks)) : Exclusive t := by
  obtain ⟨hno,hnodup⟩ := List.nodup_cons.mp (hold.nodup_iff.mp (h.nodup c))
  refine h.update hcode hnodup (fun l' hl => .inl (hold.mem_iff.mpr (List.mem_cons_of_mem _ hl))) fun l' => ?_
  rw [hlocked,hold.mem_iff,List.mem_cons]
  by_cases heq : l' = l
  · subst heq
    rw [Function.update_self]
    simp [hno]
  · rw [Function.update_of_ne heq]
    by_cases hmem : l' ∈ code.locks
    · have hl' := (h.locked l').mpr ⟨c,hold.mem_iff.mpr (List.mem_cons_of_mem _ hmem)⟩
      exact ⟨fun _ => .inl hmem,fun _ => hl'⟩
    · simp [heq,hmem]

end Exclusive

omit [DecidableEq ι] in
theorem perm_eraseIdx {gs : List (IrqMutexGuard ι)} {g : IrqMutexGuard ι} {i : Nat} (h : gs[i]? = some g) :
    gs.Perm (g :: gs.eraseIdx i) := by
  obtain ⟨hlt,rfl⟩ := List.getElem?_eq_some_iff.mp h
  exact (List.getElem_cons_eraseIdx_perm hlt).symm

theorem step_exclusive (hs : Exclusive s) (h : Locks.step act s = some t) : Exclusive t := by
  cases act with
  | lock core l =>
    rw [Locks.step] at h
    split_ifs at h
    cases h
    exact hs.keep rfl rfl rfl
  | spin core =>
    rw [Locks.step] at h
    split at h
    next guard _ =>
      cases htry : InnerMutex.tryLock (s.inner guard.lock) with
      | none =>
        rw [htry] at h
        cases h
        exact hs
      | some m =>
        rw [htry] at h
        cases h
        exact hs.acquire (Locks.free_of_tryLock htry) rfl (Locks.locked_of_tryLock htry rfl) rfl
    · cases h
  | tryLock core l =>
    rw [Locks.step] at h
    split_ifs at h
    cases htry : InnerMutex.tryLock (s.inner l) with
    | none =>
      rw [htry] at h
      cases h
      exact hs
    | some m =>
      rw [htry] at h
      cases h
      exact hs.acquire (Locks.free_of_tryLock htry) rfl (Locks.locked_of_tryLock htry rfl) rfl
  | unlock core i =>
    rw [Locks.step] at h
    split_ifs at h
    obtain ⟨g,hg,rfl⟩ := Option.map_eq_some_iff.mp h
    refine hs.release rfl ?_ (((perm_eraseIdx hg).map _).append_right _)
    rw [Locks.locked_update (s := s) rfl,InnerMutex.isLocked_unlock]
  | restore core =>
    rw [Locks.step] at h
    split at h
    · cases h
      exact hs.keep rfl rfl rfl
    · cases h
  | interrupt core =>
    rw [Locks.step] at h
    split_ifs at h
    cases h
    exact hs.keep rfl rfl rfl
  | iret core =>
    rw [Locks.step] at h
    split at h
    next f rest hrest =>
      split_ifs at h with hidle
      cases h
      have hnil : (s.frame core).locks = [] := congrArg (List.map _) (List.isEmpty_iff.mp hidle.2)
      have hlocks : (s.code (s.on core)).locks = (s.frame core).locks ++ (f :: rest).flatMap Frame.locks := by
        rw [← hrest]
        rfl
      refine hs.keep rfl rfl (Eq.symm ?_)
      rw [hlocks,hnil]
      rfl
    · cases h
  | enable core =>
    rw [Locks.step] at h
    split_ifs at h
    cases h
    exact ⟨hs.nodup,hs.apart,hs.locked⟩
  | disable core =>
    rw [Locks.step] at h
    split_ifs at h
    cases h
    exact ⟨hs.nodup,hs.apart,hs.locked⟩
  | switch core target =>
    rw [Locks.step] at h
    split_ifs at h
    cases h
    exact ⟨hs.nodup,hs.apart,hs.locked⟩

/-- The flags that code has saved are all off but for the one it came with, and interrupts are off until that is set. -/
def Held (e : Bool) (saved : List Bool) : Prop := (saved ≠ [] → e = false) ∧ ∀ b ∈ saved.dropLast, b = false

theorem Held.push (h : Held e saved) : Held false (e :: saved) := by
  refine ⟨fun _ => rfl,?_⟩
  cases saved with
  | nil => exact fun b hb => by cases hb
  | cons b' saved =>
    rw [List.dropLast_cons_of_ne_nil (List.cons_ne_nil _ _)]
    intro b hb
    rcases List.mem_cons.mp hb with rfl | hb
    · exact h.1 (List.cons_ne_nil _ _)
    · exact h.2 b hb

theorem Held.nil : Held e [] := ⟨fun hno => absurd rfl hno,fun b hb => by cases hb⟩

theorem Held.pop (h : Held e (b :: saved)) : Held (e || b) saved := by
  have he := h.1 (List.cons_ne_nil _ _)
  cases saved with
  | nil => exact Held.nil
  | cons b' saved =>
    have hall := h.2
    rw [List.dropLast_cons_of_ne_nil (List.cons_ne_nil _ _)] at hall
    rw [he,hall b List.mem_cons_self]
    exact ⟨fun _ => rfl,fun b hb => hall b (List.mem_cons_of_mem _ hb)⟩

/-- Code that has saved flags is what a core runs, with interrupts off. -/
structure Shielded (s : Locks ι M) : Prop where
  interrupted : ∀ c, ∀ f ∈ (s.code c).interrupted, f.saved = []
  parked : ∀ c, (∀ core, s.on core ≠ c) → (s.code c).frame.saved = []
  once : ∀ k k', s.on k = s.on k' → k = k'
  held : ∀ core, Held (s.interruptsEnabled core) (s.frame core).saved

omit [DecidableEq ι] [InnerMutex M] in
/-- A core goes on with its context. -/
theorem Shielded.goesOn (h : Shielded s) (hcode : t.code = Function.update s.code (s.on core) code) (hon : t.on = s.on)
    (hother : ∀ k, k ≠ core → t.interruptsEnabled k = s.interruptsEnabled k) (hint : ∀ f ∈ code.interrupted, f.saved = [])
    (hheld : Held (t.interruptsEnabled core) code.frame.saved) : Shielded t := by
  have hself : t.code (s.on core) = code := by rw [hcode,Function.update_self]
  have hrest : ∀ c, c ≠ s.on core → t.code c = s.code c := fun c hc => by rw [hcode,Function.update_of_ne hc]
  refine ⟨fun c => ?_,fun c hc => ?_,hon ▸ h.once,fun k => ?_⟩
  · by_cases hc : c = s.on core
    · rw [hc,hself]
      exact hint
    · rw [hrest c hc]
      exact h.interrupted c
  · rw [hon] at hc
    rw [hrest c (hc core).symm]
    exact h.parked c hc
  · rw [Locks.frame,hon]
    by_cases hk : k = core
    · rw [hk,hself]
      exact hheld
    · rw [hrest _ (fun heq => hk (h.once k core heq)),hother k hk]
      exact h.held k

omit [DecidableEq ι] [InnerMutex M] in
/-- A core leaves code that has saved no flags for a context that no core runs. -/
theorem Shielded.switched {target : Context} (hs : Shielded s) (hleft : (s.frame core).saved = []) (hfree : ∀ k, s.on k ≠ target) :
    Shielded { s with on := Function.update s.on core target } := by
  have hne : ∀ k, k ≠ core → Function.update s.on core target k = s.on k := fun k hk => Function.update_of_ne hk ..
  refine ⟨hs.interrupted,fun c hparked => ?_,fun k k' heq => ?_,fun k => ?_⟩
  · by_cases hcore : c = s.on core
    · rw [hcore]
      exact hleft
    · refine hs.parked c fun k hk => ?_
      by_cases hkc : k = core
      · exact hcore (hkc ▸ hk.symm)
      · exact hparked k ((hne k hkc).trans hk)
  · have heq : Function.update s.on core target k = Function.update s.on core target k' := heq
    by_cases hk : k = core
    · by_cases hk' : k' = core
      · rw [hk,hk']
      · rw [hk,Function.update_self,hne k' hk'] at heq
        exact absurd heq.symm (hfree k')
    · by_cases hk' : k' = core
      · rw [hk',Function.update_self,hne k hk] at heq
        exact absurd heq (hfree k)
      · rw [hne k hk,hne k' hk'] at heq
        exact hs.once k k' heq
  · show Held (s.interruptsEnabled k) (s.code (Function.update s.on core target k)).frame.saved
    by_cases hk : k = core
    · rw [hk,Function.update_self,hs.parked target hfree]
      exact Held.nil
    · rw [hne k hk]
      exact hs.held k

omit [DecidableEq ι] in
/-- The flags that running code has saved are those of its guards. -/
theorem saved_of_running (h : f.isRunning = true) : f.saved = f.guards.map IrqMutexGuard.interruptsWereEnabled := by
  rw [Frame.saved,Frame.isRunning_iff.mp h,List.nil_append]

theorem step_shielded (hs : Shielded s) (hc : Scoped act s) (h : Locks.step act s = some t) : Shielded t := by
  cases act with
  | lock core l =>
    rw [Locks.step] at h
    split_ifs at h with hrun
    cases h
    refine hs.goesOn rfl rfl (fun k hk => Function.update_of_ne hk ..) (hs.interrupted _) ?_
    have hheld := (hs.held core).push
    rw [saved_of_running hrun] at hheld
    simpa [Locks.setInterrupts,Frame.saved] using hheld
  | spin core =>
    rw [Locks.step] at h
    split at h
    next guard hdoing =>
      cases htry : InnerMutex.tryLock (s.inner guard.lock) with
      | none =>
        rw [htry] at h
        cases h
        exact hs
      | some m =>
        rw [htry] at h
        cases h
        refine hs.goesOn rfl rfl (fun _ _ => rfl) (hs.interrupted _) ?_
        have hheld := hs.held core
        rw [Frame.saved,hdoing] at hheld
        exact hheld
    · cases h
  | tryLock core l =>
    rw [Locks.step] at h
    split_ifs at h with hrun
    cases htry : InnerMutex.tryLock (s.inner l) with
    | none =>
      rw [htry] at h
      cases h
      exact hs
    | some m =>
      rw [htry] at h
      cases h
      refine hs.goesOn rfl rfl (fun k hk => Function.update_of_ne hk ..) (hs.interrupted _) ?_
      have hheld := (hs.held core).push
      rw [saved_of_running hrun] at hheld
      simpa [Locks.setInterrupts,Locks.setInner,Frame.saved] using hheld
  | unlock core i =>
    have hzero : i = 0 := hc
    subst hzero
    rw [Locks.step] at h
    split_ifs at h with hrun
    obtain ⟨g,hg,rfl⟩ := Option.map_eq_some_iff.mp h
    refine hs.goesOn rfl rfl (fun _ _ => rfl) (hs.interrupted _) ?_
    have hheld := hs.held core
    rw [saved_of_running hrun] at hheld
    cases hguards : (s.frame core).guards with
    | nil =>
      rw [hguards] at hg
      cases hg
    | cons g' gs =>
      rw [hguards] at hg hheld
      cases hg
      simpa [Locks.setInner,Locks.setFrame,Locks.setCode,Frame.saved] using hheld
  | restore core =>
    rw [Locks.step] at h
    split at h
    next were hdoing =>
      cases h
      refine hs.goesOn rfl rfl (fun k hk => Function.update_of_ne hk ..) (hs.interrupted _) ?_
      have hheld := hs.held core
      rw [Frame.saved,hdoing] at hheld
      simpa [Locks.setInterrupts,Frame.saved] using hheld.pop
    · cases h
  | interrupt core =>
    rw [Locks.step] at h
    split_ifs at h with henabled
    cases h
    refine hs.goesOn rfl rfl (fun k hk => Function.update_of_ne hk ..) (fun f hf => ?_) Held.nil
    rcases List.mem_cons.mp hf with rfl | hf
    · by_contra hno
      exact absurd (henabled.symm.trans ((hs.held core).1 hno)) (by decide)
    · exact hs.interrupted _ f hf
  | iret core =>
    rw [Locks.step] at h
    split at h
    next f rest hrest =>
      split_ifs at h
      cases h
      have hold := hs.interrupted (s.on core)
      rw [hrest] at hold
      refine hs.goesOn rfl rfl (fun k hk => Function.update_of_ne hk ..) (fun f hf => hold f (List.mem_cons_of_mem _ hf)) ?_
      rw [hold f List.mem_cons_self]
      exact Held.nil
    · cases h
  | enable core =>
    rw [Locks.step] at h
    split_ifs at h with hrun
    cases h
    have hguards : (s.frame core).guards = [] := hc
    refine hs.goesOn (Function.update_eq_self (s.on core) s.code).symm rfl (fun k hk => Function.update_of_ne hk ..)
      (hs.interrupted _) ?_
    rw [show (s.code (s.on core)).frame.saved = [] from Frame.saved_eq_nil_iff.mpr ⟨hguards,hrun⟩]
    exact Held.nil
  | disable core =>
    rw [Locks.step] at h
    split_ifs at h
    cases h
    refine hs.goesOn (Function.update_eq_self (s.on core) s.code).symm rfl (fun k hk => Function.update_of_ne hk ..)
      (hs.interrupted _) ⟨fun _ => Function.update_self ..,(hs.held core).2⟩
  | switch core target =>
    have hguards : (s.frame core).guards = [] := hc
    rw [Locks.step] at h
    split_ifs at h with hg
    cases h
    obtain ⟨hrun,hoff,hfree⟩ := hg
    exact hs.switched (Frame.saved_eq_nil_iff.mpr ⟨hguards,hrun⟩) hfree

omit [DecidableEq ι] in
theorem initial_exclusive : Exclusive (Locks.initial on : Locks ι M) := by
  refine ⟨fun _ => List.nodup_nil,fun _ _ _ _ hl => (List.not_mem_nil hl).elim,fun l => ⟨fun hl => ?_,
    fun ⟨_,hl⟩ => (List.not_mem_nil hl).elim⟩⟩
  have hfree : (Locks.initial on : Locks ι M).locked l = false := InnerMutex.isLocked_new
  rw [hfree] at hl
  cases hl

omit [DecidableEq ι] in
theorem initial_shielded (h : Function.Injective on) : Shielded (Locks.initial on : Locks ι M) :=
  ⟨fun _ _ hf => (List.not_mem_nil hf).elim,fun _ _ => rfl,fun _ _ heq => h heq,
    fun _ => Held.nil⟩

/-- Code that waits for a lock waits for one that comes behind those it holds. -/
def Ranked (rank : ι → Nat) (s : Locks ι M) : Prop :=
  ∀ c, ∀ f ∈ (s.code c).frames, ∀ guard, f.doing = .spinning guard → ∀ l ∈ f.locks, rank l < rank guard.lock

omit [DecidableEq ι] [InnerMutex M] in
theorem Ranked.update (h : Ranked rank s) (hcode : t.code = Function.update s.code c code)
    (hnew : ∀ f ∈ code.frames, f ∈ (s.code c).frames ∨
      ∀ guard, f.doing = .spinning guard → ∀ l ∈ f.locks, rank l < rank guard.lock) : Ranked rank t := by
  intro c' f hf
  by_cases hc : c' = c
  · rw [hc,hcode,Function.update_self] at hf
    exact (hnew f hf).elim (h c f) id
  · rw [hcode,Function.update_of_ne hc] at hf
    exact h c' f hf

omit [DecidableEq ι] [InnerMutex M] in
/-- Where the code that runs is not spinning, the rest of a context is as it was. -/
theorem Ranked.replace (h : Ranked rank s) (hcode : t.code = Function.update s.code c { s.code c with frame := f })
    (hf : ∀ guard, f.doing ≠ .spinning guard) : Ranked rank t := by
  refine h.update hcode fun f' hf' => ?_
  rcases List.mem_cons.mp hf' with rfl | hf'
  · exact .inr fun guard hguard => absurd hguard (hf guard)
  · exact .inl (List.mem_cons_of_mem _ hf')

theorem step_ranked (hs : Ranked rank s) (hc : Ordered rank act s) (h : Locks.step act s = some t) : Ranked rank t := by
  cases act with
  | lock core l =>
    rw [Locks.step] at h
    split_ifs at h
    cases h
    refine hs.update (c := s.on core) rfl fun f hf => ?_
    rcases List.mem_cons.mp hf with rfl | hf
    · refine .inr fun guard hguard l' hl' => ?_
      cases hguard
      exact hc l' hl'
    · exact .inl (List.mem_cons_of_mem _ hf)
  | spin core =>
    rw [Locks.step] at h
    split at h
    · split at h
      · cases h
        exact hs
      · cases h
        exact hs.replace (c := s.on core) rfl fun _ hno => by cases hno
    · cases h
  | tryLock core l =>
    rw [Locks.step] at h
    split_ifs at h
    split at h
    · cases h
      exact hs
    · cases h
      exact hs.replace (c := s.on core) rfl fun _ hno => by cases hno
  | unlock core i =>
    rw [Locks.step] at h
    split_ifs at h
    obtain ⟨g,-,rfl⟩ := Option.map_eq_some_iff.mp h
    exact hs.replace (c := s.on core) rfl fun _ hno => by cases hno
  | restore core =>
    rw [Locks.step] at h
    split at h
    · cases h
      exact hs.replace (c := s.on core) rfl fun _ hno => by cases hno
    · cases h
  | interrupt core =>
    rw [Locks.step] at h
    split_ifs at h
    cases h
    refine hs.update (c := s.on core) rfl fun f hf => ?_
    rcases List.mem_cons.mp hf with rfl | hf
    · exact .inr fun _ hno => by cases hno
    · exact .inl hf
  | iret core =>
    rw [Locks.step] at h
    split at h
    next f rest hrest =>
      split_ifs at h
      cases h
      refine hs.update (c := s.on core) rfl fun f' hf' => .inl (List.mem_cons_of_mem _ ?_)
      rw [hrest]
      exact hf'
    · cases h
  | enable core =>
    rw [Locks.step] at h
    split_ifs at h
    cases h
    exact hs
  | disable core =>
    rw [Locks.step] at h
    split_ifs at h
    cases h
    exact hs
  | switch core target =>
    rw [Locks.step] at h
    split_ifs at h
    cases h
    exact hs

omit [DecidableEq ι] in
theorem initial_ranked : Ranked rank (Locks.initial on : Locks ι M) := by
  intro c f hf guard hguard
  obtain rfl := List.mem_singleton.mp hf
  cases hguard

/-- A mutex that is a flag. -/
instance : InnerMutex Bool where
  new := false
  isLocked m := m
  tryLock m := if m = true then none else some true
  unlock _ := false
  isLocked_new := rfl
  tryLock_eq_none m := by cases m <;> decide
  isLocked_of_tryLock m m' h := by
    cases m with
    | false =>
      cases h
      rfl
    | true => cases h
  isLocked_unlock _ := rfl

section Runs
variable {guard : IrqMutexGuard ι}

theorem shielded_of_run (hon : Function.Injective on) (hscoped : stepsMeet Locks.step Scoped acts (Locks.initial on : Locks ι M))
    (h : steps Locks.step acts (Locks.initial on) = some t) : Shielded t :=
  steps_invariant (fun _ _ _ hc hs hstep => step_shielded hs hc hstep) hscoped (initial_shielded hon) h

omit [DecidableEq ι] [InnerMutex M] in
/-- Code that holds a guard, or is in the functions of a lock, is what a core runs with interrupts off. -/
theorem Shielded.on_core (hs : Shielded t) (hf : f ∈ (t.code c).frames) (hbusy : f.guards ≠ [] ∨ f.isRunning = false) :
    ∃ core, t.on core = c ∧ t.frame core = f ∧ t.interruptsEnabled core = false := by
  have hsaved : f.saved ≠ [] := by
    rw [Ne,Frame.saved_eq_nil_iff,not_and_or,Bool.not_eq_true]
    exact hbusy
  rcases List.mem_cons.mp hf with rfl | hf
  · obtain ⟨core,rfl⟩ : ∃ core, t.on core = c := by
      by_contra hno
      exact hsaved (hs.parked c fun core hcore => hno ⟨core,hcore⟩)
    exact ⟨core,rfl,rfl,(hs.held core).1 hsaved⟩
  · exact absurd (hs.interrupted c f hf) hsaved

/-- Whatever the cores do in whatever order: no two guards are of one lock, and a lock is taken exactly when there is a
guard of it. -/
theorem run_exclusive (h : steps Locks.step acts (Locks.initial on) = some t) : Exclusive t :=
  steps_keep (fun _ _ _ hs hstep => step_exclusive hs hstep) initial_exclusive h

/-- While core 1 spins for a lock, core 0 drops it, and core 1 takes it. -/
theorem run_exclusive_handedOver : ∃ t, steps Locks.step [.enable 0,.lock 0 7,.spin 0,.lock 1 7,.spin 1,.unlock 0 0,.spin 1,
    .restore 0] (Locks.initial Context.scheduler : Locks Nat Bool) = some t ∧ t.interruptsEnabled 0 = true ∧
    (∃ c, 7 ∈ (t.code c).locks) := by
  have hcheck : (steps Locks.step [.enable 0,.lock 0 7,.spin 0,.lock 1 7,.spin 1,.unlock 0 0,.spin 1,.restore 0]
      (Locks.initial Context.scheduler : Locks Nat Bool)).map (fun t => (t.interruptsEnabled 0,t.locked 7)) = some (true,true) := by
    decide +kernel
  obtain ⟨t,ht,hview⟩ := Option.map_eq_some_iff.mp hcheck
  obtain ⟨henabled,hlocked⟩ := Prod.ext_iff.mp hview
  exact ⟨t,ht,henabled,((run_exclusive ht).locked 7).mp hlocked⟩

/-- Code that holds a guard, or waits for one, is what a core runs with interrupts off: no interrupt handler waits for a
lock of the code it came upon, and no context is switched away from with one. -/
theorem run_shielded (hon : Function.Injective on) (hscoped : stepsMeet Locks.step Scoped acts (Locks.initial on : Locks ι M))
    (h : steps Locks.step acts (Locks.initial on) = some t) (hf : f ∈ (t.code c).frames)
    (hbusy : f.guards ≠ [] ∨ f.isRunning = false) :
    ∃ core, t.on core = c ∧ t.frame core = f ∧ t.interruptsEnabled core = false :=
  (shielded_of_run hon hscoped h).on_core hf hbusy

/-- A handler on core 0 holds a lock. -/
theorem run_shielded_handler : ∃ t, steps Locks.step [.enable 0,.interrupt 0,.lock 0 7,.spin 0]
    (Locks.initial Context.scheduler : Locks Nat Bool) = some t ∧ ∃ core, t.on core = .scheduler 0 ∧
      t.frame core = (t.code (.scheduler 0)).frame ∧ t.interruptsEnabled core = false := by
  have hcheck : (steps Locks.step [.enable 0,.interrupt 0,.lock 0 7,.spin 0] (Locks.initial Context.scheduler : Locks Nat Bool)).map
      (fun t => (t.code (.scheduler 0)).frame.guards.isEmpty) = some false := by decide +kernel
  obtain ⟨t,ht,hview⟩ := Option.map_eq_some_iff.mp hcheck
  refine ⟨t,ht,run_shielded (fun _ _ => Context.scheduler.inj) ?_ ht List.mem_cons_self (.inl fun hno => ?_)⟩
  · exact ⟨rfl,fun _ _ => stepsMeet_of_forall (by simp [Scoped])⟩
  · rw [hno] at hview
    cases hview

/-- Where locks are taken in an order, the cores do not wait for each other in a circle: if one spins in vain, some core
holds the lock it waits for, or one that comes behind it, does not spin in vain and cannot be interrupted. -/
theorem run_progress (hon : Function.Injective on) (hscoped : stepsMeet Locks.step Scoped acts (Locks.initial on : Locks ι M))
    (hordered : stepsMeet Locks.step (Ordered rank) acts (Locks.initial on : Locks ι M))
    (h : steps Locks.step acts (Locks.initial on) = some t) (hblocked : (t.frame core).blockedOn t.locked = some l) :
    ∃ k l', l' ∈ (t.frame k).locks ∧ rank l ≤ rank l' ∧ (t.frame k).blockedOn t.locked = none ∧
      t.interruptsEnabled k = false := by
  have hshielded := shielded_of_run hon hscoped h
  have hexclusive : Exclusive t := steps_keep (fun _ _ _ hs hstep => step_exclusive hs hstep) initial_exclusive h
  have hranked : Ranked rank t := steps_invariant (fun _ _ _ hc hs hstep => step_ranked hs hc hstep) hordered initial_ranked h
  -- a taken lock is held by the code of a core
  have hheld : ∀ k l, (t.frame k).blockedOn t.locked = some l → ∃ k', l ∈ (t.frame k').locks := by
    intro k l hl
    obtain ⟨c,hc⟩ := (hexclusive.locked l).mp (Frame.blockedOn_eq_some hl).2
    obtain ⟨f,hf,hmem⟩ := List.mem_flatMap.mp hc
    obtain ⟨k',-,rfl,-⟩ := hshielded.on_core hf (.inl (Frame.locks_ne_nil hmem))
    exact ⟨k',hmem⟩
  have hbehind : ∀ k l l', (t.frame k).blockedOn t.locked = some l' → l ∈ (t.frame k).locks → rank l < rank l' := by
    intro k l l' hl' hl
    obtain ⟨⟨guard,hdoing,rfl⟩,-⟩ := Frame.blockedOn_eq_some hl'
    exact hranked (t.on k) (t.frame k) List.mem_cons_self guard hdoing l hl
  obtain ⟨k,l',hl',hle,hnone⟩ := exists_holder_not_waiting (fun k => (t.frame k).blockedOn t.locked)
    (fun k l => l ∈ (t.frame k).locks) hheld hbehind hblocked
  exact ⟨k,l',hl',hle,hnone,(hshielded.held k).1 fun hnil => Frame.locks_ne_nil hl' (Frame.saved_eq_nil_iff.mp hnil).1⟩

/-- Core 0 holds a lock and spins for one that comes behind it, and core 1, which holds that one, can drop it. -/
theorem run_progress_two : ∃ t, steps Locks.step [.lock 0 7,.spin 0,.lock 1 8,.spin 1,.lock 0 8,.spin 0]
    (Locks.initial Context.scheduler : Locks Nat Bool) = some t ∧ 7 ∈ (t.frame 0).locks ∧ ∃ k l', l' ∈ (t.frame k).locks ∧
      id 8 ≤ id l' ∧ (t.frame k).blockedOn t.locked = none ∧ t.interruptsEnabled k = false := by
  have hcheck : (steps Locks.step [.lock 0 7,.spin 0,.lock 1 8,.spin 1,.lock 0 8,.spin 0]
      (Locks.initial Context.scheduler : Locks Nat Bool)).map
      (fun t => (decide (7 ∈ (t.frame 0).locks),(t.frame 0).blockedOn t.locked)) = some (true,some 8) := by decide +kernel
  obtain ⟨t,ht,hview⟩ := Option.map_eq_some_iff.mp hcheck
  obtain ⟨hholds,hblocked⟩ := Prod.ext_iff.mp hview
  exact ⟨t,ht,of_decide_eq_true hholds,run_progress (fun _ _ => Context.scheduler.inj) (stepsMeet_of_forall (by simp [Scoped]))
    (stepsMeet_of_check (fun act s => decide (Ordered id act s)) (fun _ _ => of_decide_eq_true) (by decide +kernel)) ht hblocked⟩

end Runs
end MofuOS.Util
