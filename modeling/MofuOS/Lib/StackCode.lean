import Mathlib.Algebra.Group.Nat.Defs
import Mathlib.Logic.Function.Basic
import Mathlib.Data.List.Nodup

/-! Straight code of a 64-bit machine that moves words between registers and a stack. Words are at multiples of
eight; a stack grows downwards and ends where its pointer is. -/
namespace MofuOS.Lib

structure Machine (R : Type) where
  regs : R → Nat
  sp : Nat
  mem : Nat → Nat

inductive Move (R : Type) where
  | push (r : R)
  | pop (r : R)
  /-- push [r + off] -/
  | pushAt (r : R) (off : Nat)
  | popSp
  /-- add sp, 8 -/
  | drop
  /-- mov r, sp -/
  | readSp (r : R)
  /-- mov sp, r -/
  | setSp (r : R)
  /-- mov [r + off], sp -/
  | storeSp (r : R) (off : Nat)
  /-- mov sp, [r + off] -/
  | loadSp (r : R) (off : Nat)
  | swap (r r' : R)

/-- The words ws are in memory from address a on. -/
def WordsAt (mem : Nat → Nat) : Nat → List Nat → Prop
  | _,[] => True
  | a,w :: ws => mem a = w ∧ WordsAt mem (a+8) ws

def writeWords (mem : Nat → Nat) : Nat → List Nat → Nat → Nat
  | _,[] => mem
  | a,w :: ws => writeWords (Function.update mem a w) (a+8) ws

namespace Machine
variable {R : Type} [DecidableEq R] {m : Machine R} {r : R}

/-- The addresses one word further down and up, modulo 2^64. -/
def down (a : Nat) : Nat := (a + (2^64 - 8)) % 2^64
def up (a : Nat) : Nat := (a + 8) % 2^64

def pushWord (m : Machine R) (w : Nat) : Machine R :=
  { m with sp := down m.sp,mem := Function.update m.mem (down m.sp) w }

def pushWords (m : Machine R) (ws : List Nat) : Machine R := ws.foldl pushWord m

def move (m : Machine R) : Move R → Machine R
  | .push r => m.pushWord (m.regs r)
  | .pop r => { m with regs := Function.update m.regs r (m.mem m.sp),sp := up m.sp }
  | .pushAt r off => m.pushWord (m.mem (m.regs r + off))
  | .popSp => { m with sp := m.mem m.sp }
  | .drop => { m with sp := up m.sp }
  | .readSp r => { m with regs := Function.update m.regs r m.sp }
  | .setSp r => { m with sp := m.regs r }
  | .storeSp r off => { m with mem := Function.update m.mem (m.regs r + off) m.sp }
  | .loadSp r off => { m with sp := m.mem (m.regs r + off) }
  | .swap r r' => { m with regs := Function.update (Function.update m.regs r (m.regs r')) r' (m.regs r) }

def run (m : Machine R) (code : List (Move R)) : Machine R := code.foldl move m

omit [DecidableEq R] in
theorem pushWord_regs (w : Nat) : (m.pushWord w).regs = m.regs := by rw [pushWord]

omit [DecidableEq R] in
theorem pushWords_cons (w : Nat) (ws : List Nat) : m.pushWords (w :: ws) = (m.pushWord w).pushWords ws := List.foldl_cons ..

theorem run_append (code code' : List (Move R)) : m.run (code ++ code') = (m.run code).run code' := List.foldl_append

@[simp] theorem run_nil : m.run [] = m := rfl

@[simp] theorem run_cons (i : Move R) (code : List (Move R)) : m.run (i :: code) = (m.move i).run code := rfl

end Machine

section Words
variable {mem mem' : Nat → Nat} {a b n : Nat} {ws ws' : List Nat}

theorem WordsAt.congr (h : WordsAt mem a ws) (heq : ∀ x, a ≤ x → x < a + 8 * ws.length → mem' x = mem x) :
    WordsAt mem' a ws := by
  induction ws generalizing a with
  | nil => trivial
  | cons w ws ih =>
    rw [List.length_cons] at heq
    refine ⟨(heq a (Nat.le_refl a) (by omega)).trans h.1,ih h.2 fun x hx hlt => heq x (by omega) (by omega)⟩

theorem wordsAt_append : WordsAt mem a (ws ++ ws') ↔ WordsAt mem a ws ∧ WordsAt mem (a + 8 * ws.length) ws' := by
  induction ws generalizing a with
  | nil => simp [WordsAt]
  | cons w ws ih =>
    rw [List.cons_append,WordsAt,WordsAt,ih,and_assoc,List.length_cons,show a + 8 + 8 * ws.length = a + 8 * (ws.length + 1) by omega]

/-- One word is written among the others. -/
theorem WordsAt.set (h : WordsAt mem a ws) {i : Nat} (hi : i < ws.length) (w : Nat) :
    WordsAt (Function.update mem (a + 8 * i) w) a (ws.set i w) := by
  induction ws generalizing a i with
  | nil => cases hi
  | cons w' ws ih =>
    cases i with
    | zero =>
      refine ⟨Function.update_self ..,h.2.congr fun x hx _ => Function.update_of_ne (by omega) ..⟩
    | succ i =>
      refine ⟨(Function.update_of_ne (by omega) ..).trans h.1,?_⟩
      rw [show a + 8 * (i + 1) = a + 8 + 8 * i by omega]
      exact ih h.2 (Nat.lt_of_succ_lt_succ hi)

theorem WordsAt.get (h : WordsAt mem a ws) {i w : Nat} (hi : ws[i]? = some w) : mem (a + 8 * i) = w := by
  induction ws generalizing a i with
  | nil => cases hi
  | cons w' ws ih =>
    cases i with
    | zero =>
      cases hi
      exact h.1
    | succ i =>
      rw [show a + 8 * (i + 1) = a + 8 + 8 * i by omega]
      exact ih h.2 hi

theorem writeWords_of_outside {x : Nat} (h : x < a ∨ a + 8 * ws.length ≤ x) : writeWords mem a ws x = mem x := by
  induction ws generalizing mem a with
  | nil => rfl
  | cons w ws ih =>
    rw [List.length_cons] at h
    rw [writeWords,ih (by omega),Function.update_of_ne (by omega)]

theorem wordsAt_writeWords : WordsAt (writeWords mem a ws) a ws := by
  induction ws generalizing mem a with
  | nil => trivial
  | cons w ws ih =>
    refine ⟨?_,ih⟩
    rw [writeWords,writeWords_of_outside (.inl (by omega)),Function.update_self]

end Words

namespace Machine
variable {R : Type} [DecidableEq R] {m : Machine R} {rs : List R} {ws : List Nat} {a n : Nat} {r : R} {f : R → Nat}

theorem down_of_le (h : 8 ≤ a) (hlt : a < 2^64) : down a = a - 8 := by
  rw [down]
  omega

theorem up_of_lt (h : a + 8 < 2^64) : up a = a + 8 := Nat.mod_eq_of_lt h

omit [DecidableEq R] in
theorem pushWord_of_le (h : 8 ≤ m.sp) (hlt : m.sp < 2^64) (w : Nat) :
    m.pushWord w = { m with sp := m.sp - 8,mem := Function.update m.mem (m.sp - 8) w } := by
  rw [pushWord,down_of_le h hlt]

omit [DecidableEq R] in
theorem pushWords_of_le (h : 8 * ws.length ≤ m.sp) (hlt : m.sp < 2^64) :
    ∃ mem, m.pushWords ws = ⟨m.regs,m.sp - 8 * ws.length,mem⟩ ∧ WordsAt mem (m.sp - 8 * ws.length) ws.reverse ∧
      ∀ x, x < m.sp - 8 * ws.length ∨ m.sp ≤ x → mem x = m.mem x := by
  induction ws generalizing m with
  | nil => exact ⟨m.mem,rfl,trivial,fun _ _ => rfl⟩
  | cons w ws ih =>
    rw [List.length_cons] at h ⊢
    have hpush := pushWord_of_le (m := m) (by omega) hlt w
    obtain ⟨mem,hrun,hwords,hrest⟩ := ih (m := m.pushWord w) (by rw [hpush]; dsimp only; omega)
      (by rw [hpush]; dsimp only; omega)
    rw [hpush] at hrun hwords hrest
    dsimp only at hrun hwords hrest
    rw [show m.sp - 8 - 8 * ws.length = m.sp - 8 * (ws.length + 1) by omega] at hrun hwords hrest
    refine ⟨mem,?_,?_,fun x hx => ?_⟩
    · rw [pushWords_cons,hpush]
      exact hrun
    · rw [List.reverse_cons,wordsAt_append]
      refine ⟨hwords,?_,trivial⟩
      rw [List.length_reverse,show m.sp - 8 * (ws.length + 1) + 8 * ws.length = m.sp - 8 by omega]
      rw [hrest _ (.inr (Nat.le_refl _)),Function.update_self]
    · rw [hrest x (by omega),Function.update_of_ne (by omega)]

theorem run_push_eq : m.run (rs.map .push) = m.pushWords (rs.map m.regs) := by
  induction rs generalizing m with
  | nil => rfl
  | cons r rs ih => rw [List.map_cons,run_cons,ih,move,pushWord_regs,List.map_cons,pushWords_cons]

/-- Registers are pushed in order. -/
theorem run_push (h : 8 * rs.length ≤ m.sp) (hlt : m.sp < 2^64) :
    ∃ mem, m.run (rs.map .push) = ⟨m.regs,m.sp - 8 * rs.length,mem⟩ ∧
      WordsAt mem (m.sp - 8 * rs.length) (rs.reverse.map m.regs) ∧ ∀ x, x < m.sp - 8 * rs.length ∨ m.sp ≤ x → mem x = m.mem x := by
  obtain ⟨mem,hrun,hwords,hrest⟩ := pushWords_of_le ((List.length_map m.regs).symm ▸ h : 8 * (rs.map m.regs).length ≤ m.sp) hlt
  rw [List.length_map] at hrun hwords hrest
  rw [← List.map_reverse] at hwords
  exact ⟨mem,run_push_eq.trans hrun,hwords,hrest⟩

/-- Words are popped into registers: a later one of the same name counts. -/
def assign (regs : R → Nat) : List R → List Nat → R → Nat
  | r :: rs,w :: ws => assign (Function.update regs r w) rs ws
  | _,_ => regs

theorem assign_of_notMem {regs : R → Nat} (h : r ∉ rs) : assign regs rs ws r = regs r := by
  induction rs generalizing regs ws with
  | nil => rfl
  | cons r' rs ih =>
    obtain ⟨hne,hr⟩ := List.ne_and_not_mem_of_not_mem_cons h
    cases ws with
    | nil => rfl
    | cons w ws => rw [assign,ih hr,Function.update_of_ne hne]

/-- Each register gets the word that was stored for it. -/
theorem assign_map {regs : R → Nat} (hnd : rs.Nodup) (hr : r ∈ rs) : assign regs rs (rs.map f) r = f r := by
  induction rs generalizing regs with
  | nil => cases hr
  | cons r' rs ih =>
    obtain ⟨hr',hnd⟩ := List.nodup_cons.mp hnd
    rw [List.map_cons,assign]
    by_cases hrr : r = r'
    · subst hrr
      rw [assign_of_notMem hr',Function.update_self]
    · exact ih hnd ((List.mem_cons.mp hr).resolve_left hrr)

theorem run_pop (h : WordsAt m.mem m.sp ws) (hlen : ws.length = rs.length) (hlt : m.sp + 8 * rs.length < 2^64) :
    m.run (rs.map .pop) = ⟨assign m.regs rs ws,m.sp + 8 * rs.length,m.mem⟩ := by
  induction rs generalizing m ws with
  | nil =>
    cases ws with
    | nil => rfl
    | cons w ws => cases hlen
  | cons r rs ih =>
    cases ws with
    | nil => cases hlen
    | cons w ws =>
      rw [List.length_cons] at hlt
      have htail := h.2
      rw [List.map_cons,run_cons,move,up_of_lt (by omega),h.1]
      rw [ih (m := ⟨Function.update m.regs r w,m.sp + 8,m.mem⟩) htail (Nat.succ.inj hlen) (by dsimp only; omega)]
      rw [List.length_cons,assign,show m.sp + 8 + 8 * rs.length = m.sp + 8 * (rs.length + 1) by omega]

/-- Code that saves registers on its stack, leaves the stack pointer in a cell, and goes on with the registers that
such code has saved before. -/
def exchange (rs : List R) (dst src : R) : List (Move R) :=
  rs.map .push ++ ([.storeSp dst 0,.setSp src] ++ rs.reverse.map .pop)

theorem run_exchange {dst src : R} (h : 8 * rs.length ≤ m.sp) (hlt : m.sp < 2^64)
    (hcell : m.regs dst < m.sp - 8 * rs.length ∨ m.sp ≤ m.regs dst)
    (hwords : WordsAt m.mem (m.regs src) ws) (hlen : ws.length = rs.length) (htop : m.regs src + 8 * rs.length < 2^64)
    (hsrc : m.regs src + 8 * rs.length ≤ m.sp - 8 * rs.length ∨ m.sp ≤ m.regs src)
    (hapart : m.regs dst < m.regs src ∨ m.regs src + 8 * rs.length ≤ m.regs dst) :
    ∃ mem, m.run (exchange rs dst src) = ⟨assign m.regs rs.reverse ws,m.regs src + 8 * rs.length,mem⟩ ∧
      WordsAt mem (m.sp - 8 * rs.length) (rs.reverse.map m.regs) ∧ mem (m.regs dst) = m.sp - 8 * rs.length ∧
      ∀ x, x < m.sp - 8 * rs.length ∨ m.sp ≤ x → x ≠ m.regs dst → mem x = m.mem x := by
  obtain ⟨mem,hpush,hsaved,hrest⟩ := run_push h hlt
  have hother : ∀ x, x ≠ m.regs dst → Function.update mem (m.regs dst) (m.sp - 8 * rs.length) x = mem x :=
    fun x hx => Function.update_of_ne hx ..
  refine ⟨Function.update mem (m.regs dst) (m.sp - 8 * rs.length),?_,?_,Function.update_self ..,fun x hx hne => ?_⟩
  · have hload : WordsAt (Function.update mem (m.regs dst) (m.sp - 8 * rs.length)) (m.regs src) ws := by
      refine hwords.congr fun x hx hxlt => ?_
      rw [hother x (by omega),hrest x (by omega)]
    have hpop := run_pop (m := ⟨m.regs,m.regs src,_⟩) hload (hlen.trans rs.length_reverse.symm)
      (by rw [List.length_reverse]; exact htop)
    rw [List.length_reverse] at hpop
    rw [exchange,run_append,hpush,run_append]
    exact hpop
  · exact hsaved.congr fun x hx hxlt => by
      rw [List.length_map,List.length_reverse] at hxlt
      exact hother x (by omega)
  · rw [hother x hne,hrest x hx]

end Machine
end MofuOS.Lib
