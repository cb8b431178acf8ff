import Mathlib.Data.List.Basic
import Mathlib.Tactic.SplitIfs

/-! Byte-string editing on lists: reading a window, overwriting one in place, and
splicing with the gap in front of the data filled by zeros. -/
namespace MofuOS.Lib
variable {α : Type}

/-- The n elements from position o on. -/
def slice (l : List α) (o n : Nat) : List α := (l.drop o).take n

/-- Replace the elements from position o on by d. -/
def overwrite (l : List α) (o : Nat) (d : List α) : List α := l.take o ++ d ++ l.drop (o + d.length)

/-- Extend by zeros up to position o, then overwrite from there. -/
def splice [Zero α] (l : List α) (o : Nat) (d : List α) : List α :=
  overwrite (l ++ List.replicate (o - l.length) 0) o d

theorem length_slice {l : List α} {o n : Nat} (h : o + n ≤ l.length) : (slice l o n).length = n := by
  simp only [slice,List.length_take,List.length_drop]
  omega

theorem getElem?_slice (l : List α) (o n i : Nat) :
    (slice l o n)[i]? = if i < n then l[o + i]? else none := by
  simp [slice,List.getElem?_take,List.getElem?_drop]

theorem getElem?_overwrite {l : List α} {o : Nat} (d : List α) (h : o ≤ l.length) (i : Nat) :
    (overwrite l o d)[i]? =
      if i < o then l[i]? else if i < o + d.length then d[i - o]? else l[i]? := by
  have ho : (l.take o).length = o := by simp [h]
  unfold overwrite
  split_ifs with h1 h2
  · rw [List.append_assoc,List.getElem?_append_left (by omega),List.getElem?_take,if_pos h1]
  · rw [List.append_assoc,List.getElem?_append_right (by omega),ho,List.getElem?_append_left (by omega)]
  · rw [List.getElem?_append_right (by simp only [List.length_append,ho]; omega),List.getElem?_drop]
    congr 1
    simp only [List.length_append,ho]
    omega

theorem length_overwrite {l : List α} {o : Nat} {d : List α} (h : o + d.length ≤ l.length) :
    (overwrite l o d).length = l.length := by
  simp only [overwrite,List.length_append,List.length_take,List.length_drop]
  omega

/-- A window that the overwrite does not touch keeps its contents. -/
theorem slice_overwrite_of_disjoint {l d : List α} {o a n : Nat} (h : o ≤ l.length)
    (hd : a + n ≤ o ∨ o + d.length ≤ a) : slice (overwrite l o d) a n = slice l a n := by
  apply List.ext_getElem?
  intro i
  simp only [getElem?_slice,getElem?_overwrite d h]
  split_ifs <;> first | rfl | omega

/-- The overwritten window holds the data. -/
theorem slice_overwrite_self {l d : List α} {o : Nat} (h : o ≤ l.length) :
    slice (overwrite l o d) o d.length = d := by
  apply List.ext_getElem?
  intro i
  simp only [getElem?_slice,getElem?_overwrite d h]
  split_ifs with h1 h2 h3
  · omega
  · congr 1
    omega
  · omega
  · exact (List.getElem?_eq_none (by omega)).symm

/-- An overwrite inside a window edits the window at the relative position. -/
theorem slice_overwrite_within {l d : List α} {o a n : Nat} (ha : a ≤ o) (hn : o + d.length ≤ a + n)
    (hl : a + n ≤ l.length) : slice (overwrite l o d) a n = overwrite (slice l a n) (o - a) d := by
  have hlen : o - a ≤ (slice l a n).length := by
    rw [length_slice hl]
    omega
  apply List.ext_getElem?
  intro i
  simp only [getElem?_slice,getElem?_overwrite d (show o ≤ l.length by omega),getElem?_overwrite d hlen]
  by_cases hi : i < n
  · rw [if_pos hi]
    by_cases h1 : a + i < o
    · rw [if_pos h1,if_pos (show i < o - a by omega),if_pos hi]
    · rw [if_neg h1,if_neg (show ¬ i < o - a by omega)]
      by_cases h2 : a + i < o + d.length
      · rw [if_pos h2,if_pos (show i < o - a + d.length by omega)]
        congr 1
        omega
      · rw [if_neg h2,if_neg (show ¬ i < o - a + d.length by omega),if_pos hi]
  · rw [if_neg hi,if_neg (show ¬ i < o - a by omega),if_neg (show ¬ i < o - a + d.length by omega),if_neg hi]

theorem slice_append_slice (l : List α) (o m n : Nat) : slice l o m ++ slice l (o + m) n = slice l o (m + n) := by
  simp only [slice,← List.drop_drop]
  exact (List.take_add ..).symm

theorem slice_slice {l : List α} {o m a n : Nat} (h : a + n ≤ m) :
    slice (slice l o m) a n = slice l (o + a) n := by
  apply List.ext_getElem?
  intro i
  simp only [getElem?_slice,Nat.add_assoc]
  split_ifs <;> first | rfl | omega

/-- A window of a window ends where the inner one does. -/
theorem slice_slice_min (l : List α) (o m a n : Nat) : slice (slice l o m) a n = slice l (o + a) (min n (m - a)) := by
  apply List.ext_getElem?
  intro i
  simp only [getElem?_slice,Nat.add_assoc]
  split_ifs <;> first | rfl | omega

theorem slice_eq_nil {l : List α} {o : Nat} (n : Nat) (h : l.length ≤ o) : slice l o n = [] := by
  simp [slice,List.drop_eq_nil_of_le h]

/-- Copying a window onto itself changes nothing. -/
theorem overwrite_slice_self {l : List α} {o n : Nat} (h : o + n ≤ l.length) : overwrite l o (slice l o n) = l := by
  apply List.ext_getElem?
  intro i
  rw [getElem?_overwrite _ (by omega),length_slice h,getElem?_slice]
  split_ifs with h1 h2 h3
  · rfl
  · congr 1
    omega
  · omega
  · rfl

/-- An overwrite inside a window that is written back is one in the whole. -/
theorem overwrite_window {l d : List α} {a n o : Nat} (hl : a + n ≤ l.length) (ho : o + d.length ≤ n) :
    overwrite l a (overwrite (slice l a n) o d) = overwrite l (a + o) d := by
  have hs : (slice l a n).length = n := length_slice hl
  have hlen : (overwrite (slice l a n) o d).length = n := by
    rw [length_overwrite (by omega),hs]
  apply List.ext_getElem?
  intro i
  rw [getElem?_overwrite _ (by omega),getElem?_overwrite d (show a + o ≤ l.length by omega),hlen]
  by_cases h1 : i < a
  · rw [if_pos h1,if_pos (show i < a + o by omega)]
  · rw [if_neg h1]
    by_cases h2 : i < a + n
    · rw [if_pos h2,getElem?_overwrite _ (by omega),getElem?_slice,if_pos (show i - a < n by omega),
        show a + (i - a) = i by omega,show i - a - o = i - (a + o) by omega]
      by_cases h3 : i < a + o
      · rw [if_pos h3,if_pos (show i - a < o by omega)]
      · rw [if_neg h3,if_neg (show ¬ i - a < o by omega)]
        by_cases h4 : i < a + o + d.length
        · rw [if_pos h4,if_pos (show i - a < o + d.length by omega)]
        · rw [if_neg h4,if_neg (show ¬ i - a < o + d.length by omega)]
    · rw [if_neg h2,if_neg (show ¬ i < a + o by omega),if_neg (show ¬ i < a + o + d.length by omega)]

/-- Two overwrites end to end. -/
theorem overwrite_overwrite {l d e : List α} {o : Nat} (h : o + d.length ≤ l.length) :
    overwrite (overwrite l o d) (o + d.length) e = overwrite l o (d ++ e) := by
  apply List.ext_getElem?
  intro i
  rw [getElem?_overwrite _ (by rw [length_overwrite h]; exact h),getElem?_overwrite _ (by omega),
    getElem?_overwrite _ (by omega),List.length_append]
  by_cases h1 : i < o
  · rw [if_pos (show i < o + d.length by omega),if_pos h1,if_pos h1]
  · by_cases h2 : i < o + d.length
    · rw [if_pos h2,if_neg h1,if_pos h2,if_neg h1,if_pos (show i < o + (d.length + e.length) by omega),
        List.getElem?_append_left (by omega)]
    · rw [if_neg h2,if_neg h1,if_neg h2,if_neg h1]
      by_cases h3 : i < o + d.length + e.length
      · rw [if_pos h3,if_pos (show i < o + (d.length + e.length) by omega),List.getElem?_append_right (by omega)]
        congr 1
        omega
      · rw [if_neg h3,if_neg (show ¬ i < o + (d.length + e.length) by omega)]

theorem overwrite_append {l d : List α} {o : Nat} (r : List α) (h : o + d.length ≤ l.length) :
    overwrite (l ++ r) o d = overwrite l o d ++ r := by
  rw [overwrite,overwrite,List.take_append_of_le_length (by omega),List.drop_append_of_le_length h,List.append_assoc,
    List.append_assoc,List.append_assoc]

theorem overwrite_nil (l : List α) (o : Nat) : overwrite l o [] = l := by
  simp [overwrite]

theorem overwrite_zero (l d : List α) : overwrite l 0 d = d ++ l.drop d.length := by
  simp [overwrite]

/-- Overwriting the front spares a window exactly when what reaches into it is what was there. -/
theorem slice_overwrite_zero_eq_iff {l d : List α} {o n : Nat} :
    slice (overwrite l 0 d) o n = slice l o n ↔ slice d o n <+: slice l o n := by
  constructor
  · intro h
    rw [← h,overwrite_zero,slice,slice,List.drop_append,List.take_append]
    exact List.prefix_append ..
  · intro h
    apply List.ext_getElem?
    intro i
    rw [getElem?_slice,getElem?_slice,getElem?_overwrite d (Nat.zero_le _)]
    split_ifs with hi h1 h2
    · omega
    · have hlt : i < (slice d o n).length := by
        simp only [slice,List.length_take,List.length_drop]
        omega
      have hp := List.prefix_iff_getElem?.mp h i hlt
      rw [getElem?_slice,if_pos hi] at hp
      rw [hp,Nat.sub_zero,← List.getElem?_eq_getElem hlt,getElem?_slice,if_pos hi]
    · rfl
    · rfl

/-- An overwrite that reaches over the first n values keeps them exactly when it starts with those it meets. -/
theorem take_overwrite_eq_iff {l d : List α} {n o : Nat} (hn : n ≤ l.length) (hd : n ≤ o + d.length) :
    (overwrite l o d).take n = l.take n ↔ (l.take n).drop o <+: d := by
  rcases (Nat.lt_or_ge o n).symm with hno | hon
  · refine iff_of_true ?_ ?_
    · rw [overwrite,List.append_assoc,List.take_append_of_le_length (by rw [List.length_take]; omega),List.take_take,
        Nat.min_eq_left hno]
    · rw [List.drop_eq_nil_of_le (by rw [List.length_take]; omega)]
      exact List.nil_prefix
  · have hlen : (l.take o).length = o := by
      rw [List.length_take]
      omega
    have hover : (overwrite l o d).take n = l.take o ++ d.take (n - o) := by
      rw [overwrite,List.append_assoc,List.take_append,List.take_append_of_le_length (by omega),hlen,List.take_take,
        Nat.min_eq_right (Nat.le_of_lt hon)]
    have hold : l.take n = l.take o ++ (l.take n).drop o := by
      conv_lhs => rw [← List.take_append_drop o (l.take n)]
      rw [List.take_take,Nat.min_eq_left (Nat.le_of_lt hon)]
    have hrest : ((l.take n).drop o).length = n - o := by
      rw [List.length_drop,List.length_take]
      omega
    rw [hover,hold,List.append_cancel_left_eq,← hold,List.prefix_iff_eq_take,hrest,eq_comm]

section Splice
variable [Zero α]

theorem splice_of_le {l : List α} {o : Nat} (d : List α) (h : o ≤ l.length) : splice l o d = overwrite l o d := by
  simp [splice,Nat.sub_eq_zero_of_le h]

theorem length_splice (l : List α) (o : Nat) (d : List α) :
    (splice l o d).length = max l.length (o + d.length) := by
  simp only [splice,overwrite,List.length_append,List.length_take,List.length_drop,List.length_replicate]
  omega

/-- What lies behind the end counts as zero. -/
theorem getD_splice (l : List α) (o : Nat) (d : List α) (i : Nat) :
    ((splice l o d)[i]?).getD 0 = if o ≤ i ∧ i < o + d.length then (d[i - o]?).getD 0 else (l[i]?).getD 0 := by
  have ho : o ≤ (l ++ List.replicate (o - l.length) (0 : α)).length := by
    rw [List.length_append,List.length_replicate]
    omega
  have hpad : ((l ++ List.replicate (o - l.length) (0 : α))[i]?).getD 0 = (l[i]?).getD 0 := by
    rw [List.getElem?_append]
    split_ifs with hi
    · rfl
    · rw [List.getElem?_replicate,List.getElem?_eq_none (Nat.not_lt.mp hi)]
      split_ifs <;> rfl
  rw [splice,getElem?_overwrite d ho]
  by_cases h1 : i < o
  · rw [if_pos h1,if_neg (by omega),hpad]
  · rw [if_neg h1]
    by_cases h2 : i < o + d.length
    · rw [if_pos h2,if_pos ⟨Nat.not_lt.mp h1,h2⟩]
    · rw [if_neg h2,if_neg fun h => h2 h.2,hpad]

/-- Growing by zeros to the final length first does not change the splice. -/
theorem overwrite_pad {l : List α} {o n : Nat} {d : List α} (h : l.length + n = max l.length (o + d.length)) :
    overwrite (l ++ List.replicate n 0) o d = splice l o d := by
  have hn : o ≤ (l ++ List.replicate n (0 : α)).length := by
    simp only [List.length_append,List.length_replicate]
    omega
  have hz : o ≤ (l ++ List.replicate (o - l.length) (0 : α)).length := by
    simp only [List.length_append,List.length_replicate]
    omega
  apply List.ext_getElem?
  intro i
  simp only [splice,getElem?_overwrite d hn,getElem?_overwrite d hz,List.getElem?_append,List.getElem?_replicate]
  split_ifs <;> first | rfl | omega

/-- The bytes up to the end of an overwrite, which may reach into what lies behind l. -/
theorem take_overwrite {l d : List α} {n o : Nat} (z : List α) (hn : n ≤ l.length) (ho : o ≤ n) :
    (overwrite (l ++ z) o d).take (max n (o + d.length)) = splice (l.take n) o d := by
  have htake : (l.take n).length = n := by
    rw [List.length_take]
    omega
  have hlen : o ≤ (l ++ z).length := by
    rw [List.length_append]
    omega
  rw [splice_of_le d (by omega)]
  apply List.ext_getElem?
  intro i
  rw [List.getElem?_take,getElem?_overwrite d hlen,getElem?_overwrite d (by omega),List.getElem?_append,
    List.getElem?_take]
  split_ifs <;> first | rfl | omega

/-- The old bytes after an overwrite that may be cut off behind them. -/
theorem take_overwrite_take {l d : List α} {k n o : Nat} (z : List α) (hn : n ≤ l.length) (ho : o ≤ n) (hk : n ≤ o + k) :
    (overwrite (l ++ z) o (d.take k)).take n = (splice (l.take n) o d).take n := by
  have htake : (l.take n).length = n := by
    rw [List.length_take]
    omega
  have hlen : o ≤ (l ++ z).length := by
    rw [List.length_append]
    omega
  rw [splice_of_le d (by omega)]
  apply List.ext_getElem?
  intro i
  rw [List.getElem?_take,List.getElem?_take,getElem?_overwrite _ hlen,getElem?_overwrite d (by omega),List.length_take,
    List.getElem?_take,List.getElem?_append,List.getElem?_take]
  split_ifs <;> first | rfl | omega

/-- Writing a whole string over a shorter one replaces it. -/
theorem splice_zero_of_le {l d : List α} (h : l.length ≤ d.length) : splice l 0 d = d := by
  simp [splice,overwrite_zero,List.drop_eq_nil_of_le h]

end Splice
/-- An overwrite that ends inside what it leaves starts inside what was there. -/
theorem le_of_length_overwrite {l d : List α} {o : Nat} (h : o + d.length ≤ (overwrite l o d).length) : o ≤ l.length := by
  by_contra hlt
  rw [overwrite,List.take_of_length_le (by omega),List.drop_eq_nil_of_le (by omega),List.append_nil,List.length_append] at h
  omega

section Zero
variable [Zero α] {l d : List α} {m n o : Nat}

/-- From position n on there are only zeros. -/
def ZeroFrom (n : Nat) (l : List α) : Prop := ∀ b ∈ l.drop n, b = 0

theorem zeroFrom_iff : ZeroFrom n l ↔ ∀ i b, n ≤ i → l[i]? = some b → b = 0 := by
  constructor
  · intro h i b hi hb
    refine h b (List.mem_of_getElem? (i := i - n) ?_)
    rwa [List.getElem?_drop,Nat.add_sub_cancel' hi]
  · intro h b hb
    obtain ⟨i,hi⟩ := List.getElem?_of_mem hb
    rw [List.getElem?_drop] at hi
    exact h _ b (Nat.le_add_right n i) hi

theorem zeroFrom_replicate (n m : Nat) : ZeroFrom n (List.replicate m (0 : α)) :=
  fun _ hb => List.eq_of_mem_replicate (List.mem_of_mem_drop hb)

theorem ZeroFrom.append_zeros (h : ZeroFrom n l) (m : Nat) : ZeroFrom n (l ++ List.replicate m 0) := by
  intro b hb
  rw [List.drop_append,List.mem_append] at hb
  rcases hb with hb | hb
  · exact h b hb
  · exact List.eq_of_mem_replicate (List.mem_of_mem_drop hb)

/-- An overwrite that puts only zeros behind position n. -/
theorem ZeroFrom.overwrite (h : ZeroFrom n l) (ho : o ≤ l.length) (hd : ZeroFrom (n - o) d) :
    ZeroFrom n (overwrite l o d) := by
  rw [zeroFrom_iff] at h hd ⊢
  intro i b hi hb
  rw [getElem?_overwrite d ho] at hb
  split_ifs at hb
  · exact h i b hi hb
  · exact hd (i - o) b (by omega) hb
  · exact h i b hi hb

/-- In front of an overwrite the zeros stay. -/
theorem ZeroFrom.slice_overwrite (h : ZeroFrom n l) (ho : o ≤ l.length) (d : List α) (m : Nat) :
    ∀ b ∈ slice ((Lib.overwrite l o d).take m) n (o - n), b = 0 := by
  intro b hb
  obtain ⟨i,hi⟩ := List.getElem?_of_mem hb
  rw [getElem?_slice] at hi
  split_ifs at hi with hlt
  rw [List.getElem?_take] at hi
  split_ifs at hi
  rw [getElem?_overwrite d ho,if_pos (by omega)] at hi
  exact zeroFrom_iff.mp h _ b (Nat.le_add_right n i) hi

end Zero

end MofuOS.Lib
