import Mathlib.Algebra.BigOperators.Intervals
import Mathlib.Algebra.Order.BigOperators.Group.Finset
import Mathlib.Algebra.Order.Group.Nat

/-! Civil dates of the Gregorian calendar, counted in seconds from the start of 1970. -/
namespace MofuOS.Lib.Calendar

def IsLeap (year : Nat) : Prop := 4 ∣ year ∧ (¬ 100 ∣ year ∨ 400 ∣ year)

instance (year : Nat) : Decidable (IsLeap year) := inferInstanceAs (Decidable (_ ∧ _))

def daysInYear (year : Nat) : Nat := if IsLeap year then 366 else 365

/-- The length of a month, the first of the year being month 1. -/
def daysInMonth (year : Nat) : Nat → Nat
  | 2 => if IsLeap year then 29 else 28
  | 4 | 6 | 9 | 11 => 30
  | _ => 31

structure DateTime where
  year : Nat
  month : Nat
  day : Nat
  hour : Nat
  minute : Nat
  second : Nat
  deriving DecidableEq

namespace DateTime

/-- The date exists, and so does the time of day. -/
structure Valid (t : DateTime) : Prop where
  month_pos : 1 ≤ t.month
  month_le : t.month ≤ 12
  day_pos : 1 ≤ t.day
  day_le : t.day ≤ daysInMonth t.year t.month
  hour_lt : t.hour < 24
  minute_lt : t.minute < 60
  second_lt : t.second < 60

end DateTime

open Finset in
/-- The days from the start of one year to that of another. -/
def daysBetween (first year : Nat) : Nat := ∑ y ∈ Ico first year, daysInYear y

open Finset in
/-- The days of a year before a month. -/
def daysBefore (year month : Nat) : Nat := ∑ m ∈ Ico 1 month, daysInMonth year m

/-- Seconds from 1970-01-01T00:00:00. -/
def DateTime.unixSeconds (t : DateTime) : Nat :=
  (((daysBetween 1970 t.year + daysBefore t.year t.month + (t.day - 1)) * 24 + t.hour) * 60 + t.minute) * 60 + t.second

theorem daysBetween_self (year : Nat) : daysBetween year year = 0 := by
  rw [daysBetween,Finset.Ico_self,Finset.sum_empty]

theorem daysBetween_succ {first year : Nat} (h : first ≤ year) :
    daysBetween first (year + 1) = daysBetween first year + daysInYear year :=
  Finset.sum_Ico_succ_top h _

theorem daysBetween_add {first mid last : Nat} (h : first ≤ mid) (h' : mid ≤ last) :
    daysBetween first mid + daysBetween mid last = daysBetween first last :=
  Finset.sum_Ico_consecutive _ h h'

theorem daysInYear_bounds (year : Nat) : 365 ≤ daysInYear year ∧ daysInYear year ≤ 366 := by
  unfold daysInYear
  split_ifs <;> omega

theorem daysBetween_bounds (first n : Nat) :
    365 * n ≤ daysBetween first (first + n) ∧ daysBetween first (first + n) ≤ 366 * n := by
  induction n with
  | zero =>
    rw [Nat.add_zero,daysBetween_self]
    omega
  | succ n ih =>
    rw [← Nat.add_assoc,daysBetween_succ (Nat.le_add_right ..)]
    have hyear := daysInYear_bounds (first + n)
    omega

theorem daysBefore_succ {year month : Nat} (h : 1 ≤ month) :
    daysBefore year (month + 1) = daysBefore year month + daysInMonth year month :=
  Finset.sum_Ico_succ_top h _

theorem daysBefore_one (year : Nat) : daysBefore year 1 = 0 := by
  rw [daysBefore,Finset.Ico_self,Finset.sum_empty]

end MofuOS.Lib.Calendar
