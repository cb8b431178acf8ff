import MofuOS.Filesystem.Fat32.Direntry
import MofuOS.Lib.Calendar
import Mathlib.Tactic.IntervalCases

/-! The time stamps of directory entries as instants. The table of days counts from 1970 and
is indexed by the years since 1980, so every stamp comes out ten years early. -/
namespace MofuOS.Filesystem.Fat32
open Lib Lib.Calendar

/-- The instant that a pair of words encodes. -/
def fatDateTime (time date : UInt16) : DateTime where
  year := 1980 + date.toNat / 512
  month := date.toNat / 32 % 16
  day := date.toNat % 32
  hour := time.toNat / 2048
  minute := time.toNat / 32 % 64
  second := 2 * (time.toNat % 32)

variable {time date : UInt16}

private theorem toNat_field (x : UInt16) {k n : Nat} (hk : k < 16) (hn : n < 16) :
    ((x >>> UInt16.ofNat k) &&& UInt16.ofNat (2^n - 1)).toNat = x.toNat / 2^k % 2^n := by
  have hpow : 2^n < 2^16 := Nat.pow_lt_pow_right (by decide) hn
  rw [UInt16.toNat_and,UInt16.toNat_shiftRight,UInt16.toNat_ofNat_of_lt' (Nat.lt_trans hk (by decide)),
    UInt16.toNat_ofNat_of_lt' (Nat.lt_of_le_of_lt (Nat.sub_le ..) hpow),Nat.and_two_pow_sub_one_eq_mod,
    Nat.mod_eq_of_lt hk,Nat.shiftRight_eq_div_pow]

private theorem isLeapYear_iff (year : Nat) : isLeapYear year = true ↔ IsLeap year := by
  simp only [isLeapYear,IsLeap,Bool.and_eq_true,Bool.or_eq_true,beq_iff_eq,bne_iff_ne,Nat.dvd_iff_mod_eq_zero,ne_eq]

/-- The table from 1970 on is the count of days. -/
theorem daysUntilYearSince1970_eq (idx : Nat) : daysUntilYearSince1970 idx = daysBetween 1970 (1970 + idx) := by
  induction idx with
  | zero => rw [daysUntilYearSince1970,Nat.add_zero,daysBetween_self]
  | succ idx ih =>
    rw [daysUntilYearSince1970,ih,← Nat.add_assoc,daysBetween_succ (Nat.le_add_right ..),daysInYear]
    simp only [isLeapYear_iff]

/-- The days before a month, by the table of months and the leap day. -/
theorem monthDays_eq {year month : Nat} (hpos : 1 ≤ month) (hle : month ≤ 12) :
    monthDays month + (if 2 < month && isLeapYear year then 1 else 0) = daysBefore year month := by
  simp only [Bool.and_eq_true,decide_eq_true_eq,isLeapYear_iff]
  induction month, hpos using Nat.le_induction with
  | base =>
    rw [daysBefore_one]
    rfl
  | succ month hpos ih =>
    have hlt : month ≤ 11 := Nat.le_of_succ_le_succ hle
    rw [daysBefore_succ hpos,← ih (by omega)]
    by_cases hleap : IsLeap year <;> interval_cases month <;> simp [monthDays,daysInMonth,hleap]

theorem daysInMonth_le (year month : Nat) : daysInMonth year month ≤ 31 := by
  unfold daysInMonth
  split
  · split_ifs <;> decide
  all_goals decide

/-- The code's sum, before it is cut to 32 bits. -/
private theorem fatTimeToUnixTimestamp_eq (h : (fatDateTime time date).Valid) : fatTimeToUnixTimestamp time date =
    UInt32.ofNat ((daysBetween 1970 (1970 + date.toNat / 512) + daysBefore (fatDateTime time date).year
      (fatDateTime time date).month + ((fatDateTime time date).day - 1)) * 86400 + (fatDateTime time date).hour * 3600 +
      (fatDateTime time date).minute * 60 + (fatDateTime time date).second) := by
  have hsecond : (time &&& 0x1F).toNat = time.toNat % 32 := by simpa using toNat_field time (k := 0) (n := 5) (by decide) (by decide)
  have hminute : ((time >>> 5) &&& 0x3F).toNat = time.toNat / 32 % 64 := toNat_field time (k := 5) (n := 6) (by decide) (by decide)
  have hhour : ((time >>> 11) &&& 0x1F).toNat = time.toNat / 2048 % 32 := toNat_field time (k := 11) (n := 5) (by decide) (by decide)
  have hday : (date &&& 0x1F).toNat = date.toNat % 32 := by simpa using toNat_field date (k := 0) (n := 5) (by decide) (by decide)
  have hmonth : ((date >>> 5) &&& 0x0F).toNat = date.toNat / 32 % 16 := toNat_field date (k := 5) (n := 4) (by decide) (by decide)
  have hyear : ((date >>> 9) &&& 0x7F).toNat = date.toNat / 512 % 128 := toNat_field date (k := 9) (n := 7) (by decide) (by decide)
  have htime := time.toNat_lt
  have hdate := date.toNat_lt
  have hdaypos := h.day_pos
  rw [← monthDays_eq h.month_pos h.month_le]
  unfold fatTimeToUnixTimestamp
  simp only [hsecond,hminute,hhour,hday,hmonth,hyear,Nat.mod_eq_of_lt (show time.toNat / 2048 < 32 by omega),
    Nat.mod_eq_of_lt (show date.toNat / 512 < 128 by omega),daysUntilYearSince1970_eq]
  simp only [fatDateTime,Nat.add_comm 1980] at hdaypos ⊢
  refine congrArg UInt32.ofNat ?_
  split_ifs <;> omega

/-- A stamp is short of its instant by the ten years that the table skips, and nothing overflows. -/
theorem fatTimeToUnixTimestamp_short (h : (fatDateTime time date).Valid) :
    (fatTimeToUnixTimestamp time date).toNat + 86400 * daysBetween (1970 + date.toNat / 512) (1980 + date.toNat / 512) =
      (fatDateTime time date).unixSeconds := by
  have hdays := daysBetween_add (Nat.le_add_right 1970 (date.toNat / 512))
    (show 1970 + date.toNat / 512 ≤ 1980 + date.toNat / 512 by omega)
  have hbound := (daysBetween_bounds 1970 (date.toNat / 512)).2
  have hmonths : daysBefore (fatDateTime time date).year (fatDateTime time date).month ≤ 335 := by
    rw [← monthDays_eq h.month_pos h.month_le]
    have hm := h.month_pos
    have hm' := h.month_le
    interval_cases (fatDateTime time date).month <;> simp only [monthDays] <;> split_ifs <;> omega
  have hday := Nat.le_trans h.day_le (daysInMonth_le ..)
  have hhour := h.hour_lt
  have hminute := h.minute_lt
  have hsecond := h.second_lt
  have hdate := date.toNat_lt
  rw [fatTimeToUnixTimestamp_eq h,UInt32.toNat_ofNat_of_lt' (by simp only [UInt32.size]; omega),DateTime.unixSeconds]
  have hyear : (fatDateTime time date).year = 1980 + date.toNat / 512 := rfl
  rw [hyear] at hmonths ⊢
  rw [← hdays]
  omega

/-- No stamp is that of its instant, not even modulo 2^32. -/
theorem fatTimeToUnixTimestamp_ne (h : (fatDateTime time date).Valid) :
    fatTimeToUnixTimestamp time date ≠ UInt32.ofNat (fatDateTime time date).unixSeconds := by
  intro heq
  have hshort := fatTimeToUnixTimestamp_short h
  have hgap := daysBetween_bounds (1970 + date.toNat / 512) 10
  rw [show 1970 + date.toNat / 512 + 10 = 1980 + date.toNat / 512 by omega] at hgap
  have hmod := congrArg UInt32.toNat heq
  rw [UInt32.toNat_ofNat'] at hmod
  have hlt := (fatTimeToUnixTimestamp time date).toNat_lt
  omega

/-- The stamp of the first day that has one is that of the epoch. -/
theorem fatTimeToUnixTimestamp_1980 : (fatDateTime 0 0x21).Valid ∧ (fatTimeToUnixTimestamp 0 0x21).toNat = 0 ∧
    (fatDateTime 0 0x21).unixSeconds = 315532800 :=
  ⟨⟨by decide,by decide,by decide,by decide,by decide,by decide,by decide⟩,by decide,by decide +kernel⟩

theorem fatTimeToUnixTimestamp_ne_2000 : (fatDateTime 0 0x2821).Valid ∧
    fatTimeToUnixTimestamp 0 0x2821 ≠ UInt32.ofNat (fatDateTime 0 0x2821).unixSeconds :=
  ⟨⟨by decide,by decide,by decide,by decide,by decide,by decide,by decide⟩,
    fatTimeToUnixTimestamp_ne ⟨by decide,by decide,by decide,by decide,by decide,by decide,by decide⟩⟩

end MofuOS.Filesystem.Fat32
