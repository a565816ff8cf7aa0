import Mathlib.Data.Nat.Notation
import Mathlib.Tactic.IntervalCases

/-!
# The Gregorian calendar from 1970 on

Dates with months from 0 to 11, and the number of days and seconds between the beginning of
1970 and a date.
-/

namespace K210Os.Calendar

def LeapYear (y : ℕ) : Prop := y % 4 = 0 ∧ y % 100 ≠ 0 ∨ y % 400 = 0

instance decidableLeapYear (y : ℕ) : Decidable (LeapYear y) :=
  inferInstanceAs (Decidable (_ ∨ _))

def yearLength (y : ℕ) : ℕ := if LeapYear y then 366 else 365

def monthLength (y : ℕ) : ℕ → ℕ
  | 0 => 31
  | 1 => if LeapYear y then 29 else 28
  | 2 => 31
  | 3 => 30
  | 4 => 31
  | 5 => 30
  | 6 => 31
  | 7 => 31
  | 8 => 30
  | 9 => 31
  | 10 => 30
  | _ => 31

/-- The days of the `n` years from 1970 on. -/
def daysOfYears : ℕ → ℕ
  | 0 => 0
  | n + 1 => daysOfYears n + yearLength (1970 + n)

/-- The days of the first `m` months of a year. -/
def daysOfMonths (y : ℕ) : ℕ → ℕ
  | 0 => 0
  | m + 1 => daysOfMonths y m + monthLength y m

structure Date where
  year : ℕ
  month : ℕ
  day : ℕ
  since : 1970 ≤ year
  month_lt : month < 12
  day_pos : 1 ≤ day
  day_le : day ≤ monthLength year month

structure DateTime extends Date where
  hour : ℕ
  minute : ℕ
  second : ℕ
  hour_lt : hour < 24
  minute_lt : minute < 60
  second_lt : second < 60

/-- Earlier in the year comes first, then earlier in the month. -/
def Date.Before (d d' : Date) : Prop :=
  d.year < d'.year ∨ d.year = d'.year ∧ (d.month < d'.month ∨ d.month = d'.month ∧ d.day < d'.day)

def DateTime.Before (t t' : DateTime) : Prop :=
  t.toDate.Before t'.toDate ∨ t.toDate = t'.toDate ∧
    (t.hour < t'.hour ∨ t.hour = t'.hour ∧
      (t.minute < t'.minute ∨ t.minute = t'.minute ∧ t.second < t'.second))

/-- The days from the beginning of 1970 to the date. -/
def Date.dayNumber (d : Date) : ℕ :=
  daysOfYears (d.year - 1970) + daysOfMonths d.year d.month + (d.day - 1)

def DateTime.secondOfDay (t : DateTime) : ℕ := 3600 * t.hour + 60 * t.minute + t.second

variable {y m n : ℕ} {d d' : Date} {t t' : DateTime}

/-- Every fourth year is a leap year, less the centuries, but for every fourth one. -/
theorem daysOfYears_eq (n : ℕ) :
    daysOfYears n + (1969 + n) / 100 + 477 = 365 * n + (1969 + n) / 4 + (1969 + n) / 400 := by
  induction n with
  | zero => rfl
  | succ n ih =>
      by_cases h : LeapYear (1970 + n)
      · rw [daysOfYears, yearLength, if_pos h]
        unfold LeapYear at h
        omega
      · rw [daysOfYears, yearLength, if_neg h]
        unfold LeapYear at h
        omega

/-- As `daysOfYears_eq`, with the leap day of the year itself. -/
theorem daysOfYears_year (hsince : 1970 ≤ y) :
    daysOfYears (y - 1970) + (if LeapYear y then 1 else 0) + y / 100 + 477 =
      365 * (y - 1970) + y / 4 + y / 400 := by
  obtain ⟨n, rfl⟩ : ∃ n, y = 1970 + n := ⟨y - 1970, (Nat.add_sub_cancel' hsince).symm⟩
  have hnext := daysOfYears_eq (n + 1)
  have hcommon : daysOfYears (n + 1) = daysOfYears n + 365 + if LeapYear (1970 + n) then 1 else 0 := by
    rw [daysOfYears, yearLength]
    split
    · rfl
    · rfl
  have hsucc : 1969 + (n + 1) = 1970 + n := by omega
  rw [hsucc, hcommon] at hnext
  rw [Nat.add_sub_cancel_left]
  omega

/-- The centuries past 1900 that are no leap years. -/
theorem centuries_eq_zero_iff (hsince : 1970 ≤ y) : y / 100 - y / 400 = 15 ↔ y < 2100 := by
  omega

theorem daysOfMonths_year (y : ℕ) : daysOfMonths y 12 = yearLength y := by
  by_cases h : LeapYear y <;> simp [daysOfMonths, monthLength, yearLength, h]

theorem daysOfMonths_mono (hmn : m ≤ n) : daysOfMonths y m ≤ daysOfMonths y n := by
  induction hmn with
  | refl => exact le_refl _
  | step _ ih => exact ih.trans (Nat.le_add_right _ _)

theorem daysOfYears_mono (hmn : m ≤ n) : daysOfYears m ≤ daysOfYears n := by
  induction hmn with
  | refl => exact le_refl _
  | step _ ih => exact ih.trans (Nat.le_add_right _ _)

/-- A day ends before the month after its own begins. -/
theorem Date.lt_monthEnd (d : Date) :
    daysOfMonths d.year d.month + (d.day - 1) < daysOfMonths d.year (d.month + 1) := by
  have hpos := d.day_pos
  have hle := d.day_le
  rw [daysOfMonths]
  omega

theorem Date.lt_yearEnd (d : Date) :
    d.dayNumber < daysOfYears (d.year - 1970 + 1) := by
  have hmonth := d.lt_monthEnd
  have hyear := daysOfMonths_mono (y := d.year) (show d.month + 1 ≤ 12 from d.month_lt)
  have hsince : 1970 + (d.year - 1970) = d.year := Nat.add_sub_cancel' d.since
  rw [daysOfMonths_year] at hyear
  rw [Date.dayNumber, daysOfYears, hsince]
  omega

theorem monthLength_le (y m : ℕ) : monthLength y m ≤ 31 := by
  unfold monthLength
  split
  case h_2 => split <;> decide
  all_goals decide

theorem Date.dayNumber_lt (d : Date) : d.dayNumber < 366 * d.year := by
  have hend := d.lt_yearEnd
  have hyears := daysOfYears_eq (d.year - 1970 + 1)
  have hsince := d.since
  omega

theorem Date.Before.dayNumber_lt (h : d.Before d') : d.dayNumber < d'.dayNumber := by
  rcases h with hyear | ⟨hyear, hmonth | ⟨hmonth, hday⟩⟩
  · have hsince := d.since
    have hend := d.lt_yearEnd
    have hmono := daysOfYears_mono (show d.year - 1970 + 1 ≤ d'.year - 1970 by omega)
    have hle : daysOfYears (d'.year - 1970) ≤ d'.dayNumber := by
      rw [Date.dayNumber, Nat.add_assoc]
      exact Nat.le_add_right _ _
    exact (hend.trans_le hmono).trans_le hle
  · have hend := d.lt_monthEnd
    have hmono := daysOfMonths_mono (y := d.year) (show d.month + 1 ≤ d'.month from hmonth)
    rw [Date.dayNumber, Date.dayNumber, ← hyear]
    omega
  · have hpos := d.day_pos
    rw [Date.dayNumber, Date.dayNumber, ← hyear, ← hmonth]
    omega

theorem DateTime.secondOfDay_lt (t : DateTime) : t.secondOfDay < 86400 := by
  have hhour := t.hour_lt
  have hminute := t.minute_lt
  have hsecond := t.second_lt
  rw [DateTime.secondOfDay]
  omega

theorem DateTime.Before.seconds_lt (h : t.Before t') :
    86400 * t.dayNumber + t.secondOfDay < 86400 * t'.dayNumber + t'.secondOfDay := by
  rcases h with hdate | ⟨hdate, htime⟩
  · have hlt := hdate.dayNumber_lt
    have hsecond := t.secondOfDay_lt
    omega
  · have hsame : t.dayNumber = t'.dayNumber := congrArg Date.dayNumber hdate
    have hminute := t.minute_lt
    have hsecond := t.second_lt
    rw [DateTime.secondOfDay, DateTime.secondOfDay, hsame]
    omega

end K210Os.Calendar
