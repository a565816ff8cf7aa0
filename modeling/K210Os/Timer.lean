import K210Os.Calendar
import K210Os.MachineInt
import Mathlib.Tactic.Linarith

/-!
# Time stamps and sleeping

`tm2tamp` counts leap days with a shifted division: every fourth year is one, with or without
the century, and the day of this year is taken back in January only. `usleep` spins for a
number of cycles that went through products of 32 and of 64 bits.
-/

namespace K210Os

open Calendar MachineInt

/-! ## Time stamps -/

/-- `struct tm`, as far as `tm2tamp` reads it. -/
structure Tm where
  sec : ℤ
  min : ℤ
  hour : ℤ
  mday : ℤ
  mon : ℤ
  year : ℤ

structure TimeVal where
  sec : ℕ
  usec : ℕ

def monDays : List ℤ := [31, 28, 31, 30, 31, 30, 31, 31, 30, 31, 30, 31]

def isLeap (ryear : ℤ) : Bool :=
  ryear.tmod 100 != 0 && ryear.tmod 4 == 0 || ryear.tmod 400 == 0

def tm2tamp (tm : Tm) (utcDiff : ℤ) : TimeVal :=
  let ryear := toInt32 (tm.year + 1900)
  let tyears := toInt32 (tm.year - 70)
  let leapYears :=
    if tm.mon < 1 ∧ isLeap ryear then (tyears + 2).tdiv 4 - 1 else (tyears + 2).tdiv 4
  let tdays := (monDays.take tm.mon.toNat).sum
  let tdays := tdays + toInt32 (tm.mday - 1)
  let tdays := tdays + (tyears * 365 + leapYears)
  let utcHrs := toInt32 (tm.hour - utcDiff)
  ⟨toUint64 (tdays * 86400 + utcHrs * 3600 + toInt32 (tm.min * 60) + tm.sec), 0⟩

/-- A date and a time whose year is an `int`. -/
structure TmDate extends DateTime where
  fits : year < 2 ^ 31 + 1900

namespace TmDate

def toTm (t : TmDate) : Tm := ⟨t.second, t.minute, t.hour, t.day, t.month, t.year - 1900⟩

/-- The seconds since 1970 where the clock is `utcDiff` hours ahead. -/
def stamp (t : TmDate) (utcDiff : ℤ) : ℤ :=
  86400 * t.dayNumber + 3600 * (t.hour - utcDiff) + 60 * t.minute + t.second

/-- The leap days are counted as they were. -/
def CountsRight (t : TmDate) : Prop := t.year < 2100 ∧ ¬ (t.month = 1 ∧ LeapYear t.year)

/-- The hours are in the range of an `int`, and the instant is not before 1970. -/
def InRange (t : TmDate) (utcDiff : ℤ) : Prop := t.hour - utcDiff < 2 ^ 31 ∧ 0 ≤ t.stamp utcDiff

variable {t t' : TmDate} {utcDiff : BitVec 32}

theorem isLeap_iff {y : ℕ} : isLeap y = true ↔ LeapYear y := by
  have hmod : ∀ k : ℕ, (y : ℤ).tmod k = (y % k : ℕ) := fun k => (Int.ofNat_tmod y k).symm
  have h100 := hmod 100
  have h4 := hmod 4
  have h400 := hmod 400
  rw [isLeap, LeapYear]
  simp only [Nat.cast_ofNat] at h100 h4 h400
  simp only [h100, h4, h400, Bool.or_eq_true, Bool.and_eq_true, bne_iff_ne, beq_iff_eq, ne_eq]
  omega

/-- `mon_days` is a common year. -/
theorem sum_monDays (t : TmDate) : (monDays.take t.month).sum =
    daysOfMonths t.year t.month - if 2 ≤ t.month ∧ LeapYear t.year then 1 else 0 := by
  have hmonth := t.month_lt
  generalize t.month = m at hmonth
  by_cases h : LeapYear t.year
  · interval_cases m <;> simp [monDays, daysOfMonths, monthLength, h]
  · interval_cases m <;> simp [monDays, daysOfMonths, monthLength, h]

/-- The days that `tm2tamp` counts are too many, by one for each century that is no leap year
and by one in February of a leap year. -/
theorem exists_extra (t : TmDate) : ∃ e : ℤ, 0 ≤ e ∧ e < 2 ^ 26 ∧ (e = 0 ↔ t.CountsRight) ∧
    (monDays.take t.month).sum + (t.day - 1) + (((t.year : ℤ) - 1970) * 365 +
      if (t.month : ℤ) < 1 ∧ isLeap (toInt32 t.year) then ((t.year : ℤ) - 1970 + 2).tdiv 4 - 1
      else ((t.year : ℤ) - 1970 + 2).tdiv 4) = t.dayNumber + e := by
  have hsince := t.since
  have hfits := t.fits
  have hpos := t.day_pos
  have hyears := daysOfYears_year hsince
  have hcenturies := centuries_eq_zero_iff hsince
  have hmore : 15 ≤ t.year / 100 - t.year / 400 := by omega
  have hfew : t.year / 100 - t.year / 400 < 2 ^ 25 := by omega
  have hlate : ¬ t.year < 2 ^ 31 → 17 ≤ t.year / 100 - t.year / 400 := by omega
  have hfour : t.year / 400 ≤ t.year / 100 := by omega
  have hdiv : ((t.year : ℤ) - 1970 + 2).tdiv 4 = (t.year / 4 : ℕ) - 492 := by
    rw [Int.tdiv_eq_ediv_of_nonneg (by omega)]
    omega
  have hleap : t.year < 2 ^ 31 → (isLeap (toInt32 t.year) = true ↔ LeapYear t.year) := by
    intro hlt
    rw [toInt32_of_lt hlt, isLeap_iff]
  obtain ⟨x, hx⟩ : ∃ x : ℤ, (monDays.take t.month).sum + (t.day - 1) +
      (((t.year : ℤ) - 1970) * 365 +
        if (t.month : ℤ) < 1 ∧ isLeap (toInt32 t.year) then ((t.year : ℤ) - 1970 + 2).tdiv 4 - 1
        else ((t.year : ℤ) - 1970 + 2).tdiv 4) = x := ⟨_, rfl⟩
  refine ⟨x - t.dayNumber, ?_⟩
  rw [hx, add_sub_cancel]
  rw [sum_monDays, hdiv] at hx
  have hday : t.dayNumber = daysOfYears (t.year - 1970) + daysOfMonths t.year t.month + (t.day - 1) :=
    rfl
  unfold CountsRight
  generalize t.year / 4 = fours at hyears hx
  generalize t.year / 100 = hundreds at hyears hcenturies hmore hfew hlate hfour
  generalize t.year / 400 = fourHundreds at hyears hcenturies hmore hfew hlate hfour
  by_cases hL : LeapYear t.year
  · simp only [hL, and_true, if_true] at hx hyears ⊢
    split_ifs at hx with hpast _ hjan
    · omega
    · omega
    · omega
    · have hnot : t.month = 0 → ¬ t.year < 2 ^ 31 := fun h0 hlt =>
        hjan ⟨by omega, (hleap hlt).mpr hL⟩
      omega
  · simp only [hL, and_false, if_false, not_false_eq_true, and_true] at hx hyears ⊢
    split_ifs at hx with hjan
    · have hnot : ¬ t.year < 2 ^ 31 := fun hlt => hL ((hleap hlt).mp hjan.2)
      omega
    · omega

/-- What `tm2tamp` computes beside the days that are too many; the hours may wrap around. -/
theorem tm2tamp_sec (t : TmDate) {utcDiff : ℤ} (hlo : -2 ^ 31 ≤ utcDiff) (hhi : utcDiff < 2 ^ 31) :
    ∃ e w : ℤ, 0 ≤ e ∧ e < 2 ^ 26 ∧ (e = 0 ↔ t.CountsRight) ∧ (w = 0 ∨ w = 1) ∧
      (w = 0 ↔ t.hour - utcDiff < 2 ^ 31) ∧
      (tm2tamp t.toTm utcDiff).sec =
        toUint64 (t.stamp utcDiff + 86400 * e - 3600 * 2 ^ 32 * w) := by
  obtain ⟨e, hpos, hlt, hright, hdays⟩ := exists_extra t
  obtain ⟨w, hw, hwrap, hhours⟩ : ∃ w : ℤ, (w = 0 ∨ w = 1) ∧
      (w = 0 ↔ t.hour - utcDiff < 2 ^ 31) ∧
      toInt32 (t.hour - utcDiff) = t.hour - utcDiff - 2 ^ 32 * w := by
    have hhour := t.hour_lt
    by_cases hin : (t.hour : ℤ) - utcDiff < 2 ^ 31
    · refine ⟨0, Or.inl rfl, iff_of_true rfl hin, ?_⟩
      rw [toInt32_of_range (by omega) hin, mul_zero, sub_zero]
    · refine ⟨1, Or.inr rfl, iff_of_false one_ne_zero hin, ?_⟩
      rw [toInt32_of_ge (by omega) (by omega), mul_one]
  refine ⟨e, w, hpos, hlt, hright, hw, hwrap, ?_⟩
  have hfits := t.fits
  have hsince := t.since
  have hminute := t.minute_lt
  have hday : t.day ≤ 31 := t.day_le.trans (monthLength_le _ _)
  have hyear : toInt32 ((t.year : ℤ) - 1900 + 1900) = toInt32 t.year := by rw [sub_add_cancel]
  have htyears : toInt32 ((t.year : ℤ) - 1900 - 70) = t.year - 1970 := by
    rw [toInt32_of_range (by omega) (by omega)]
    omega
  have hmday : toInt32 ((t.day : ℤ) - 1) = t.day - 1 := toInt32_of_range (by omega) (by omega)
  have hmin : toInt32 ((t.minute : ℤ) * 60) = t.minute * 60 :=
    toInt32_of_range (by omega) (by omega)
  simp only [tm2tamp, toTm, hyear, htyears, hmday, hmin, hhours, Int.toNat_natCast]
  refine congrArg toUint64 ?_
  rw [hdays, stamp]
  omega

/-- The value is that of the calendar exactly if no leap day is counted too much and the
result is in range; then a later time has a larger value. -/
theorem tm2tamp_iff (t t' : TmDate) (utcDiff : BitVec 32) :
    (((tm2tamp t.toTm utcDiff.toInt).sec : ℤ) = t.stamp utcDiff.toInt ↔
      t.CountsRight ∧ t.InRange utcDiff.toInt) ∧
    (t.CountsRight ∧ t.InRange utcDiff.toInt → t'.CountsRight ∧ t'.InRange utcDiff.toInt →
      t.Before t'.toDateTime →
        (tm2tamp t.toTm utcDiff.toInt).sec < (tm2tamp t'.toTm utcDiff.toInt).sec) := by
  have hlo := BitVec.le_toInt utcDiff
  have hhi := BitVec.toInt_lt (x := utcDiff)
  generalize utcDiff.toInt = d at hlo hhi
  have hiff : ∀ t : TmDate, ((tm2tamp t.toTm d).sec : ℤ) = t.stamp d ↔
      t.CountsRight ∧ t.InRange d := by
    intro t
    obtain ⟨e, w, hpos, hlt, hright, hw, hwrap, hsec⟩ := tm2tamp_sec t hlo hhi
    have hfits := t.fits
    have hdays := t.dayNumber_lt
    have hsecond := t.secondOfDay_lt
    have hstamp : t.stamp d = 86400 * t.dayNumber + t.secondOfDay - 3600 * d := by
      rw [stamp, DateTime.secondOfDay]
      omega
    rw [hsec, toUint64_eq_iff (by omega) (by omega) (by omega), InRange, ← hright, ← hwrap]
    rcases hw with rfl | rfl
    · omega
    · omega
  refine ⟨hiff t, fun h h' hbefore => ?_⟩
  have hsec := (hiff t).mpr h
  have hsec' := (hiff t').mpr h'
  have hlt := hbefore.seconds_lt
  rw [stamp] at hsec hsec'
  rw [DateTime.secondOfDay, DateTime.secondOfDay] at hlt
  omega

def lastOfFebruary : TmDate where
  year := 2024
  month := 1
  day := 29
  hour := 23
  minute := 59
  second := 59
  since := by decide
  month_lt := by decide
  day_pos := by decide
  day_le := by decide
  hour_lt := by decide
  minute_lt := by decide
  second_lt := by decide
  fits := by decide

def firstOfMarch : TmDate :=
  { lastOfFebruary with
    month := 2
    day := 1
    month_lt := by decide
    day_pos := by decide
    day_le := by decide }

def middleOfMarch : TmDate :=
  { firstOfMarch with
    day := 15
    day_pos := by decide
    day_le := by decide }

/-- Eight hours ahead, in March of a leap year. -/
theorem tm2tamp_march :
    ((tm2tamp firstOfMarch.toTm 8).sec : ℤ) = firstOfMarch.stamp 8 ∧
      (tm2tamp firstOfMarch.toTm 8).sec < (tm2tamp middleOfMarch.toTm 8).sec := by
  have hmarch : firstOfMarch.CountsRight ∧ firstOfMarch.InRange 8 :=
    ⟨⟨by decide, fun h => absurd h.1 (by decide)⟩, by decide +kernel, by decide +kernel⟩
  have hmiddle : middleOfMarch.CountsRight ∧ middleOfMarch.InRange 8 :=
    ⟨⟨by decide, fun h => absurd h.1 (by decide)⟩, by decide +kernel, by decide +kernel⟩
  obtain ⟨hiff, hlt⟩ := tm2tamp_iff firstOfMarch middleOfMarch 8
  exact ⟨hiff.mpr hmarch, hlt hmarch hmiddle (Or.inl (Or.inr ⟨rfl, Or.inr ⟨rfl, by decide⟩⟩))⟩

/-- The day after the last of February of a leap year has the same number. -/
theorem tm2tamp_last_of_february :
    ((tm2tamp lastOfFebruary.toTm 0).sec : ℤ) ≠ lastOfFebruary.stamp 0 ∧
      (tm2tamp lastOfFebruary.toTm 0).sec = (tm2tamp firstOfMarch.toTm 0).sec := by
  decide +kernel

end TmDate

/-! ## Sleeping -/

/-- The cycles that `usleep` waits for, with the CPU at `freq` cycles a second. -/
def nopAll (freq usec : ℕ) : ℕ := usec * freq % 2 ^ 64 / 1000000

/-- The loop of `usleep`; `getCycle k` is what the read number `k` of the counter delivers. The
number of the read that ends the loop is returned. -/
def usleepLoop (getCycle : ℕ → ℕ) (cycle nopAll : ℕ) : ℕ → ℕ → Option ℕ
  | 0, _ => none
  | fuel + 1, k =>
      if (getCycle k + 2 ^ 64 - cycle) % 2 ^ 64 ≥ nopAll then some k
      else usleepLoop getCycle cycle nopAll fuel (k + 1)

def usleep (freq : ℕ) (getCycle : ℕ → ℕ) (fuel usec : ℕ) : Option ℕ :=
  usleepLoop getCycle (getCycle 0) (nopAll freq usec) fuel 1

def msleep (freq : ℕ) (getCycle : ℕ → ℕ) (fuel msec : ℕ) : Option ℕ :=
  usleep freq getCycle fuel (msec * 1000 % 2 ^ 64)

def ksleep (freq : ℕ) (getCycle : ℕ → ℕ) (fuel seconds : ℕ) : Option ℕ :=
  msleep freq getCycle fuel (seconds * 1000 % 2 ^ 32)

/-- `sys_nanosleep` of the time that was copied in; `none` where it refuses. -/
def sysNanosleep (freq : ℕ) (getCycle : ℕ → ℕ) (fuel : ℕ) (tm : TimeVal) : Option (Option ℕ) :=
  if tm.sec ≥ 1000000000 then none else some (ksleep freq getCycle fuel (tm.sec % 2 ^ 32))

/-- The cycles between the first read of the counter and the read number `k`. -/
def elapsed (getCycle : ℕ → ℕ) (k : ℕ) : ℕ := (getCycle k + 2 ^ 64 - getCycle 0) % 2 ^ 64

/-- The call ends with the first read that comes at least `n` cycles later. -/
def WaitsFor (freq : ℕ) (tm : TimeVal) (n : ℕ) : Prop :=
  ∀ getCycle fuel j, sysNanosleep freq getCycle fuel tm = some (some j) ↔
    (1 ≤ j ∧ j < 1 + fuel) ∧ n ≤ elapsed getCycle j ∧ ∀ i, 1 ≤ i → i < j → elapsed getCycle i < n

section Sleeping

variable {freq fuel k j n : ℕ} {getCycle : ℕ → ℕ} {tm : TimeVal}

theorem usleepLoop_eq_some_iff : usleepLoop getCycle (getCycle 0) n fuel k = some j ↔
    (k ≤ j ∧ j < k + fuel) ∧ n ≤ elapsed getCycle j ∧
      ∀ i, k ≤ i → i < j → elapsed getCycle i < n := by
  induction fuel generalizing k with
  | zero => exact iff_of_false (Option.some_ne_none j).symm fun h => by omega
  | succ fuel ih =>
      rw [usleepLoop, ← elapsed]
      by_cases hend : elapsed getCycle k ≥ n
      · rw [if_pos hend, Option.some_inj]
        refine ⟨?_, fun ⟨hj, hn, hbefore⟩ => ?_⟩
        · rintro rfl
          exact ⟨⟨le_refl k, by omega⟩, hend, fun i hk hi => absurd hi (not_lt.mpr hk)⟩
        · by_contra hne
          exact absurd hend (not_le.mpr (hbefore k (le_refl k) (by omega)))
      · rw [if_neg hend, ih]
        refine ⟨fun ⟨hj, hn, hbefore⟩ => ⟨by omega, hn, fun i hk hi => ?_⟩,
          fun ⟨hj, hn, hbefore⟩ => ⟨?_, hn, fun i hk hi => hbefore i (by omega) hi⟩⟩
        · rcases Nat.eq_or_lt_of_le hk with rfl | hlt
          · exact not_le.mp hend
          · exact hbefore i hlt hi
        · rcases Nat.eq_or_lt_of_le hj.1 with rfl | hlt
          · exact absurd hn hend
          · omega

/-- A clock that shows how long the call waits. -/
theorem waitsFor_iff {m : ℕ} (hcall : ∀ getCycle fuel, sysNanosleep freq getCycle fuel tm =
      some (usleepLoop getCycle (getCycle 0) m fuel 1)) (hm : m < 2 ^ 64) (hn : n < 2 ^ 64) :
    WaitsFor freq tm n ↔ m = n := by
  refine ⟨fun h => ?_, ?_⟩
  · have hclock : ∀ v < 2 ^ 64, elapsed (fun k => if k = 0 then 0 else v) 1 = v := by
      intro v hv
      rw [elapsed, if_neg one_ne_zero, if_pos rfl]
      omega
    have hends : ∀ v < 2 ^ 64, n ≤ v ↔ m ≤ v := by
      intro v hv
      have hboth := h (fun k => if k = 0 then 0 else v) 1 1
      rw [hcall, Option.some_inj, usleepLoop_eq_some_iff, hclock v hv] at hboth
      have hnone : ∀ w, ∀ i, 1 ≤ i → i < 1 → elapsed (fun k => if k = 0 then 0 else v) i < w :=
        fun w i hk hi => absurd hi (not_lt.mpr hk)
      have hin : 1 ≤ 1 ∧ 1 < 1 + 1 := ⟨le_refl 1, by omega⟩
      exact ⟨fun hle => (hboth.mpr ⟨hin, hle, hnone n⟩).2.1,
        fun hle => (hboth.mp ⟨hin, hle, hnone m⟩).2.1⟩
    have hle := (hends m hm).mpr (le_refl m)
    have hge := (hends n hn).mp (le_refl n)
    exact le_antisymm hge hle
  · rintro rfl getCycle fuel j
    rw [hcall, Option.some_inj, usleepLoop_eq_some_iff]

/-- The call waits for as many cycles as there are in the time asked for exactly if neither the
milliseconds of 32 bits nor the product with the frequency wraps around. -/
theorem sysNanosleep_waits_iff (hsec : tm.sec < 1000000000) (hlo : 1000000 ≤ freq)
    (hhi : freq < 2 ^ 30) : WaitsFor freq tm (tm.sec * freq) ↔
      tm.sec * 1000 < 2 ^ 32 ∧ tm.sec * 1000000 * freq < 2 ^ 64 := by
  obtain ⟨msec, hmsec⟩ : ∃ msec, tm.sec * 1000 % 2 ^ 32 = msec := ⟨_, rfl⟩
  have hlt : msec < 2 ^ 32 := hmsec ▸ Nat.mod_lt _ (by decide)
  have hfew : msec * 1000 % 2 ^ 64 = msec * 1000 := Nat.mod_eq_of_lt (by omega)
  have hcall : ∀ getCycle fuel, sysNanosleep freq getCycle fuel tm =
      some (usleepLoop getCycle (getCycle 0) (nopAll freq (msec * 1000)) fuel 1) := by
    intro getCycle fuel
    have hcast : tm.sec % 2 ^ 32 = tm.sec := by omega
    rw [sysNanosleep, if_neg (not_le.mpr hsec), ksleep, msleep, usleep, hcast, hmsec, hfew]
  have hbound : tm.sec * freq < 2 ^ 64 :=
    (Nat.mul_lt_mul'' hsec hhi).trans_le (by decide)
  rw [waitsFor_iff hcall ((Nat.div_le_self _ _).trans_lt (Nat.mod_lt _ (by decide))) hbound, nopAll]
  have hprod : msec * 1000 * freq ≤ tm.sec * 1000000 * freq :=
    Nat.mul_le_mul_right freq (by omega)
  refine ⟨fun heq => ?_, fun ⟨hfirst, hsecond⟩ => ?_⟩
  · have hexact : tm.sec * 1000000 * freq ≤ msec * 1000 * freq % 2 ^ 64 := by
      have hmul := Nat.mul_div_le (msec * 1000 * freq % 2 ^ 64) 1000000
      rw [heq] at hmul
      linarith
    have hmod := Nat.mod_le (msec * 1000 * freq) (2 ^ 64)
    have hlt := Nat.mod_lt (msec * 1000 * freq) (show 0 < 2 ^ 64 by decide)
    refine ⟨?_, by omega⟩
    have hle : tm.sec * 1000000 ≤ msec * 1000 :=
      Nat.le_of_mul_le_mul_right (hexact.trans hmod) (by omega)
    omega
  · have hsame : msec * 1000 = tm.sec * 1000000 := by omega
    rw [hsame, Nat.mod_eq_of_lt hsecond, Nat.mul_right_comm, Nat.mul_div_cancel _ (by decide)]

/-- Ten seconds with 400 MHz. -/
theorem sysNanosleep_ten_seconds : WaitsFor 400000000 ⟨10, 0⟩ (10 * 400000000) :=
  (sysNanosleep_waits_iff (by decide) (by decide) (by decide)).mpr ⟨by decide, by decide⟩

/-- With 400 MHz the product wraps around from 46117 seconds on. -/
theorem sysNanosleep_ends_early : ¬ WaitsFor 400000000 ⟨46117, 0⟩ (46117 * 400000000) := by
  intro h
  have hearly := (h (fun k => if k = 0 then 0 else 46117 * 400000000 - 1) 1 1).mp
    (by decide +kernel)
  exact absurd hearly.2.1 (by decide +kernel)

end Sleeping

end K210Os
