import Mathlib

/-!
# The Gregorian calendar

Days are counted from 1 January 1970, and all months by one number, twelve times the year plus the
month in it.  The first days of the years and of the months are strictly increasing sequences of
days, so that each day lies in one year and in one month.

* `date_spec`: the date of a day stands for that day.
* `monthOf_eq_iff`: the days of a month are those from its first day to that of the next month.
-/

namespace Calendar

/-! ## Years -/

/-- The years with 366 days. -/
def IsLeap (y : ℤ) : Prop := y % 4 = 0 ∧ (y % 100 ≠ 0 ∨ y % 400 = 0)

instance : DecidablePred IsLeap := fun y =>
  inferInstanceAs (Decidable (y % 4 = 0 ∧ (y % 100 ≠ 0 ∨ y % 400 = 0)))

/-- The leap years up to the year `y`, those before the year 1 counted negatively. -/
def leapYears (y : ℤ) : ℤ := y / 4 - y / 100 + y / 400

/-- The first day of a year. -/
def yearStart (y : ℤ) : ℤ := 365 * (y - 1970) + (leapYears (y - 1) - leapYears 1969)

section

variable (y d : ℤ)

/-- The next year begins 365 or 366 days later. -/
theorem yearStart_succ : yearStart (y + 1) = yearStart y + if IsLeap y then 366 else 365 := by
  simp only [yearStart, leapYears, IsLeap]
  split_ifs <;> omega

/-- The year of a day: the number of days is at most three years wrong. -/
def yearOf : ℤ :=
  let y := d * 400 / 146097 + 1969
  if d < yearStart (y + 1) then y else if d < yearStart (y + 2) then y + 1 else y + 2

/-- A day's year has begun on that day. -/
theorem yearStart_yearOf_le : yearStart (yearOf d) ≤ d := by
  rw [yearOf]
  split_ifs with h1 h2
  · -- the estimate is not too late
    simp only [yearStart, leapYears]
    omega
  · exact not_lt.mp h1
  · exact not_lt.mp h2

/-- The year after a day's year begins behind it. -/
theorem lt_yearStart_yearOf : d < yearStart (yearOf d + 1) := by
  rw [yearOf]
  split_ifs with h1 h2
  · exact h1
  · rwa [add_assoc]
  · -- it is at most two years too early
    simp only [yearStart, leapYears]
    omega

end

/-! ## Months -/

/-- The days of a month, which is counted from 0. -/
def monthLength (y : ℤ) (m : ℕ) : ℤ :=
  if m = 1 then if IsLeap y then 29 else 28
  else if m = 3 ∨ m = 5 ∨ m = 8 ∨ m = 10 then 30
  else 31

/-- The first day of a month of a year. -/
def monthStart (y : ℤ) (m : ℕ) : ℤ := yearStart y + ∑ k ∈ Finset.range m, monthLength y k

/-- The month of a day in its year. -/
def monthInYear (y d : ℤ) : ℕ := Nat.findGreatest (fun m => monthStart y m ≤ d) 11

section

variable (y d : ℤ) (m : ℕ)

/-- No month is empty. -/
theorem monthLength_pos : 0 < monthLength y m := by
  rw [monthLength]
  split_ifs <;> decide

/-- January begins with the year. -/
@[simp] theorem monthStart_zero : monthStart y 0 = yearStart y := by simp [monthStart]

/-- The next month begins when this one has passed. -/
theorem monthStart_succ : monthStart y (m + 1) = monthStart y m + monthLength y m := by
  rw [monthStart, monthStart, Finset.sum_range_succ, add_assoc]

/-- The months fill the year. -/
theorem monthStart_twelve : monthStart y 12 = yearStart (y + 1) := by
  rw [monthStart, yearStart_succ, add_right_inj]
  by_cases h : IsLeap y <;> simp [Finset.sum_range_succ, monthLength, h]

variable {y d}

/-- A day's month has begun on that day. -/
theorem monthStart_monthInYear_le (h : yearStart y ≤ d) : monthStart y (monthInYear y d) ≤ d :=
  Nat.findGreatest_spec (P := fun m => monthStart y m ≤ d) (Nat.zero_le 11)
    (by rwa [monthStart_zero])

/-- There are twelve months. -/
theorem monthInYear_lt : monthInYear y d < 12 :=
  Nat.lt_succ_of_le (Nat.findGreatest_le 11)

/-- The month after a day's month begins behind it. -/
theorem lt_monthStart_monthInYear (h : d < yearStart (y + 1)) :
    d < monthStart y (monthInYear y d + 1) := by
  rcases Nat.lt_or_ge (monthInYear y d) 11 with hlt | hge
  · exact not_le.mp (Nat.findGreatest_is_greatest (Nat.lt_succ_self _) hlt)
  · have heq : monthInYear y d = 11 := by
      have := monthInYear_lt (y := y) (d := d)
      omega
    rwa [heq, monthStart_twelve]

end

/-! ## All months -/

/-- The first day of a month, of all months. -/
def monthBegin (i : ℤ) : ℤ := monthStart (i / 12) (i % 12).toNat

/-- The month of a day. -/
def monthOf (d : ℤ) : ℤ := 12 * yearOf d + monthInYear (yearOf d) d

section

variable (d i : ℤ)

/-- The months of a year, by their number in it. -/
theorem monthBegin_of_lt {m : ℕ} (y : ℤ) (h : m < 12) :
    monthBegin (12 * y + m) = monthStart y m := by
  rw [monthBegin, show (12 * y + m) / 12 = y by omega, show ((12 * y + m) % 12).toNat = m by omega]

/-- A month is followed by the next one of its year, or by the first of the next year. -/
theorem monthBegin_succ :
    monthBegin (i + 1) = monthBegin i + monthLength (i / 12) (i % 12).toNat := by
  rw [monthBegin, monthBegin, ← monthStart_succ]
  -- the twelfth month of a year ends where the next year starts
  rcases eq_or_ne (i % 12) 11 with h | h
  · rw [show (i + 1) / 12 = i / 12 + 1 by omega, show (i + 1) % 12 = 0 by omega, h]
    exact (monthStart_zero _).trans (monthStart_twelve _).symm
  · rw [show (i + 1) / 12 = i / 12 by omega,
      show ((i + 1) % 12).toNat = (i % 12).toNat + 1 by omega]

/-- The months follow each other. -/
theorem monthBegin_strictMono : StrictMono monthBegin := by
  refine strictMono_int_of_lt_succ fun i => ?_
  rw [monthBegin_succ]
  exact lt_add_of_pos_right _ (monthLength_pos _ _)

/-- A day's month, counted through all years, has begun on that day. -/
theorem monthBegin_monthOf_le : monthBegin (monthOf d) ≤ d := by
  rw [monthOf, monthBegin_of_lt _ monthInYear_lt]
  exact monthStart_monthInYear_le (yearStart_yearOf_le d)

/-- The month after it begins behind the day. -/
theorem lt_monthBegin_monthOf : d < monthBegin (monthOf d + 1) := by
  rw [monthBegin_succ, monthOf, monthBegin_of_lt _ monthInYear_lt]
  have hlt := monthInYear_lt (y := yearOf d) (d := d)
  rw [show (12 * yearOf d + (monthInYear (yearOf d) d : ℤ)) / 12 = yearOf d by omega,
    show ((12 * yearOf d + (monthInYear (yearOf d) d : ℤ)) % 12).toNat = monthInYear (yearOf d) d
      by omega, ← monthStart_succ]
  exact lt_monthStart_monthInYear (lt_yearStart_yearOf d)

variable {d i}

/-- The days of a month. -/
theorem monthOf_eq_iff : monthOf d = i ↔ monthBegin i ≤ d ∧ d < monthBegin (i + 1) := by
  constructor
  · rintro rfl
    exact ⟨monthBegin_monthOf_le d, lt_monthBegin_monthOf d⟩
  · -- the first days of months are in order, so that there is no other such month
    rintro ⟨hle, hlt⟩
    have h1 := monthBegin_strictMono.lt_iff_lt.mp ((monthBegin_monthOf_le d).trans_lt hlt)
    have h2 := monthBegin_strictMono.lt_iff_lt.mp (hle.trans_lt (lt_monthBegin_monthOf d))
    omega

/-- A later day has no earlier month. -/
theorem monthOf_mono : Monotone monthOf := by
  intro a b hab
  by_contra hlt
  have hle := monthBegin_strictMono.monotone (Int.add_one_le_of_lt (not_le.mp hlt))
  have ha := monthBegin_monthOf_le a
  have hb := lt_monthBegin_monthOf b
  omega

end

/-! ## Dates -/

/-- A day of the calendar; months are counted from 0 and days from 1. -/
structure Date where
  year : ℤ
  month : ℕ
  day : ℕ
  month_lt : month < 12
  day_pos : 0 < day
  day_le : (day : ℤ) ≤ monthLength year month

namespace Date

/-- The day that a date stands for. -/
def toDay (a : Date) : ℤ := monthStart a.year a.month + (a.day - 1)

/-- The date of a day. -/
def ofDay (d : ℤ) : Date where
  year := yearOf d
  month := monthInYear (yearOf d) d
  day := (d - monthStart (yearOf d) (monthInYear (yearOf d) d)).toNat + 1
  month_lt := monthInYear_lt
  day_pos := Nat.succ_pos _
  day_le := by
    have hle := monthStart_monthInYear_le (yearStart_yearOf_le d)
    have hlt := lt_monthStart_monthInYear (lt_yearStart_yearOf d)
    rw [monthStart_succ] at hlt
    omega

/-- The date of a day stands for it. -/
theorem toDay_ofDay (d : ℤ) : (ofDay d).toDay = d := by
  have hle := monthStart_monthInYear_le (yearStart_yearOf_le d)
  simp only [toDay, ofDay]
  omega

/-- The 29th of February of the year 2000. -/
example : ((ofDay 11016).year, (ofDay 11016).month, (ofDay 11016).day) = (2000, 1, 29) := by decide

end Date

end Calendar
