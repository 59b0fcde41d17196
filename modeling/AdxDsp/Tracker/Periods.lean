import AdxDsp.Lib.Calendar
import AdxDsp.Tracker.Command

/-!
# The calendar functions at a fixed offset

Where local time is UTC and a fixed number of seconds, `localtime_r` and `mktime` are the Gregorian
calendar, and the functions of `adx_time.c` can be compared with the hours, days, weeks and months
that they are meant for.

* `getEnddatetime_spec`: the end of a frequency period is its last second.
* `secondsToEnd_iff`: the times at which the pauses end with their periods.
-/

namespace AdxDsp

open CText Calendar

/-! ## Local time -/

/-- `localtime_r`, for local time that is UTC plus `off` seconds. -/
def localtimeAt (off t : ℤ) : Tm :=
  let date := Date.ofDay ((t + off) / 86400)
  let second := ((t + off) % 86400).toNat
  { year := date.year - 1900
    mon := date.month
    mday := date.day
    hour := second / 3600
    min := second % 3600 / 60
    sec := second % 60
    wday := (((t + off) / 86400 + 4) % 7).toNat }

/-- `mktime`: a month behind the last one is one of the next year, and a day behind the last one of
the next month. -/
def mktimeAt (off : ℤ) (tm : Tm) : ℤ :=
  (monthBegin (12 * (tm.year + 1900) + tm.mon) + (tm.mday - 1)) * 86400 +
    tm.hour * 3600 + tm.min * 60 + tm.sec - off

/-- The C library with that calendar. -/
def CLib.fixedOffset (lib : CLib) (off : ℤ) : CLib :=
  { lib with localtime := localtimeAt off, mktime := mktimeAt off }

/-- The number of a frequency period: the hours, days, weeks from Monday to Sunday, and months. -/
def periodIndex (off frequencyperiod t : ℤ) : ℤ :=
  if frequencyperiod = 1 then (t + off) / 3600
  else if frequencyperiod = 2 then (t + off) / 86400
  else if frequencyperiod = 3 then ((t + off) / 86400 + 3) / 7
  else if frequencyperiod = 4 then monthOf ((t + off) / 86400)
  else 0

section

variable (lib : CLib) (off t : ℤ)

/-- The day of a local time that is changed within its month. -/
theorem mktimeAt_localtimeAt (mday hour min sec : ℕ) :
    mktimeAt off { localtimeAt off t with mday := mday, hour := hour, min := min, sec := sec } =
      (monthBegin (monthOf ((t + off) / 86400)) + (mday - 1)) * 86400 +
        hour * 3600 + min * 60 + sec - off := by
  have hmonth : 12 * ((localtimeAt off t).year + 1900) + ((localtimeAt off t).mon : ℤ) =
      monthOf ((t + off) / 86400) := by
    simp only [localtimeAt, Date.ofDay, monthOf]
    omega
  rw [mktimeAt, hmonth]

/-- The first day of the month and the day in it make the day. -/
theorem monthBegin_add_mday :
    monthBegin (monthOf ((t + off) / 86400)) + ((localtimeAt off t).mday - 1) =
      (t + off) / 86400 := by
  have h := Date.toDay_ofDay ((t + off) / 86400)
  rw [monthOf, monthBegin_of_lt _ monthInYear_lt]
  exact h

/-- A local time that is changed within its day. -/
theorem mktimeAt_time (hour min sec : ℕ) :
    mktimeAt off { localtimeAt off t with hour := hour, min := min, sec := sec } =
      (t + off) / 86400 * 86400 + hour * 3600 + min * 60 + sec - off := by
  have h := mktimeAt_localtimeAt off t (localtimeAt off t).mday hour min sec
  rwa [monthBegin_add_mday] at h

/-! ## The ends of the periods -/

/-- The last second of the hour. -/
theorem getTimeHourEnd_eq :
    getTimeHourEnd (lib.fixedOffset off) t = (t + off) / 3600 * 3600 + 3599 - off := by
  refine (mktimeAt_time off t (localtimeAt off t).hour 59 59).trans ?_
  simp only [localtimeAt]
  omega

/-- The last second of the day. -/
theorem getTimeDayEnd_eq :
    getTimeDayEnd (lib.fixedOffset off) t = (t + off) / 86400 * 86400 + 86399 - off := by
  refine (mktimeAt_time off t 23 59 59).trans ?_
  omega

/-- The weekday is 0 on the last day of a week; on the other days the end is that of a later one. -/
theorem getTimeWeekEnd_eq :
    getTimeWeekEnd (lib.fixedOffset off) t =
      (((t + off) / 86400 + 3) / 7 * 7 + 3) * 86400 + 86399 - off := by
  have hwday : ((lib.fixedOffset off).localtime t).wday = (((t + off) / 86400 + 4) % 7).toNat := rfl
  rw [getTimeWeekEnd, getTimeDayEnd_eq, getTimeDayEnd_eq, hwday]
  split_ifs with h
  · omega
  · have hday : (t + (7 - ((((t + off) / 86400 + 4) % 7).toNat : ℤ)) * 86400 + off) / 86400 =
        (t + off) / 86400 + (7 - (((t + off) / 86400 + 4) % 7).toNat) := by
      omega
    rw [hday]
    omega

/-- The end of December is taken in the month itself, that of the other months as a day before the
first day of the next one. -/
theorem getTimeMonthEnd_eq :
    getTimeMonthEnd (lib.fixedOffset off) t =
      monthBegin (monthOf ((t + off) / 86400) + 1) * 86400 - 1 - off := by
  have hmon : ((lib.fixedOffset off).localtime t).mon =
      (monthOf ((t + off) / 86400) % 12).toNat := by
    have hlt := monthInYear_lt (y := yearOf ((t + off) / 86400)) (d := (t + off) / 86400)
    change monthInYear (yearOf ((t + off) / 86400)) ((t + off) / 86400) = _
    rw [monthOf]
    omega
  rw [getTimeMonthEnd]
  split_ifs with h
  · refine (mktimeAt_localtimeAt off t 31 23 59 59).trans ?_
    have hlen : monthLength (monthOf ((t + off) / 86400) / 12) 11 = 31 := rfl
    rw [monthBegin_succ, ← hmon, h, hlen]
    omega
  · have hnext : 12 * ((localtimeAt off t).year + 1900) + (((localtimeAt off t).mon + 1 : ℕ) : ℤ) =
        monthOf ((t + off) / 86400) + 1 := by
      simp only [localtimeAt, Date.ofDay, monthOf]
      omega
    change mktimeAt off { localtimeAt off t with
      mon := (localtimeAt off t).mon + 1, mday := 1, hour := 23, min := 59, sec := 59 } - 86400 = _
    rw [mktimeAt, hnext]
    dsimp only
    omega

/-- The end of a period is not over, belongs to it, and is its last second. -/
theorem getEnddatetime_spec {frequencyperiod : ℤ} (frequencyendtime : ℤ)
    (h : 1 ≤ frequencyperiod ∧ frequencyperiod ≤ 4) :
    t ≤ getEnddatetime (lib.fixedOffset off) t frequencyperiod frequencyendtime ∧
      periodIndex off frequencyperiod
          (getEnddatetime (lib.fixedOffset off) t frequencyperiod frequencyendtime) =
        periodIndex off frequencyperiod t ∧
      periodIndex off frequencyperiod
          (getEnddatetime (lib.fixedOffset off) t frequencyperiod frequencyendtime + 1) =
        periodIndex off frequencyperiod t + 1 := by
  -- an hour, a day, a week or a month
  obtain rfl | rfl | rfl | rfl : frequencyperiod = 1 ∨ frequencyperiod = 2 ∨ frequencyperiod = 3 ∨
      frequencyperiod = 4 := by omega
  · rw [getEnddatetime, if_pos rfl, getTimeHourEnd_eq]
    simp only [periodIndex, if_pos]
    omega
  · rw [getEnddatetime, if_neg (by decide), if_pos rfl, getTimeDayEnd_eq]
    simp only [periodIndex]
    norm_num
    omega
  · rw [getEnddatetime, if_neg (by decide), if_neg (by decide), if_pos rfl, getTimeWeekEnd_eq]
    simp only [periodIndex]
    norm_num
    omega
  · rw [getEnddatetime, if_neg (by decide), if_neg (by decide), if_neg (by decide), if_pos rfl,
      getTimeMonthEnd_eq]
    -- the end of a month is the second before the next one begins
    have hlast : (monthBegin (monthOf ((t + off) / 86400) + 1) * 86400 - 1 - off + off) / 86400 =
        monthBegin (monthOf ((t + off) / 86400) + 1) - 1 := by omega
    have hnext :
        (monthBegin (monthOf ((t + off) / 86400) + 1) * 86400 - 1 - off + 1 + off) / 86400 =
          monthBegin (monthOf ((t + off) / 86400) + 1) := by omega
    have hlt := lt_monthBegin_monthOf ((t + off) / 86400)
    have hle := monthBegin_monthOf_le ((t + off) / 86400)
    have hmono := monthBegin_strictMono (lt_add_one (monthOf ((t + off) / 86400)))
    have hmono' := monthBegin_strictMono (lt_add_one (monthOf ((t + off) / 86400) + 1))
    have hindex : ∀ u, periodIndex off 4 u = monthOf ((u + off) / 86400) := fun u => rfl
    rw [hindex, hindex, hindex, hlast, hnext, monthOf_eq_iff, monthOf_eq_iff]
    omega

/-- A later time has no earlier period. -/
theorem periodIndex_mono (frequencyperiod : ℤ) : Monotone (periodIndex off frequencyperiod) := by
  intro a b hab
  have hday : (a + off) / 86400 ≤ (b + off) / 86400 := by omega
  unfold periodIndex
  split_ifs
  · omega
  · exact hday
  · omega
  · exact monthOf_mono hday
  · exact le_rfl

/-- Two times have one end of period if and only if they lie in one period. -/
theorem getEnddatetime_eq_iff {frequencyperiod : ℤ} (u frequencyendtime : ℤ)
    (h : 1 ≤ frequencyperiod ∧ frequencyperiod ≤ 4) :
    getEnddatetime (lib.fixedOffset off) t frequencyperiod frequencyendtime =
        getEnddatetime (lib.fixedOffset off) u frequencyperiod frequencyendtime ↔
      periodIndex off frequencyperiod t = periodIndex off frequencyperiod u := by
  have ht := getEnddatetime_spec lib off t frequencyendtime h
  have hu := getEnddatetime_spec lib off u frequencyendtime h
  constructor
  · intro heq
    rw [← ht.2.1, heq, hu.2.1]
  · intro heq
    -- the second after the earlier end lies in the next period
    rcases lt_trichotomy (getEnddatetime (lib.fixedOffset off) t frequencyperiod frequencyendtime)
      (getEnddatetime (lib.fixedOffset off) u frequencyperiod frequencyendtime) with hlt | he | hlt
    · have := periodIndex_mono off frequencyperiod (Int.add_one_le_of_lt hlt)
      omega
    · exact he
    · have := periodIndex_mono off frequencyperiod (Int.add_one_le_of_lt hlt)
      omega

/-- A calendar in UTC. -/
def utcLib : CLib where
  localtime := localtimeAt 0
  mktime := mktimeAt 0
  atof _ := 0
  formatF _ := []

/-- The month of the 29th of February of a leap year, eight hours east of UTC. -/
theorem getEnddatetime_leapYear :
    1456675200 ≤ getEnddatetime (utcLib.fixedOffset 28800) 1456675200 4 0 ∧
      periodIndex 28800 4 (getEnddatetime (utcLib.fixedOffset 28800) 1456675200 4 0) =
        periodIndex 28800 4 1456675200 ∧
      periodIndex 28800 4 (getEnddatetime (utcLib.fixedOffset 28800) 1456675200 4 0 + 1) =
        periodIndex 28800 4 1456675200 + 1 :=
  getEnddatetime_spec utcLib 28800 1456675200 0 (by decide)

/-! ## The seconds to the ends -/

/-- A pause of `ttl` seconds from `t` on is over with its period, one of `len` seconds. -/
structure EndsInTime (len ttl : ℤ) : Prop where
  pos : 0 < ttl
  le : ttl ≤ len - (t + off) % len
  period : ∀ u, t ≤ u → u < t + ttl → (u + off) / len = (t + off) / len

variable {lib off t}

/-- A lifetime ends in time just if it is positive and no longer than the rest of the period. -/
theorem endsInTime_iff {len ttl : ℤ} (hlen : 0 < len) :
    EndsInTime off t len ttl ↔ 0 < ttl ∧ ttl ≤ len - (t + off) % len := by
  refine ⟨fun h => ⟨h.pos, h.le⟩, fun ⟨hpos, hle⟩ => ⟨hpos, hle, fun u hlo hhi => ?_⟩⟩
  have hdiv := Int.mul_ediv_add_emod (t + off) len
  have hmod := Int.emod_nonneg (t + off) hlen.ne'
  rw [Int.ediv_eq_iff_of_pos hlen]
  constructor <;> nlinarith

/-- The seconds to the end of the day, from which those of the minute are not taken off. -/
theorem getTimeSecTodayEnd_eq :
    getTimeSecTodayEnd (lib.fixedOffset off) t = 86400 - (t + off) % 86400 + (t + off) % 60 := by
  change (23 - ((localtimeAt off t).hour : ℤ)) * 3600 + (60 - (localtimeAt off t).min) * 60 = _
  simp only [localtimeAt]
  omega

/-- The seconds to the end of the hour. -/
theorem getTimeSecHourEnd_eq :
    getTimeSecHourEnd (lib.fixedOffset off) t = 3600 - (t + off) % 3600 := by
  change (60 - ((localtimeAt off t).min : ℤ)) * 60 - (localtimeAt off t).sec = _
  simp only [localtimeAt]
  omega

/-- The seconds to the end of the ten minutes. -/
theorem getTimeSec10minEnd_eq :
    getTimeSec10minEnd (lib.fixedOffset off) t = 600 - (t + off) % 600 := by
  change 600 - (((localtimeAt off t).min % 10 : ℕ) * 60 + ((localtimeAt off t).sec : ℤ)) = _
  simp only [localtimeAt]
  omega

/-- The seconds of the current minute are not taken off from those to midnight. -/
theorem secondsToEnd_iff :
    (EndsInTime off t 86400 (getTimeSecTodayEnd (lib.fixedOffset off) t) ∧
        EndsInTime off t 3600 (getTimeSecHourEnd (lib.fixedOffset off) t) ∧
        EndsInTime off t 600 (getTimeSec10minEnd (lib.fixedOffset off) t)) ↔
      (t + off) % 60 = 0 := by
  rw [endsInTime_iff (by decide), endsInTime_iff (by decide), endsInTime_iff (by decide),
    getTimeSecTodayEnd_eq, getTimeSecHourEnd_eq, getTimeSec10minEnd_eq]
  omega

/-- One second after midnight in UTC, a pause of the day is one second too long. -/
theorem not_secondsToEnd_midnight :
    ¬(EndsInTime 0 1 86400 (getTimeSecTodayEnd (utcLib.fixedOffset 0) 1) ∧
      EndsInTime 0 1 3600 (getTimeSecHourEnd (utcLib.fixedOffset 0) 1) ∧
      EndsInTime 0 1 600 (getTimeSec10minEnd (utcLib.fixedOffset 0) 1)) := by
  rintro ⟨hday, -, -⟩
  have hle := hday.le
  rw [getTimeSecTodayEnd_eq] at hle
  omega

end

end AdxDsp
