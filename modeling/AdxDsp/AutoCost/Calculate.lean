import AdxDsp.Lib.Doubles
import AdxDsp.Tracker.Pacing

/-!
# The automatic price calculation of a policy

`auto_cost_policy_calculate` compares the day limits of a policy with its counters, and publishes
what the next ten minutes are to bring and by how much the price is to change for it.

* **The shares** (`value_share`): what is left of a day limit for each of the slots left.
* **The message** (`value_message_cases`): when it is published, and what it says.
* **The divisions** (`dividesByZero_calculate_iff`): the click-through rate of the limits is
  calculated without an impression limit too.
-/

namespace AdxDsp.AutoCost

open CText Redis Calculation

/-! ## The program -/

/-- The node of a policy in the cache: its key and its control record. -/
structure PolicyNode where
  key : ℤ
  control : Control

/-- The numbers that `HGET` gives for a key and a field, 0 where there is none. -/
abbrev Counters := Bytes → Bytes → ℤ

/-- The fields of the text that is published, in their order. -/
structure Message where
  policyid : ℤ
  completeTime : ℤ
  surplus10min : ℤ
  countKey : Bytes
  dailyImpKpi : ℤ
  dailyImpCount : ℤ
  dailyClkKpi : ℤ
  dailyClkCount : ℤ
  this10minImpCount : ℤ
  this10minClkCount : ℤ
  next10minImpKpi : ℤ
  next10minClkKpi : ℤ
  ctrKpi : Double
  ctrCur : Double
  coefCost : Double

/-- A whole number as a double. -/
def ofInt (n : ℤ) : Double := some n

/-- `adx_except_ceil`. -/
def adxExceptCeil (x y : ℤ) : Calculation ℤ :=
  if x ≤ 0 ∨ y ≤ 0 then return 0
  else do
    let q ← divide (ofInt x) (ofInt y)
    return q.ceil

/-- `d_imp_p_(policyid)_(day)`, with the id as `%d`. -/
def impField (policyid : ℤ) (day : Bytes) : Bytes :=
  bytes "d_imp_p_" ++ decimal policyid ++ bytes "_" ++ day

/-- `d_clk_p_(policyid)_(day)`, with the id as `%d`. -/
def clkField (policyid : ℤ) (day : Bytes) : Bytes :=
  bytes "d_clk_p_" ++ decimal policyid ++ bytes "_" ++ day

/-- A limit of -1 or 0 becomes 0. -/
def dailyKpi (limit : ℤ) : ℤ := if limit ≤ 0 then 0 else limit

/-- The allowed hours of the day after the current one. -/
def surplusHour (allowtimeDay : ℤ) (hour : ℕ) : ℕ :=
  ((List.range 24).filter fun i => decide (hour < i) && hourAllowed allowtimeDay i).length

/-- The slot of ten minutes before another one. -/
def lastSlot (slot : ℕ) : ℕ := if slot = 0 then 5 else slot - 1

/-- The click-through rates of the limits and of the counters. -/
def calculateCtr (dailyImpKpi dailyImpCount dailyClkKpi dailyClkCount : ℤ) :
    Calculation (Double × Double) :=
  if dailyImpKpi ≥ 0 ∧ dailyImpCount ≥ 0 then do
    let ctrKpi ← divide (ofInt dailyClkKpi) (ofInt dailyImpKpi)
    let ctrCur ← divide (ofInt dailyClkCount) (ofInt dailyImpCount)
    return (ctrKpi, ctrCur)
  else return (ofInt 0, ofInt 0)

/-- The coefficient of the price. -/
def calculateCoef (next10minImpKpi next10minClkKpi this10minImpCount this10minClkCount
    completeTime : ℤ) : Calculation Double :=
  let coefCost := if this10minImpCount ≤ 0 ∨ this10minClkCount ≤ 0 then ofInt 2 else ofInt 0
  if coefCost = ofInt 0 then do
    let impRate ← divide (ofInt this10minImpCount) (ofInt completeTime)
    let coefImp ← divide (ofInt next10minImpKpi) (impRate.scale 600)
    let clkRate ← divide (ofInt this10minClkCount) (ofInt completeTime)
    let coefClk ← divide (ofInt next10minClkKpi) (clkRate.scale 600)
    return coefImp.larger coefClk
  else return coefCost

section

variable (lib : CLib) (clk : ℕ → ℤ) (day : Bytes) (counters : Counters) (node : PolicyNode)

/-- The second half of `auto_cost_policy_calculate`, for a policy that is delivering: the
calculation of the message. -/
def calculateMessage (policyid completeTime allowtimeDay dailyImpKpi dailyImpCount dailyClkKpi
    dailyClkCount : ℤ) : Calculation (Option Message) := do
  let this10min := lastSlot (timeHour10m lib (clk 1))
  let this10minImpCount :=
    counters (dsp10minutecounterKey policyid this10min) (bytes "imp_count")
  let this10minClkCount :=
    counters (dsp10minutecounterKey policyid this10min) (bytes "clk_count")
  let ctr ← calculateCtr dailyImpKpi dailyImpCount dailyClkKpi dailyClkCount
  let surplus10min : ℤ := surplusHour allowtimeDay (getTimeHour lib (clk 2)) * 6 +
    (6 - timeHour10m lib (clk 3))
  if surplus10min ≤ 0 then return none
  else
    let next10minImpKpi ← adxExceptCeil (toInt32 (dailyImpKpi - dailyImpCount)) surplus10min
    let next10minClkKpi ← adxExceptCeil (toInt32 (dailyClkKpi - dailyClkCount)) surplus10min
    if next10minImpKpi ≤ 0 ∧ next10minClkKpi ≤ 0 then return none
    else
      let coefCost ← calculateCoef next10minImpKpi next10minClkKpi this10minImpCount
        this10minClkCount completeTime
      return some {
        policyid, completeTime, surplus10min
        countKey := bytes "auto_cost_bid_" ++ decimal policyid ++ bytes "_" ++
          getTimeStrMonthDay lib (clk 4) (bytes "_")
        dailyImpKpi, dailyImpCount, dailyClkKpi, dailyClkCount
        this10minImpCount, this10minClkCount, next10minImpKpi, next10minClkKpi
        ctrKpi := ctr.1
        ctrCur := ctr.2
        coefCost }

/-- `auto_cost_policy_calculate`, with the message that it publishes.  The clock is read five
times, and `day` is the argument `TIME_MONTH_DAY`. -/
def autoCostPolicyCalculate : Calculation (Option Message) :=
  let policyid := toInt32 node.key
  let campaignid := toInt32 (node.control.number (bytes "campaignid"))
  let completeTime := toInt32 (node.control.number (bytes "complete_time"))
  let dailyImpKpi := toInt32 (node.control.number (bytes "dayimp_" ++ day))
  let dailyClkKpi := toInt32 (node.control.number (bytes "dayclk_" ++ day))
  let allowtimeDay := toInt32 (node.control.number (bytes "allowtime_" ++ day))
  if campaignid ≤ 0 ∨ completeTime ≤ 0 ∨ allowtimeDay ≤ 0 then return none
  else if ¬hourAllowed allowtimeDay (getTimeHour lib (clk 0)) then return none
  else
    let dailyImpCount := counters (dspcounterKey campaignid) (impField policyid day)
    let dailyClkCount := counters (dspcounterKey campaignid) (clkField policyid day)
    if dailyImpCount ≤ 0 ∨ dailyClkCount ≤ 0 then return none
    else
      calculateMessage lib clk counters policyid completeTime allowtimeDay (dailyKpi dailyImpKpi)
        dailyImpCount (dailyKpi dailyClkKpi) dailyClkCount

end

/-! ## What a run is to do -/

section

variable (lib : CLib) (clk : ℕ → ℤ) (day : Bytes) (counters : Counters) (node : PolicyNode)

/-- All values fit an `int`, and counters are not negative. -/
structure IntValues : Prop where
  key : -2 ^ 31 ≤ node.key ∧ node.key < 2 ^ 31
  control : ∀ k, -2 ^ 31 ≤ node.control.number k ∧ node.control.number k < 2 ^ 31
  counters : ∀ k f, 0 ≤ counters k f ∧ counters k f < 2 ^ 31

namespace PolicyNode

/-- The campaign of the policy. -/
def campaignid : ℤ := node.control.number (bytes "campaignid")

/-- The seconds in which the policy had used up its part of the interval. -/
def completeTime : ℤ := node.control.number (bytes "complete_time")

/-- The allowed hours of the day. -/
def allowtime : ℤ := node.control.number (bytes "allowtime_" ++ day)

/-- The limit of the impressions of the day. -/
def impLimit : ℤ := node.control.number (bytes "dayimp_" ++ day)

/-- The limit of the clicks of the day. -/
def clkLimit : ℤ := node.control.number (bytes "dayclk_" ++ day)

/-- The impressions of the day. -/
def impCount : ℤ := counters (dspcounterKey node.campaignid) (impField node.key day)

/-- The clicks of the day. -/
def clkCount : ℤ := counters (dspcounterKey node.campaignid) (clkField node.key day)

/-- A counter of the ten minutes before those of the time `t`. -/
def lastCount (t : ℤ) (what : Bytes) : ℤ :=
  counters (dsp10minutecounterKey node.key ((timeHour10m lib t + 5) % 6)) what

/-- The policy is delivering: its record is complete, the hour is allowed, and it has impressions
and clicks. -/
structure Delivering : Prop where
  campaignid : 0 < node.campaignid
  completeTime : 0 < node.completeTime
  allowtime : 0 < node.allowtime day
  hour : hourAllowed (node.allowtime day) (getTimeHour lib (clk 0)) = true
  impCount : 0 < node.impCount day counters
  clkCount : 0 < node.clkCount day counters

/-- The ten-minute slots that are left. -/
def slots : ℤ :=
  remainingSlots (node.allowtime day) (getTimeHour lib (clk 2)) (timeHour10m lib (clk 3))

end PolicyNode

/-- A limit is set and not reached. -/
def LimitLeft (limit count : ℤ) : Prop := 0 < limit ∧ count < limit

/-- The share of one slot in what is left of a limit. -/
def share (limit count slots : ℤ) : ℤ :=
  if 0 < limit then ⌈(max 0 (limit - count) : ℚ) / slots⌉ else 0

/-- What a slot is to bring, compared with what the last one has brought in the time that its
share has taken. -/
def ratio (share count completeTime : ℤ) : ℚ := share / count * (completeTime / 600)

/-- A run divides by nothing but numbers other than zero, and publishes what the limits and the
counters say. -/
structure Meets : Prop where
  neverByZero : ¬(autoCostPolicyCalculate lib clk day counters node).DividesByZero
  publishes : (autoCostPolicyCalculate lib clk day counters node).value.isSome ↔
    node.Delivering lib clk day counters ∧
      (LimitLeft (node.impLimit day) (node.impCount day counters) ∨
        LimitLeft (node.clkLimit day) (node.clkCount day counters))
  shares : ∀ m ∈ (autoCostPolicyCalculate lib clk day counters node).value,
    m.next10minImpKpi = share (node.impLimit day) (node.impCount day counters)
      (node.slots lib clk day) ∧
    m.next10minClkKpi = share (node.clkLimit day) (node.clkCount day counters)
      (node.slots lib clk day)
  coef : ∀ m ∈ (autoCostPolicyCalculate lib clk day counters node).value,
    m.coefCost = some (
      if node.lastCount lib counters (clk 1) (bytes "imp_count") = 0 ∨
          node.lastCount lib counters (clk 1) (bytes "clk_count") = 0 then 2
      else max
        (ratio m.next10minImpKpi (node.lastCount lib counters (clk 1) (bytes "imp_count"))
          node.completeTime)
        (ratio m.next10minClkKpi (node.lastCount lib counters (clk 1) (bytes "clk_count"))
          node.completeTime))

end

/-! ## The shares -/

section

variable {x y limit count slots : ℤ}

/-- The quotient of two integers. -/
theorem quotient_ofInt (hy : y ≠ 0) :
    Double.quotient (ofInt x, ofInt y) = some ((x : ℚ) / y) :=
  Double.quotient_some (Int.cast_ne_zero.mpr hy)

/-- A double is zero just if its integer is. -/
theorem ofInt_eq_zero_iff : ofInt x = some 0 ↔ x = 0 := by simp [ofInt]

/-- `adxExceptCeil` checks its divisor. -/
theorem not_dividesByZero_adxExceptCeil : ¬(adxExceptCeil x y).DividesByZero := by
  rw [adxExceptCeil]
  split_ifs with h
  · exact not_dividesByZero_ret _
  · have hy : y ≠ 0 := by omega
    simp [ofInt_eq_zero_iff, hy]

/-- A part of what is left, rounded up. -/
theorem value_adxExceptCeil (hy : 0 < y) :
    (adxExceptCeil x y).value = ⌈(max 0 x : ℚ) / y⌉ := by
  rw [adxExceptCeil]
  split_ifs with h
  · -- nothing is left
    have hx : (x : ℚ) ≤ 0 := by exact_mod_cast h.resolve_right hy.not_ge
    rw [Prog.pure_eq_ret, value_ret, max_eq_left hx, zero_div, Int.ceil_zero]
  · have hx : (0 : ℚ) ≤ x := by exact_mod_cast (not_le.mp (not_or.mp h).1).le
    rw [value_bind, value_divide, quotient_ofInt hy.ne', Prog.pure_eq_ret, value_ret,
      Double.ceil_some, max_eq_right hx]

/-- What the code makes of a limit and a counter is the share of the slot. -/
theorem value_share (hlimit : limit < 2 ^ 31) (hcount : 0 < count) (hint : count < 2 ^ 31)
    (hslots : 0 < slots) :
    (adxExceptCeil (toInt32 (dailyKpi limit - count)) slots).value = share limit count slots := by
  have hkpi : 0 ≤ dailyKpi limit ∧ dailyKpi limit < 2 ^ 31 := by
    rw [dailyKpi]
    split_ifs <;> omega
  rw [toInt32_of_bounds (by omega) (by omega), value_adxExceptCeil hslots, share]
  split_ifs with h
  · rw [dailyKpi, if_neg (not_le.mpr h), Int.cast_sub]
  · -- without a limit the difference is negative
    have hneg : ((dailyKpi limit - count : ℤ) : ℚ) ≤ 0 := by
      rw [dailyKpi, if_pos (not_lt.mp h)]
      exact_mod_cast (by omega : 0 - count ≤ 0)
    rw [max_eq_left hneg, zero_div, Int.ceil_zero]

/-- There is a share just while the limit is not reached. -/
theorem share_pos_iff (hslots : 0 < slots) : 0 < share limit count slots ↔
    LimitLeft limit count := by
  have hs : (0 : ℚ) < slots := Int.cast_pos.mpr hslots
  rw [share, LimitLeft]
  split_ifs with h
  · rw [Int.ceil_pos, div_pos_iff_of_pos_right hs, lt_max_iff, sub_pos, Int.cast_lt]
    simp [h]
  · simp [h]

end

/-! ## The coefficient and the rates -/

section

variable {nextImp nextClk thisImp thisClk completeTime : ℤ}

/-- With data of the last slot, both ratios are calculated. -/
theorem calculateCoef_of_pos (himp : 0 < thisImp) (hclk : 0 < thisClk) :
    calculateCoef nextImp nextClk thisImp thisClk completeTime = (do
      let impRate ← divide (ofInt thisImp) (ofInt completeTime)
      let coefImp ← divide (ofInt nextImp) (impRate.scale 600)
      let clkRate ← divide (ofInt thisClk) (ofInt completeTime)
      let coefClk ← divide (ofInt nextClk) (clkRate.scale 600)
      return coefImp.larger coefClk) := by
  have hpos : ¬(thisImp ≤ 0 ∨ thisClk ≤ 0) := by omega
  rw [calculateCoef, if_neg hpos]
  exact if_pos rfl

/-- Without data of the last slot, the coefficient is 2. -/
theorem calculateCoef_of_not_pos (h : thisImp ≤ 0 ∨ thisClk ≤ 0) :
    calculateCoef nextImp nextClk thisImp thisClk completeTime = Prog.ret (ofInt 2) := by
  have hne : ofInt 2 ≠ ofInt 0 := by simp [ofInt]
  rw [calculateCoef, if_pos h]
  exact if_neg hne

/-- Where something was counted the rate is not zero. -/
theorem rate_ne_zero (hcount : 0 < thisImp) (htime : 0 < completeTime) :
    (thisImp : ℚ) / completeTime * 600 ≠ 0 := by
  have hc : (0 : ℚ) < thisImp := Int.cast_pos.mpr hcount
  have ht : (0 : ℚ) < completeTime := Int.cast_pos.mpr htime
  positivity

/-- The ratio of the next interval to the rate of the last one. -/
theorem quotient_rate (hcount : 0 < thisImp) (htime : 0 < completeTime) :
    Double.quotient (ofInt nextImp,
      (Double.quotient (ofInt thisImp, ofInt completeTime)).scale 600) =
        some (ratio nextImp thisImp completeTime) := by
  have hc : (thisImp : ℚ) ≠ 0 := Int.cast_ne_zero.mpr hcount.ne'
  have ht : (completeTime : ℚ) ≠ 0 := Int.cast_ne_zero.mpr htime.ne'
  rw [quotient_ofInt htime.ne', Double.scale_some, ofInt,
    Double.quotient_some (rate_ne_zero hcount htime), ratio]
  congr 1
  field_simp

/-- The coefficient: 2 where one counter is zero, else the larger ratio. -/
theorem value_calculateCoef (himp : 0 ≤ thisImp) (hclk : 0 ≤ thisClk) (htime : 0 < completeTime) :
    (calculateCoef nextImp nextClk thisImp thisClk completeTime).value =
      some (if thisImp = 0 ∨ thisClk = 0 then 2
        else max (ratio nextImp thisImp completeTime) (ratio nextClk thisClk completeTime)) := by
  split_ifs with h
  · rw [calculateCoef_of_not_pos (by omega), value_ret]
    rfl
  · have hi : 0 < thisImp := by omega
    have hc : 0 < thisClk := by omega
    simp only [calculateCoef_of_pos hi hc, value_bind, value_divide, quotient_rate hi htime,
      quotient_rate hc htime, Prog.pure_eq_ret, value_ret, Double.larger_some]

/-- With a positive time the coefficient divides by no zero. -/
theorem not_dividesByZero_calculateCoef (htime : 0 < completeTime) :
    ¬(calculateCoef nextImp nextClk thisImp thisClk completeTime).DividesByZero := by
  by_cases h : thisImp ≤ 0 ∨ thisClk ≤ 0
  · rw [calculateCoef_of_not_pos h]
    exact not_dividesByZero_ret _
  · have hi : 0 < thisImp := by omega
    have hc : 0 < thisClk := by omega
    rw [calculateCoef_of_pos hi hc]
    simp [ofInt_eq_zero_iff, quotient_ofInt htime.ne', htime.ne', hi.ne', hc.ne']

/-- The rate of the limits is calculated from the number of impressions, also when it is 0. -/
theorem dividesByZero_calculateCtr_iff {impKpi impCount clkKpi clkCount : ℤ} (hkpi : 0 ≤ impKpi)
    (hcount : 0 < impCount) :
    (calculateCtr impKpi impCount clkKpi clkCount).DividesByZero ↔ impKpi = 0 := by
  rw [calculateCtr, if_pos ⟨hkpi, hcount.le⟩]
  simp [ofInt_eq_zero_iff, hcount.ne']

end

/-! ## A run -/

section

variable {lib : CLib} {clk : ℕ → ℤ} {day : Bytes} {counters : Counters} {node : PolicyNode}

/-- The ten-minute slots that the code counts. -/
theorem surplus10min_eq (allowtime : ℤ) (hour slot : ℕ) :
    (surplusHour allowtime hour : ℤ) * 6 + (6 - slot) = remainingSlots allowtime hour slot := by
  rw [surplusHour, length_filter_hours, remainingSlots]
  ring

section

variable (hint : IntValues counters node) (hmin : ∀ t, (lib.localtime t).min < 60)

include hmin

/-- An hour has six slots. -/
theorem slot_lt (t : ℤ) : timeHour10m lib t < 6 := by
  have := hmin t
  rw [timeHour10m]
  omega

/-- At least the current slot is left of the day. -/
theorem slots_pos : 0 < node.slots lib clk day := remainingSlots_pos (slot_lt hmin _)

/-- The slot before, around the hour. -/
theorem lastSlot_eq (t : ℤ) : lastSlot (timeHour10m lib t) = (timeHour10m lib t + 5) % 6 := by
  have := slot_lt hmin t
  rw [lastSlot]
  split_ifs <;> omega


/-- The second half of a run on the values of a policy that is delivering. -/
abbrev message (lib : CLib) (clk : ℕ → ℤ) (day : Bytes) (counters : Counters)
    (node : PolicyNode) : Calculation (Option Message) :=
  calculateMessage lib clk counters node.key node.completeTime (node.allowtime day)
    (dailyKpi (node.impLimit day)) (node.impCount day counters) (dailyKpi (node.clkLimit day))
    (node.clkCount day counters)

end

section

variable (hint : IntValues counters node) (hmin : ∀ t, (lib.localtime t).min < 60)

include hint

/-- The record is complete, the hour is allowed and the counters are positive, or the run ends at
once. -/
theorem calculate_eq :
    autoCostPolicyCalculate lib clk day counters node =
      if node.campaignid ≤ 0 ∨ node.completeTime ≤ 0 ∨ node.allowtime day ≤ 0 then Prog.ret none
      else if ¬hourAllowed (node.allowtime day) (getTimeHour lib (clk 0)) then Prog.ret none
      else if node.impCount day counters ≤ 0 ∨ node.clkCount day counters ≤ 0 then Prog.ret none
      else message lib clk day counters node := by
  have hkey := toInt32_of_bounds hint.key.1 hint.key.2
  have hcontrol : ∀ k, toInt32 (node.control.number k) = node.control.number k := fun k =>
    toInt32_of_bounds (hint.control k).1 (hint.control k).2
  simp only [autoCostPolicyCalculate, hkey, hcontrol]
  rfl

/-- While something is left to deliver the policy gets a message. -/
theorem calculate_of_delivering (h : node.Delivering lib clk day counters) :
    autoCostPolicyCalculate lib clk day counters node = message lib clk day counters node := by
  rw [calculate_eq hint, if_neg, if_neg (not_not.mpr h.hour), if_neg]
  · exact not_or.mpr ⟨h.impCount.not_ge, h.clkCount.not_ge⟩
  · rw [not_or, not_or]
    exact ⟨h.campaignid.not_ge, h.completeTime.not_ge, h.allowtime.not_ge⟩

/-- Otherwise nothing is calculated. -/
theorem calculate_of_not_delivering (h : ¬node.Delivering lib clk day counters) :
    autoCostPolicyCalculate lib clk day counters node = Prog.ret none := by
  rw [calculate_eq hint]
  split_ifs with hrecord hhour hcounts
  · rfl
  · rfl
  · rw [not_or, not_or, not_le, not_le, not_le] at hrecord
    rw [not_or, not_le, not_le] at hcounts
    exact absurd ⟨hrecord.1, hrecord.2.1, hrecord.2.2, hhour, hcounts.1, hcounts.2⟩ h
  · rfl

/-- The impressions of the next interval are the share of what is left of them. -/
theorem value_impShare (h : node.Delivering lib clk day counters)
    (hmin : ∀ t, (lib.localtime t).min < 60) :
    (adxExceptCeil (toInt32 (dailyKpi (node.impLimit day) - node.impCount day counters))
      (node.slots lib clk day)).value =
        share (node.impLimit day) (node.impCount day counters) (node.slots lib clk day) :=
  value_share (hint.control _).2 h.impCount (hint.counters _ _).2 (slots_pos hmin)

/-- The clicks of the next interval are the share of what is left of them. -/
theorem value_clkShare (h : node.Delivering lib clk day counters)
    (hmin : ∀ t, (lib.localtime t).min < 60) :
    (adxExceptCeil (toInt32 (dailyKpi (node.clkLimit day) - node.clkCount day counters))
      (node.slots lib clk day)).value =
        share (node.clkLimit day) (node.clkCount day counters) (node.slots lib clk day) :=
  value_share (hint.control _).2 h.clkCount (hint.counters _ _).2 (slots_pos hmin)

include hmin

omit hint in
/-- Every other division is by a number that has been seen to be positive. -/
theorem dividesByZero_message_iff (h : node.Delivering lib clk day counters) :
    (message lib clk day counters node).DividesByZero ↔ node.impLimit day ≤ 0 := by
  have hkpi : 0 ≤ dailyKpi (node.impLimit day) := by
    rw [dailyKpi]
    split_ifs with hlimit
    · exact le_rfl
    · exact (not_le.mp hlimit).le
  have hzero : dailyKpi (node.impLimit day) = 0 ↔ node.impLimit day ≤ 0 := by
    rw [dailyKpi]
    split_ifs with hlimit
    · exact iff_of_true rfl hlimit
    · exact iff_of_false (not_le.mp hlimit).ne' hlimit
  rw [message, calculateMessage, dividesByZero_bind, dividesByZero_calculateCtr_iff hkpi h.impCount,
    hzero]
  refine or_iff_left ?_
  dsimp only
  rw [surplus10min_eq, ← PolicyNode.slots, if_neg (slots_pos hmin).not_ge]
  rw [dividesByZero_bind, dividesByZero_bind, not_or, not_or]
  refine ⟨not_dividesByZero_adxExceptCeil, not_dividesByZero_adxExceptCeil, ?_⟩
  split_ifs
  · exact not_dividesByZero_ret _
  · rw [dividesByZero_bind, not_or]
    exact ⟨not_dividesByZero_calculateCoef h.completeTime, not_dividesByZero_ret _⟩

/-- The message of a policy that is delivering. -/
theorem value_message_cases (h : node.Delivering lib clk day counters) :
    let impShare := share (node.impLimit day) (node.impCount day counters) (node.slots lib clk day)
    let clkShare := share (node.clkLimit day) (node.clkCount day counters) (node.slots lib clk day)
    let impLast := node.lastCount lib counters (clk 1) (bytes "imp_count")
    let clkLast := node.lastCount lib counters (clk 1) (bytes "clk_count")
    (impShare ≤ 0 ∧ clkShare ≤ 0 ∧ (message lib clk day counters node).value = none) ∨
      ((0 < impShare ∨ 0 < clkShare) ∧ ∃ m, (message lib clk day counters node).value = some m ∧
        m.next10minImpKpi = impShare ∧ m.next10minClkKpi = clkShare ∧
        m.coefCost = some (if impLast = 0 ∨ clkLast = 0 then 2
          else max (ratio impShare impLast node.completeTime)
            (ratio clkShare clkLast node.completeTime))) := by
  intro impShare clkShare impLast clkLast
  rw [message, calculateMessage, value_bind]
  dsimp only
  rw [surplus10min_eq, ← PolicyNode.slots, if_neg (slots_pos hmin).not_ge, value_bind, value_bind,
    value_impShare hint h hmin, value_clkShare hint h hmin]
  by_cases hnone : impShare ≤ 0 ∧ clkShare ≤ 0
  · rw [if_pos hnone]
    exact .inl ⟨hnone.1, hnone.2, rfl⟩
  · rw [if_neg hnone, value_bind, lastSlot_eq hmin,
      value_calculateCoef (hint.counters _ _).1 (hint.counters _ _).1 h.completeTime]
    rw [not_and_or, not_le, not_le] at hnone
    exact .inr ⟨hnone, _, rfl, rfl, rfl, rfl⟩
end

/-- All that a run publishes is as it is to be. -/
theorem meets_iff_not_dividesByZero (hint : IntValues counters node)
    (hmin : ∀ t, (lib.localtime t).min < 60) :
    Meets lib clk day counters node ↔
      ¬(autoCostPolicyCalculate lib clk day counters node).DividesByZero := by
  have hslots : 0 < node.slots lib clk day := slots_pos hmin
  refine ⟨fun h => h.neverByZero, fun hzero => ?_⟩
  by_cases h : node.Delivering lib clk day counters
  -- no share is left, and nothing is sent; or the message has both shares
  · obtain ⟨himp, hclk, hnone⟩ | ⟨hleft, m, hsome, himp, hclk, hcoef⟩ :=
      value_message_cases hint hmin h
    · have hv := calculate_of_delivering hint h ▸ hnone
      refine ⟨hzero, ?_, ?_, ?_⟩
      · rw [hv]
        refine iff_of_false (by simp) fun hd => ?_
        rw [← share_pos_iff hslots, ← share_pos_iff hslots] at hd
        exact hd.2.elim himp.not_gt hclk.not_gt
      · simp [hv]
      · simp [hv]
    · have hv := calculate_of_delivering hint h ▸ hsome
      refine ⟨hzero, ?_, ?_, ?_⟩
      · rw [hv, ← share_pos_iff hslots, ← share_pos_iff hslots]
        exact iff_of_true rfl ⟨h, hleft⟩
      · rw [hv]
        rintro _ ⟨⟩
        exact ⟨himp, hclk⟩
      · rw [hv]
        rintro _ ⟨⟩
        rw [hcoef, himp, hclk]
  -- a policy that is not delivered sends nothing
  · have hv : (autoCostPolicyCalculate lib clk day counters node).value = none := by
      rw [calculate_of_not_delivering hint h, value_ret]
    refine ⟨hzero, ?_, ?_, ?_⟩
    · rw [hv]
      exact iff_of_false (by simp) fun hd => h hd.1
    · simp [hv]
    · simp [hv]

/-- The guard of the click-through rate is no guard: a limit that is not set has become 0. -/
theorem dividesByZero_calculate_iff (hint : IntValues counters node)
    (hmin : ∀ t, (lib.localtime t).min < 60) :
    (autoCostPolicyCalculate lib clk day counters node).DividesByZero ↔
      node.Delivering lib clk day counters ∧ node.impLimit day ≤ 0 := by
  by_cases h : node.Delivering lib clk day counters
  · rw [calculate_of_delivering hint h, dividesByZero_message_iff hmin h, and_iff_right h]
  · rw [calculate_of_not_delivering hint h]
    exact iff_of_false (not_dividesByZero_ret _) fun hd => h hd.1

/-- **The automatic price calculation.**  A run does what it is to do exactly when the policy has
an impression limit or is not delivering: without the limit, the click-through rate of the limits
is a division by zero. -/
theorem calculate_meets_iff (hint : IntValues counters node)
    (hmin : ∀ t, (lib.localtime t).min < 60) :
    Meets lib clk day counters node ↔
      (node.Delivering lib clk day counters → 0 < node.impLimit day) := by
  rw [meets_iff_not_dividesByZero hint hmin, dividesByZero_calculate_iff hint hmin, not_and, not_le]

end

/-! ## A policy without an impression limit -/

/-- Policy 6 of campaign 5, allowed in all hours of 2 January, with a limit of 100 clicks. -/
def sampleNode (dayimp : ℤ) : PolicyNode where
  key := 6
  control := [(bytes "campaignid", 5), (bytes "complete_time", 600),
    (bytes "allowtime_0102", 16777215), (bytes "dayimp_0102", dayimp), (bytes "dayclk_0102", 100)]

/-- Each counter is 40. -/
theorem intValues_sample {dayimp : ℤ} (h : -1 ≤ dayimp ∧ dayimp < 2 ^ 31) :
    IntValues (fun _ _ => 40) (sampleNode dayimp) where
  key := by simp [sampleNode]
  control k := by
    simp only [sampleNode, Control.number, List.lookup]
    split
    · decide
    split
    · decide
    split
    · decide
    split
    · exact ⟨by simp; omega, by simpa using h.2⟩
    · split <;> decide
  counters _ _ := by decide

/-- With a limit of 100 impressions, the run is right. -/
theorem calculate_meets_sample :
    Meets sampleLib (fun _ => 0) (bytes "0102") (fun _ _ => 40) (sampleNode 100) ↔
      ((sampleNode 100).Delivering sampleLib (fun _ => 0) (bytes "0102") (fun _ _ => 40) →
        0 < (sampleNode 100).impLimit (bytes "0102")) :=
  calculate_meets_iff (intValues_sample (by decide)) fun _ => Nat.succ_pos 59

/-- Without a limit of the impressions, 100 clicks are divided by 0 impressions. -/
theorem unlimited_impressions_divide_by_zero :
    IntValues (fun _ _ => 40) (sampleNode (-1)) ∧ (∀ t, (sampleLib.localtime t).min < 60) ∧
      ¬Meets sampleLib (fun _ => 0) (bytes "0102") (fun _ _ => 40) (sampleNode (-1)) :=
  ⟨intValues_sample (by decide), fun _ => Nat.succ_pos 59,
    fun h => h.neverByZero (by decide +kernel)⟩

end AdxDsp.AutoCost
