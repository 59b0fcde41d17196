import AdxDsp.Tracker.KpiPause

/-!
# The pacing of a policy

A policy that is to deliver evenly, or that bids automatically, is paused for the rest of ten
minutes when it has used up its share of them.  The share is what is left of each day limit, divided
by the slots that are left in the allowed hours of the day.

* `adxExceptCeil_eq_ceil`: the division of `adx_except_ceil`.
* `pacingReached_iff`: the decision, as a statement about each limit that is set.
* `writesPacing_iff`: the commands that are sent.
-/

namespace AdxDsp

open CText Redis

/-! ## The slots of a day -/

/-- The ten-minute slots that are left: those of the current hour, and six for each later hour that
is allowed. -/
def remainingSlots (allowtime : ℤ) (hour slot : ℕ) : ℤ :=
  (6 - slot) + 6 * ((Finset.range 24).filter fun i => hour < i ∧ hourAllowed allowtime i).card

/-- The slots that the targets are divided by: two are kept as a reserve. -/
def pacedSlots (allowtime : ℤ) (hour slot : ℕ) : ℤ :=
  if 2 < remainingSlots allowtime hour slot then remainingSlots allowtime hour slot - 2 else 1

/-- The slot has its share of what is left of a limit. -/
def ShareReached (limit day slot slots : ℤ) : Prop := ⌈(max 0 (limit - day) : ℚ) / slots⌉ ≤ slot

section

variable {allowtime : ℤ} {hour slot : ℕ} {x y : ℤ}

/-- The allowed hours that are left, counted in a loop. -/
theorem length_filter_hours : ((List.range 24).filter fun i =>
    decide (hour < i) && hourAllowed allowtime i).length =
      ((Finset.range 24).filter fun i => hour < i ∧ hourAllowed allowtime i).card := by
  rw [← List.toFinset_card_of_nodup (List.nodup_range.filter _)]
  congr 1
  ext i
  simp

/-- The code's count of the slots that are left is the number of them. -/
theorem surplus10m_eq : surplus10m allowtime hour slot = pacedSlots allowtime hour slot := by
  rw [surplus10m, pacedSlots, remainingSlots, length_filter_hours]
  split_ifs <;> omega

/-- The present slot is left. -/
theorem remainingSlots_pos (h : slot < 6) : 0 < remainingSlots allowtime hour slot := by
  rw [remainingSlots]
  omega

/-- The divisor is never 0. -/
theorem pacedSlots_pos : 0 < pacedSlots allowtime hour slot := by
  rw [pacedSlots]
  split_ifs <;> omega

/-- The quotient is rounded up. -/
theorem adxExceptCeil_eq_ceil (hy : 0 < y) : adxExceptCeil x y = ⌈(x : ℚ) / y⌉ := by
  lift y to ℕ using hy.le
  exact (Rat.ceil_intCast_div_natCast x y).symm

/-- In the range of the limits and the counters, the quotient is an `int`. -/
theorem toInt32_adxExceptCeil (hlo : -2 ^ 31 ≤ x) (hhi : x < 2 ^ 31) (hy : 0 < y) :
    toInt32 (adxExceptCeil x y) = adxExceptCeil x y := by
  have hquot : (-x) / y * y ≤ -x := Int.ediv_mul_le _ hy.ne'
  have hrem : -x < (-x) / y * y + y := Int.lt_ediv_add_one_mul_self _ hy |>.trans_eq (by ring)
  refine toInt32_of_bounds ?_ ?_ <;> rw [adxExceptCeil] <;> nlinarith

/-- A limit that is exceeded has no share left. -/
theorem adxExceptCeil_le_iff (limit day : ℤ) {n : ℤ} (hn : 0 ≤ n) (hy : 0 < y) :
    adxExceptCeil (limit - day) y ≤ n ↔ ShareReached limit day n y := by
  have hpos : (0 : ℚ) < y := Int.cast_pos.mpr hy
  have hzero : (0 : ℚ) ≤ n * y := mul_nonneg (Int.cast_nonneg hn) hpos.le
  -- a negative quotient is below the count as 0 is
  rw [adxExceptCeil_eq_ceil hy, ShareReached, Int.ceil_le, Int.ceil_le, div_le_iff₀ hpos,
    div_le_iff₀ hpos, max_le_iff, and_iff_right hzero, Int.cast_sub]

/-- The decision of the pacing: some limit is set, and the slot has its share of each that is. -/
theorem pacingReached_iff {l : DayLimits} {d : DspCount} (hy : 0 < y) (himp : 0 ≤ d.pImp10m)
    (hclk : 0 ≤ d.pClk10m) :
    pacingReached l d y = true ↔ (¬Unlimited l.imp ∨ ¬Unlimited l.clk) ∧
      (¬Unlimited l.imp → ShareReached l.imp d.pImpDay d.pImp10m y) ∧
      (¬Unlimited l.clk → ShareReached l.clk d.pClkDay d.pClk10m y) := by
  have hi := adxExceptCeil_le_iff l.imp d.pImpDay himp hy
  have hc := adxExceptCeil_le_iff l.clk d.pClkDay hclk hy
  rw [pacingReached]
  simp only [orUnlimited_eq_neg_one]
  -- a limit that is not set is passed over
  by_cases h1 : Unlimited l.imp <;> by_cases h2 : Unlimited l.clk
  · simp [h1, h2]
  · simp [h1, h2, orUnlimited_of_not h2, hc]
  · simp [h1, h2, orUnlimited_of_not h1, hi]
  · simp [h1, h2, orUnlimited_of_not h1, orUnlimited_of_not h2, hi, hc]

/-- The decision on the day limits ends the function only where there are none. -/
theorem unlimited_of_noticeVerdict {codes : PauseCodes} {l : DayLimits} {n : DayCounts}
    (h : noticeVerdict codes l n = .notKpi) : Unlimited l.imp ∧ Unlimited l.clk := by
  simp only [noticeVerdict, noticeBudget, orUnlimited_eq_neg_one] at h
  split_ifs at h with hboth
  exact hboth

end

/-! ## The command -/

/-- A run writes the pause for the rest of the ten minutes. -/
def WritesPacing {α : Type} (p : TrackerProg α) (w : TrackerWorld) (policyid : ℤ) : Prop :=
  ∃ seconds, (Server.adControllerMaster,
    Cmd.setex (pausePolicyKey policyid) seconds (decimal 23)) ∈ p.sent World.exec w

section

variable {lib : CLib} {clk : ℕ → ℤ} {d : DspCount} {w : TrackerWorld}

/-- `uniform = 1` or `autobid = 1`. -/
def DspCount.Paced (d : DspCount) : Prop :=
  toInt32 (d.policyControl.number (bytes "uniform")) = 1 ∨
    toInt32 (d.policyControl.number (bytes "autobid")) = 1

/-- The allowed hours of the day of a time. -/
def DspCount.allowtime (lib : CLib) (t : ℤ) (d : DspCount) : ℤ :=
  toInt32 (d.policyControl.number (bytes "allowtime_" ++ timeMonthDay lib t))

/-- The policy is put on pace just if its part of the limit is reached. -/
theorem writesPacing_kpiPolicyPacing_iff {l : DayLimits} (hpaced : d.Paced)
    (hallowed : hourAllowed (d.allowtime lib (clk 27)) (getTimeHour lib (clk 28)) = true) :
    WritesPacing (kpiPolicyPacing lib clk l d) w d.policyid ↔
      pacingReached l d (surplus10m (d.allowtime lib (clk 27)) (getTimeHour lib (clk 30))
        (timeHour10m lib (clk 31))) = true := by
  have hmode : ¬(toInt32 (d.policyControl.number (bytes "uniform")) ≠ 1 ∧
      toInt32 (d.policyControl.number (bytes "autobid")) ≠ 1) := by
    rintro ⟨h1, h2⟩
    exact hpaced.elim h1 h2
  rw [WritesPacing, kpiPolicyPacing]
  dsimp only
  rw [← DspCount.allowtime, if_neg (not_not.mpr hallowed), if_neg hmode]
  -- both kinds of policies are paused alike
  split_ifs with h hauto
  · exact iff_of_true ⟨_, List.mem_cons_self⟩ h
  · exact iff_of_true ⟨_, List.mem_cons_self⟩ h
  · exact iff_of_false (by simp) h

/-- A notice that pauses its policy for no day limit pauses it for the rest of the ten minutes if
and only if the slot has its share of every limit that is set, and one is. -/
theorem writesPacing_iff (hpaced : d.Paced)
    (hallowed : hourAllowed (d.allowtime lib (clk 27)) (getTimeHour lib (clk 28)) = true)
    (himp : 0 ≤ d.pImp10m) (hclk : 0 ≤ d.pClk10m)
    (hday : ¬WritesPause (adxDspControlKpiPolicy lib clk d) w (pausePolicyKey d.policyid)
      policyPause) :
    let l := d.policyControl.dayLimits (timeMonthDay lib (clk 25))
    let slots := pacedSlots (d.allowtime lib (clk 27)) (getTimeHour lib (clk 30))
      (timeHour10m lib (clk 31))
    0 < slots ∧
      (WritesPacing (adxDspControlKpiPolicy lib clk d) w d.policyid ↔
        (¬Unlimited l.imp ∨ ¬Unlimited l.clk) ∧
          (¬Unlimited l.imp → ShareReached l.imp d.pImpDay d.pImp10m slots) ∧
          (¬Unlimited l.clk → ShareReached l.clk d.pClkDay d.pClk10m slots)) := by
  intro l slots
  refine ⟨pacedSlots_pos, ?_⟩
  rw [writesPause_policy_iff] at hday
  rw [adxDspControlKpiPolicy]
  split
  · -- neither limit is set
    rename_i hverdict
    have hunlimited : Unlimited l.imp ∧ Unlimited l.clk := unlimited_of_noticeVerdict hverdict
    refine iff_of_false ?_ ?_
    · simp [WritesPacing]
    · rintro ⟨hset, -⟩
      exact hset.elim (fun h => h hunlimited.1) fun h => h hunlimited.2
  · -- a day limit is reached
    rename_i code hverdict
    exact absurd ⟨code, hverdict⟩ hday
  · rw [writesPacing_kpiPolicyPacing_iff hpaced hallowed, surplus10m_eq,
      pacingReached_iff pacedSlots_pos himp hclk]

end

/-- Policy 6, to deliver 100 impressions evenly over all hours of a day, with 40 of them delivered
and 2 in the current ten minutes. -/
def samplePaced : DspCount :=
  { DspCount.init [] [(bytes "uniform", 1), (bytes "dayimp_0102", 100),
      (bytes "allowtime_0102", 16777215)] with
    policyid := 6, pImpDay := 40, pImp10m := 2 }

/-- At noon 70 slots are to share the 60 impressions that are left. -/
theorem writesPacing_sample :
    let l := samplePaced.policyControl.dayLimits (timeMonthDay sampleLib 0)
    let slots := pacedSlots (samplePaced.allowtime sampleLib 0) (getTimeHour sampleLib 0)
      (timeHour10m sampleLib 0)
    0 < slots ∧
      (WritesPacing (adxDspControlKpiPolicy sampleLib (fun _ => 0) samplePaced)
          (.reliable fun _ => .empty) samplePaced.policyid ↔
        (¬Unlimited l.imp ∨ ¬Unlimited l.clk) ∧
          (¬Unlimited l.imp → ShareReached l.imp samplePaced.pImpDay samplePaced.pImp10m slots) ∧
          (¬Unlimited l.clk → ShareReached l.clk samplePaced.pClkDay samplePaced.pClk10m slots)) :=
  @writesPacing_iff sampleLib (fun _ => 0) _ _ (.inl (by decide)) (by decide) (by decide)
    (by decide) (by
    rw [writesPause_policy_iff]
    rintro ⟨code, hcode⟩
    have hgo : noticeVerdict policyPause (samplePaced.policyControl.dayLimits
        (timeMonthDay sampleLib 0)) ⟨samplePaced.pImpDay, samplePaced.pClkDay,
          samplePaced.pCostDay⟩ = .goOn := by decide
    rw [hgo] at hcode
    cases hcode)

end AdxDsp
