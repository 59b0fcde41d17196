import AdxDsp.Tracker.Control

/-!
# Day limits on the two paths

A notice (`adx_dsp_control_kpi_campaign`, `adx_dsp_control_kpi_policy`) and a reload of the control
records (`adx_dump_check_kpi`) decide about the same limits with the same counters.

* **Agreement** (`kpi_pause_agrees_iff`): the two decide alike exactly when it is not the case that
  only the budget is limited and that it is used up; there the notice path returns before it looks
  at the budget.
-/

namespace AdxDsp

open CText Redis

/-- The limit is absent, zero or -1. -/
def Unlimited (limit : ℤ) : Prop := limit = 0 ∨ limit = -1

instance (limit : ℤ) : Decidable (Unlimited limit) :=
  inferInstanceAs (Decidable (limit = 0 ∨ limit = -1))

/-- The budget is limited and used up. -/
def BudgetReached (l : DayLimits) (n : DayCounts) : Prop :=
  ¬Unlimited l.budget ∧ n.cost.tdiv 1000 ≥ l.budget * 100

/-- Only the budget is limited, and it is used up. -/
def BudgetAloneReached (l : DayLimits) (n : DayCounts) : Prop :=
  Unlimited l.imp ∧ Unlimited l.clk ∧ BudgetReached l n

/-- The limit -1 stands for all limits that are none. -/
theorem orUnlimited_eq_neg_one {limit : ℤ} : orUnlimited limit = -1 ↔ Unlimited limit := by
  rw [orUnlimited, Unlimited]
  split_ifs with h <;> simp [h]

/-- A real limit stays. -/
theorem orUnlimited_of_not {limit : ℤ} (h : ¬Unlimited limit) : orUnlimited limit = limit := by
  rw [orUnlimited, if_neg fun hz => h (.inl hz)]

/-- The test of the budget in both paths. -/
theorem budget_test_iff (l : DayLimits) (n : DayCounts) :
    (orUnlimited l.budget ≠ -1 ∧ n.cost.tdiv 1000 ≥ orUnlimited l.budget * 100) ↔
      BudgetReached l n := by
  rw [BudgetReached, ne_eq, orUnlimited_eq_neg_one]
  refine and_congr_right fun h => ?_
  rw [orUnlimited_of_not h]

/-- With neither impressions nor clicks limited, a notice pauses nothing. -/
theorem noticeVerdict_of_unlimited {codes : PauseCodes} {l : DayLimits} {n : DayCounts}
    (hi : Unlimited l.imp) (hc : Unlimited l.clk) : noticeVerdict codes l n = .notKpi := by
  have h : orUnlimited l.imp = -1 ∧ orUnlimited l.clk = -1 :=
    ⟨orUnlimited_eq_neg_one.mpr hi, orUnlimited_eq_neg_one.mpr hc⟩
  simp only [noticeVerdict, h, and_self, if_true]

/-- With neither impressions nor clicks limited, a reload pauses for the budget. -/
theorem dumpPause_of_unlimited {codes : PauseCodes} {l : DayLimits} {n : DayCounts}
    (hi : Unlimited l.imp) (hc : Unlimited l.clk) (hb : codes.budget ≠ 0) :
    dumpPause codes l n ≠ 0 ↔ BudgetReached l n := by
  have h : orUnlimited l.imp = -1 ∧ orUnlimited l.clk = -1 :=
    ⟨orUnlimited_eq_neg_one.mpr hi, orUnlimited_eq_neg_one.mpr hc⟩
  simp only [dumpPause, h, and_self, if_true]
  rw [← budget_test_iff]
  split_ifs with hbudget
  · exact iff_of_true hb hbudget
  · exact iff_of_false (fun hz => hz rfl) hbudget

/-- With impressions or clicks limited, both paths decide alike. -/
theorem noticeVerdict_pause_iff {codes : PauseCodes} {l : DayLimits} {n : DayCounts}
    (h : ¬(Unlimited l.imp ∧ Unlimited l.clk)) (hk : codes.kpi ≠ 0) (hb : codes.budget ≠ 0) :
    (∃ code, noticeVerdict codes l n = .pause code) ↔ dumpPause codes l n ≠ 0 := by
  have hlim : ¬(orUnlimited l.imp = -1 ∧ orUnlimited l.clk = -1) := by
    rwa [orUnlimited_eq_neg_one, orUnlimited_eq_neg_one]
  have hbudget : (∃ code, noticeBudget codes l n = .pause code) ↔
      orUnlimited l.budget ≠ -1 ∧ n.cost.tdiv 1000 ≥ orUnlimited l.budget * 100 := by
    rw [noticeBudget]
    split_ifs with hr <;> simp [hr]
  simp only [noticeVerdict, dumpPause, if_neg hlim]
  -- the same KPI tests on both sides; where none succeeds, the budget decides
  split_ifs <;> simp_all

/-- A pause is for a KPI or for the budget. -/
theorem code_of_noticeVerdict {codes : PauseCodes} {l : DayLimits} {n : DayCounts} {code : ℤ}
    (h : noticeVerdict codes l n = .pause code) : code = codes.kpi ∨ code = codes.budget := by
  simp only [noticeVerdict, noticeBudget] at h
  split_ifs at h <;> simp_all

/-- The two decisions agree unless the budget alone is reached. -/
theorem noticeVerdict_agrees_iff {codes : PauseCodes} (l : DayLimits) (n : DayCounts)
    (hk : codes.kpi ≠ 0) (hb : codes.budget ≠ 0) :
    ((∃ code, noticeVerdict codes l n = .pause code) ↔ dumpPause codes l n ≠ 0) ↔
      ¬BudgetAloneReached l n := by
  by_cases h : Unlimited l.imp ∧ Unlimited l.clk
  · rw [noticeVerdict_of_unlimited h.1 h.2, dumpPause_of_unlimited h.1 h.2 hb]
    simp [BudgetAloneReached, h]
  · refine iff_of_true (noticeVerdict_pause_iff h hk hb) fun hbudget => h ?_
    exact ⟨hbudget.1, hbudget.2.1⟩

/-! ## The commands of the notice path -/

/-- A run of `p` writes a pause under `key` with a code of `codes`. -/
def WritesPause {α : Type} (p : TrackerProg α) (w : TrackerWorld) (key : Bytes)
    (codes : PauseCodes) : Prop :=
  ∃ seconds code, (code = codes.kpi ∨ code = codes.budget) ∧
    (Server.adControllerMaster, Cmd.setex key seconds (decimal code)) ∈ p.sent World.exec w

/-- The commands of the allowed hours and of the pacing write no KPI or budget pause. -/
theorem kpiPolicyPacing_noDayPause (lib : CLib) (clk : ℕ → ℤ) (l : DayLimits) (d : DspCount) :
    (kpiPolicyPacing lib clk l d).Sends fun c => ∀ key seconds code,
      (code = policyPause.kpi ∨ code = policyPause.budget) →
        c ≠ (.adControllerMaster, .setex key seconds (decimal code)) := by
  have hcode : ∀ k : ℤ, k = 23 ∨ k = 24 → ∀ code, (code = policyPause.kpi ∨
      code = policyPause.budget) → k ≠ code := by
    rintro k (rfl | rfl) code (rfl | rfl) <;> decide
  unfold kpiPolicyPacing
  refine .ite (fun _ => ?_) fun _ => .ite (fun _ => .ret _) fun _ => .ite (fun _ => ?_) fun _ =>
    .ret _
  · refine ⟨fun key seconds code hc h => ?_, fun _ => trivial⟩
    simp only [Prod.mk.injEq, Cmd.setex.injEq, decimal_inj, true_and] at h
    exact hcode 24 (.inr rfl) code hc h.2.2
  · refine ⟨fun key seconds code hc h => ?_, fun _ => ?_⟩
    · simp only [Prod.mk.injEq, Cmd.setex.injEq, decimal_inj, true_and] at h
      exact hcode 23 (.inl rfl) code hc h.2.2
    · refine Prog.Sends.ite (fun _ => ?_) fun _ => .ret _
      exact ⟨fun key seconds code _ h => by simp at h, fun _ => trivial⟩

/-- A notice writes a pause of its campaign iff its decision is to pause. -/
theorem writesPause_campaign_iff (lib : CLib) (clk : ℕ → ℤ) (d : DspCount) (w : TrackerWorld) :
    WritesPause (adxDspControlKpiCampaign lib clk d) w (pauseCampaignKey d.campaignid)
        campaignPause ↔
      ∃ code, noticeVerdict campaignPause (d.campaignControl.dayLimits (timeMonthDay lib (clk 22)))
        ⟨d.cImpDay, d.cClkDay, d.cCostDay⟩ = .pause code := by
  rw [WritesPause, adxDspControlKpiCampaign]
  split <;> rename_i hv <;> rw [hv]
  · simp
  · rename_i code
    refine iff_of_true ⟨getTimeSecTodayEnd lib (clk 23), code, code_of_noticeVerdict hv, ?_⟩
      ⟨code, rfl⟩
    exact List.mem_singleton_self _
  · simp

/-- A notice writes a KPI or budget pause of its policy iff its decision is to pause. -/
theorem writesPause_policy_iff (lib : CLib) (clk : ℕ → ℤ) (d : DspCount) (w : TrackerWorld) :
    WritesPause (adxDspControlKpiPolicy lib clk d) w (pausePolicyKey d.policyid) policyPause ↔
      ∃ code, noticeVerdict policyPause (d.policyControl.dayLimits (timeMonthDay lib (clk 25)))
        ⟨d.pImpDay, d.pClkDay, d.pCostDay⟩ = .pause code := by
  rw [WritesPause, adxDspControlKpiPolicy]
  split <;> rename_i hv <;> rw [hv]
  · simp
  · rename_i code
    refine iff_of_true ⟨getTimeSecTodayEnd lib (clk 26), code, code_of_noticeVerdict hv, ?_⟩
      ⟨code, rfl⟩
    exact List.mem_cons_self
  · refine iff_of_false ?_ (by simp)
    rintro ⟨seconds, code, hc, hmem⟩
    exact (kpiPolicyPacing_noDayPause lib clk _ d).of_mem_sent hmem _ _ _ hc rfl

/-- The notice path and the reload path agree about the day limits of a campaign and of a policy,
on any counters and whatever the redis servers answer, exactly when it is not the budget alone that
is limited and reached. -/
theorem kpi_pause_agrees_iff (lib : CLib) (clk : ℕ → ℤ) (d : DspCount) (w : TrackerWorld) :
    ((WritesPause (adxDspControlKpiCampaign lib clk d) w (pauseCampaignKey d.campaignid)
          campaignPause ↔
        dumpPause campaignPause (d.campaignControl.dayLimits (timeMonthDay lib (clk 22)))
          ⟨d.cImpDay, d.cClkDay, d.cCostDay⟩ ≠ 0) ↔
      ¬BudgetAloneReached (d.campaignControl.dayLimits (timeMonthDay lib (clk 22)))
        ⟨d.cImpDay, d.cClkDay, d.cCostDay⟩) ∧
    ((WritesPause (adxDspControlKpiPolicy lib clk d) w (pausePolicyKey d.policyid) policyPause ↔
        dumpPause policyPause (d.policyControl.dayLimits (timeMonthDay lib (clk 25)))
          ⟨d.pImpDay, d.pClkDay, d.pCostDay⟩ ≠ 0) ↔
      ¬BudgetAloneReached (d.policyControl.dayLimits (timeMonthDay lib (clk 25)))
        ⟨d.pImpDay, d.pClkDay, d.pCostDay⟩) := by
  rw [writesPause_campaign_iff, writesPause_policy_iff]
  exact ⟨noticeVerdict_agrees_iff _ _ (by decide) (by decide),
    noticeVerdict_agrees_iff _ _ (by decide) (by decide)⟩

/-! ## A budget without a KPI -/

/-- A calendar that stands still on 2 January, noon. -/
def sampleLib : CLib where
  localtime _ := ⟨2017, 0, 2, 12, 0, 0, 1⟩
  mktime _ := 0
  atof _ := 0
  formatF _ := []

/-- Counters of campaign 5 and policy 6 with a day budget of 1 and a cost of 100 units. -/
def sampleBudgetCount : DspCount :=
  { DspCount.init [(bytes "daybudget_0102", 1)] [(bytes "daybudget_0102", 1)] with
    campaignid := 5, policyid := 6, creativeid := 7, cCostDay := 100000, pCostDay := 100000 }

/-- The budget is used up: the reload pauses the campaign, a notice does not. -/
theorem budget_alone_not_paused :
    ¬(WritesPause (adxDspControlKpiCampaign sampleLib (fun _ => 0) sampleBudgetCount)
        (.reliable fun _ => .empty) (pauseCampaignKey 5) campaignPause ↔
      dumpPause campaignPause
        (sampleBudgetCount.campaignControl.dayLimits (timeMonthDay sampleLib 0))
        ⟨sampleBudgetCount.cImpDay, sampleBudgetCount.cClkDay, sampleBudgetCount.cCostDay⟩ ≠
          0) := by
  have hdump : dumpPause campaignPause
      (sampleBudgetCount.campaignControl.dayLimits (timeMonthDay sampleLib 0))
      ⟨sampleBudgetCount.cImpDay, sampleBudgetCount.cClkDay, sampleBudgetCount.cCostDay⟩ ≠ 0 := by
    decide
  have hnone : (adxDspControlKpiCampaign sampleLib (fun _ => 0) sampleBudgetCount).sent World.exec
      (.reliable fun _ => .empty) = [] := by
    rfl
  intro h
  obtain ⟨_, _, _, hmem⟩ := h.mpr hdump
  rw [hnone] at hmem
  exact List.not_mem_nil hmem

end AdxDsp
