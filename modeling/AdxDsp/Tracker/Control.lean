import AdxDsp.Tracker.Count

/-!
# Delivery control

What the tracker does with the counters of a notice: it pauses the campaign or the policy when a
day limit is reached, paces a policy over the day, and notes the devices that have reached a
frequency limit (`adx_dsp_control`).  The reload of the control records makes the decision on the
day limits once more for records that have changed (`adx_dump_check_kpi`).
-/

namespace AdxDsp

open CText Redis

/-! ## Day limits -/

/-- The limits of a day as the control record holds them; 0 is an absent or empty limit. -/
structure DayLimits where
  imp : ℤ
  clk : ℤ
  budget : ℤ
  deriving DecidableEq

/-- The counters of a day: impressions, clicks and the cost in hundredths per thousand. -/
structure DayCounts where
  imp : ℤ
  clk : ℤ
  cost : ℤ

/-- The fields `dayimp_(day)`, `dayclk_(day)` and `daybudget_(day)` of a control record. -/
def Control.dayLimits (c : Control) (day : Bytes) : DayLimits where
  imp := c.number (bytes "dayimp_" ++ day)
  clk := c.number (bytes "dayclk_" ++ day)
  budget := c.number (bytes "daybudget_" ++ day)

/-- `x = x ? x : -1`: an absent limit is written as unlimited. -/
def orUnlimited (limit : ℤ) : ℤ := if limit = 0 then -1 else limit

/-- The codes of a KPI pause and of a budget pause. -/
structure PauseCodes where
  kpi : ℤ
  budget : ℤ

/-- The codes for campaigns. -/
def campaignPause : PauseCodes := ⟨11, 12⟩

/-- The codes for policies. -/
def policyPause : PauseCodes := ⟨21, 22⟩

/-- What the day limits of a notice's campaign or policy lead to. -/
inductive DayVerdict where
  /-- Neither impressions nor clicks are limited: the function returns. -/
  | notKpi
  | pause (code : ℤ)
  /-- No limit is reached: the function goes on. -/
  | goOn
  deriving DecidableEq

/-- The test of the budget, the last part of the decision on a notice. -/
def noticeBudget (codes : PauseCodes) (l : DayLimits) (n : DayCounts) : DayVerdict :=
  let daybudget := orUnlimited l.budget
  if daybudget ≠ -1 ∧ n.cost.tdiv 1000 ≥ daybudget * 100 then .pause codes.budget else .goOn

/-- The decision on a notice in `adx_dsp_control_kpi_campaign` and `adx_dsp_control_kpi_policy`. -/
def noticeVerdict (codes : PauseCodes) (l : DayLimits) (n : DayCounts) : DayVerdict :=
  let dayimp := orUnlimited l.imp
  let dayclk := orUnlimited l.clk
  if dayimp = -1 ∧ dayclk = -1 then .notKpi
  else if dayimp = -1 then
    if n.clk ≥ dayclk then .pause codes.kpi else noticeBudget codes l n
  else if dayclk = -1 then
    if n.imp ≥ dayimp then .pause codes.kpi else noticeBudget codes l n
  else
    if n.imp ≥ dayimp ∧ n.clk ≥ dayclk then .pause codes.kpi else noticeBudget codes l n

/-- The decision at a reload in `adx_dump_check_kpi`: the variable `campaign_pause` or
`policy_pause`, with 0 for no pause. -/
def dumpPause (codes : PauseCodes) (l : DayLimits) (n : DayCounts) : ℤ :=
  let dayimp := orUnlimited l.imp
  let dayclk := orUnlimited l.clk
  let pause :=
    if dayimp = -1 ∧ dayclk = -1 then 0
    else if dayimp = -1 then if n.clk ≥ dayclk then codes.kpi else 0
    else if dayclk = -1 then if n.imp ≥ dayimp then codes.kpi else 0
    else if n.imp ≥ dayimp ∧ n.clk ≥ dayclk then codes.kpi else 0
  let daybudget := orUnlimited l.budget
  if daybudget ≠ -1 ∧ n.cost.tdiv 1000 ≥ daybudget * 100 then codes.budget else pause

/-- `pause_campaign_(campaignid)`. -/
def pauseCampaignKey (campaignid : ℤ) : Bytes :=
  bytes "pause_campaign_" ++ unsignedDecimal campaignid

/-- `pause_policy_(policyid)`. -/
def pausePolicyKey (policyid : ℤ) : Bytes := bytes "pause_policy_" ++ unsignedDecimal policyid

/-! ## `adx_dsp_control` -/

section

variable (lib : CLib) (clk : ℕ → ℤ)

/-- `adx_dsp_control_kpi_campaign`. -/
def adxDspControlKpiCampaign (d : DspCount) : TrackerProg ErrCode :=
  let l := d.campaignControl.dayLimits (timeMonthDay lib (clk 22))
  match noticeVerdict campaignPause l ⟨d.cImpDay, d.cClkDay, d.cCostDay⟩ with
  | .notKpi => return .success
  | .pause code =>
    adxRedisCommand .adControllerMaster
      (.setex (pauseCampaignKey d.campaignid) (getTimeSecTodayEnd lib (clk 23)) (decimal code))
  | .goOn => return .success

/-- `adx_auto_cost_send_queue`. -/
def adxAutoCostSendQueue (policyid : ℤ) : TrackerProg Unit := do
  let _ ← adxRedisCommand .adSettingSlave
    (.hset (bytes "auto_cost_policy_complete") (decimal (toInt32 policyid))
      (decimal (600 - getTimeSec10minEnd lib (clk 24))))

/-- The bit of an hour in the allowed times of a day. -/
def hourAllowed (allowtime : ℤ) (hour : ℕ) : Bool := (BitVec.ofInt 32 allowtime).getLsbD hour

/-- The 10-minute slots left in the allowed hours of the day, with a reserve of two slots. -/
def surplus10m (allowtime : ℤ) (hour slot : ℕ) : ℤ :=
  let surplusHour : ℕ :=
    ((List.range 24).filter fun i => decide (hour < i) && hourAllowed allowtime i).length
  let surplus : ℤ := surplusHour * 6 + (6 - slot)
  if surplus > 2 then surplus - 2 else 1

/-- `adx_except_ceil`: the quotient rounded up, for a positive divisor. -/
def adxExceptCeil (x y : ℤ) : ℤ := -((-x) / y)

/-- The pacing of a policy: has it used up its share of the current ten minutes? -/
def pacingReached (l : DayLimits) (d : DspCount) (surplus10m : ℤ) : Bool :=
  let dayimp := orUnlimited l.imp
  let dayclk := orUnlimited l.clk
  let surplus10mImp := adxExceptCeil (dayimp - d.pImpDay) surplus10m
  let surplus10mClk := adxExceptCeil (dayclk - d.pClkDay) surplus10m
  if dayimp = -1 ∧ dayclk = -1 then false
  else if dayimp = -1 then d.pClk10m ≥ surplus10mClk
  else if dayclk = -1 then d.pImp10m ≥ surplus10mImp
  else d.pImp10m ≥ surplus10mImp && d.pClk10m ≥ surplus10mClk

/-- The second half of `adx_dsp_control_kpi_policy`: allowed hours and pacing. -/
def kpiPolicyPacing (l : DayLimits) (d : DspCount) : TrackerProg ErrCode :=
  let uniform := toInt32 (d.policyControl.number (bytes "uniform"))
  let autobid := toInt32 (d.policyControl.number (bytes "autobid"))
  let allowtime := toInt32
    (d.policyControl.number (bytes "allowtime_" ++ timeMonthDay lib (clk 27)))
  if ¬hourAllowed allowtime (getTimeHour lib (clk 28)) then
    adxRedisCommand .adControllerMaster
      (.setex (pausePolicyKey d.policyid) (getTimeSecHourEnd lib (clk 29)) (decimal 24))
  else if uniform ≠ 1 ∧ autobid ≠ 1 then return .success
  else
    let surplus := surplus10m allowtime (getTimeHour lib (clk 30)) (timeHour10m lib (clk 31))
    if pacingReached l d surplus then do
      let errcode ← adxRedisCommand .adControllerMaster
        (.setex (pausePolicyKey d.policyid) (getTimeSec10minEnd lib (clk 32)) (decimal 23))
      if autobid = 1 then adxAutoCostSendQueue lib clk d.policyid
      return errcode
    else return .success

/-- `adx_dsp_control_kpi_policy`. -/
def adxDspControlKpiPolicy (d : DspCount) : TrackerProg ErrCode :=
  let l := d.policyControl.dayLimits (timeMonthDay lib (clk 25))
  match noticeVerdict policyPause l ⟨d.pImpDay, d.pClkDay, d.pCostDay⟩ with
  | .notKpi => return .success
  | .pause code => do
    let errcode ← adxRedisCommand .adControllerMaster
      (.setex (pausePolicyKey d.policyid) (getTimeSecTodayEnd lib (clk 26)) (decimal code))
    let _ ← adxRedisCommand .adControllerMaster
      (.srem (bytes "dsp_policyids") (unsignedDecimal d.policyid))
    return errcode
  | .goOn => kpiPolicyPacing lib clk l d

/-- Note the device of a notice in the set `key` of an entity whose counter `n` has reached the
limit, until the end of the period; `after` is what the function makes of the last error code. -/
def frequencyReached (f : Frequency) (key : Bytes) (n : ℤ) (d : DspCount) (i : ℕ)
    (after : ErrCode → ErrCode) : TrackerProg ErrCode :=
  if n ≥ f.count then do
    let errcode ← adxRedisCommand .adControllerMaster
      (.sadd key (didKey d.deviceidtype d.deviceid))
    if errcode ≠ .success then pure errcode
    else do
      let errcode ← adxRedisCommand .adControllerMaster
        (.expire key (toInt32 (f.enddatetime lib (clk i) - clk (i + 1))))
      return after errcode
  else return .success

/-- `fc_campaign_(campaignid)`. -/
def fcCampaignKey (campaignid : ℤ) : Bytes := bytes "fc_campaign_" ++ unsignedDecimal campaignid

/-- `fc_policy_(policyid)`. -/
def fcPolicyKey (policyid : ℤ) : Bytes := bytes "fc_policy_" ++ unsignedDecimal policyid

/-- `fc_creative_(creativeid)`. -/
def fcCreativeKey (creativeid : ℤ) : Bytes := bytes "fc_creative_" ++ unsignedDecimal creativeid

/-- `adx_dsp_control_frequency_campaign`.  An inner `errcode` shadows the outer one, which is what
the function returns after the lifetime is set. -/
def adxDspControlFrequencyCampaign (mtype : UInt8) (d : DspCount) : TrackerProg ErrCode :=
  let f := d.campaignControl.frequency
  if f.type = 1 ∧ f.counts mtype then
    frequencyReached lib clk f (fcCampaignKey d.campaignid) d.fcCampaign d 33
      fun _ => .success
  else return .success

/-- `adx_dsp_control_frequency_policy`. -/
def adxDspControlFrequencyPolicy (mtype : UInt8) (d : DspCount) : TrackerProg ErrCode :=
  let f := d.policyControl.frequency
  if f.type = 1 ∧ f.counts mtype then
    frequencyReached lib clk f (fcPolicyKey d.policyid) d.fcPolicy d 35 id
  else return .success

/-- `adx_dsp_control_frequency_creative`. -/
def adxDspControlFrequencyCreative (mtype : UInt8) (d : DspCount) : TrackerProg ErrCode :=
  let f := d.campaignControl.frequency
  if f.type = 2 ∧ f.counts mtype then
    frequencyReached lib clk f (fcCreativeKey d.creativeid) d.fcCreative d 37 id
  else return .success

/-- The control flow of `adx_dsp_control` after the counting. -/
def controlRest (mtype : UInt8) (d : DspCount) : TrackerProg ErrCode := do
  let _ ← adxDspControlKpiCampaign lib clk d
  let _ ← adxDspControlKpiPolicy lib clk d
  let _ ← adxDspControlFrequencyCampaign lib clk mtype d
  let _ ← adxDspControlFrequencyPolicy lib clk mtype d
  adxDspControlFrequencyCreative lib clk mtype d

/-- `adx_dsp_control`; it also gives the counters, for what is proved about them. -/
def adxDspControl (dump : Dump) (u : UrlInfo) (price : ℚ) : TrackerProg (ErrCode × DspCount) :=
  match dump.campaignControl? u.mapid, dump.policyControl? u.mapid with
  | some campaignControl, some policyControl => do
    let r ← adxDspControlCount lib clk u dump price (.init campaignControl policyControl)
    let errcode ← controlRest lib clk u.mtype r.2
    return (errcode, r.2)
  | _, _ => return (.redisGroupFcInvalid, .init [] [])

end

/-! ## `adx_dump_check_kpi` -/

/-- The limits are compared again if both records have one and some limit has grown. -/
def limitsGrown (old new : DayLimits) : Bool :=
  (old.imp ≠ 0 || old.clk ≠ 0 || old.budget ≠ 0) &&
  (new.imp ≠ 0 || new.clk ≠ 0 || new.budget ≠ 0) &&
  (old.imp < new.imp || old.clk < new.clk || old.budget < new.budget) &&
  (old.imp ≠ new.imp || old.clk ≠ new.clk || old.budget ≠ new.budget)

/-- The counters of an entity are read again and it is paused, or its pause is taken back. -/
def dumpCheckEntity (codes : PauseCodes) (counter imp clk cost : Bytes) (pauseKey delKey : Bytes)
    (seconds : ℤ) (new : DayLimits) : TrackerProg Unit := do
  let nImp ← adxRedisCommandNumber 0 .adCounterMaster (.hget counter imp)
  let nClk ← adxRedisCommandNumber 0 .adCounterMaster (.hget counter clk)
  let nCost ← adxRedisCommandNumber 0 .adCounterMaster (.hget counter cost)
  let pause := dumpPause codes new ⟨nImp.2, nClk.2, nCost.2⟩
  if pause ≠ 0 then
    let _ ← adxRedisCommand .adControllerMaster (.setex pauseKey seconds (decimal pause))
  else
    let _ ← adxRedisCommand .adControllerMaster (.del delKey)

/-- `adx_dump_check_kpi`; `now` is the clock when the entity of an id is handled. -/
def adxDumpCheckKpi (lib : CLib) (t : ℤ) (now : ℤ → ℤ) (old new : Dump) : TrackerProg Unit := do
  let day := timeMonthDay lib t
  old.campaign.forM fun (campaignid, oldControl) => do
    let l := Control.dayLimits ((new.campaign.lookup campaignid).getD []) day
    if limitsGrown (oldControl.dayLimits day) l then
      dumpCheckEntity campaignPause (bytes "dspcounter_" ++ decimal campaignid)
        (campaignDayField (bytes "d_imp") day) (campaignDayField (bytes "d_clk") day)
        (campaignDayField (bytes "d_cost") day) (pauseCampaignKey campaignid)
        (bytes "pause_campaign_" ++ decimal campaignid)
        (getTimeSecTodayEnd lib (now campaignid)) l
  old.policy.forM fun (policyid, oldControl) => do
    let l := Control.dayLimits ((new.policy.lookup policyid).getD []) day
    let campaignid := oldControl.number (bytes "campaignid")
    if limitsGrown (oldControl.dayLimits day) l then
      dumpCheckEntity policyPause (bytes "dspcounter_" ++ decimal campaignid)
        (bytes "d_imp_p_" ++ decimal policyid ++ bytes "_" ++ day)
        (bytes "d_clk_p_" ++ decimal policyid ++ bytes "_" ++ day)
        (bytes "d_cost_p_" ++ decimal policyid ++ bytes "_" ++ day) (pausePolicyKey policyid)
        (bytes "pause_policy_" ++ decimal policyid)
        (getTimeSecTodayEnd lib (now policyid)) l

end AdxDsp
