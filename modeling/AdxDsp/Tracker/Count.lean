import AdxDsp.Tracker.Command

/-!
# Counting an accepted notice

`adx_dsp_control_count`: impressions, clicks and costs of the campaign and the policy of a notice,
in total, for the day and for the current ten minutes, and the frequency counters of its device.
Every macro that reads the clock reads it anew, so that `clk` gives the successive readings.
-/

namespace AdxDsp

open CText Redis

/-- `ADX_DSP_COUNTER_COUNT_T`: the counters of one notice. -/
structure DspCount where
  campaignid : ℤ
  policyid : ℤ
  creativeid : ℤ
  deviceidtype : Bytes
  deviceid : Bytes
  campaignControl : Control
  policyControl : Control
  cImp : ℤ
  cClk : ℤ
  cCost : ℤ
  pImp : ℤ
  pClk : ℤ
  pCost : ℤ
  cImpDay : ℤ
  cClkDay : ℤ
  cCostDay : ℤ
  pImpDay : ℤ
  pClkDay : ℤ
  pCostDay : ℤ
  pImp10m : ℤ
  pClk10m : ℤ
  pCost10m : ℤ
  fcCampaign : ℤ
  fcPolicy : ℤ
  fcCreative : ℤ

/-- The counters after `memset`, with the control records. -/
def DspCount.init (campaignControl policyControl : Control) : DspCount :=
  ⟨0, 0, 0, [], [], campaignControl, policyControl, 0, 0, 0, 0, 0, 0, 0, 0, 0, 0, 0, 0, 0, 0, 0,
    0, 0, 0⟩

/-! ## Keys and fields -/

/-- `dspcounter_(campaignid)`. -/
def dspcounterKey (campaignid : ℤ) : Bytes := bytes "dspcounter_" ++ unsignedDecimal campaignid

/-- `dsp10minutecounter_(policyid)_(slot)`. -/
def dsp10minutecounterKey (policyid : ℤ) (slot : ℕ) : Bytes :=
  bytes "dsp10minutecounter_" ++ unsignedDecimal policyid ++ bytes "_" ++ decimal slot

/-- `auto_cost_bid_(policyid)_(month_day)`. -/
def autoCostBidKey (policyid : ℤ) (day : Bytes) : Bytes :=
  bytes "auto_cost_bid_" ++ unsignedDecimal policyid ++ bytes "_" ++ day

/-- A field of `auto_cost_bid`: `(what)(at)_(mapid)_(adx)_(gp)`. -/
def autoCostBidField (what mapid : Bytes) (u : UrlInfo) : Bytes :=
  what ++ decimal u.at_ ++ bytes "_" ++ mapid ++ bytes "_" ++ decimal u.adx ++ bytes "_" ++ u.gp

/-- A day field of a campaign: `(what)_c_(day)`. -/
def campaignDayField (what day : Bytes) : Bytes := what ++ bytes "_c_" ++ day

/-- A total field of a policy: `(what)_p_(policyid)`. -/
def policyField (what : Bytes) (policyid : ℤ) : Bytes :=
  what ++ bytes "_p_" ++ unsignedDecimal policyid

/-- A day field of a policy: `(what)_p_(policyid)_(day)`. -/
def policyDayField (what : Bytes) (policyid : ℤ) (day : Bytes) : Bytes :=
  what ++ bytes "_p_" ++ unsignedDecimal policyid ++ bytes "_" ++ day

/-- `did_(deviceidtype)_(deviceid)`: the hash and the set member of a device. -/
def didKey (deviceidtype deviceid : Bytes) : Bytes :=
  bytes "did_" ++ deviceidtype ++ bytes "_" ++ deviceid

/-- `fc_(id)_(action)_(period)_(enddatetime)`. -/
def fcField (id action period enddatetime : ℤ) : Bytes :=
  bytes "fc_" ++ unsignedDecimal id ++ bytes "_" ++ decimal action ++ bytes "_" ++ decimal period ++
    bytes "_" ++ decimal enddatetime

/-- `del_(enddatetime)`: what is to be removed when a period ends. -/
def delKey (enddatetime : ℤ) : Bytes := bytes "del_" ++ decimal enddatetime

/-- A member of `del_(enddatetime)`. -/
def delMember (did fc : Bytes) : Bytes := did ++ bytes "&$&" ++ fc

/-- `adx_size_t(price * 100)`: the price in hundredths, truncated.  A price is an exact number here;
in the code it is a `double`, so that 29 / 100 comes to 28 hundredths, and it may be no number at
all. -/
def priceCents (price : ℚ) : ℤ := (price * 100).num.tdiv (price * 100).den

/-- The value a redis server reads from `%lu` of a `long`. -/
def unsignedValue (z : ℤ) : ℤ := if z < 0 then z + 2 ^ 64 else z

/-! ## The parts of `adx_dsp_control_count` -/

section

variable (lib : CLib) (clk : ℕ → ℤ) (u : UrlInfo)

/-- Send a command to the counter cluster and store its number. -/
def countNumber (old : ℤ) (c : Cmd) : TrackerProg ℤ := do
  let r ← adxRedisCommandNumber old .adCounterMaster c
  return r.2

/-- The counts of an impression. -/
def countShow (d : DspCount) : TrackerProg DspCount := do
  let key := dspcounterKey d.campaignid
  let day i := timeMonthDay lib (clk i)
  let slot i := dsp10minutecounterKey d.policyid (timeHour10m lib (clk i))
  let cImp ← countNumber d.cImp (.hincrby key (bytes "imp_c") 1)
  let pImp ← countNumber d.pImp (.hincrby key (policyField (bytes "imp") d.policyid) 1)
  let cImpDay ← countNumber d.cImpDay
    (.hincrby key (campaignDayField (bytes "d_imp") (day 1)) 1)
  let pImpDay ← countNumber d.pImpDay
    (.hincrby key (policyDayField (bytes "d_imp") d.policyid (day 2)) 1)
  let cClk ← countNumber d.cClk (.hget key (bytes "clk_c"))
  let pClk ← countNumber d.pClk (.hget key (policyField (bytes "clk") d.policyid))
  let cClkDay ← countNumber d.cClkDay (.hget key (campaignDayField (bytes "d_clk") (day 3)))
  let pClkDay ← countNumber d.pClkDay
    (.hget key (policyDayField (bytes "d_clk") d.policyid (day 4)))
  let pImp10m ← countNumber d.pImp10m (.hincrby (slot 5) (bytes "imp_count") 1)
  let pClk10m ← countNumber d.pClk10m (.hget (slot 6) (bytes "clk_count"))
  let _ ← adxRedisCommand .adCounterMaster
    (.hincrby (autoCostBidKey d.policyid (getTimeStrMonthDay lib (clk 0) (bytes "_")))
      (autoCostBidField (bytes "imp_") (unsignedDecimal u.mapid) u) 1)
  return { d with cImp, pImp, cImpDay, pImpDay, cClk, pClk, cClkDay, pClkDay, pImp10m, pClk10m }

/-- The counts of a click. -/
def countClick (d : DspCount) : TrackerProg DspCount := do
  let key := dspcounterKey d.campaignid
  let day i := timeMonthDay lib (clk i)
  let slot i := dsp10minutecounterKey d.policyid (timeHour10m lib (clk i))
  let cImp ← countNumber d.cImp (.hget key (bytes "imp_c"))
  let pImp ← countNumber d.pImp (.hget key (policyField (bytes "imp") d.policyid))
  let cImpDay ← countNumber d.cImpDay (.hget key (campaignDayField (bytes "d_imp") (day 1)))
  let pImpDay ← countNumber d.pImpDay
    (.hget key (policyDayField (bytes "d_imp") d.policyid (day 2)))
  let cClk ← countNumber d.cClk (.hincrby key (bytes "clk_c") 1)
  let pClk ← countNumber d.pClk (.hincrby key (policyField (bytes "clk") d.policyid) 1)
  let cClkDay ← countNumber d.cClkDay
    (.hincrby key (campaignDayField (bytes "d_clk") (day 3)) 1)
  let pClkDay ← countNumber d.pClkDay
    (.hincrby key (policyDayField (bytes "d_clk") d.policyid (day 4)) 1)
  let pImp10m ← countNumber d.pImp10m (.hget (slot 5) (bytes "imp_count"))
  let pClk10m ← countNumber d.pClk10m (.hincrby (slot 6) (bytes "clk_count") 1)
  let _ ← adxRedisCommand .adCounterMaster
    (.hincrby (autoCostBidKey d.policyid (getTimeStrMonthDay lib (clk 0) (bytes "_")))
      (autoCostBidField (bytes "clk_") (unsignedDecimal u.mapid) u) 1)
  return { d with cImp, pImp, cImpDay, pImpDay, cClk, pClk, cClkDay, pClkDay, pImp10m, pClk10m }

/-- The counts of a notice by its kind. -/
def countMtype (d : DspCount) : TrackerProg DspCount :=
  if u.mtype = mtypeImp then countShow lib clk u d
  else if u.mtype = mtypeClk then countClick lib clk u d
  else return d

/-- The counts of a cost: with a price the counters grow by it, otherwise they are only read. -/
def countCost (price : ℚ) (d : DspCount) : TrackerProg DspCount := do
  let key := dspcounterKey d.campaignid
  let day i := timeMonthDay lib (clk i)
  let slot i := dsp10minutecounterKey d.policyid (timeHour10m lib (clk i))
  if price ≠ 0 then
    let cents := priceCents price
    let cCost ← countNumber d.cCost (.hincrby key (bytes "cost_c") (unsignedValue cents))
    let pCost ← countNumber d.pCost
      (.hincrby key (policyField (bytes "cost") d.policyid) (unsignedValue cents))
    let cCostDay ← countNumber d.cCostDay
      (.hincrby key (campaignDayField (bytes "d_cost") (day 7)) (unsignedValue cents))
    let pCostDay ← countNumber d.pCostDay
      (.hincrby key (policyDayField (bytes "d_cost") d.policyid (day 8)) (unsignedValue cents))
    -- the source prints this increment and the next with `%d`
    let pCost10m ← countNumber d.pCost10m
      (.hincrby (slot 9) (bytes "cost_count") (toInt32 cents))
    let _ ← adxRedisCommand .adCounterMaster
      (.hincrby (autoCostBidKey d.policyid (getTimeStrMonthDay lib (clk 0) (bytes "_")))
        (autoCostBidField (bytes "cost_") (decimal u.mapid) u) (toInt32 cents))
    return { d with cCost, pCost, cCostDay, pCostDay, pCost10m }
  else
    let cCost ← countNumber d.cCost (.hget key (bytes "cost_c"))
    let pCost ← countNumber d.pCost (.hget key (policyField (bytes "cost") d.policyid))
    let cCostDay ← countNumber d.cCostDay (.hget key (campaignDayField (bytes "d_cost") (day 7)))
    let pCostDay ← countNumber d.pCostDay
      (.hget key (policyDayField (bytes "d_cost") d.policyid (day 8)))
    let pCost10m ← countNumber d.pCost10m (.hget (slot 9) (bytes "cost_count"))
    return { d with cCost, pCost, cCostDay, pCostDay, pCost10m }

/-- The lifetimes of the ten-minute counters and of the automatic bidding counters. -/
def countLifetimes (d : DspCount) : TrackerProg ErrCode := do
  let _ ← adxRedisCommand .adCounterMaster
    (.expire (dsp10minutecounterKey d.policyid (timeHour10m lib (clk 10))) 1800)
  adxRedisCommand .adCounterMaster
    (.expire (autoCostBidKey d.policyid (getTimeStrMonthDay lib (clk 0) (bytes "_")))
      (getTimeDayEnd lib (clk 11) - clk 12))

/-- The frequency fields of a control record, as the `int` variables hold them. -/
structure Frequency where
  type : ℤ
  action : ℤ
  count : ℤ
  period : ℤ
  endtime : ℤ

/-- Read the frequency fields of a control record. -/
def Control.frequency (c : Control) : Frequency where
  type := toInt32 (c.number (bytes "frequencytype"))
  action := toInt32 (c.number (bytes "frequencyaction"))
  count := c.number (bytes "frequencycount")
  period := toInt32 (c.number (bytes "frequencyperiod"))
  endtime := toInt32 (c.number (bytes "frequencyendtime"))

/-- A control record counts impressions (action 1) or clicks (action 2). -/
def Frequency.counts (f : Frequency) (mtype : UInt8) : Bool :=
  (mtype = mtypeImp && f.action = 1) || (mtype = mtypeClk && f.action = 2)

/-- `END_DATE_TIME()`. -/
def Frequency.enddatetime (f : Frequency) (t : ℤ) : ℤ := getEnddatetime lib t f.period f.endtime

/-- Count a notice for the entity `id` on its device, and note the field for removal.  The three
entities of a notice share this code; `i` numbers the readings of the clock. -/
def countFrequency (f : Frequency) (d : DspCount) (id old : ℤ) (i : ℕ) :
    TrackerProg (ErrCode × ℤ) := do
  let did := didKey d.deviceidtype d.deviceid
  let fc j := fcField id f.action f.period (f.enddatetime lib (clk j))
  let n ← countNumber old (.hincrby did (fc i) 1)
  let errcode ← adxRedisCommand .adCounterMaster
    (.sadd (delKey (f.enddatetime lib (clk (i + 1)))) (delMember did (fc (i + 2))))
  return (errcode, n)

/-- The frequency counter of the campaign or of the creative, by the campaign's record. -/
def countFrequencyCampaign (errcode : ErrCode) (d : DspCount) : TrackerProg (ErrCode × DspCount) :=
  let f := d.campaignControl.frequency
  if f.counts u.mtype then
    if f.type = 1 then do
      let r ← countFrequency lib clk f d d.campaignid d.fcCampaign 13
      return (r.1, { d with fcCampaign := r.2 })
    else if f.type = 2 then do
      let r ← countFrequency lib clk f d d.creativeid d.fcCreative 16
      return (r.1, { d with fcCreative := r.2 })
    else return (errcode, d)
  else return (errcode, d)

/-- The frequency counter of the policy, by its own record. -/
def countFrequencyPolicy (errcode : ErrCode) (d : DspCount) : TrackerProg (ErrCode × DspCount) :=
  let f := d.policyControl.frequency
  if f.counts u.mtype then
    if f.type = 1 then do
      let r ← countFrequency lib clk f d d.policyid d.fcPolicy 19
      return (r.1, { d with fcPolicy := r.2 })
    else return (errcode, d)
  else return (errcode, d)

/-- The end of `adx_dsp_control_count`: lifetimes and the frequency counters of the device. -/
def countRest (d : DspCount) : TrackerProg (ErrCode × DspCount) := do
  let errcode ← countLifetimes lib clk d
  let d := { d with
    deviceid := u.deviceid
    deviceidtype := getDeviceidtype u.deviceidtype }
  let r ← countFrequencyCampaign lib clk u errcode d
  countFrequencyPolicy lib clk u r.1 r.2

/-- `adx_dsp_control_count`. -/
def adxDspControlCount (dump : Dump) (price : ℚ) (d : DspCount) :
    TrackerProg (ErrCode × DspCount) :=
  let d := { d with
    campaignid := dump.campaignid u.mapid
    policyid := dump.policyid u.mapid
    creativeid := dump.creativeid u.mapid }
  if d.campaignid = 0 ∨ d.policyid = 0 ∨ d.creativeid = 0 then return (.trackUndefineMapid, d)
  else do
    let d ← countMtype lib clk u d
    let d ← countCost lib clk u price d
    countRest lib clk u d

end

end AdxDsp
