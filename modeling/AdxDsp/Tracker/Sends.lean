import AdxDsp.Tracker.Tracker

/-!
# The commands of the tracker

What each part of the tracker can send, whatever the replies are.  A property of commands that
holds of the commands listed here holds of all that the part sends; the frame conditions of the
counters, of the flag words and of the devices are instances.
-/

namespace AdxDsp

open CText Redis

/-- Tells the cost counters from the other hash fields of the tracker. -/
def isCostCell (key field : Bytes) : Bool :=
  (bytes "dsp").isPrefixOf key &&
    ((bytes "cost_").isPrefixOf field || (bytes "d_cost_").isPrefixOf field)

/-- Tells the hashes of devices from the other hashes of the tracker. -/
def isDidKey (key : Bytes) : Bool := (bytes "did_").isPrefixOf key

/-- The command goes to another server than the counter cluster. -/
def OffCounter (c : Server × Cmd) : Prop := c.1 ≠ .adCounterMaster

section

variable {P : Server × Cmd → Prop}

/-- A command sends itself. -/
@[simp] theorem sends_adxRedisCommand {v : Server} {c : Cmd} :
    (adxRedisCommand v c).Sends P ↔ P (v, c) :=
  ⟨fun h => h.1, fun h => ⟨h, fun _ => trivial⟩⟩

/-- A command whose answer is a text sends itself. -/
@[simp] theorem sends_adxRedisCommandString {v : Server} {c : Cmd} :
    (adxRedisCommandString v c).Sends P ↔ P (v, c) :=
  ⟨fun h => h.1, fun h => ⟨h, fun _ => trivial⟩⟩

/-- A count sends its command. -/
@[simp] theorem sends_countNumber {old : ℤ} {c : Cmd} :
    (countNumber old c).Sends P ↔ P (.adCounterMaster, c) :=
  ⟨fun h => h.1, fun h => ⟨h, fun _ => trivial⟩⟩

/-- The flag check reads and writes the flag word, and nothing else. -/
theorem dspIdFlagCheck_sends {u : UrlInfo} (hget : P (.adCounterMaster, .get u.flagKey))
    (hset : ∀ flag : BitVec 32,
      P (.adCounterMaster, .setex u.flagKey 36000 (decimal flag.toInt))) :
    (dspIdFlagCheck u).Sends P := by
  refine ⟨hget, fun reply => .ite (fun _ => ?_) fun _ => .ret _⟩
  refine .ite (fun _ => .ite (fun _ => ?_) fun _ => .ret _) fun _ => .ret _
  exact sends_adxRedisCommand.mpr (hset _)

/-- The price of a notice is found without writing more than the winning price of its bid. -/
theorem trackerPrice_sends {conf : TrackerConf} {u : UrlInfo}
    (hdeal : ∀ key, P (.adSettingSlave, .hgetall key))
    (hget : ∀ key, P (.adCounterMaster, .get key))
    (hset : ∀ t, P (.adCounterMaster, .setex (dspIdPriceKey u.bid u.impid) 36000 t)) :
    (trackerPrice conf u).Sends P := by
  refine .ite (fun _ => ?_) fun _ => ?_
  · refine Prog.Sends.bind ⟨hdeal _, fun _ => trivial⟩ fun reply => ?_
    split
    · exact .ret _
    · exact .ite (fun _ => .ret _) fun _ => .ite (fun _ => .ret _) fun _ => .ret _
  · refine .ite (fun _ => .ret _) fun _ => ?_
    split
    · exact .ite (fun _ => .bind (sends_adxRedisCommand.mpr (hset _)) fun _ => .ret _)
        fun _ => .ret _
    · refine .ite (fun _ => .bind (sends_adxRedisCommandString.mpr (hget _)) fun r => ?_)
        fun _ => .ret _
      cases r <;> exact .ret _

end

/-! ## Counting -/

/-- A count, and what follows. -/
theorem sends_countNumber_bind {P : Server × Cmd → Prop} {α : Type} {old : ℤ} {c : Cmd}
    {k : ℤ → TrackerProg α} (hc : P (.adCounterMaster, c)) (hk : ∀ n, (k n).Sends P) :
    (countNumber old c >>= k).Sends P :=
  .bind (sends_countNumber.mpr hc) hk

section

variable {P : Server × Cmd → Prop} {lib : CLib} {clk : ℕ → ℤ} {u : UrlInfo} {d : DspCount}
  (hget : ∀ key f, P (.adCounterMaster, .hget key f))

include hget

/-- An impression increments counters of its campaign, of its policy and of the automatic
bidding. -/
theorem countShow_sendsOf
    (hcounter : ∀ f, isCostCell (dspcounterKey d.campaignid) f = false →
      P (.adCounterMaster, .hincrby (dspcounterKey d.campaignid) f 1))
    (hslot : ∀ i, P (.adCounterMaster, .hincrby
      (dsp10minutecounterKey d.policyid (timeHour10m lib (clk i))) (bytes "imp_count") 1))
    (hauto : ∀ day f, P (.adCounterMaster, .hincrby (autoCostBidKey d.policyid day) f 1)) :
    (countShow lib clk u d).Sends P := by
  unfold countShow
  iterate 4 refine sends_countNumber_bind (hcounter _ rfl) fun _ => ?_
  iterate 4 refine sends_countNumber_bind (hget _ _) fun _ => ?_
  refine sends_countNumber_bind (hslot _) fun _ => ?_
  refine sends_countNumber_bind (hget _ _) fun _ => ?_
  exact .bind (sends_adxRedisCommand.mpr (hauto _ _)) fun _ => .ret _

/-- A click increments counters of its campaign, of its policy and of the automatic bidding. -/
theorem countClick_sendsOf
    (hcounter : ∀ f, isCostCell (dspcounterKey d.campaignid) f = false →
      P (.adCounterMaster, .hincrby (dspcounterKey d.campaignid) f 1))
    (hslot : ∀ i, P (.adCounterMaster, .hincrby
      (dsp10minutecounterKey d.policyid (timeHour10m lib (clk i))) (bytes "clk_count") 1))
    (hauto : ∀ day f, P (.adCounterMaster, .hincrby (autoCostBidKey d.policyid day) f 1)) :
    (countClick lib clk u d).Sends P := by
  unfold countClick
  iterate 4 refine sends_countNumber_bind (hget _ _) fun _ => ?_
  iterate 4 refine sends_countNumber_bind (hcounter _ rfl) fun _ => ?_
  refine sends_countNumber_bind (hget _ _) fun _ => ?_
  refine sends_countNumber_bind (hslot _) fun _ => ?_
  exact .bind (sends_adxRedisCommand.mpr (hauto _ _)) fun _ => .ret _

/-- A cost is added to counters of its campaign, of its policy and of the automatic bidding. -/
theorem countCost_sendsOf {price : ℚ}
    (hcounter : ∀ f, P (.adCounterMaster,
      .hincrby (dspcounterKey d.campaignid) f (unsignedValue (priceCents price))))
    (hslot : ∀ i, P (.adCounterMaster, .hincrby
      (dsp10minutecounterKey d.policyid (timeHour10m lib (clk i))) (bytes "cost_count")
        (toInt32 (priceCents price))))
    (hauto : ∀ day f, P (.adCounterMaster,
      .hincrby (autoCostBidKey d.policyid day) f (toInt32 (priceCents price)))) :
    (countCost lib clk u price d).Sends P := by
  unfold countCost
  refine .ite (fun _ => ?_) fun _ => ?_
  · iterate 4 refine sends_countNumber_bind (hcounter _) fun _ => ?_
    refine sends_countNumber_bind (hslot _) fun _ => ?_
    exact .bind (sends_adxRedisCommand.mpr (hauto _ _)) fun _ => .ret _
  · iterate 5 refine sends_countNumber_bind (hget _ _) fun _ => ?_
    exact .ret _

end

/-- The property holds of the commands that count a notice, apart from its cost and its device. -/
structure CountSends (P : Server × Cmd → Prop) : Prop where
  hget : ∀ key f, P (.adCounterMaster, .hget key f)
  hincrby : ∀ key f n, isDidKey key = false → isCostCell key f = false →
    P (.adCounterMaster, .hincrby key f n)
  expireSlot : ∀ p slot, P (.adCounterMaster, .expire (dsp10minutecounterKey p slot) 1800)
  expireAuto : ∀ p day n, P (.adCounterMaster, .expire (autoCostBidKey p day) n)

section

variable {P : Server × Cmd → Prop} (h : CountSends P)
  (hfc : ∀ t d id a p e, P (.adCounterMaster, .hincrby (didKey t d) (fcField id a p e) 1))
  (hsadd : ∀ key m, P (.adCounterMaster, .sadd key m))
  (hoff : ∀ c, OffCounter c → P c)
  (lib : CLib) (clk : ℕ → ℤ) (u : UrlInfo)

section

include h

/-- What counting the type sends. -/
theorem countMtype_sends (d : DspCount) : (countMtype lib clk u d).Sends P := by
  have hcounter : ∀ f, isCostCell (dspcounterKey d.campaignid) f = false →
      P (.adCounterMaster, .hincrby (dspcounterKey d.campaignid) f 1) :=
    fun f hf => h.hincrby _ f 1 rfl hf
  have hauto : ∀ day f, P (.adCounterMaster, .hincrby (autoCostBidKey d.policyid day) f 1) :=
    fun day f => h.hincrby _ f 1 rfl rfl
  refine .ite (fun _ => ?_) fun _ => .ite (fun _ => ?_) fun _ => .ret _
  · exact countShow_sendsOf h.hget hcounter (fun i => h.hincrby _ _ 1 rfl rfl) hauto
  · exact countClick_sendsOf h.hget hcounter (fun i => h.hincrby _ _ 1 rfl rfl) hauto

/-- What setting the lifetimes sends. -/
theorem countLifetimes_sends (d : DspCount) : (countLifetimes lib clk d).Sends P :=
  .bind (sends_adxRedisCommand.mpr (h.expireSlot _ _)) fun _ =>
    sends_adxRedisCommand.mpr (h.expireAuto _ _ _)

end

/-- What counting the costs sends. -/
theorem countCost_sends (hget : ∀ key f, P (.adCounterMaster, .hget key f))
    (hincrby : ∀ key f n, isDidKey key = false → P (.adCounterMaster, .hincrby key f n))
    (price : ℚ) (d : DspCount) : (countCost lib clk u price d).Sends P :=
  countCost_sendsOf hget (fun f => hincrby _ f _ rfl) (fun _ => hincrby _ _ _ rfl)
    fun _ f => hincrby _ f _ rfl

section

include hfc hsadd

/-- What counting a frequency sends. -/
theorem countFrequency_sends (f : Frequency) (d : DspCount) (id old : ℤ) (i : ℕ) :
    (countFrequency lib clk f d id old i).Sends P :=
  .bind (sends_countNumber.mpr (hfc _ _ _ _ _ _)) fun _ =>
    .bind (sends_adxRedisCommand.mpr (hsadd _ _)) fun _ => .ret _

/-- What counting the campaign's or the creative's frequency sends. -/
theorem countFrequencyCampaign_sends (e : ErrCode) (d : DspCount) :
    (countFrequencyCampaign lib clk u e d).Sends P := by
  unfold countFrequencyCampaign
  refine .ite (fun _ => .ite (fun _ => ?_) fun _ => .ite (fun _ => ?_) fun _ => .ret _)
    fun _ => .ret _
  · exact .bind (countFrequency_sends hfc hsadd lib clk _ _ _ _ _) fun _ => .ret _
  · exact .bind (countFrequency_sends hfc hsadd lib clk _ _ _ _ _) fun _ => .ret _

/-- What counting the policy's frequency sends. -/
theorem countFrequencyPolicy_sends (e : ErrCode) (d : DspCount) :
    (countFrequencyPolicy lib clk u e d).Sends P := by
  unfold countFrequencyPolicy
  refine .ite (fun _ => .ite (fun _ => ?_) fun _ => .ret _) fun _ => .ret _
  exact .bind (countFrequency_sends hfc hsadd lib clk _ _ _ _ _) fun _ => .ret _

include h in
/-- What follows the cost in `adx_dsp_control_count`. -/
theorem countRest_sends (d : DspCount) : (countRest lib clk u d).Sends P :=
  .bind (countLifetimes_sends h lib clk d) fun _ =>
    .bind (countFrequencyCampaign_sends hfc hsadd lib clk u _ _) fun _ =>
      countFrequencyPolicy_sends hfc hsadd lib clk u _ _

include h in
/-- What `adx_dsp_control_count` sends, given what it sends for the cost. -/
theorem adxDspControlCount_sends {price : ℚ}
    (hcost : ∀ d, (countCost lib clk u price d).Sends P) (dump : Dump) (d : DspCount) :
    (adxDspControlCount lib clk u dump price d).Sends P := by
  unfold adxDspControlCount
  refine .ite (fun _ => .ret _) fun _ => ?_
  exact .bind (countMtype_sends h lib clk u _) fun _ =>
    .bind (hcost _) fun _ => countRest_sends h hfc hsadd lib clk u _

end

/-! ## Delivery control -/

section

include hoff

/-- What the check of the campaign sends. -/
theorem adxDspControlKpiCampaign_sends (d : DspCount) :
    (adxDspControlKpiCampaign lib clk d).Sends P := by
  unfold adxDspControlKpiCampaign
  dsimp only
  split
  · exact .ret _
  · exact sends_adxRedisCommand.mpr (hoff _ (by simp [OffCounter]))
  · exact .ret _

/-- What the pacing sends. -/
theorem kpiPolicyPacing_sends (l : DayLimits) (d : DspCount) :
    (kpiPolicyPacing lib clk l d).Sends P := by
  unfold kpiPolicyPacing
  refine .ite (fun _ => sends_adxRedisCommand.mpr (hoff _ (by simp [OffCounter]))) fun _ =>
    .ite (fun _ => .ret _) fun _ => .ite (fun _ => ?_) fun _ => .ret _
  refine .bind (sends_adxRedisCommand.mpr (hoff _ (by simp [OffCounter]))) fun _ =>
    .ite (fun _ => ?_) fun _ => .ret _
  exact .bind (.bind (sends_adxRedisCommand.mpr (hoff _ (by simp [OffCounter]))) fun _ => .ret _)
    fun _ => .ret _

/-- What the check of the policy sends. -/
theorem adxDspControlKpiPolicy_sends (d : DspCount) :
    (adxDspControlKpiPolicy lib clk d).Sends P := by
  unfold adxDspControlKpiPolicy
  dsimp only
  split
  · exact .ret _
  · refine .bind (sends_adxRedisCommand.mpr (hoff _ (by simp [OffCounter]))) fun _ => ?_
    exact .bind (sends_adxRedisCommand.mpr (hoff _ (by simp [OffCounter]))) fun _ => .ret _
  · exact kpiPolicyPacing_sends hoff lib clk _ d

/-- What a reached frequency sends. -/
theorem frequencyReached_sends (f : Frequency) (key : Bytes) (n : ℤ) (d : DspCount) (i : ℕ)
    (after : ErrCode → ErrCode) : (frequencyReached lib clk f key n d i after).Sends P := by
  unfold frequencyReached
  refine .ite (fun _ => .bind (sends_adxRedisCommand.mpr (hoff _ (by simp [OffCounter])))
    fun _ => ?_) fun _ => .ret _
  refine .ite (fun _ => .ret _) fun _ => ?_
  exact .bind (sends_adxRedisCommand.mpr (hoff _ (by simp [OffCounter]))) fun _ => .ret _

/-- The control flow after the counting sends nothing to the counter cluster. -/
theorem controlRest_sends (mtype : UInt8) (d : DspCount) :
    (controlRest lib clk mtype d).Sends P := by
  have hreached := frequencyReached_sends hoff lib clk
  refine .bind (adxDspControlKpiCampaign_sends hoff lib clk d) fun _ =>
    .bind (adxDspControlKpiPolicy_sends hoff lib clk d) fun _ => .bind ?_ fun _ => .bind ?_ fun _ =>
      ?_
  · exact .ite (fun _ => hreached _ _ _ _ _ _) fun _ => .ret _
  · exact .ite (fun _ => hreached _ _ _ _ _ _) fun _ => .ret _
  · exact .ite (fun _ => hreached _ _ _ _ _ _) fun _ => .ret _

include h hfc hsadd in
/-- What `adx_dsp_control` sends, given what it sends for the cost. -/
theorem adxDspControl_sends {price : ℚ} (hcost : ∀ d, (countCost lib clk u price d).Sends P)
    (dump : Dump) : (adxDspControl lib clk dump u price).Sends P := by
  unfold adxDspControl
  split
  · exact .bind (adxDspControlCount_sends h hfc hsadd lib clk u hcost dump _) fun _ =>
      .bind (controlRest_sends hoff lib clk u.mtype _) fun _ => .ret _
  · exact .ret _

end

end

end AdxDsp
