import AdxDsp.Tracker.KpiPause
import AdxDsp.Tracker.Serve

/-!
# Who is charged

The cost counters of a campaign and of a policy grow while a notice is counted.  They are meant to
grow for accepted impressions only.

* **Quiet commands** (`CostQuiet`): the commands of the tracker that write no cost counter.
* **Main result** (`charges_only_impressions`): in a run of auction notices without a click whose
  own price is counted, cost counters change at accepted impressions only, each by one price, and
  no bid is charged twice.
-/

namespace AdxDsp

open CText Redis

/-! ## Cost counters -/

/-- The cost counters of `adx_dsp_control_count`. -/
inductive CostCounter where
  | campaign (campaignid : ℤ)
  | policy (campaignid policyid : ℤ)
  | campaignDay (campaignid : ℤ) (day : Bytes)
  | policyDay (campaignid policyid : ℤ) (day : Bytes)
  | tenMinutes (policyid : ℤ) (slot : ℕ)

namespace CostCounter

/-- The hash of a cost counter. -/
def key : CostCounter → Bytes
  | campaign c => dspcounterKey c
  | policy c _ => dspcounterKey c
  | campaignDay c _ => dspcounterKey c
  | policyDay c _ _ => dspcounterKey c
  | tenMinutes p slot => dsp10minutecounterKey p slot

/-- The field of a cost counter. -/
def field : CostCounter → Bytes
  | campaign _ => bytes "cost_c"
  | policy _ p => policyField (bytes "cost") p
  | campaignDay _ day => campaignDayField (bytes "d_cost") day
  | policyDay _ p day => policyDayField (bytes "d_cost") p day
  | tenMinutes _ _ => bytes "cost_count"

/-- The value of a cost counter. -/
def value (k : CostCounter) (w : TrackerWorld) : ℤ :=
  (w.store .adCounterMaster).number k.key k.field

end CostCounter

/-- A cost counter is a cell of costs. -/
theorem CostCounter.isCostCell (k : CostCounter) : isCostCell k.key k.field = true := by
  cases k <;> rfl

/-- The command writes no cost counter of the counter cluster. -/
def CostQuiet (c : Server × Cmd) : Prop :=
  c.1 = .adCounterMaster → ∀ k : CostCounter, ¬c.2.writesField k.key k.field

/-- Every command to another server is quiet. -/
theorem OffCounter.costQuiet {c : Server × Cmd} (h : OffCounter c) : CostQuiet c :=
  fun hv => absurd hv h

/-- The commands that count a notice are quiet, apart from those of the cost. -/
theorem costQuiet_countSends : CountSends CostQuiet where
  hget _ _ _ _ h := h
  hincrby key f n _ h := by
    rintro - k ⟨hkey, hf⟩
    rw [hkey, hf, k.isCostCell] at h
    exact Bool.noConfusion h
  expireSlot _ _ _ _ h := absurd h.2 (by norm_num)
  expireAuto p day n := by
    rintro - k ⟨hkey, -⟩
    have hk := k.isCostCell
    rw [← hkey] at hk
    exact Bool.noConfusion hk

/-- Frequencies are no costs. -/
theorem costQuiet_fc (t d : Bytes) (id a p e : ℤ) :
    CostQuiet (.adCounterMaster, .hincrby (didKey t d) (fcField id a p e) 1) := by
  rintro - k ⟨hkey, -⟩
  have hk := k.isCostCell
  rw [← hkey] at hk
  exact Bool.noConfusion hk

/-- Sets are no costs. -/
theorem costQuiet_sadd (key m : Bytes) : CostQuiet (.adCounterMaster, .sadd key m) :=
  fun _ _ h => h

/-- Quiet programs leave the cost counters alone. -/
theorem value_of_costQuiet {α : Type} {p : TrackerProg α} (hp : p.Sends CostQuiet)
    (w : TrackerWorld) (k : CostCounter) : k.value (p.exec w).2 = k.value w := by
  refine World.eval_invariant (I := fun s => s.number k.key k.field = k.value w) ?_ rfl
  exact hp.mono fun c hc hv s hs => (Store.number_exec s (hc hv k)).trans hs

/-! ## One price for each counter -/

section

variable (lib : CLib) (clk : ℕ → ℤ) (u : UrlInfo)

/-- The command counts one price, in hundredths, in a field it names. -/
def CountsPrice (cents : ℤ) (c : Server × Cmd) : Prop :=
  ∀ key f, c.2.writesField key f →
    c.2 = .hincrby key f (unsignedValue cents) ∨ c.2 = .hincrby key f (toInt32 cents)

/-- The commands of the cost count the price. -/
theorem countCost_countsPrice (price : ℚ) (d : DspCount) :
    (countCost lib clk u price d).Sends (CountsPrice (priceCents price)) := by
  refine countCost_sendsOf (fun _ _ _ _ h => h.elim) (fun f => ?_) (fun i => ?_) fun day f => ?_
  · rintro key f ⟨rfl, rfl⟩
    exact .inl rfl
  · rintro key f ⟨rfl, rfl⟩
    exact .inr rfl
  · rintro key f ⟨rfl, rfl⟩
    exact .inr rfl

/-- Tells the six counters apart that one cost is added to. -/
def costTag (key field : Bytes) : ℕ :=
  if (bytes "dspcounter_").isPrefixOf key then
    if field = bytes "cost_c" then 0
    else if (bytes "cost_p_").isPrefixOf field then 1
    else if (bytes "d_cost_c_").isPrefixOf field then 2
    else 3
  else if (bytes "dsp10minutecounter_").isPrefixOf key then 4
  else 5

/-- A command on a cell with another tag does not write this cell. -/
theorem not_writes_of_costTag {key f key' f' : Bytes} (h : costTag key' f' ≠ costTag key f)
    (n : ℤ) : ¬(Cmd.hincrby key' f' n).writesField key f := by
  rintro ⟨rfl, rfl⟩
  exact h rfl

@[simp] theorem costTag_campaign (c : ℤ) : costTag (dspcounterKey c) (bytes "cost_c") = 0 := rfl

@[simp] theorem costTag_policy (c p : ℤ) :
    costTag (dspcounterKey c) (policyField (bytes "cost") p) = 1 := rfl

@[simp] theorem costTag_campaignDay (c : ℤ) (day : Bytes) :
    costTag (dspcounterKey c) (campaignDayField (bytes "d_cost") day) = 2 := rfl

@[simp] theorem costTag_policyDay (c p : ℤ) (day : Bytes) :
    costTag (dspcounterKey c) (policyDayField (bytes "d_cost") p day) = 3 := rfl

@[simp] theorem costTag_tenMinutes (p : ℤ) (slot : ℕ) (f : Bytes) :
    costTag (dsp10minutecounterKey p slot) f = 4 := rfl

@[simp] theorem costTag_autoCostBid (p : ℤ) (day f : Bytes) :
    costTag (autoCostBidKey p day) f = 5 := rfl

/-- The command writes the field `f` of the hash `key` of the counter cluster. -/
def WritesCell (key f : Bytes) (c : Server × Cmd) : Prop :=
  c.1 = .adCounterMaster ∧ c.2.writesField key f

/-- A command with another tag does not write the cell. -/
theorem not_writesCell_of_costTag {key f key' f' : Bytes}
    (h : costTag key' f' ≠ costTag key f) (v : Server) (n : ℤ) :
    ¬WritesCell key f (v, .hincrby key' f' n) := fun hw => not_writes_of_costTag h n hw.2

/-- A count that no later command repeats is sent once. -/
theorem sendsOnce_countNumber {α : Type} {P : Server × Cmd → Prop} {old : ℤ} {c : Cmd}
    {k : ℤ → TrackerProg α} (h : P (.adCounterMaster, c) → ∀ n, (k n).Sends (¬P ·))
    (hk : ∀ n, (k n).SendsOnce P) : (countNumber old c >>= k).SendsOnce P :=
  ⟨fun hc _ => h hc _, fun _ => hk _⟩

/-- The cost of a notice is added to each counter once at most. -/
theorem countCost_once (price : ℚ) (d : DspCount) (key f : Bytes) :
    (countCost lib clk u price d).SendsOnce (WritesCell key f) := by
  unfold countCost
  refine Prog.SendsOnce.ite (fun _ => ?_) fun _ => .of_sends_not ?_
  · refine sendsOnce_countNumber ?_ fun _ => sendsOnce_countNumber ?_ fun _ =>
      sendsOnce_countNumber ?_ fun _ => sendsOnce_countNumber ?_ fun _ =>
        sendsOnce_countNumber ?_ fun _ => ⟨fun _ _ => .ret _, fun _ => .ret _⟩
    -- after a command on one counter come commands on other counters only
    all_goals
      rintro ⟨-, rfl, rfl⟩ n
      repeat refine sends_countNumber_bind (not_writesCell_of_costTag (by simp) _ _) fun _ => ?_
      exact .bind (sends_adxRedisCommand.mpr (not_writesCell_of_costTag (by simp) _ _)) fun _ =>
        .ret _
  · iterate 5 refine sends_countNumber_bind (fun h => h.2) fun _ => ?_
    exact .ret _

/-- A quiet command writes no cost counter. -/
theorem CostQuiet.not_writesCell {c : Server × Cmd} (h : CostQuiet c) (k : CostCounter) :
    ¬WritesCell k.key k.field c := fun hw => h hw.1 k hw.2

/-- A notice is added to each cost counter once at most. -/
theorem adxDspControl_once (dump : Dump) (price : ℚ) (k : CostCounter) :
    (adxDspControl lib clk dump u price).SendsOnce (WritesCell k.key k.field) := by
  have hquiet : ∀ c, CostQuiet c → ¬WritesCell k.key k.field c := fun c h => h.not_writesCell k
  unfold adxDspControl
  split
  · refine .bind_left ?_ fun _ => .bind ?_ fun _ => .ret _
    · unfold adxDspControlCount
      refine .ite (fun _ => .ret _) fun _ => ?_
      refine .bind_right ((countMtype_sends costQuiet_countSends lib clk u _).mono hquiet)
        fun _ => ?_
      exact .bind_left (countCost_once lib clk u _ _ _ _) fun _ =>
        (countRest_sends costQuiet_countSends costQuiet_fc costQuiet_sadd lib clk u _).mono hquiet
    · exact controlRest_sends (fun c hc => hquiet c hc.costQuiet) lib clk u.mtype _
  · exact .ret _

/-- A property of the quiet commands and of the commands of the cost holds of all commands of
`adx_dsp_control`. -/
theorem adxDspControl_sends_of_costQuiet {P : Server × Cmd → Prop} (hquiet : ∀ c, CostQuiet c → P c)
    {price : ℚ} (hcost : ∀ d, (countCost lib clk u price d).Sends P) (dump : Dump) :
    (adxDspControl lib clk dump u price).Sends P :=
  adxDspControl_sends
    ⟨fun _ _ => hquiet _ (costQuiet_countSends.hget _ _),
      fun _ _ _ hd hc => hquiet _ (costQuiet_countSends.hincrby _ _ _ hd hc),
      fun _ _ => hquiet _ (costQuiet_countSends.expireSlot _ _),
      fun _ _ _ => hquiet _ (costQuiet_countSends.expireAuto _ _ _)⟩
    (fun _ _ _ _ _ _ => hquiet _ (costQuiet_fc _ _ _ _ _ _))
    (fun _ _ => hquiet _ (costQuiet_sadd _ _))
    (fun _ h => hquiet _ h.costQuiet) lib clk u hcost dump

/-- The commands of `adx_dsp_control` count the price of the notice in the cost counters. -/
theorem adxDspControl_countsPrice (dump : Dump) (price : ℚ) (k : CostCounter) :
    (adxDspControl lib clk dump u price).Sends fun c => WritesCell k.key k.field c →
      c.2 = .hincrby k.key k.field (unsignedValue (priceCents price)) ∨
        c.2 = .hincrby k.key k.field (toInt32 (priceCents price)) := by
  refine adxDspControl_sends_of_costQuiet lib clk u
    (fun c hc hw => absurd hw (hc.not_writesCell k)) (fun d => ?_) dump
  exact (countCost_countsPrice lib clk u price d).mono fun c hc hw => hc _ _ hw.2

/-- `adx_dsp_control` leaves a cost counter, or adds the price of the notice to it. -/
theorem value_adxDspControl (dump : Dump) (price : ℚ) (w : TrackerWorld) (k : CostCounter) :
    k.value ((adxDspControl lib clk dump u price).exec w).2 = k.value w ∨
      (k.value ((adxDspControl lib clk dump u price).exec w).2 =
          k.value w + unsignedValue (priceCents price) ∨
        k.value ((adxDspControl lib clk dump u price).exec w).2 =
          k.value w + toInt32 (priceCents price)) := by
  refine (adxDspControl_once lib clk u dump price k).eval_changed
    (Q := fun m n => n = m + unsignedValue (priceCents price) ∨ n = m + toInt32 (priceCents price))
    (adxDspControl_countsPrice lib clk u dump price k) ?_ ?_ w
  · intro s c hc
    -- other commands, and other stores, leave the counter alone
    rcases World.exec_store s c with h | h
    · rw [CostCounter.value, h, CostCounter.value]
    · rw [CostCounter.value, h, CostCounter.value]
      by_cases hv : c.1 = .adCounterMaster
      · rw [hv, Function.update_self]
        exact Store.number_exec _ fun hw => hc ⟨hv, hw⟩
      · rw [Function.update_of_ne (Ne.symm hv)]
  · intro s c hA hc
    -- the counter grows once, by the price with or without its sign
    have hinc := hA hc
    rcases World.exec_store s c with h | h
    · left
      rw [CostCounter.value, h, CostCounter.value]
    · rw [CostCounter.value, h, CostCounter.value, hc.1, Function.update_self]
      rcases hinc with hinc | hinc
      · rw [hinc]
        exact (Store.number_hincrby _ _ _ _).imp_right .inl
      · rw [hinc]
        exact (Store.number_hincrby _ _ _ _).imp_right .inr

end

/-! ## Which notices are charged -/

/-- The notice is an impression and is accepted. -/
def AcceptedImp (conf : TrackerConf) (w : TrackerWorld) (a : Arrival) : Prop :=
  a.notice.mtype = mtypeImp ∧ (serve conf w a).1.info.iv = 1

/-- Some cost counter changes while the notice is processed. -/
def Charges (conf : TrackerConf) (w : TrackerWorld) (a : Arrival) : Prop :=
  ∃ k : CostCounter, k.value (serve conf w a).2 ≠ k.value (a.before w)

/-- A new click on a known mapid, of an exchange other than 99, that brings a price of its own: the
flag word lets it pass, both commands on the flag word are executed, and its parameter `price`
decodes to a price that is not zero in hundredths. -/
structure ChargesClick (conf : TrackerConf) (w : TrackerWorld) (u : UrlInfo) : Prop where
  params : checkParams u = .success
  ids : checkIds u = .success
  click : u.mtype = mtypeClk
  new : ∃ text, (w.store .adCounterMaster).strings u.decodeBid.flagKey = some text ∧
    dspIdFlagAccepts u.mtype (BitVec.ofInt 32 (atol (cstr text))) = true
  sent : w.outcome w.sent = .ok ∧ w.outcome (w.sent + 1) = .ok
  adx : u.adx ≠ mtypeClk.toNat
  price : u.price ≠ [] ∧ ∃ p, parseNoticePrice conf.priceLibs u.adx u.price = .ok p ∧
    priceCents p ≠ 0
  known : (conf.dump.campaignControl? u.mapid).isSome ∧ (conf.dump.policyControl? u.mapid).isSome ∧
    conf.dump.campaignid u.mapid ≠ 0 ∧ conf.dump.policyid u.mapid ≠ 0 ∧
      conf.dump.creativeid u.mapid ≠ 0

/-- The flag check counts no costs. -/
theorem dspIdFlagCheck_costQuiet (u : UrlInfo) : (dspIdFlagCheck u).Sends CostQuiet :=
  dspIdFlagCheck_sends (fun _ _ h => h) fun _ _ _ h => h

/-- Decoding the price counts no costs. -/
theorem trackerPrice_costQuiet (conf : TrackerConf) (u : UrlInfo) :
    (trackerPrice conf u).Sends CostQuiet :=
  trackerPrice_sends (fun _ _ _ h => h) (fun _ _ _ h => h) fun _ _ _ h => h

/-- No price is no cents. -/
@[simp] theorem priceCents_zero : priceCents 0 = 0 := by
  simp [priceCents]

/-- A price of less than one hundredth changes no cost counter. -/
theorem value_of_priceCents_zero (lib : CLib) (clk : ℕ → ℤ) (u : UrlInfo) (dump : Dump)
    {price : ℚ} (h : priceCents price = 0) (w : TrackerWorld) (k : CostCounter) :
    k.value ((adxDspControl lib clk dump u price).exec w).2 = k.value w := by
  rcases value_adxDspControl lib clk u dump price w k with hk | hk | hk
  · exact hk
  · rw [hk, h]
    exact add_zero _
  · rw [hk, h]
    exact add_zero _

/-- A mapid that the dump does not know is not counted. -/
theorem value_of_unknown (lib : CLib) (clk : ℕ → ℤ) (u : UrlInfo) (dump : Dump) (price : ℚ)
    (h : ¬((dump.campaignControl? u.mapid).isSome ∧ (dump.policyControl? u.mapid).isSome ∧
      dump.campaignid u.mapid ≠ 0 ∧ dump.policyid u.mapid ≠ 0 ∧ dump.creativeid u.mapid ≠ 0))
    (w : TrackerWorld) (k : CostCounter) :
    k.value ((adxDspControl lib clk dump u price).exec w).2 = k.value w := by
  refine value_of_costQuiet ?_ w k
  unfold adxDspControl
  split
  · rename_i c p hc hp
    have hid : dump.campaignid u.mapid = 0 ∨ dump.policyid u.mapid = 0 ∨
        dump.creativeid u.mapid = 0 := by
      by_contra hne
      simp only [not_or] at hne
      exact h ⟨by rw [hc]; rfl, by rw [hp]; rfl, hne⟩
    refine .bind ?_ fun _ =>
      .bind (controlRest_sends (fun c hc => hc.costQuiet) lib clk u.mtype _) fun _ => .ret _
    unfold adxDspControlCount
    exact .ite (fun _ => .ret _) fun hne => absurd hid hne
  · exact .ret _

/-- A click has a price only if it brings one. -/
theorem adxRtbProcess_click (lib : CLib) (libs : List PriceLib) {u : UrlInfo}
    (hm : u.mtype = mtypeClk) : ∃ e p, adxRtbProcess lib libs u 0 = .ret (e, p) ∧
      (p ≠ 0 → u.adx ≠ mtypeClk.toNat ∧ u.price ≠ [] ∧
        parseNoticePrice libs u.adx u.price = .ok p) := by
  have himp : u.mtype ≠ mtypeImp := by
    rw [hm]
    decide
  have hwin : u.mtype ≠ mtypeWin := by
    rw [hm]
    decide
  rw [adxRtbProcess]
  split_ifs with hadx hprice
  · exact ⟨_, _, rfl, fun h => absurd rfl h⟩
  · cases hparse : parseNoticePrice libs u.adx u.price with
    | ok p =>
      simp only
      exact ⟨_, p, rfl, fun _ => ⟨hadx, hprice, rfl⟩⟩
    | error e =>
      simp only
      exact ⟨_, _, rfl, fun h => absurd rfl h⟩
  · simp only
    exact ⟨_, _, rfl, fun h => absurd rfl h⟩

/-- A notice of an auction that changes a cost counter is an accepted impression, or a click with a
price of its own. -/
theorem charges_cases {conf : TrackerConf} {w : TrackerWorld} {a : Arrival}
    (hat : a.notice.at_ ≠ 1) (h : Charges conf w a) :
    AcceptedImp conf w a ∨ ChargesClick conf (a.before w) a.notice := by
  obtain ⟨k, hk⟩ := h
  have hcheck := value_of_costQuiet (dspIdFlagCheck_costQuiet a.notice.decodeBid) (a.before w) k
  rcases serve_cases conf w a with ⟨-, hw⟩ | ⟨hp, hi, ⟨-, hw⟩ | ⟨hs, hserve⟩⟩
  · rw [hw] at hk
    exact absurd rfl hk
  · rw [hw] at hk
    exact absurd hcheck hk
  · have hm := mtype_of_checkParams hp
    by_cases himp : a.notice.mtype = mtypeImp
    · left
      refine ⟨himp, ?_⟩
      rw [hserve, iv_trackerAccepted]
    · right
      have hprice := value_of_costQuiet (trackerPrice_costQuiet conf a.notice.decodeBid)
        ((dspIdFlagCheck a.notice.decodeBid).exec (a.before w)).2 k
      by_cases hclk : a.notice.mtype = mtypeClk
      · obtain ⟨text, htext, hacc, -⟩ := dspIdFlagCheck_success (by simpa using hm) hs
        obtain ⟨e, p, hrtb, hbrings⟩ := adxRtbProcess_click conf.lib conf.priceLibs
          (u := a.notice.decodeBid) (by simpa using hclk)
        have hret : trackerPrice conf a.notice.decodeBid = .ret (e, p) := by
          rw [trackerPrice, if_neg (by simpa using hat), hrtb]
        -- what is left is `adx_dsp_control` with the price `p`
        have hval : k.value (serve conf w a).2 = k.value
            ((adxDspControl conf.lib a.clk conf.dump a.notice.decodeBid p).exec
              ((dspIdFlagCheck a.notice.decodeBid).exec (a.before w)).2).2 := by
          rw [hserve, trackerAccepted, hret]
          simp only [TrackerProg.exec, Prog.ret_bind, decodeBid_mtype, hclk, or_true, if_true,
            Prog.eval_bind]
          rfl
        have hcents : priceCents p ≠ 0 := by
          intro hzero
          rw [hval, value_of_priceCents_zero _ _ _ _ hzero, hcheck] at hk
          exact hk rfl
        have hne : p ≠ 0 := by
          rintro rfl
          exact hcents priceCents_zero
        obtain ⟨hadx, hnil, hparse⟩ := hbrings hne
        simp only [decodeBid_adx, decodeBid_price] at hadx hnil hparse
        refine ⟨hp, hi, hclk, ⟨text, htext, by simpa using hacc⟩,
          outcome_of_dspIdFlagCheck_success (by simpa using hm) hs, hadx,
          ⟨hnil, p, hparse, hcents⟩, ?_⟩
        by_contra hunknown
        rw [hval, value_of_unknown _ _ _ _ _ (by simpa using hunknown), hcheck] at hk
        exact hk rfl
      · -- a win notice is not counted
        have hval : (serve conf w a).2 = ((trackerPrice conf a.notice.decodeBid).exec
            ((dspIdFlagCheck a.notice.decodeBid).exec (a.before w)).2).2 := by
          rw [hserve, trackerAccepted]
          simp only [TrackerProg.exec, decodeBid_mtype, himp, hclk, or_self, if_false,
            Prog.eval_bind]
          rfl
        rw [hval, hprice, hcheck] at hk
        exact absurd rfl hk

/-! ## One impression for each bid -/

/-- The flag word under `key`, if there is one, has the flag of an impression. -/
def Shown (key : Bytes) (s : Store) : Prop :=
  ∀ text, s.strings key = some text → BitVec.ofInt 32 (atol (cstr text)) &&& dspFlagShow ≠ 0

/-- The command does not write the flag word under `key`. -/
def FlagQuiet (key : Bytes) (c : Server × Cmd) : Prop :=
  c.1 = .adCounterMaster → ¬c.2.writesString key

/-- A flag word that expires is no longer one without the flag. -/
theorem Shown.removeKeys {key : Bytes} {s : Store} (h : Shown key s) (keys : List Bytes) :
    Shown key (s.removeKeys keys) := by
  intro text ht
  rcases Store.strings_removeKeys s keys key with hk | hk
  · rw [hk] at ht
    exact h text ht
  · rw [hk] at ht
    exact absurd ht (by simp)

/-- Commands that write no string keep the flag shown. -/
theorem Shown.store_exec {key : Bytes} {s : Store} (h : Shown key s) {c : Cmd}
    (hc : ¬c.writesString key) : Shown key (s.exec c).1 := by
  intro text ht
  rw [Store.string_exec s hc] at ht
  exact h text ht

/-- A program that does not write the flag word keeps the flag of an impression. -/
theorem Shown.exec {α : Type} {key : Bytes} {p : TrackerProg α} (hp : p.Sends (FlagQuiet key))
    {w : TrackerWorld} (h : Shown key (w.store .adCounterMaster)) :
    Shown key ((p.exec w).2.store .adCounterMaster) :=
  World.eval_invariant (hp.mono fun _ hc hv _ hs => hs.store_exec (hc hv)) h

/-- The flag of an impression is kept when another flag is set. -/
theorem or_and_show_ne_zero {v : BitVec 32} (h : v &&& dspFlagShow ≠ 0) (b : BitVec 32) :
    (v ||| b) &&& dspFlagShow ≠ 0 := by
  intro hz
  rw [BitVec.and_or_distrib_right] at hz
  exact h (BitVec.or_eq_zero_iff.mp hz).1

/-- A flag word with the bit of an impression is shown. -/
theorem shown_of_decimal {key : Bytes} {s : Store} {v : BitVec 32}
    (hs : s.strings key = some (decimal v.toInt)) (hv : v &&& dspFlagShow ≠ 0) : Shown key s := by
  intro text ht
  rw [hs, Option.some_inj] at ht
  rw [← ht, cstr_decimal, atol_decimal_toInt, BitVec.ofInt_toInt]
  exact hv

/-- The keys of winning prices are no keys of flag words. -/
theorem dspIdPriceKey_ne_flagKey (bid impid : Bytes) (u : UrlInfo) :
    dspIdPriceKey bid impid ≠ u.flagKey := by
  simp only [dspIdPriceKey, UrlInfo.flagKey, dspIdFlagKey, List.append_assoc]
  exact append_ne_append rfl _ _

/-- The keys of the automatic bidding counters are no keys of flag words. -/
theorem autoCostBidKey_ne_flagKey (p : ℤ) (day : Bytes) (u : UrlInfo) :
    autoCostBidKey p day ≠ u.flagKey := by
  simp only [autoCostBidKey, UrlInfo.flagKey, dspIdFlagKey, List.append_assoc]
  exact append_ne_append rfl _ _

/-- Behind the flag check no flag word is written. -/
theorem trackerAccepted_flagQuiet (conf : TrackerConf) (clk : ℕ → ℤ) (u v : UrlInfo) :
    (trackerAccepted conf clk u).Sends (FlagQuiet v.flagKey) := by
  have hcount : CountSends (FlagQuiet v.flagKey) :=
    ⟨fun _ _ _ h => h, fun _ _ _ _ _ _ h => h, fun _ _ _ h => absurd h.2 (by norm_num),
      fun p day _ _ h => autoCostBidKey_ne_flagKey p day v h.1⟩
  refine .bind (trackerPrice_sends (fun _ h => absurd h (by simp)) (fun _ _ h => h)
    fun t _ h => dspIdPriceKey_ne_flagKey _ _ v h) fun r => .ite (fun _ => ?_) fun _ => .ret _
  refine .bind (adxDspControl_sends hcount (fun _ _ _ _ _ _ _ h => h) (fun _ _ _ h => h)
    (fun _ h hv => absurd hv h) conf.lib clk u (fun d => ?_) conf.dump) fun _ => .ret _
  exact countCost_sends conf.lib clk u (fun _ _ _ h => h) (fun _ _ _ _ _ h => h) r.2 d

/-- The flag check keeps the flag of an impression, on its own word and on others. -/
theorem shown_dspIdFlagCheck {u : UrlInfo} {key : Bytes} {w : TrackerWorld}
    (h : Shown key (w.store .adCounterMaster)) :
    Shown key (((dspIdFlagCheck u).exec w).2.store .adCounterMaster) := by
  by_cases hk : u.flagKey = key
  · subst hk
    have hget : Shown u.flagKey
        ((w.exec (.adCounterMaster, .get u.flagKey)).1.store .adCounterMaster) :=
      World.exec_invariant w _ (fun _ _ hs => hs.store_exec fun hw => hw) h
    rw [dspIdFlagCheck_eq_send, TrackerProg.exec, Prog.eval_send]
    split_ifs with hs
    · obtain ⟨text, htext, hval⟩ := get_success hs
      rw [hval, dspIdFlagTest]
      split_ifs
      · -- the word that is written has the flags of the word that was read
        refine World.exec_invariant _ _ (fun _ s _ => ?_) hget
        refine shown_of_decimal ?_ (or_and_show_ne_zero (h text htext) (dspIdFlagBit u.mtype))
        exact Store.strings_setString_self _ _ _ _
      all_goals exact hget
    · exact hget
  · refine Shown.exec (dspIdFlagCheck_sends (fun _ h => h) fun _ _ hw => ?_) h
    exact hk hw

/-- Processing a notice keeps the flag of an impression. -/
theorem shown_serve {conf : TrackerConf} {w : TrackerWorld} (a : Arrival) (v : UrlInfo)
    (h : Shown v.flagKey (w.store .adCounterMaster)) :
    Shown v.flagKey ((serve conf w a).2.store .adCounterMaster) := by
  have hbefore : Shown v.flagKey ((a.before w).store .adCounterMaster) := by
    rw [Arrival.before, World.store_expire]
    exact h.removeKeys _
  rcases serve_cases conf w a with ⟨-, hw⟩ | ⟨-, -, ⟨-, hw⟩ | ⟨-, hserve⟩⟩
  · rwa [hw]
  · rw [hw]
    exact shown_dspIdFlagCheck hbefore
  · rw [hserve]
    exact Shown.exec (trackerAccepted_flagQuiet conf a.clk _ v) (shown_dspIdFlagCheck hbefore)

/-- No notice takes the flag of an impression away. -/
theorem shown_serveAll (conf : TrackerConf) {w : TrackerWorld} (as : List Arrival) (v : UrlInfo)
    (h : Shown v.flagKey (w.store .adCounterMaster)) :
    Shown v.flagKey ((serveAll conf w as).store .adCounterMaster) := by
  induction as generalizing w with
  | nil => exact h
  | cons a as ih => exact ih (shown_serve a v h)

/-- After an accepted impression the flag word of its bid has the flag of an impression. -/
theorem AcceptedImp.shown {conf : TrackerConf} {w : TrackerWorld} {a : Arrival}
    (h : AcceptedImp conf w a) :
    Shown a.notice.decodeBid.flagKey ((serve conf w a).2.store .adCounterMaster) := by
  rcases serve_cases conf w a with ⟨hiv, -⟩ | ⟨hp, -, ⟨hiv, -⟩ | ⟨hs, hserve⟩⟩
  · rw [h.2] at hiv
    exact absurd hiv (by norm_num)
  · rw [h.2] at hiv
    exact absurd hiv (by norm_num)
  · obtain ⟨text, -, -, hset⟩ :=
      dspIdFlagCheck_success (by simpa using mtype_of_checkParams hp) hs
    rw [hserve]
    refine Shown.exec (trackerAccepted_flagQuiet conf a.clk _ _) (shown_of_decimal hset ?_)
    rw [decodeBid_mtype, h.1, BitVec.or_comm]
    exact or_and_show_ne_zero (by decide) _

/-- On a flag word with the flag of an impression no impression is accepted. -/
theorem not_acceptedImp_of_shown {conf : TrackerConf} {w : TrackerWorld} {a : Arrival}
    (h : Shown a.notice.decodeBid.flagKey (w.store .adCounterMaster)) :
    ¬AcceptedImp conf w a := by
  intro hacc
  have hbefore : Shown a.notice.decodeBid.flagKey ((a.before w).store .adCounterMaster) := by
    rw [Arrival.before, World.store_expire]
    exact h.removeKeys _
  rcases serve_cases conf w a with ⟨hiv, -⟩ | ⟨hp, -, ⟨hiv, -⟩ | ⟨hs, -⟩⟩
  · rw [hacc.2] at hiv
    exact absurd hiv (by norm_num)
  · rw [hacc.2] at hiv
    exact absurd hiv (by norm_num)
  · obtain ⟨text, htext, hnew, -⟩ :=
      dspIdFlagCheck_success (by simpa using mtype_of_checkParams hp) hs
    rw [decodeBid_mtype, hacc.1] at hnew
    refine hbefore text htext ?_
    simpa [dspIdFlagAccepts, mtypeImp, mtypeWin] using hnew

/-- Processing a notice leaves a cost counter, or adds the price of the notice to it. -/
theorem value_serve (conf : TrackerConf) (w : TrackerWorld) (a : Arrival) (k : CostCounter) :
    k.value (serve conf w a).2 = k.value (a.before w) ∨
      (k.value (serve conf w a).2 =
          k.value (a.before w) + unsignedValue (priceCents (serve conf w a).1.info.price) ∨
        k.value (serve conf w a).2 =
          k.value (a.before w) + toInt32 (priceCents (serve conf w a).1.info.price)) := by
  have hcheck := value_of_costQuiet (dspIdFlagCheck_costQuiet a.notice.decodeBid) (a.before w) k
  rcases serve_cases conf w a with ⟨-, hw⟩ | ⟨-, -, ⟨-, hw⟩ | ⟨-, hserve⟩⟩
  · rw [hw]
    exact .inl rfl
  · rw [hw]
    exact .inl hcheck
  · have hprice := value_of_costQuiet (trackerPrice_costQuiet conf a.notice.decodeBid)
      ((dspIdFlagCheck a.notice.decodeBid).exec (a.before w)).2 k
    rw [hcheck] at hprice
    rw [hserve, trackerAccepted]
    simp only [TrackerProg.exec_bind]
    split_ifs
    · rw [← hprice, TrackerProg.exec_bind]
      exact value_adxDspControl conf.lib a.clk _ conf.dump _ _ k
    · exact .inl hprice

/-- In a run of auction notices, none of which is a new click with a price of its own: cost counters
change at accepted impressions only; a notice changes a counter by its price, once; and no two
notices of one bid are charged. -/
theorem charges_only_impressions (conf : TrackerConf) (w : TrackerWorld) (as : List Arrival)
    (hat : ∀ a ∈ as, a.notice.at_ ≠ 1)
    (hclick : ∀ pre a, pre ++ [a] <+: as →
      ¬ChargesClick conf (a.before (serveAll conf w pre)) a.notice) :
    ∀ pre a, pre ++ [a] <+: as →
      (Charges conf (serveAll conf w pre) a → AcceptedImp conf (serveAll conf w pre) a) ∧
      (∀ k : CostCounter,
        let before := k.value (a.before (serveAll conf w pre))
        let after := k.value (serve conf (serveAll conf w pre) a).2
        let cents := priceCents (serve conf (serveAll conf w pre) a).1.info.price
        after = before ∨ after = before + unsignedValue cents ∨ after = before + toInt32 cents) ∧
      ∀ mid b, pre ++ [a] ++ mid ++ [b] <+: as → Charges conf (serveAll conf w pre) a →
        Charges conf (serveAll conf w (pre ++ [a] ++ mid)) b →
          a.notice.decodeBid.flagKey ≠ b.notice.decodeBid.flagKey := by
  have himp : ∀ pre a, pre ++ [a] <+: as → Charges conf (serveAll conf w pre) a →
      AcceptedImp conf (serveAll conf w pre) a := by
    intro pre a hp hch
    have hmem : a ∈ as := hp.subset (by simp)
    exact (charges_cases (hat a hmem) hch).resolve_right (hclick pre a hp)
  intro pre a hp
  refine ⟨himp pre a hp, fun k => value_serve conf _ a k, fun mid b hb ha hcb hkey => ?_⟩
  have hshown := (himp pre a hp ha).shown
  rw [← serveAll_concat] at hshown
  have hlater := shown_serveAll conf mid _ hshown
  rw [← serveAll_append, hkey] at hlater
  exact not_acceptedImp_of_shown hlater (himp _ b hb hcb)

/-! ## A click with a price -/

/-- Exchange 14 decodes every price to 250; mapid 31 belongs to campaign 5 and policy 6. -/
def sampleConf : TrackerConf where
  lib := sampleLib
  priceLibs := [⟨14, some fun _ => .ok 250⟩]
  dump := ⟨[(5, [])], [(6, [])], [(31, ⟨5, 6, 7⟩)]⟩

/-- The sample notice of a kind, at a standing clock. -/
def sampleArrival (mtype : UInt8) : Arrival := ⟨sampleNotice mtype, fun _ => 0, []⟩

/-- The impression of the sample bid is charged, and the notice that is charged is accepted. -/
theorem charges_only_impressions_sample :
    AcceptedImp sampleConf (.reliable sampleStore) (sampleArrival mtypeImp) := by
  have hclick : ∀ pre a, pre ++ [a] <+: [sampleArrival mtypeImp] →
      ¬ChargesClick sampleConf (a.before (serveAll sampleConf (.reliable sampleStore) pre))
        a.notice := by
    intro pre a hp h
    have ha : a = sampleArrival mtypeImp := by
      simpa using hp.subset (List.mem_append_right pre (List.mem_singleton_self a))
    have hm := h.click
    rw [ha] at hm
    exact absurd hm (by decide)
  refine (charges_only_impressions sampleConf (.reliable sampleStore) [sampleArrival mtypeImp]
    (by simp [sampleArrival, sampleNotice]) hclick [] _ (List.prefix_refl _)).1
    ⟨.campaign 5, ?_⟩
  decide +kernel

/-- The impression of the sample bid is charged 250 hundredths, and the click on it 250 more. -/
theorem click_charged_again :
    ¬∀ pre a, pre ++ [a] <+: [sampleArrival mtypeImp, sampleArrival mtypeClk] →
      Charges sampleConf (serveAll sampleConf (.reliable sampleStore) pre) a →
        AcceptedImp sampleConf (serveAll sampleConf (.reliable sampleStore) pre) a := by
  intro h
  have hclk := h [sampleArrival mtypeImp] (sampleArrival mtypeClk) (List.prefix_refl _)
    ⟨.campaign 5, by decide +kernel⟩
  exact absurd hclk.1 (by decide)

end AdxDsp
