import AdxDsp.Tracker.KpiPause
import AdxDsp.Tracker.Serve

/-!
# The frequency counters of a device

Campaigns, policies and creatives count on one hash for each device, in fields that name an id, an
action, a period and its end.  A counter is the number of accepted notices of its entity as long as
no two kinds of entities count in one field, and as long as the settings of a creative's campaigns
agree.

* **Names**: `didKey_inj`, `fcField_inj`: a cell determines its device, id, action and period.
* **Step**: `Tallied.adxDspControl`: a notice counts once in each of its cells.
* **Run**: `Tallied.controlAll`, and the counters of a run in `counter_eq_accepted`.
-/

namespace AdxDsp

open CText Redis

/-! ## The names of the cells -/

/-- Two words without an underscore, joined by one. -/
def TwoWords (t : Bytes) : Prop := ∃ x y, 95 ∉ x ∧ 95 ∉ y ∧ t = x ++ 95 :: y

/-- A choice of two names with two words. -/
theorem TwoWords.ite {c : Prop} [Decidable c] {s t : Bytes} (hs : TwoWords s) (ht : TwoWords t) :
    TwoWords (if c then s else t) := by
  split
  · exact hs
  · exact ht

/-- Two words joined by an underscore. -/
theorem twoWords_of_join {x y : Bytes} (hx : x.elem 95 = false) (hy : y.elem 95 = false) :
    TwoWords (x ++ 95 :: y) :=
  ⟨x, y, by simpa using hx, by simpa using hy, rfl⟩

/-- The name of a device id type is two words. -/
theorem twoWords_getDeviceidtype (type : ℤ) : TwoWords (getDeviceidtype type) := by
  unfold getDeviceidtype
  refine .ite (twoWords_of_join (x := bytes "unknow") (y := bytes "unknow") rfl rfl) ?_
  refine .ite (twoWords_of_join (x := bytes "imei") (y := bytes "Clear") rfl rfl) ?_
  refine .ite (twoWords_of_join (x := bytes "imei") (y := bytes "SHA1") rfl rfl) ?_
  refine .ite (twoWords_of_join (x := bytes "imei") (y := bytes "md5") rfl rfl) ?_
  refine .ite (twoWords_of_join (x := bytes "mac") (y := bytes "Clear") rfl rfl) ?_
  refine .ite (twoWords_of_join (x := bytes "mac") (y := bytes "SHA1") rfl rfl) ?_
  refine .ite (twoWords_of_join (x := bytes "mac") (y := bytes "md5") rfl rfl) ?_
  refine .ite (twoWords_of_join (x := bytes "androidid") (y := bytes "Clear") rfl rfl) ?_
  refine .ite (twoWords_of_join (x := bytes "androidid") (y := bytes "SHA1") rfl rfl) ?_
  refine .ite (twoWords_of_join (x := bytes "androidid") (y := bytes "md5") rfl rfl) ?_
  refine .ite (twoWords_of_join (x := bytes "idfa") (y := bytes "Clear") rfl rfl) ?_
  refine .ite (twoWords_of_join (x := bytes "idfa") (y := bytes "SHA1") rfl rfl) ?_
  refine .ite (twoWords_of_join (x := bytes "idfa") (y := bytes "md5") rfl rfl) ?_
  exact twoWords_of_join (x := bytes "other") (y := bytes "other") rfl rfl

/-- The key of a device determines the name of its type and its id, whatever bytes the id has. -/
theorem didKey_inj {s t a b : Bytes} (hs : TwoWords s) (ht : TwoWords t) :
    didKey s a = didKey t b ↔ s = t ∧ a = b := by
  refine ⟨fun h => ?_, fun h => by rw [h.1, h.2]⟩
  obtain ⟨x, y, hx, hy, rfl⟩ := hs
  obtain ⟨x', y', hx', hy', rfl⟩ := ht
  simp only [didKey, List.append_assoc, List.append_cancel_left_eq, List.cons_append] at h
  obtain ⟨rfl, hrest⟩ := (append_sep_inj hx hx').mp h
  obtain ⟨rfl, rfl⟩ := (append_sep_inj hy hy').mp hrest
  exact ⟨rfl, rfl⟩

@[simp] theorem isDidKey_didKey (type id : Bytes) : isDidKey (didKey type id) = true := rfl

/-- The field of a frequency counter determines a positive id, the action and the period. -/
theorem fcField_inj {id id' action action' period period' enddatetime enddatetime' : ℤ}
    (hid : 0 < id) (hid' : 0 < id') :
    fcField id action period enddatetime = fcField id' action' period' enddatetime' ↔
      id = id' ∧ action = action' ∧ period = period' ∧ enddatetime = enddatetime' := by
  refine ⟨fun h => ?_, ?_⟩
  · have hsep : ∀ z, (95 : UInt8) ∉ decimal z := notMem_decimal (by decide) (by decide)
    simp only [fcField, unsignedDecimal_of_nonneg hid.le, unsignedDecimal_of_nonneg hid'.le,
      List.append_assoc, List.append_cancel_left_eq] at h
    obtain ⟨hi, h⟩ := (append_sep_inj (hsep _) (hsep _)).mp h
    obtain ⟨ha, h⟩ := (append_sep_inj (hsep _) (hsep _)).mp h
    obtain ⟨hp, h⟩ := (append_sep_inj (hsep _) (hsep _)).mp h
    exact ⟨decimal_inj.mp hi, decimal_inj.mp ha, decimal_inj.mp hp, decimal_inj.mp h⟩
  · rintro ⟨rfl, rfl, rfl, rfl⟩
    rfl

/-! ## Entities and their cells -/

/-- The entities that limit the frequency on a device. -/
inductive EntityKind where
  | campaign
  | creative
  | policy
  deriving DecidableEq

/-- The device of a notice: the name of its id type and its id. -/
def UrlInfo.device (u : UrlInfo) : Bytes × Bytes := (getDeviceidtype u.deviceidtype, u.deviceid)

namespace EntityKind

variable (lib : CLib) (dump : Dump) (t : ℤ)

/-- The id of the entity of a notice. -/
def id (k : EntityKind) (u : UrlInfo) : ℤ :=
  match k with
  | campaign => dump.campaignid u.mapid
  | creative => dump.creativeid u.mapid
  | policy => dump.policyid u.mapid

/-- The settings that count for the entity of a notice: a policy has its own, a creative those of
the campaign. -/
def frequency (k : EntityKind) (u : UrlInfo) : Frequency :=
  match k with
  | campaign => ((dump.campaignControl? u.mapid).getD []).frequency
  | creative => ((dump.campaignControl? u.mapid).getD []).frequency
  | policy => ((dump.policyControl? u.mapid).getD []).frequency

/-- The value of `frequencytype` with which the settings are about this kind of entity. -/
def frequencytype : EntityKind → ℤ
  | campaign => 1
  | creative => 2
  | policy => 1

/-- A notice is counted for its entity. -/
def counts (k : EntityKind) (u : UrlInfo) : Prop :=
  (k.frequency dump u).type = k.frequencytype ∧ (k.frequency dump u).counts u.mtype = true

instance (k : EntityKind) (u : UrlInfo) : Decidable (k.counts dump u) :=
  inferInstanceAs (Decidable (_ ∧ _))

/-- The counter that is compared with `frequencycount` for the entity. -/
def counter (k : EntityKind) (d : DspCount) : ℤ :=
  match k with
  | campaign => d.fcCampaign
  | creative => d.fcCreative
  | policy => d.fcPolicy

/-- The hash and the field of the counter, in the period of the time `t`. -/
def cell (k : EntityKind) (u : UrlInfo) : Bytes × Bytes :=
  (didKey (getDeviceidtype u.deviceidtype) u.deviceid,
    fcField (k.id dump u) (k.frequency dump u).action (k.frequency dump u).period
      ((k.frequency dump u).enddatetime lib t))

/-- Two notices name one entity of this kind, on one device. -/
def SameEntity (k : EntityKind) (u v : UrlInfo) : Prop :=
  k.id dump u = k.id dump v ∧ u.device = v.device

/-- Two notices are of one action, for one entity of this kind, on one device. -/
def SameCount (k : EntityKind) (u v : UrlInfo) : Prop :=
  u.mtype = v.mtype ∧ k.SameEntity dump u v

instance (k : EntityKind) (u v : UrlInfo) : Decidable (k.SameEntity dump u v) :=
  inferInstanceAs (Decidable (_ ∧ _))

instance (k : EntityKind) (u v : UrlInfo) : Decidable (k.SameCount dump u v) :=
  inferInstanceAs (Decidable (_ ∧ _))

end EntityKind

/-- The kinds of entities a notice is counted for, in the order of the counting. -/
def countedKinds (dump : Dump) (u : UrlInfo) : List EntityKind :=
  [.campaign, .creative, .policy].filter fun k => k.counts dump u

/-- The cells a notice is counted in. -/
def countedCells (lib : CLib) (dump : Dump) (t : ℤ) (u : UrlInfo) : List (Bytes × Bytes) :=
  (countedKinds dump u).map fun k => k.cell lib dump t u

/-- The dump knows the entities of a notice, with their control records. -/
structure Known (dump : Dump) (u : UrlInfo) : Prop where
  id_pos : ∀ k : EntityKind, 0 < k.id dump u
  campaignControl : (dump.campaignControl? u.mapid).isSome
  policyControl : (dump.policyControl? u.mapid).isSome

/-! ## Counting one notice -/

/-- The command leaves the hashes of devices alone. -/
def DidQuiet (c : Server × Cmd) : Prop :=
  c.1 = .adCounterMaster → ∀ key f, isDidKey key = true → ¬c.2.writesField key f

/-- Apart from the frequency counters, no counter is on the hash of a device. -/
theorem countSends_didQuiet : CountSends DidQuiet where
  hget _ _ := fun _ _ _ _ h => h
  hincrby key f n hkey _ := by
    intro _ k g hk h
    rw [← h.1, hkey] at hk
    exact absurd hk (by decide)
  expireSlot _ _ := fun _ _ _ _ h => absurd h.2 (by norm_num)
  expireAuto p day n := by
    intro _ k g hk h
    rw [← h.1] at hk
    exact absurd hk (by simp [autoCostBidKey, isDidKey, bytes])

/-- Other counters leave the keys of the devices alone. -/
theorem didQuiet_of_offCounter (c : Server × Cmd) (h : OffCounter c) : DidQuiet c :=
  fun hc => absurd hc h

/-- No command fails, and each cell of `U` holds the number of its occurrences in `counted`. -/
structure Tallied (U : Set (Bytes × Bytes)) (counted : List (Bytes × Bytes)) (w : TrackerWorld) :
    Prop where
  ok : ∀ n, w.outcome n = .ok
  tallies : (w.store .adCounterMaster).Tallies U counted

section

variable {U : Set (Bytes × Bytes)} {counted : List (Bytes × Bytes)} {w : TrackerWorld}

/-- What leaves the hashes of devices alone leaves the counts alone. -/
theorem Tallied.exec_of_sends {α : Type} {p : TrackerProg α} (h : Tallied U counted w)
    (hU : ∀ c ∈ U, isDidKey c.1 = true) (hp : p.Sends DidQuiet) :
    Tallied U counted (p.exec w).2 := by
  refine ⟨fun n => ?_, ?_⟩
  · rw [TrackerProg.exec, World.eval_outcome]
    exact h.ok n
  · refine World.eval_invariant (hp.mono fun c hc hv s hs => hs.exec fun q hq => ?_) h.tallies
    exact hc hv q.1 q.2 (hU q hq)

/-- `HINCRBY` on a cell counts it, and gives the new count. -/
theorem Tallied.countNumber (h : Tallied U counted w) {key f : Bytes} (hmem : (key, f) ∈ U)
    (old : ℤ) :
    ((countNumber old (.hincrby key f 1)).exec w).1 = counted.count (key, f) + 1 ∧
      Tallied U (counted ++ [(key, f)]) ((countNumber old (.hincrby key f 1)).exec w).2 := by
  obtain ⟨hstore, hreply⟩ := h.tallies.hincrby hmem
  have hrun : (AdxDsp.countNumber old (.hincrby key f 1)).exec w =
      ((replyNumber old (w.exec (.adCounterMaster, .hincrby key f 1)).2).2,
        (w.exec (.adCounterMaster, .hincrby key f 1)).1) := rfl
  rw [hrun, World.exec_of_ok h.ok]
  dsimp only
  rw [hreply, replyNumber_integer]
  exact ⟨rfl, h.ok, by simpa only [Function.update_self] using hstore⟩

end

section

variable {lib : CLib} {dump : Dump} {clk : ℕ → ℤ} {u : UrlInfo} {t : ℤ}
  {U : Set (Bytes × Bytes)} {counted : List (Bytes × Bytes)} {w : TrackerWorld} {d : DspCount}

/-- The record of a notice has the ids and the settings that the dump has for it. -/
structure Describes (dump : Dump) (u : UrlInfo) (d : DspCount) : Prop where
  campaignid : d.campaignid = EntityKind.campaign.id dump u
  creativeid : d.creativeid = EntityKind.creative.id dump u
  policyid : d.policyid = EntityKind.policy.id dump u
  campaignControl : d.campaignControl.frequency = EntityKind.campaign.frequency dump u
  policyControl : d.policyControl.frequency = EntityKind.policy.frequency dump u

/-- The record has the device of the notice. -/
structure OnDevice (u : UrlInfo) (d : DspCount) : Prop where
  deviceidtype : d.deviceidtype = getDeviceidtype u.deviceidtype
  deviceid : d.deviceid = u.deviceid

/-- The clock stays in one period for the settings of the notice. -/
def InPeriod (lib : CLib) (dump : Dump) (t : ℤ) (u : UrlInfo) (clk : ℕ → ℤ) : Prop :=
  ∀ (k : EntityKind) i,
    (k.frequency dump u).enddatetime lib (clk i) = (k.frequency dump u).enddatetime lib t

/-- Counting the entity of a notice counts its cell. -/
theorem Tallied.countFrequency (h : Tallied U counted w) (hU : ∀ c ∈ U, isDidKey c.1 = true)
    (hdev : OnDevice u d) (hperiod : InPeriod lib dump t u clk) (k : EntityKind)
    (hmem : k.cell lib dump t u ∈ U) (old : ℤ) (i : ℕ) :
    ((countFrequency lib clk (k.frequency dump u) d (k.id dump u) old i).exec w).1.2 =
        counted.count (k.cell lib dump t u) + 1 ∧
      Tallied U (counted ++ [k.cell lib dump t u])
        ((countFrequency lib clk (k.frequency dump u) d (k.id dump u) old i).exec w).2 := by
  have hcell : k.cell lib dump t u = (didKey d.deviceidtype d.deviceid,
      fcField (k.id dump u) (k.frequency dump u).action (k.frequency dump u).period
        ((k.frequency dump u).enddatetime lib (clk i))) := by
    rw [EntityKind.cell, hdev.deviceidtype, hdev.deviceid, hperiod k i]
  rw [hcell] at hmem ⊢
  obtain ⟨hn, hw⟩ := h.countNumber hmem old
  rw [AdxDsp.countFrequency, TrackerProg.exec_bind, TrackerProg.exec_bind]
  refine ⟨hn, hw.exec_of_sends hU (sends_adxRedisCommand.mpr ?_)⟩
  exact fun _ _ _ _ hw => hw

/-- Impressions, clicks and costs leave the ids and the settings alone. -/
theorem Describes.countMtype (h : Describes dump u d) (lib : CLib) (clk : ℕ → ℤ)
    (w : TrackerWorld) : Describes dump u ((countMtype lib clk u d).exec w).1 := by
  rw [AdxDsp.countMtype]
  split_ifs
  · exact ⟨h.campaignid, h.creativeid, h.policyid, h.campaignControl, h.policyControl⟩
  · exact ⟨h.campaignid, h.creativeid, h.policyid, h.campaignControl, h.policyControl⟩
  · exact h

/-- Counting the costs keeps the description. -/
theorem Describes.countCost (h : Describes dump u d) (price : ℚ) (w : TrackerWorld) :
    Describes dump u ((countCost lib clk u price d).exec w).1 := by
  rw [AdxDsp.countCost]
  dsimp only
  split_ifs
  · exact ⟨h.campaignid, h.creativeid, h.policyid, h.campaignControl, h.policyControl⟩
  · exact ⟨h.campaignid, h.creativeid, h.policyid, h.campaignControl, h.policyControl⟩

/-- A campaign and its creatives are not both limited. -/
theorem EntityKind.not_counts_both :
    ¬(EntityKind.campaign.counts dump u ∧ EntityKind.creative.counts dump u) := by
  rintro ⟨⟨h1, -⟩, ⟨h2, -⟩⟩
  exact absurd (h1.symm.trans h2) (by decide)

/-! ### The branches of the counting -/

/-- Where the campaign has a frequency, it is counted. -/
theorem countFrequencyCampaign_of_campaign (hd : Describes dump u d)
    (h : EntityKind.campaign.counts dump u) (e : ErrCode) :
    countFrequencyCampaign lib clk u e d = (do
      let r ← countFrequency lib clk (EntityKind.campaign.frequency dump u) d
        (EntityKind.campaign.id dump u) d.fcCampaign 13
      return (r.1, { d with fcCampaign := r.2 })) := by
  rw [countFrequencyCampaign, hd.campaignControl, hd.campaignid]
  rw [if_pos h.2, if_pos (show _ = (1 : ℤ) from h.1)]

/-- Where the creative has one, it is counted. -/
theorem countFrequencyCampaign_of_creative (hd : Describes dump u d)
    (h : EntityKind.creative.counts dump u) (e : ErrCode) :
    countFrequencyCampaign lib clk u e d = (do
      let r ← countFrequency lib clk (EntityKind.creative.frequency dump u) d
        (EntityKind.creative.id dump u) d.fcCreative 16
      return (r.1, { d with fcCreative := r.2 })) := by
  have htype : (EntityKind.campaign.frequency dump u).type = 2 := h.1
  rw [countFrequencyCampaign, hd.campaignControl, hd.creativeid]
  rw [if_pos (show (EntityKind.campaign.frequency dump u).counts u.mtype = true from h.2),
    if_neg (by rw [htype]; decide), if_pos htype]
  rfl

/-- Where neither has one, nothing is counted. -/
theorem countFrequencyCampaign_of_neither (hd : Describes dump u d)
    (hcamp : ¬EntityKind.campaign.counts dump u) (hcre : ¬EntityKind.creative.counts dump u)
    (e : ErrCode) : countFrequencyCampaign lib clk u e d = .ret (e, d) := by
  rw [countFrequencyCampaign, hd.campaignControl]
  split_ifs with hc h1 h2
  · exact absurd ⟨h1, hc⟩ hcamp
  · exact absurd ⟨h2, hc⟩ hcre
  · rfl
  · rfl

/-- Where the policy has a frequency, it is counted. -/
theorem countFrequencyPolicy_of_policy (hd : Describes dump u d)
    (h : EntityKind.policy.counts dump u) (e : ErrCode) :
    countFrequencyPolicy lib clk u e d = (do
      let r ← countFrequency lib clk (EntityKind.policy.frequency dump u) d
        (EntityKind.policy.id dump u) d.fcPolicy 19
      return (r.1, { d with fcPolicy := r.2 })) := by
  rw [countFrequencyPolicy, hd.policyControl, hd.policyid]
  rw [if_pos h.2, if_pos (show _ = (1 : ℤ) from h.1)]

/-- Where it has none, nothing is counted. -/
theorem countFrequencyPolicy_of_not (hd : Describes dump u d)
    (h : ¬EntityKind.policy.counts dump u) (e : ErrCode) :
    countFrequencyPolicy lib clk u e d = .ret (e, d) := by
  rw [countFrequencyPolicy, hd.policyControl]
  split_ifs with hc h1
  · exact absurd ⟨h1, hc⟩ h
  · rfl
  · rfl

/-- The campaign of a notice or its creative is counted, in its own cell. -/
theorem Tallied.countFrequencyCampaign (h : Tallied U counted w)
    (hU : ∀ c ∈ U, isDidKey c.1 = true) (hd : Describes dump u d) (hdev : OnDevice u d)
    (hperiod : InPeriod lib dump t u clk)
    (hmem : ∀ k : EntityKind, k.counts dump u → k.cell lib dump t u ∈ U) (e : ErrCode)
    {kinds : List EntityKind}
    (hkinds : kinds = [EntityKind.campaign, .creative].filter fun k => k.counts dump u)
    {r : (ErrCode × DspCount) × TrackerWorld}
    (hr : r = (countFrequencyCampaign lib clk u e d).exec w) :
    Tallied U (counted ++ kinds.map fun k => k.cell lib dump t u) r.2 ∧
      Describes dump u r.1.2 ∧ OnDevice u r.1.2 ∧
      ∀ k ∈ kinds, k.counter r.1.2 = counted.count (k.cell lib dump t u) + 1 := by
  -- a campaign, a creative or nothing is counted, never both of them
  by_cases hcamp : EntityKind.campaign.counts dump u
  · have hcre : ¬EntityKind.creative.counts dump u := fun h2 =>
      EntityKind.not_counts_both ⟨hcamp, h2⟩
    obtain rfl : kinds = [.campaign] := by simpa [hcamp, hcre] using hkinds
    obtain ⟨hn, hw⟩ := h.countFrequency hU hdev hperiod .campaign (hmem _ hcamp) d.fcCampaign 13
    rw [countFrequencyCampaign_of_campaign hd hcamp, TrackerProg.exec_bind] at hr
    subst hr
    refine ⟨hw, ⟨hd.1, hd.2, hd.3, hd.4, hd.5⟩, ⟨hdev.1, hdev.2⟩, ?_⟩
    intro k hk
    obtain rfl := List.mem_singleton.mp hk
    exact hn
  · by_cases hcre : EntityKind.creative.counts dump u
    · obtain rfl : kinds = [.creative] := by simpa [hcamp, hcre] using hkinds
      obtain ⟨hn, hw⟩ := h.countFrequency hU hdev hperiod .creative (hmem _ hcre) d.fcCreative 16
      rw [countFrequencyCampaign_of_creative hd hcre, TrackerProg.exec_bind] at hr
      subst hr
      refine ⟨hw, ⟨hd.1, hd.2, hd.3, hd.4, hd.5⟩, ⟨hdev.1, hdev.2⟩, ?_⟩
      intro k hk
      obtain rfl := List.mem_singleton.mp hk
      exact hn
    · obtain rfl : kinds = [] := by simpa [hcamp, hcre] using hkinds
      rw [countFrequencyCampaign_of_neither hd hcamp hcre] at hr
      subst hr
      refine ⟨?_, hd, hdev, fun k hk => absurd hk List.not_mem_nil⟩
      simpa [TrackerProg.exec] using h

/-- The policy of a notice is counted in its own cell, and the other counters stay. -/
theorem Tallied.countFrequencyPolicy (h : Tallied U counted w)
    (hU : ∀ c ∈ U, isDidKey c.1 = true) (hd : Describes dump u d) (hdev : OnDevice u d)
    (hperiod : InPeriod lib dump t u clk)
    (hmem : ∀ k : EntityKind, k.counts dump u → k.cell lib dump t u ∈ U) (e : ErrCode)
    {kinds : List EntityKind}
    (hkinds : kinds = [EntityKind.policy].filter fun k => k.counts dump u)
    {r : (ErrCode × DspCount) × TrackerWorld}
    (hr : r = (countFrequencyPolicy lib clk u e d).exec w) :
    Tallied U (counted ++ kinds.map fun k => k.cell lib dump t u) r.2 ∧
      (∀ k ∈ kinds, k.counter r.1.2 = counted.count (k.cell lib dump t u) + 1) ∧
      ∀ k : EntityKind, k ≠ .policy → k.counter r.1.2 = k.counter d := by
  -- the policy is counted, or there is nothing to count
  by_cases hpol : EntityKind.policy.counts dump u
  · obtain rfl : kinds = [.policy] := by simpa [hpol] using hkinds
    obtain ⟨hn, hw⟩ := h.countFrequency hU hdev hperiod .policy (hmem _ hpol) d.fcPolicy 19
    rw [countFrequencyPolicy_of_policy hd hpol, TrackerProg.exec_bind] at hr
    subst hr
    refine ⟨hw, fun k hk => ?_, fun k hk => ?_⟩
    · obtain rfl := List.mem_singleton.mp hk
      exact hn
    · cases k with
      | campaign => rfl
      | creative => rfl
      | policy => exact absurd rfl hk
  · obtain rfl : kinds = [] := by simpa [hpol] using hkinds
    rw [countFrequencyPolicy_of_not hd hpol] at hr
    subst hr
    refine ⟨?_, fun k hk => absurd hk List.not_mem_nil, fun _ _ => rfl⟩
    simpa [TrackerProg.exec] using h

/-- The counted kinds: first the campaign or the creative, then the policy. -/
theorem countedKinds_eq_append (dump : Dump) (u : UrlInfo) :
    countedKinds dump u = ([EntityKind.campaign, .creative].filter fun k => k.counts dump u) ++
      [EntityKind.policy].filter fun k => k.counts dump u :=
  List.filter_append [EntityKind.campaign, .creative] [EntityKind.policy]

/-- The end of the counting counts a notice in each of its cells.  If no two of them are the same
cell, the counters of the record are those of the cells. -/
theorem Tallied.countRest (h : Tallied U counted w) (hU : ∀ c ∈ U, isDidKey c.1 = true)
    (hd : Describes dump u d) (hperiod : InPeriod lib dump t u clk)
    (hmem : ∀ k : EntityKind, k.counts dump u → k.cell lib dump t u ∈ U)
    {r : (ErrCode × DspCount) × TrackerWorld} (hr : r = (countRest lib clk u d).exec w) :
    Tallied U (counted ++ countedCells lib dump t u) r.2 ∧
      ((countedCells lib dump t u).Nodup → ∀ k ∈ countedKinds dump u,
        k.counter r.1.2 =
          (counted ++ countedCells lib dump t u).count (k.cell lib dump t u)) := by
  rw [AdxDsp.countRest, TrackerProg.exec_bind, TrackerProg.exec_bind] at hr
  -- first the lifetimes, then the campaign or the creative, then the policy
  have hlife := h.exec_of_sends hU (countLifetimes_sends countSends_didQuiet lib clk d)
  obtain ⟨hcw, hcd, hcdev, hcn⟩ := hlife.countFrequencyCampaign hU
    (d := { d with deviceid := u.deviceid, deviceidtype := getDeviceidtype u.deviceidtype })
    ⟨hd.1, hd.2, hd.3, hd.4, hd.5⟩ ⟨rfl, rfl⟩ hperiod hmem _ rfl rfl
  obtain ⟨hpw, hpn, hkeep⟩ := hcw.countFrequencyPolicy hU hcd hcdev hperiod hmem _ rfl hr
  have hcells : countedCells lib dump t u =
      (([EntityKind.campaign, .creative].filter fun k => k.counts dump u).map
        fun k => k.cell lib dump t u) ++
      ([EntityKind.policy].filter fun k => k.counts dump u).map fun k => k.cell lib dump t u := by
    rw [countedCells, countedKinds_eq_append, List.map_append]
  rw [hcells, ← List.append_assoc]
  refine ⟨hpw, fun hnodup k hk => ?_⟩
  -- each cell is counted once, in one of the two parts
  have hdisj := List.disjoint_of_nodup_append hnodup
  rw [countedKinds_eq_append, List.mem_append] at hk
  rw [List.count_append]
  rcases hk with hk | hk
  · -- a campaign or a creative, which the counting of the policy leaves alone
    have hne : k ≠ .policy := by
      rintro rfl
      simp at hk
    have hmemk := List.mem_map_of_mem (f := fun k => EntityKind.cell lib dump t k u) hk
    have hnot := List.count_eq_zero.mpr (hdisj hmemk)
    have hone := List.count_eq_one_of_mem (List.nodup_append.mp hnodup).1 hmemk
    rw [hkeep k hne, hcn k hk, List.count_append, hone, hnot]
    simp
  · have hmemk := List.mem_map_of_mem (f := fun k => EntityKind.cell lib dump t k u) hk
    have hone := List.count_eq_one_of_mem (List.nodup_append.mp hnodup).2.1 hmemk
    rw [hpn k hk, hone]
    simp

/-- The record of a notice with its ids. -/
def DspCount.withIds (d : DspCount) (dump : Dump) (u : UrlInfo) : DspCount :=
  { d with
    campaignid := dump.campaignid u.mapid
    policyid := dump.policyid u.mapid
    creativeid := dump.creativeid u.mapid }

/-- A notice of a known mapping id counts in three parts. -/
theorem adxDspControlCount_of_known (hknown : Known dump u) (price : ℚ) (d : DspCount) :
    adxDspControlCount lib clk u dump price d = (do
      let d ← countMtype lib clk u (d.withIds dump u)
      let d ← countCost lib clk u price d
      countRest lib clk u d) := by
  refine if_neg ?_
  rintro (h0 | h0 | h0)
  · exact (hknown.id_pos .campaign).ne' h0
  · exact (hknown.id_pos .policy).ne' h0
  · exact (hknown.id_pos .creative).ne' h0

/-- The settings that were loaded describe the notice. -/
theorem describes_init {c p : Control} (hc : dump.campaignControl? u.mapid = some c)
    (hp : dump.policyControl? u.mapid = some p) :
    Describes dump u ((DspCount.init c p).withIds dump u) := by
  refine ⟨rfl, rfl, rfl, ?_, ?_⟩
  · rw [EntityKind.frequency, hc]
    rfl
  · rw [EntityKind.frequency, hp]
    rfl

/-- `adx_dsp_control` counts a notice in each of its cells. -/
theorem Tallied.adxDspControl (h : Tallied U counted w) (hU : ∀ c ∈ U, isDidKey c.1 = true)
    (hknown : Known dump u) (hperiod : InPeriod lib dump t u clk)
    (hmem : ∀ k : EntityKind, k.counts dump u → k.cell lib dump t u ∈ U) (price : ℚ)
    {r : (ErrCode × DspCount) × TrackerWorld}
    (hr : r = (adxDspControl lib clk dump u price).exec w) :
    Tallied U (counted ++ countedCells lib dump t u) r.2 ∧
      ((countedCells lib dump t u).Nodup → ∀ k ∈ countedKinds dump u,
        k.counter r.1.2 =
          (counted ++ countedCells lib dump t u).count (k.cell lib dump t u)) := by
  obtain ⟨c, hc⟩ := Option.isSome_iff_exists.mp hknown.campaignControl
  obtain ⟨p, hp⟩ := Option.isSome_iff_exists.mp hknown.policyControl
  have hcost : ∀ d, (AdxDsp.countCost lib clk u price d).Sends DidQuiet := by
    refine countCost_sends lib clk u (fun _ _ _ _ _ _ h => h) (fun key f n hkey => ?_) price
    intro _ k g hk h
    rw [← h.1, hkey] at hk
    exact absurd hk (by decide)
  rw [AdxDsp.adxDspControl, hc, hp] at hr
  dsimp only at hr
  rw [adxDspControlCount_of_known hknown] at hr
  simp only [TrackerProg.exec_bind, TrackerProg.exec_pure] at hr
  have hd := describes_init hc hp
  generalize (DspCount.init c p).withIds dump u = d₀ at hr hd
  -- the parts of `adx_dsp_control` one after the other
  have h1 := h.exec_of_sends hU (countMtype_sends countSends_didQuiet lib clk u d₀)
  have hd1 := hd.countMtype lib clk w
  have h2 := h1.exec_of_sends hU (hcost ((AdxDsp.countMtype lib clk u d₀).exec w).1)
  obtain ⟨h3, hn⟩ := h2.countRest hU (hd1.countCost price _) hperiod hmem rfl
  subst hr
  exact ⟨h3.exec_of_sends hU (controlRest_sends didQuiet_of_offCounter lib clk u.mtype _), hn⟩

end

/-! ## Runs -/

/-- An accepted notice, with its price and the readings of the clock. -/
structure Accepted where
  notice : UrlInfo
  price : ℚ
  clk : ℕ → ℤ

section

variable (lib : CLib) (dump : Dump) (t : ℤ)

/-- `adx_dsp_control` on an accepted notice. -/
def control (w : TrackerWorld) (n : Accepted) : (ErrCode × DspCount) × TrackerWorld :=
  (adxDspControl lib n.clk dump n.notice n.price).exec w

/-- Accepted notices one after the other. -/
def controlAll (w : TrackerWorld) (ns : List Accepted) : TrackerWorld :=
  ns.foldl (fun w n => (control lib dump w n).2) w

/-- The cells counted in a run. -/
def runCells (ns : List Accepted) : List (Bytes × Bytes) :=
  ns.flatMap fun n => countedCells lib dump t n.notice

/-- Two settings name one action and one period. -/
def SameSettings (f g : Frequency) : Prop :=
  f.action = g.action ∧ f.period = g.period ∧ f.enddatetime lib t = g.enddatetime lib t

/-- What keeps the counters of a notice apart from others, given the notices before it. -/
structure Apart (pre : List Accepted) (n : Accepted) : Prop where
  /-- No entity of another kind with this id, on this device, has the same action and period. -/
  kinds : ∀ k : EntityKind, k.counts dump n.notice → ∀ m ∈ pre ++ [n], ∀ k' : EntityKind,
    k'.counts dump m.notice → m.notice.device = n.notice.device →
      k'.id dump m.notice = k.id dump n.notice →
        SameSettings lib t (k'.frequency dump m.notice) (k.frequency dump n.notice) → k' = k
  /-- The notices of this creative on this device came under the settings of this one. -/
  settings : EntityKind.creative.counts dump n.notice → ∀ m ∈ pre,
    EntityKind.creative.SameCount dump m.notice n.notice →
      EntityKind.creative.counts dump m.notice ∧
        SameSettings lib t (EntityKind.creative.frequency dump m.notice)
          (EntityKind.creative.frequency dump n.notice)

end

section

variable {lib : CLib} {dump : Dump} {t : ℤ} {U : Set (Bytes × Bytes)}
  {counted : List (Bytes × Bytes)} {w : TrackerWorld}

/-- A run counts every notice in each of its cells. -/
theorem Tallied.controlAll (h : Tallied U counted w) (hU : ∀ c ∈ U, isDidKey c.1 = true)
    {ns : List Accepted} (hknown : ∀ n ∈ ns, Known dump n.notice)
    (hperiod : ∀ n ∈ ns, InPeriod lib dump t n.notice n.clk)
    (hmem : ∀ n ∈ ns, ∀ k : EntityKind, k.counts dump n.notice →
      k.cell lib dump t n.notice ∈ U) :
    Tallied U (counted ++ runCells lib dump t ns) (controlAll lib dump w ns) := by
  induction ns generalizing counted w with
  | nil => simpa [runCells, AdxDsp.controlAll] using h
  | cons n ns ih =>
    have hn := List.mem_cons_self (a := n) (l := ns)
    have hstep := (h.adxDspControl hU (hknown n hn) (hperiod n hn) (hmem n hn) n.price rfl).1
    have hrest := ih hstep (fun m hm => hknown m (List.mem_cons_of_mem n hm))
      (fun m hm => hperiod m (List.mem_cons_of_mem n hm))
      (fun m hm => hmem m (List.mem_cons_of_mem n hm))
    rwa [List.append_assoc] at hrest

/-- Two cells are one if they agree in device, id, action and period. -/
theorem cell_eq_iff {u v : UrlInfo} (hu : Known dump u) (hv : Known dump v) (k k' : EntityKind) :
    k.cell lib dump t u = k'.cell lib dump t v ↔ u.device = v.device ∧
      k.id dump u = k'.id dump v ∧
        SameSettings lib t (k.frequency dump u) (k'.frequency dump v) := by
  rw [EntityKind.cell, EntityKind.cell, Prod.mk.injEq,
    didKey_inj (twoWords_getDeviceidtype _) (twoWords_getDeviceidtype _),
    fcField_inj (hu.id_pos k) (hv.id_pos k'), UrlInfo.device, UrlInfo.device, Prod.mk.injEq,
    SameSettings]

/-- Settings that count two kinds of notices for one action count one kind. -/
theorem mtype_eq_of_counts {f g : Frequency} {a b : UInt8} (hf : f.counts a = true)
    (hg : g.counts b = true) (h : f.action = g.action) : a = b := by
  simp only [Frequency.counts, Bool.or_eq_true, Bool.and_eq_true, decide_eq_true_eq] at hf hg
  rcases hf with ⟨rfl, hf⟩ | ⟨rfl, hf⟩ <;> rcases hg with ⟨rfl, hg⟩ | ⟨rfl, hg⟩
  · rfl
  · rw [hf, hg] at h
    exact absurd h (by decide)
  · rw [hf, hg] at h
    exact absurd h (by decide)
  · rfl

/-- Campaigns and policies have one control record for each id. -/
theorem frequency_eq_of_id {k : EntityKind} (hk : k ≠ .creative) {u v : UrlInfo}
    (h : k.id dump u = k.id dump v) : k.frequency dump u = k.frequency dump v := by
  cases k with
  | campaign =>
    have hid : dump.campaignid u.mapid = dump.campaignid v.mapid := h
    rw [EntityKind.frequency, EntityKind.frequency, Dump.campaignControl?, Dump.campaignControl?,
      hid]
  | creative => exact absurd rfl hk
  | policy =>
    have hid : dump.policyid u.mapid = dump.policyid v.mapid := h
    rw [EntityKind.frequency, EntityKind.frequency, Dump.policyControl?, Dump.policyControl?, hid]

/-- No kind is counted twice. -/
theorem nodup_countedKinds (dump : Dump) (u : UrlInfo) : (countedKinds dump u).Nodup :=
  List.Nodup.filter _ (by decide)

/-- The counted kinds are those with a frequency. -/
theorem mem_countedKinds {k : EntityKind} {u : UrlInfo} :
    k ∈ countedKinds dump u ↔ k.counts dump u := by
  rw [countedKinds, List.mem_filter, decide_eq_true_eq]
  exact and_iff_right (by cases k <;> simp)

/-- The cells of a notice apart from others are different. -/
theorem Apart.nodup {pre : List Accepted} {n : Accepted} (h : Apart lib dump t pre n)
    (hn : Known dump n.notice) : (countedCells lib dump t n.notice).Nodup := by
  refine List.Nodup.map_on (fun k hk k' hk' heq => ?_) (nodup_countedKinds dump n.notice)
  obtain ⟨hdev, hid, hset⟩ := (cell_eq_iff hn hn k k').mp heq
  exact h.kinds k' (mem_countedKinds.mp hk') n (by simp) k (mem_countedKinds.mp hk) hdev hid hset

/-- A notice `m` of a run counts in the cell of a later notice `n` if it is of the same action, for
the same entity, on the same device. -/
theorem Apart.cell_of_sameCount {pre : List Accepted} {n m : Accepted}
    (h : Apart lib dump t pre n) (hn : Known dump n.notice) (hm : Known dump m.notice)
    (hmem : m ∈ pre ++ [n]) {k : EntityKind} (hk : k.counts dump n.notice)
    (hsame : k.SameCount dump m.notice n.notice) :
    k.counts dump m.notice ∧ k.cell lib dump t m.notice = k.cell lib dump t n.notice := by
  have hset : k.counts dump m.notice ∧
      SameSettings lib t (k.frequency dump m.notice) (k.frequency dump n.notice) := by
    by_cases hcre : k = .creative
    · subst hcre
      rcases List.mem_append.mp hmem with hpre | hlast
      · exact h.settings hk m hpre hsame
      · rw [List.mem_singleton.mp hlast]
        exact ⟨hk, rfl, rfl, rfl⟩
    · have hf := frequency_eq_of_id hcre hsame.2.1
      rw [EntityKind.counts, hf, hsame.1]
      exact ⟨hk, rfl, rfl, rfl⟩
  exact ⟨hset.1, (cell_eq_iff hm hn k k).mpr ⟨hsame.2.2, hsame.2.1, hset.2⟩⟩

/-- Each notice of a run counts once in the cell of a later notice, or not at all. -/
theorem Apart.count_cell {pre : List Accepted} {n m : Accepted} (h : Apart lib dump t pre n)
    (hn : Known dump n.notice) (hm : Known dump m.notice) (hmem : m ∈ pre ++ [n])
    {k : EntityKind} (hk : k.counts dump n.notice) :
    (countedCells lib dump t m.notice).count (k.cell lib dump t n.notice) =
      if k.SameCount dump m.notice n.notice then 1 else 0 := by
  -- a kind that counts `m` in this cell is `k`
  have honly : ∀ k' ∈ countedKinds dump m.notice,
      k'.cell lib dump t m.notice = k.cell lib dump t n.notice →
        k' = k ∧ k.SameCount dump m.notice n.notice := by
    intro k' hk' heq
    obtain ⟨hdev, hid, hset⟩ := (cell_eq_iff hm hn k' k).mp heq
    have hcounts := mem_countedKinds.mp hk'
    obtain rfl := h.kinds k hk m hmem k' hcounts hdev hid hset
    exact ⟨rfl, mtype_eq_of_counts hcounts.2 hk.2 hset.1, hid, hdev⟩
  split_ifs with hsame
  · obtain ⟨hcounts, hcell⟩ := h.cell_of_sameCount hn hm hmem hk hsame
    have hcount : (countedCells lib dump t m.notice).count (k.cell lib dump t n.notice) =
        (countedKinds dump m.notice).count k := by
      rw [countedCells, List.count, List.countP_map, List.count]
      refine List.countP_congr fun k' hk' => ?_
      rw [Function.comp_apply, beq_iff_eq, beq_iff_eq]
      refine ⟨fun heq => (honly k' hk' heq).1, ?_⟩
      rintro rfl
      exact hcell
    rw [hcount]
    exact List.count_eq_one_of_mem (nodup_countedKinds dump m.notice) (mem_countedKinds.mpr hcounts)
  · refine List.count_eq_zero.mpr fun hin => hsame ?_
    obtain ⟨k', hk', heq⟩ := List.mem_map.mp hin
    exact (honly k' hk' heq).2

/-- The cells of a run hold the numbers of the notices that count in them. -/
theorem count_runCells {c : Bytes × Bytes} {p : Accepted → Prop} [DecidablePred p]
    {ns : List Accepted}
    (h : ∀ n ∈ ns, (countedCells lib dump t n.notice).count c = if p n then 1 else 0) :
    (runCells lib dump t ns).count c = ns.countP fun n => p n := by
  induction ns with
  | nil => rfl
  | cons n ns ih =>
    rw [runCells, List.flatMap_cons, List.count_append, h n List.mem_cons_self, List.countP_cons,
      ← ih fun m hm => h m (List.mem_cons_of_mem n hm), add_comm]
    simp only [decide_eq_true_eq]
    rfl

end

/-- In a run within one frequency period, without failed commands and on devices without counters:
if every notice is apart from those before it, then the counter that is compared with
`frequencycount` for an entity is the number of accepted notices of the counted action, by the
device of the notice, for this entity. -/
theorem counter_eq_accepted (lib : CLib) (dump : Dump) (t : ℤ) (w : TrackerWorld)
    (ns : List Accepted) (hok : ∀ i, w.outcome i = .ok)
    (hknown : ∀ n ∈ ns, Known dump n.notice)
    (hperiod : ∀ n ∈ ns, InPeriod lib dump t n.notice n.clk)
    (habsent : ∀ n ∈ ns, ∀ k : EntityKind, (w.store .adCounterMaster).field
      (k.cell lib dump t n.notice).1 (k.cell lib dump t n.notice).2 = none)
    (hapart : ∀ pre n, pre ++ [n] <+: ns → Apart lib dump t pre n) :
    ∀ pre n, pre ++ [n] <+: ns → ∀ k : EntityKind, k.counts dump n.notice →
      k.counter (control lib dump (controlAll lib dump w pre) n).1.2 =
        ((pre ++ [n]).countP fun m => k.SameCount dump m.notice n.notice : ℕ) := by
  intro pre n hp k hk
  have hn : n ∈ ns := hp.subset (by simp)
  have hpre : ∀ m ∈ pre, m ∈ ns := fun m hm => hp.subset (List.mem_append_left [n] hm)
  have hkn := hknown n hn
  -- the cells of the run
  let U : Set (Bytes × Bytes) := {c | ∃ m ∈ ns, ∃ k : EntityKind, k.cell lib dump t m.notice = c}
  have hU : ∀ c ∈ U, isDidKey c.1 = true := by
    rintro c ⟨m, -, k', rfl⟩
    exact isDidKey_didKey _ _
  have hmem : ∀ m ∈ ns, ∀ k' : EntityKind, k'.counts dump m.notice →
      k'.cell lib dump t m.notice ∈ U := fun m hm k' _ => ⟨m, hm, k', rfl⟩
  have hstart : Tallied U [] w := by
    refine ⟨hok, Store.Tallies.of_absent ?_⟩
    rintro c ⟨m, hm, k', rfl⟩
    exact habsent m hm k'
  -- the run up to `n`
  have hbefore := hstart.controlAll hU (fun m hm => hknown m (hpre m hm))
    (fun m hm => hperiod m (hpre m hm)) (fun m hm => hmem m (hpre m hm))
  have hcounter := (hbefore.adxDspControl hU hkn (hperiod n hn) (hmem n hn) n.price rfl).2
    ((hapart pre n hp).nodup hkn) k (mem_countedKinds.mpr hk)
  have hcells : [] ++ runCells lib dump t pre ++ countedCells lib dump t n.notice =
      runCells lib dump t (pre ++ [n]) := by
    simp [runCells]
  rw [control, hcounter, hcells,
    count_runCells (p := fun m => k.SameCount dump m.notice n.notice)]
  intro m hm
  have hmns : m ∈ ns := hp.subset hm
  exact (hapart pre n hp).count_cell hkn (hknown m hmns) hm hk

/-! ## A campaign and a policy with one id -/

/-- Mapid 31 belongs to campaign 5, creative 7 and a policy; campaign and policy limit impressions
over their whole time. -/
def sampleFrequencyDump (policyid : ℤ) : Dump :=
  let limited : Control := [(bytes "frequencytype", 1), (bytes "frequencyaction", 1)]
  ⟨[(5, limited)], [(policyid, limited)], [(31, ⟨5, policyid, 7⟩)]⟩

/-- The sample impression, without a price and at a standing clock. -/
def sampleAccepted : Accepted := ⟨sampleNotice mtypeImp, 0, fun _ => 0⟩

/-- The policy has the id 6: after two impressions its counter is 2. -/
theorem counter_eq_accepted_sample :
    EntityKind.policy.counter (control sampleLib (sampleFrequencyDump 6)
      (controlAll sampleLib (sampleFrequencyDump 6) (.reliable fun _ => .empty) [sampleAccepted])
      sampleAccepted).1.2 = 2 := by
  have hall : ∀ n ∈ [sampleAccepted, sampleAccepted], n = sampleAccepted := by simp
  refine counter_eq_accepted sampleLib (sampleFrequencyDump 6) 0 (.reliable fun _ => .empty)
    [sampleAccepted, sampleAccepted] (fun _ => rfl) (fun n hn => ?_) (fun n hn k i => ?_)
    (fun _ _ _ => rfl) (fun pre n hp => ?_) [sampleAccepted] sampleAccepted
    (List.prefix_refl _) .policy (by decide)
  · rw [hall n hn]
    exact ⟨fun k => by cases k <;> decide, rfl, rfl⟩
  · rw [hall n hn]
    rfl
  · obtain rfl := hall n (hp.subset (by simp))
    have hids : ∀ k k' : EntityKind, k'.id (sampleFrequencyDump 6) sampleAccepted.notice =
        k.id (sampleFrequencyDump 6) sampleAccepted.notice → k' = k := by
      intro k k'
      cases k <;> cases k' <;> decide
    refine ⟨fun k _ m hm k' _ _ hid _ => hids k k' ?_, fun h => absurd h (by decide)⟩
    rwa [hall m (hp.subset hm)] at hid

/-- The policy has the id 5 of its campaign: one impression counts twice in one cell, so that the
counter of the policy is 2. -/
theorem policy_counts_campaign :
    Known (sampleFrequencyDump 5) sampleAccepted.notice ∧
      InPeriod sampleLib (sampleFrequencyDump 5) 0 sampleAccepted.notice sampleAccepted.clk ∧
      EntityKind.policy.counts (sampleFrequencyDump 5) sampleAccepted.notice ∧
      EntityKind.policy.counter
          (control sampleLib (sampleFrequencyDump 5) (.reliable fun _ => .empty)
            sampleAccepted).1.2 ≠
        ([sampleAccepted].countP fun m => EntityKind.policy.SameCount (sampleFrequencyDump 5)
          m.notice sampleAccepted.notice : ℕ) := by
  refine ⟨⟨fun k => by cases k <;> decide, rfl, rfl⟩, fun _ _ => rfl, by decide, ?_⟩
  decide +kernel

end AdxDsp
