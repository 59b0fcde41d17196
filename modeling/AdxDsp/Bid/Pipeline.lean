import AdxDsp.Bid.SelectAd

/-!
# What the stages of the selection keep

Each stage is described by the pairs of an imp and a creative, or of an imp and a policy, that it
keeps; the projections between the stages keep the pairs whose other half was kept.

* `selectAd_spec`: the candidates for the bidding are the pairs that pass every stage on their own.
* `mem_policies_filterPolicies`: what keeps a policy from being selected at all.
-/

namespace AdxDsp

open CText Sieve

/-! ## Passing every stage -/

/-- The pair of an imp and a creative passes every stage of the selection, each on its own; `lookup`
is what is known of the device. -/
structure Passes (w : BidWork) (req : ComRequest) (lookup : DeviceLookup) (imp : ImpRef)
    (creative : CreativeInfo) : Prop where
  isImp : imp ∈ req.imp.zipIdx
  found : creative ∈ adSelectorSearch w.adSelector req imp.1 []
  campaignRuns : w.adCtrl.pauseCampaign.lookup creative.policy.campaignid = none
  policyRuns : w.adCtrl.pausePolicy.lookup creative.policy.id = none
  policy : creative.policy.filter req = .success
  policyExt : w.adapter.checkPolicyExt creative.policy.extAdvid = .success
  policyImp : creative.policy.filterImp imp.1 = .success
  deviceid : req.device.dids ≠ [] ∨ req.device.dpids ≠ [] ∨
    creative.policy.checkAllowNoDeviceid req.app.id imp.1.type = true
  creativeImp : creative.filterImp imp.1 = .success
  creativeExt : w.adapter.checkCreativeExt imp.1 creative.ext = .success
  price : w.adapter.checkPrice req.at_
    (imp.1.getBidfloor (imp.1.getDealId creative.policy) creative.policy.advcat)
    (creative.getPrice w.adx req.app.name req.device.location) = .success
  device : ∀ d, lookup = .read d →
    d.blGlobal = false ∧ creative.policy.filterAudience d.audiences = .success
  campaignBelow : (FrequencyFilter.new.check creative.policy.campaignid req
    w.adCtrl.fullCampaign).1 = true
  policyBelow : (FrequencyFilter.new.check creative.policyid req w.adCtrl.fullPolicy).1 = true
  creativeBelow : (FrequencyFilter.new.check creative.creativeid req
    w.adCtrl.fullCreative).1 = true

/-! ## The projections -/

namespace Candidates

variable {c : Candidates} {imp : ImpRef}

/-- The policies of the candidates are those of their creatives. -/
theorem mem_policies_impCreative2Policies {policy : PolicyInfo} :
    policy ∈ c.impCreative2Policies.policies ↔
      ∃ imp creative, Pairs c.impCreatives imp creative ∧ creative.policy = policy := by
  simp only [impCreative2Policies, AddrSet.mem_insertAll, List.mem_flatMap, List.mem_map,
    List.not_mem_nil, or_false]
  constructor
  · rintro ⟨⟨imp, creatives⟩, he, creative, hc, rfl⟩
    exact ⟨imp, creative, ⟨creatives, he, hc⟩, rfl⟩
  · rintro ⟨imp, creative, ⟨creatives, he, hc⟩, rfl⟩
    exact ⟨(imp, creatives), he, creative, hc, rfl⟩

/-- The policies of an impression are those of its creatives, as far as they are left. -/
theorem pairs_makeImpPolicies {policy : PolicyInfo} :
    Pairs c.makeImpPolicies.impPolicies imp policy ↔
      (∃ creative, Pairs c.impCreatives imp creative ∧ creative.policy = policy) ∧
        policy ∈ c.policies := by
  constructor
  · rintro ⟨policies, he, hp⟩
    obtain ⟨⟨imp', creatives⟩, hc, heq⟩ := List.mem_map.mp (List.mem_filter.mp he).1
    obtain ⟨rfl, rfl⟩ := Prod.mk.inj heq
    rw [AddrSet.mem_insertAll, or_iff_left List.not_mem_nil] at hp
    obtain ⟨hmem, hin⟩ := List.mem_filter.mp hp
    obtain ⟨creative, hcreative, rfl⟩ := List.mem_map.mp hmem
    exact ⟨⟨creative, ⟨creatives, hc, hcreative⟩, rfl⟩, of_decide_eq_true hin⟩
  · rintro ⟨⟨creative, ⟨creatives, hc, hcreative⟩, rfl⟩, hin⟩
    have hp : creative.policy ∈ AddrSet.insertAll PolicyInfo.addr
        ((creatives.map CreativeInfo.policy).filter (· ∈ c.policies)) [] := by
      rw [AddrSet.mem_insertAll]
      exact .inl (List.mem_filter.mpr ⟨List.mem_map_of_mem hcreative, decide_eq_true hin⟩)
    refine ⟨_, List.mem_filter.mpr ⟨List.mem_map_of_mem hc, ?_⟩, hp⟩
    exact decide_eq_true (List.ne_nil_of_mem hp)

/-- Each impression is there once. -/
theorem nodup_keys_makeImpPolicies (h : (c.impCreatives.map Prod.fst).Nodup) :
    (c.makeImpPolicies.impPolicies.map Prod.fst).Nodup := by
  refine List.Nodup.sublist (List.filter_sublist.map Prod.fst) ?_
  rw [List.map_map]
  exact h

/-- A creative stays if its policy has stayed for the impression. -/
theorem pairs_adjustImpCreativesByImpPolicies (h : (c.impPolicies.map Prod.fst).Nodup)
    {creative : CreativeInfo} :
    Pairs c.adjustImpCreativesByImpPolicies.impCreatives imp creative ↔
      Pairs c.impCreatives imp creative ∧ Pairs c.impPolicies imp creative.policy := by
  constructor
  · rintro ⟨kept, he, hk⟩
    obtain ⟨⟨imp', creatives⟩, hc, heq⟩ := List.mem_filterMap.mp he
    obtain ⟨policies, hlookup, heq⟩ := Option.map_eq_some_iff.mp heq
    obtain ⟨rfl, rfl⟩ := Prod.mk.inj heq
    obtain ⟨hmem, hin⟩ := List.mem_filter.mp hk
    have hentry := (lookup_eq_some_iff h).mp hlookup
    exact ⟨⟨creatives, hc, hmem⟩, policies, hentry, of_decide_eq_true hin⟩
  · rintro ⟨⟨creatives, hc, hmem⟩, policies, hentry, hin⟩
    refine ⟨creatives.filter (·.policy ∈ policies), List.mem_filterMap.mpr ⟨_, hc, ?_⟩,
      List.mem_filter.mpr ⟨hmem, decide_eq_true hin⟩⟩
    show (c.impPolicies.lookup imp).map _ = _
    rw [(lookup_eq_some_iff h).mpr hentry]
    rfl

/-- A creative stays if its policy has stayed. -/
theorem pairs_adjustImpCreativesByPolicies {creative : CreativeInfo} :
    Pairs c.adjustImpCreativesByPolicies.impCreatives imp creative ↔
      Pairs c.impCreatives imp creative ∧ creative.policy ∈ c.policies := by
  rw [adjustImpCreativesByPolicies, pairs_filterEach, decide_eq_true_eq]

end Candidates

/-! ## The stages -/

namespace BidWork

variable {w : BidWork} {req : ComRequest} {c : Candidates} {imp : ImpRef}
  {creative : CreativeInfo}

/-- The candidates are what the selector finds for each impression. -/
theorem pairs_filterCreative :
    Pairs (w.filterCreative req c).impCreatives imp creative ↔
      imp ∈ req.imp.zipIdx ∧ creative ∈ adSelectorSearch w.adSelector req imp.1 [] := by
  constructor
  · rintro ⟨creatives, he, hc⟩
    obtain ⟨imp', himp, heq⟩ := List.mem_map.mp he
    obtain ⟨rfl, rfl⟩ := Prod.mk.inj heq
    exact ⟨himp, hc⟩
  · rintro ⟨himp, hc⟩
    exact ⟨_, List.mem_map_of_mem himp, hc⟩

/-- Each imp has one entry. -/
theorem nodup_keys_filterCreative (w : BidWork) (req : ComRequest) (c : Candidates) :
    ((w.filterCreative req c).impCreatives.map Prod.fst).Nodup := by
  rw [filterCreative, List.map_map]
  have hzip : req.imp.zipIdx.Nodup := List.Nodup.of_map _ (List.nodup_zipIdx_map_snd req.imp)
  exact hzip.map fun _ _ h => h

/-- When a policy passes. -/
theorem policyPasses_iff {policy : PolicyInfo} :
    w.policyPasses req policy = true ↔
      w.adCtrl.pauseCampaign.lookup policy.campaignid = none ∧
        w.adCtrl.pausePolicy.lookup policy.id = none ∧ policy.filter req = .success ∧
          w.adapter.checkPolicyExt policy.extAdvid = .success := by
  simp only [policyPasses, Option.isSome_iff_ne_none]
  split_ifs with h1 h2 h3 h4
  · simp [h1]
  · simp [h2]
  · simp [h3]
  · simp [h4]
  · simp [not_not.mp h1, not_not.mp h2, not_not.mp h3, not_not.mp h4]

/-- The policies that pass stay. -/
theorem mem_policies_filterPolicies {policy : PolicyInfo} :
    policy ∈ (w.filterPolicies req c).policies ↔
      policy ∈ c.policies ∧ w.policyPasses req policy = true := List.mem_filter

/-- When a policy passes for an impression. -/
theorem impPolicyPasses_iff {policy : PolicyInfo} :
    impPolicyPasses req imp policy = true ↔ policy.filterImp imp.1 = .success ∧
      (req.device.dids ≠ [] ∨ req.device.dpids ≠ [] ∨
        policy.checkAllowNoDeviceid req.app.id imp.1.type = true) := by
  simp only [impPolicyPasses, List.length_pos_iff]
  split_ifs with h1 h2
  · simp [h1]
  · simp only [Bool.and_eq_true, Bool.not_eq_true', decide_eq_false_iff_not] at h2
    simp only [false_iff]
    rintro ⟨-, h⟩
    rcases h with h | h | h
    · exact h2.1 (.inl h)
    · exact h2.1 (.inr h)
    · rw [h2.2] at h
      exact absurd h (by simp)
  · simp only [Bool.and_eq_true, Bool.not_eq_true', decide_eq_false_iff_not, not_and_or,
      not_not, Bool.not_eq_false] at h2
    simp only [true_iff]
    exact ⟨not_not.mp h1, by tauto⟩

/-- What the memory of `GetPrice` holds is the price of each creative that is asked for. -/
def PricesValid (w : BidWork) (req : ComRequest) (asked : CreativeInfo → Prop)
    (prices : List (ℤ × ℤ)) : Prop :=
  ∀ creative, asked creative → ∀ price, prices.lookup creative.mapid = some price →
    price = creative.getPrice w.adx req.app.name req.device.location

/-- For creatives whose prices depend on their mapids only, `GetPrice` answers with the price of the
creative, and goes on remembering such prices only. -/
theorem getPrice_spec {asked : CreativeInfo → Prop} (hat : req.at_ = bidRtb)
    (hsame : ∀ x y, asked x → asked y → x.mapid = y.mapid →
      x.getPrice w.adx req.app.name req.device.location =
        y.getPrice w.adx req.app.name req.device.location)
    (hasked : asked creative) (dealid : Bytes) {prices : List (ℤ × ℤ)}
    (h : PricesValid w req asked prices) :
    (w.getPrice req dealid creative prices).1 =
        creative.getPrice w.adx req.app.name req.device.location ∧
      PricesValid w req asked (w.getPrice req dealid creative prices).2 := by
  rw [getPrice]
  cases hlookup : prices.lookup creative.mapid with
  | some price => exact ⟨h creative hasked price hlookup, h⟩
  | none =>
    rw [if_pos hat]
    refine ⟨rfl, fun x hx price hprice => ?_⟩
    rw [List.lookup_cons] at hprice
    by_cases hmapid : x.mapid = creative.mapid
    · rw [beq_iff_eq.mpr hmapid] at hprice
      rw [hsame x creative hx hasked hmapid]
      exact (Option.some_inj.mp hprice).symm
    · rw [beq_eq_false_iff_ne.mpr hmapid] at hprice
      exact h x hx price hprice

/-- The creative passes `FilterCreativeByImp`, with its own price. -/
def CreativePasses (w : BidWork) (req : ComRequest) (imp : ImpRef) (creative : CreativeInfo) :
    Prop :=
  creative.filterImp imp.1 = .success ∧ w.adapter.checkCreativeExt imp.1 creative.ext = .success ∧
    w.adapter.checkPrice req.at_
      (imp.1.getBidfloor (imp.1.getDealId creative.policy) creative.policy.advcat)
      (creative.getPrice w.adx req.app.name req.device.location) = .success

/-- The memoised price answers whether a creative passes for an impression. -/
theorem answers_filterCreativeImp {asked : CreativeInfo → Prop} (hat : req.at_ = bidRtb)
    (hsame : ∀ x y, asked x → asked y → x.mapid = y.mapid →
      x.getPrice w.adx req.app.name req.device.location =
        y.getPrice w.adx req.app.name req.device.location)
    (hasked : asked creative) :
    Answers (PricesValid w req asked) (CreativePasses w req imp) (w.filterCreativeImp req imp)
      creative := by
  intro prices hprices
  rw [filterCreativeImp, CreativePasses]
  split_ifs with h1 h2
  · exact ⟨iff_of_false (by simp) fun h => h1 h.1, hprices⟩
  · exact ⟨iff_of_false (by simp) fun h => h2 h.2.1, hprices⟩
  · obtain ⟨hprice, hvalid⟩ :=
      getPrice_spec hat hsame hasked (imp.1.getDealId creative.policy) hprices
    refine ⟨?_, hvalid⟩
    rw [decide_eq_true_eq, hprice]
    exact ⟨fun h => ⟨not_not.mp h1, not_not.mp h2, h⟩, fun h => h.2.2⟩

/-- The creative passes `FilterByFrequency`. -/
def FrequencyPasses (w : BidWork) (req : ComRequest) (creative : CreativeInfo) : Prop :=
  ¬Capped req w.adCtrl.fullCampaign creative.policy.campaignid ∧
    ¬Capped req w.adCtrl.fullPolicy creative.policyid ∧
      ¬Capped req w.adCtrl.fullCreative creative.creativeid

/-- What the three filters remember is right. -/
def FiltersValid (w : BidWork) (req : ComRequest) (f : FrequencyFilters) : Prop :=
  f.campaign.Valid req w.adCtrl.fullCampaign ∧ f.policy.Valid req w.adCtrl.fullPolicy ∧
    f.creative.Valid req w.adCtrl.fullCreative

/-- The memoised checks answer whether a creative's frequency passes. -/
theorem answers_filterFrequency :
    Answers (FiltersValid w req) (FrequencyPasses w req) (w.filterFrequency req) creative := by
  rintro f ⟨hcampaign, hpolicy, hcreative⟩
  have h1 := FrequencyFilter.check_spec hcampaign creative.policy.campaignid
  have h2 := FrequencyFilter.check_spec hpolicy creative.policyid
  have h3 := FrequencyFilter.check_spec hcreative creative.creativeid
  rw [FrequencyPasses, ← h1.1, ← h2.1, ← h3.1]
  simp only [filterFrequency]
  by_cases hc : (f.campaign.check creative.policy.campaignid req w.adCtrl.fullCampaign).1 = true
  · rw [if_neg (not_not.mpr hc)]
    by_cases hp : (f.policy.check creative.policyid req w.adCtrl.fullPolicy).1 = true
    · rw [if_neg (not_not.mpr hp)]
      exact ⟨⟨fun h => ⟨hc, hp, h⟩, fun h => h.2.2⟩, h1.2, h2.2, h3.2⟩
    · rw [if_pos hp]
      exact ⟨iff_of_false (by simp) fun h => hp h.2.1, h1.2, h2.2, hcreative⟩
  · rw [if_pos hc]
    exact ⟨iff_of_false (by simp) fun h => hc h.1, h1.2, hpolicy, hcreative⟩

/-- The creatives whose frequency passes stay, and no impression without one does. -/
theorem pairs_filterByFrequency :
    (∀ imp creative, Pairs (w.filterByFrequency req c).impCreatives imp creative ↔
        Pairs c.impCreatives imp creative ∧ FrequencyPasses w req creative) ∧
      NoEmpty (w.filterByFrequency req c).impCreatives :=
  pairs_sieveEach (fun _ _ _ => answers_filterFrequency)
    ⟨FrequencyFilter.valid_new, FrequencyFilter.valid_new, FrequencyFilter.valid_new⟩

/-- The pair passes the stages before the device is looked up. -/
def RequestPasses (w : BidWork) (req : ComRequest) (imp : ImpRef) (creative : CreativeInfo) :
    Prop :=
  (imp ∈ req.imp.zipIdx ∧ creative ∈ adSelectorSearch w.adSelector req imp.1 []) ∧
    w.policyPasses req creative.policy = true ∧
      impPolicyPasses req imp creative.policy = true ∧ CreativePasses w req imp creative

/-- Creatives that are found for the request have prices that depend on their mapids only. -/
def PricesByMapid (w : BidWork) (req : ComRequest) : Prop :=
  ∀ x y, (∃ imp ∈ req.imp.zipIdx, x ∈ adSelectorSearch w.adSelector req imp.1 []) →
    (∃ imp ∈ req.imp.zipIdx, y ∈ adSelectorSearch w.adSelector req imp.1 []) →
      x.mapid = y.mapid →
        x.getPrice w.adx req.app.name req.device.location =
          y.getPrice w.adx req.app.name req.device.location

/-- The candidates after `AdjustImpCreativesByImpPolicies`: the pairs that pass the stages about
policies. -/
theorem pairs_filterPoliciesByImp :
    let found := (w.filterCreative req .clear).impCreative2Policies
    let c := filterPoliciesByImp req (w.filterPolicies req found).makeImpPolicies
    Pairs c.adjustImpCreativesByImpPolicies.impCreatives imp creative ↔
      (imp ∈ req.imp.zipIdx ∧ creative ∈ adSelectorSearch w.adSelector req imp.1 []) ∧
        w.policyPasses req creative.policy = true ∧
          impPolicyPasses req imp creative.policy = true := by
  intro found c
  have hkeys : (c.impPolicies.map Prod.fst).Nodup :=
    nodup_keys_filterEach (Candidates.nodup_keys_makeImpPolicies
      (nodup_keys_filterCreative w req .clear))
  have hfound : ∀ creative, Pairs c.impCreatives imp creative ↔ _ := fun _ =>
    @pairs_filterCreative w req .clear imp _
  have himp : Pairs c.impPolicies imp creative.policy ↔ _ := pairs_filterEach
  rw [Candidates.pairs_adjustImpCreativesByImpPolicies hkeys, himp,
    Candidates.pairs_makeImpPolicies, mem_policies_filterPolicies,
    Candidates.mem_policies_impCreative2Policies, hfound]
  constructor
  · rintro ⟨hpair, ⟨-, -, hpolicy⟩, himpPolicy⟩
    exact ⟨hpair, hpolicy, himpPolicy⟩
  · rintro ⟨hpair, hpolicy, himpPolicy⟩
    have hc := (hfound creative).mpr hpair
    exact ⟨hpair, ⟨⟨creative, hc, rfl⟩, ⟨imp, creative, hc, rfl⟩, hpolicy⟩, himpPolicy⟩

/-- The candidates are the pairs with `P`, and there is one; without candidates, there is none. -/
def Keeps (P : ImpRef → CreativeInfo → Prop) : Option Candidates → Prop
  | none => ∀ imp creative, ¬P imp creative
  | some c => (∀ imp creative, Pairs c.impCreatives imp creative ↔ P imp creative) ∧
      ∃ imp creative, P imp creative

/-- Candidates without empty entries keep the pairs they hold. -/
theorem keeps_of_noEmpty {P : ImpRef → CreativeInfo → Prop}
    (hpairs : ∀ imp creative, Pairs c.impCreatives imp creative ↔ P imp creative)
    (hfull : NoEmpty c.impCreatives) :
    Keeps P (if c.impCreatives = [] then none else some c) := by
  split_ifs with hnil
  · intro imp creative hP
    exact hfull.eq_nil_iff.mp hnil imp creative ((hpairs imp creative).mpr hP)
  · refine ⟨hpairs, ?_⟩
    by_contra hno
    refine hnil (hfull.eq_nil_iff.mpr fun imp creative hpair => ?_)
    exact hno ⟨imp, creative, (hpairs imp creative).mp hpair⟩

/-- An early return where nothing is left keeps the right pairs. -/
theorem keeps_ite {β : Type} {P : ImpRef → CreativeInfo → Prop} {l : List β}
    {rest : Option Candidates} (hnil : l = [] → ∀ imp creative, ¬P imp creative)
    (hrest : Keeps P rest) : Keeps P (if l = [] then none else rest) := by
  split_ifs with h
  · exact hnil h
  · exact hrest

/-- The stages before the device is looked up keep the pairs that pass them. -/
theorem selectByRequest_spec (hat : req.at_ = bidRtb) (hprices : PricesByMapid w req) :
    Keeps (RequestPasses w req) (w.selectByRequest req) := by
  have hfound : ∀ {imp creative}, RequestPasses w req imp creative →
      creative.policy ∈ (w.filterCreative req .clear).impCreative2Policies.policies :=
    fun h => Candidates.mem_policies_impCreative2Policies.mpr
      ⟨_, _, pairs_filterCreative.mpr h.1, rfl⟩
  refine keeps_ite (fun hnil imp creative h => ?_) (keeps_ite (fun hnil imp creative h => ?_)
    (keeps_ite (fun hnil imp creative h => ?_) ?_))
  · exact absurd (hnil ▸ hfound h) List.not_mem_nil
  · have hmem := mem_policies_filterPolicies.mpr ⟨hfound h, h.2.1⟩
    exact absurd (hnil ▸ hmem) List.not_mem_nil
  · have hpair := pairs_filterPoliciesByImp.mpr ⟨h.1, h.2.1, h.2.2.1⟩
    have hkeys : ((filterPoliciesByImp req (w.filterPolicies req
        (w.filterCreative req .clear).impCreative2Policies).makeImpPolicies).impPolicies.map
          Prod.fst).Nodup := by
      rw [hnil]
      exact List.nodup_nil
    obtain ⟨_, he, -⟩ := ((Candidates.pairs_adjustImpCreativesByImpPolicies hkeys).mp hpair).2
    rw [hnil] at he
    exact absurd he List.not_mem_nil
  · have hpairs := pairs_sieveEach (P := CreativePasses w req)
      (fun imp creative h => answers_filterCreativeImp hat hprices
        ⟨imp, (pairs_filterPoliciesByImp.mp h).1⟩) (s := []) (fun _ _ _ h => by simp at h)
    refine keeps_of_noEmpty (fun imp creative => ?_) hpairs.2
    refine (hpairs.1 imp creative).trans ?_
    refine (and_congr_left' pairs_filterPoliciesByImp).trans ?_
    simp only [RequestPasses, and_assoc]

/-- The pair passes the stages after the device is looked up. -/
def DevicePasses (w : BidWork) (req : ComRequest) (lookup : DeviceLookup)
    (creative : CreativeInfo) : Prop :=
  (∀ d, lookup = .read d → d.blGlobal = false ∧
      creative.policy.filterAudience d.audiences = .success) ∧ FrequencyPasses w req creative

/-- The policies that the device's audiences let through stay. -/
theorem mem_policies_filterByAudience {lookup : DeviceLookup} {policy : PolicyInfo} :
    policy ∈ (filterByAudience lookup c).policies ↔ policy ∈ c.policies ∧
      ∀ d, lookup = .read d →
        d.blGlobal = false ∧ policy.filterAudience d.audiences = .success := by
  cases lookup with
  | read d =>
    rw [filterByAudience]
    split_ifs with hbl
    · simp [hbl]
    · rw [List.mem_filter, decide_eq_true_eq]
      refine and_congr_right fun _ => ⟨?_, fun h => (h d rfl).2⟩
      rintro h _ ⟨rfl⟩
      exact ⟨Bool.eq_false_iff.mpr hbl, h⟩
  | crashed => simp [filterByAudience]
  | unread => simp [filterByAudience]

/-- The device's counts do not matter to the frequency. -/
theorem frequencyPasses_setDevice {lookup : DeviceLookup} :
    FrequencyPasses w (setDevice req lookup) creative ↔ FrequencyPasses w req creative := by
  cases lookup <;> exact Iff.rfl

/-- The candidates of a selection. -/
def Selection.candidates : Selection → Option Candidates
  | .selected _ c => some c
  | _ => none

/-- The stages after the device is looked up keep the pairs that pass them. -/
theorem selectByDevice_spec (lookup : DeviceLookup) :
    Keeps (fun imp creative => Pairs c.impCreatives imp creative ∧
        DevicePasses w req lookup creative) (w.selectByDevice req lookup c).candidates ∧
      w.selectByDevice req lookup c ≠ .crashed := by
  -- the policies that are left, for a creative that is paired with an imp
  have hpolicies : ∀ {creative}, (∃ imp, Pairs c.impCreatives imp creative) →
      (creative.policy ∈ (filterByAudience lookup c.impCreative2Policies).policies ↔
        ∀ d, lookup = .read d → d.blGlobal = false ∧
          creative.policy.filterAudience d.audiences = .success) := by
    rintro creative ⟨imp, hpair⟩
    rw [mem_policies_filterByAudience, Candidates.mem_policies_impCreative2Policies]
    exact and_iff_right ⟨imp, creative, hpair, rfl⟩
  -- the filter by audience changes the policies only
  have haudience : (filterByAudience lookup c.impCreative2Policies).impCreatives =
      c.impCreatives := by
    cases lookup with
    | read d =>
      rw [filterByAudience]
      split_ifs <;> rfl
    | crashed => rfl
    | unread => rfl
  -- with the policies gone, their creatives go
  have hpairs : ∀ imp creative, Pairs (filterByAudience lookup
      c.impCreative2Policies).adjustImpCreativesByPolicies.impCreatives imp creative ↔
        Pairs c.impCreatives imp creative ∧ ∀ d, lookup = .read d → d.blGlobal = false ∧
          creative.policy.filterAudience d.audiences = .success := by
    intro imp creative
    rw [Candidates.pairs_adjustImpCreativesByPolicies, haudience]
    exact and_congr_right fun h => hpolicies ⟨imp, h⟩
  have hfrequency := @pairs_filterByFrequency w (setDevice req lookup)
    (filterByAudience lookup c.impCreative2Policies).adjustImpCreativesByPolicies
  have hkeeps : Keeps (fun imp creative => Pairs c.impCreatives imp creative ∧
      DevicePasses w req lookup creative) _ := keeps_of_noEmpty (fun imp creative => by
    rw [hfrequency.1, hpairs, frequencyPasses_setDevice, and_assoc]
    exact Iff.rfl) hfrequency.2
  simp only [selectByDevice]
  -- without policies the candidates are dropped, which had no pair anyway
  constructor
  · rw [apply_ite Selection.candidates, apply_ite Selection.candidates]
    refine keeps_ite (fun hnil imp creative h => ?_) hkeeps
    have hmem := (hpolicies ⟨imp, h.1⟩).mpr h.2.1
    exact absurd (hnil ▸ hmem) List.not_mem_nil
  · split_ifs <;> simp

end BidWork

/-! ## The whole selection -/

section

variable {w : BidWork} {req : ComRequest} {lookup : DeviceLookup} {imp : ImpRef}
  {creative : CreativeInfo}

/-- A new filter lets an id through just if it is not capped. -/
theorem check_new_iff {full : List (ℤ × List Bytes)} {id : ℤ} :
    (FrequencyFilter.new.check id req full).1 = true ↔ ¬Capped req full id :=
  (FrequencyFilter.check_spec FrequencyFilter.valid_new id).1

/-- A creative passes if it does for the request and for the device. -/
theorem passes_iff : Passes w req lookup imp creative ↔
    w.RequestPasses req imp creative ∧ w.DevicePasses req lookup creative := by
  constructor
  · intro h
    refine ⟨⟨⟨h.isImp, h.found⟩, ?_, ?_, h.creativeImp, h.creativeExt, h.price⟩, h.device, ?_⟩
    · exact BidWork.policyPasses_iff.mpr ⟨h.campaignRuns, h.policyRuns, h.policy, h.policyExt⟩
    · exact BidWork.impPolicyPasses_iff.mpr ⟨h.policyImp, h.deviceid⟩
    · exact ⟨check_new_iff.mp h.campaignBelow, check_new_iff.mp h.policyBelow,
        check_new_iff.mp h.creativeBelow⟩
  · rintro ⟨⟨hfound, hpolicy, himp, hcreative⟩, hdevice, hfrequency⟩
    obtain ⟨hcampaignRuns, hpolicyRuns, hfilter, hext⟩ := BidWork.policyPasses_iff.mp hpolicy
    obtain ⟨hfilterImp, hdeviceid⟩ := BidWork.impPolicyPasses_iff.mp himp
    exact ⟨hfound.1, hfound.2, hcampaignRuns, hpolicyRuns, hfilter, hext, hfilterImp, hdeviceid,
      hcreative.1, hcreative.2.1, hcreative.2.2, hdevice, check_new_iff.mpr hfrequency.1,
      check_new_iff.mpr hfrequency.2.1, check_new_iff.mpr hfrequency.2.2⟩

/-- What the selection answers agrees with the pairs that pass: it ends in undefined behaviour only
while the device is looked up, refuses a request only if no pair passes, and otherwise leaves the
pairs that pass. -/
def Agrees (w : BidWork) (req : ComRequest) (lookup : DeviceLookup) : BidWork.Selection → Prop
  | .crashed => lookup = .crashed
  | .refused => ∀ imp creative, ¬Passes w req lookup imp creative
  | .selected _ c => (∀ imp creative, Pairs c.impCreatives imp creative ↔
      Passes w req lookup imp creative) ∧ ∃ imp creative, Passes w req lookup imp creative

/-- What the device leaves agrees with what passes. -/
theorem agrees_selectByDevice {c : Candidates}
    (hc : BidWork.Keeps (w.RequestPasses req) (some c)) :
    Agrees w req lookup (w.selectByDevice req lookup c) := by
  obtain ⟨hkeeps, hcrash⟩ := @BidWork.selectByDevice_spec w req c lookup
  have hiff : ∀ imp creative, (Pairs c.impCreatives imp creative ∧
      w.DevicePasses req lookup creative) ↔ Passes w req lookup imp creative := by
    intro imp creative
    rw [passes_iff, hc.1]
  cases hsel : w.selectByDevice req lookup c with
  | crashed => exact absurd hsel hcrash
  | refused =>
    rw [hsel] at hkeeps
    exact fun imp creative h => hkeeps imp creative ((hiff imp creative).mpr h)
  | selected req' c' =>
    rw [hsel] at hkeeps
    obtain ⟨hpairs, imp, creative, hpass⟩ := hkeeps
    exact ⟨fun imp creative => (hpairs imp creative).trans (hiff imp creative), imp, creative,
      (hiff imp creative).mp hpass⟩

/-- The candidates for the bidding are the pairs of an imp and a creative that pass every stage on
their own, if the prices of the creatives depend on their mapids only. -/
theorem selectAd_agrees (w : BidWork) (req : ComRequest) (hat : req.at_ = bidRtb)
    (hprices : w.PricesByMapid req) {S : Type} (exec : S → ClusterCmd → S × ClusterReply) (s : S) :
    Agrees w req ((getDeviceCount req).eval exec s).1 ((w.selectAd req).eval exec s).1 := by
  have hspec := BidWork.selectByRequest_spec hat hprices
  rw [BidWork.selectAd]
  cases hc : w.selectByRequest req with
  | none =>
    rw [hc] at hspec
    exact fun imp creative h => hspec imp creative (passes_iff.mp h).1
  | some c =>
    rw [hc] at hspec
    rw [Prog.eval_bind]
    by_cases hcrash : ((getDeviceCount req).eval exec s).1 = .crashed
    · rw [if_pos hcrash]
      exact hcrash
    · rw [if_neg hcrash]
      exact agrees_selectByDevice hspec

end

/-- A worker whose exchange takes prices from a floor on. -/
def sampleWork (creatives : List CreativeInfo) : BidWork where
  adx := 14
  adapter := {
    checkPolicyExt := fun _ => .success
    checkCreativeExt := fun _ _ => .success
    checkPrice := fun _ bidfloor price =>
      if bidfloor ≤ price then .success else .creativePriceCallback }
  adSelector := (adSelectorCreater creatives).getD []
  adCtrl := .cleared

/-- A cluster that answers every command with an unexpected reply. -/
def deafCluster (s : Unit) (_ : ClusterCmd) : Unit × ClusterReply := (s, .other)

/-- One creative on the sample request. -/
theorem selectAd_agrees_sample :
    Agrees (sampleWork [sampleCreative 1 adtypeImage 320 50]) (sampleRequest (bytes "a"))
      ((getDeviceCount (sampleRequest (bytes "a"))).eval deafCluster ()).1
      (((sampleWork [sampleCreative 1 adtypeImage 320 50]).selectAd
        (sampleRequest (bytes "a"))).eval deafCluster ()).1 := by
  refine selectAd_agrees _ _ rfl ?_ deafCluster ()
  rintro x y ⟨imp, -, hx⟩ ⟨imp', -, hy⟩ -
  have hone : ∀ {z : CreativeInfo} {imp : ImpRef},
      z ∈ adSelectorSearch (sampleWork [sampleCreative 1 adtypeImage 320 50]).adSelector
        (sampleRequest (bytes "a")) imp.1 [] → z = sampleCreative 1 adtypeImage 320 50 := by
    intro z imp hz
    have htree : adSelectorCreater [sampleCreative 1 adtypeImage 320 50] =
        some (sampleWork [sampleCreative 1 adtypeImage 320 50]).adSelector := rfl
    exact List.mem_singleton.mp ((mem_search_iff htree).mp hz).1
  rw [hone hx, hone hy]

/-- A creative with the mapid of the sample creative, and without a price. -/
def unpricedCreative : CreativeInfo := { sampleCreative 2 adtypeImage 320 50 with price := [] }

/-- The sample request with a floor of 50. -/
def sampleFloorRequest : ComRequest :=
  { sampleRequest (bytes "a") with imp := [{ sampleImpression with bidfloor := 50 }] }

/-- Of two creatives with one mapid, the second is compared with the price of the first: both are
candidates, though the price of the second is below the floor. -/
theorem price_of_other_creative :
    ¬Agrees (sampleWork [sampleCreative 1 adtypeImage 320 50, unpricedCreative]) sampleFloorRequest
      ((getDeviceCount sampleFloorRequest).eval deafCluster ()).1
      (((sampleWork [sampleCreative 1 adtypeImage 320 50, unpricedCreative]).selectAd
        sampleFloorRequest).eval deafCluster ()).1 := by
  have hkept : (((sampleWork [sampleCreative 1 adtypeImage 320 50, unpricedCreative]).selectAd
      sampleFloorRequest).eval deafCluster ()).1.candidates.map Candidates.impCreatives =
        some [(({ sampleImpression with bidfloor := 50 }, 0),
          [sampleCreative 1 adtypeImage 320 50, unpricedCreative])] := by
    decide +kernel
  obtain ⟨c, hc, himp⟩ := Option.map_eq_some_iff.mp hkept
  intro h
  cases hsel : (((sampleWork [sampleCreative 1 adtypeImage 320 50, unpricedCreative]).selectAd
      sampleFloorRequest).eval deafCluster ()).1 with
  | crashed => simp [hsel, BidWork.Selection.candidates] at hc
  | refused => simp [hsel, BidWork.Selection.candidates] at hc
  | selected req' c' =>
    rw [hsel] at h hc
    obtain rfl := Option.some_inj.mp hc
    have hpass := (h.1 ({ sampleImpression with bidfloor := 50 }, 0) unpricedCreative).mp
      ⟨_, himp ▸ List.mem_singleton.mpr rfl, by simp⟩
    exact absurd hpass.price (by decide +kernel)

end AdxDsp
