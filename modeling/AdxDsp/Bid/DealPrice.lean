import AdxDsp.Bid.Bidding
import AdxDsp.Bid.TraceUrl

/-!
# The prices of deals

On a PMP request the price of a creative is that of the deal of its policy which the imp offers.
`BidWork::GetPrice` remembers prices by the mapid alone, so the first imp for which a creative is
priced sets the price for all others.

* `mem_comparedPrices`: a price that is compared is the one remembered at the end.
* `deal_prices_iff`: every price of a request is that of its own deal iff pairs of one mapid have
  one deal price.
-/

namespace AdxDsp

open CText Sieve

/-- The price of the deal that the imp offers for the creative. -/
def ownDealPrice (imp : ComImpression) (creative : CreativeInfo) : ℤ :=
  creative.policy.getDealPrice (imp.getDealId creative.policy)

/-- `AdxTemplate`, with the fields that a bid is checked against; the ratio is a number without
rounding here. -/
structure AdxTemplate where
  ratio : ℚ
  iurl : List Bytes
  cturl : List Bytes
  aurl : Bytes
  nurl : Bytes
  /-- The os and the type of the creatives of each `Adms`. -/
  adms : List (ℕ × ℕ)

/-- A bid as `SetResponse` fills it in. -/
structure PricedBid extends ComBid where
  price : ℤ
  creative : CreativeInfo

/-- `com_bid_object::Check` finds no error. -/
def PricedBid.check (bid : PricedBid) (tmpl : AdxTemplate) (req : ComRequest) : Bool :=
  if -(1 / 1000000) < tmpl.ratio ∧ tmpl.ratio < 1 / 1000000 then false
  else if tmpl.iurl.length = 0 ∨ tmpl.cturl.length = 0 ∨ tmpl.aurl = [] ∨ tmpl.nurl = [] then false
  else if bid.imp.type = impBanner then
    tmpl.adms.any fun adm => adm.1 = req.device.os && adm.2 = bid.creative.type
  else true

namespace BidWork

variable (w : BidWork) (req : ComRequest)

/-! ## The prices that are used -/

/-- The candidates whose prices `FilterCreativeByImp` compares: nothing, if a stage before it has
left nothing. -/
def priceCandidates : Candidates :=
  let found := (w.filterCreative req .clear).impCreative2Policies
  (filterPoliciesByImp req
    (w.filterPolicies req found).makeImpPolicies).adjustImpCreativesByImpPolicies

/-- The turns of the loop of `FilterCreativeByImp` that get as far as the price. -/
def reachesPrice (imp : ImpRef) (creative : CreativeInfo) : Bool :=
  creative.filterImp imp.1 = .success && w.adapter.checkCreativeExt imp.1 creative.ext = .success

/-- The prices that `FilterCreativeByImp` compares with the floors, in its order. -/
def comparedPrices : List (ImpRef × CreativeInfo × ℤ) :=
  let c := w.priceCandidates req
  ((visitsEach (w.filterCreativeImp req) c.impCreatives c.creativePrice).filter
    fun v => w.reachesPrice v.1 v.2.1).map fun v =>
      (v.1, v.2.1, (w.getPrice req (v.1.1.getDealId v.2.1.policy) v.2.1 v.2.2).1)

/-- `BidWork::SetResponse`: the bids for the imps, from the first creative of each. -/
def setResponse (tmpl : AdxTemplate) : List (ImpRef × List CreativeInfo) → List (ℤ × ℤ) →
    List PricedBid
  | [], _ => []
  | (_, []) :: rest, prices => setResponse tmpl rest prices
  | (imp, creative :: _) :: rest, prices =>
    let dealid := imp.1.getDealId creative.policy
    let price := w.getPrice req dealid creative prices
    let bid : PricedBid := ⟨⟨creative.mapid, imp.1.id, dealid, imp.1⟩, price.1, creative⟩
    let bids := setResponse tmpl rest price.2
    if bid.check tmpl req then bid :: bids else bids

/-- The bids of a selection. -/
def Selection.response (tmpl : AdxTemplate) : Selection → List PricedBid
  | .selected req c => w.setResponse req tmpl c.impCreatives c.creativePrice
  | _ => []

/-- `SelectAd() && SetResponse()`. -/
def bid (i : BidInput) (tmpl : AdxTemplate) : ClusterProg (List PricedBid) := do
  let sel ← w.selectAdBid req i
  return Selection.response w tmpl sel

/-! ## What is remembered -/

variable {w req}

/-- A price is memoised under the mapping id. -/
theorem lookup_getPrice (dealid : Bytes) (creative : CreativeInfo) (prices : List (ℤ × ℤ)) :
    (w.getPrice req dealid creative prices).2.lookup creative.mapid =
      some (w.getPrice req dealid creative prices).1 := by
  rw [getPrice]
  cases h : prices.lookup creative.mapid with
  | some price => exact h
  | none => simp

/-- A price that is remembered is not replaced. -/
theorem lookup_getPrice_of_lookup {dealid : Bytes} {creative : CreativeInfo}
    {prices : List (ℤ × ℤ)} {mapid price : ℤ} (h : prices.lookup mapid = some price) :
    (w.getPrice req dealid creative prices).2.lookup mapid = some price := by
  rw [getPrice]
  cases hlookup : prices.lookup creative.mapid with
  | some _ => exact h
  | none =>
    have hne : mapid ≠ creative.mapid := by
      rintro rfl
      rw [hlookup] at h
      cases h
    rw [List.lookup_cons, beq_eq_false_iff_ne.mpr hne]
    exact h

/-- A turn of the loop, in terms of the price. -/
theorem filterCreativeImp_eq {imp : ImpRef} {creative : CreativeInfo} {prices : List (ℤ × ℤ)} :
    w.filterCreativeImp req imp prices creative =
      if w.reachesPrice imp creative then
        let price := w.getPrice req (imp.1.getDealId creative.policy) creative prices
        (decide (w.adapter.checkPrice req.at_ (imp.1.getBidfloor
          (imp.1.getDealId creative.policy) creative.policy.advcat) price.1 = .success), price.2)
      else (false, prices) := by
  rw [filterCreativeImp, reachesPrice]
  split_ifs <;> simp_all

/-- What `FilterCreativeByImp` keeps are the pairs whose compared price passes. -/
theorem pairs_filterCreativeByImp {imp : ImpRef} {creative : CreativeInfo} :
    Pairs (w.filterCreativeByImp req (w.priceCandidates req)).impCreatives imp creative ↔
      ∃ price, (imp, creative, price) ∈ w.comparedPrices req ∧
        w.adapter.checkPrice req.at_ (imp.1.getBidfloor (imp.1.getDealId creative.policy)
          creative.policy.advcat) price = .success := by
  rw [filterCreativeByImp, pairs_sieveEach_iff_visited]
  simp only [comparedPrices, List.mem_map, List.mem_filter, Prod.mk.injEq]
  constructor
  · rintro ⟨prices, hv, hpass⟩
    rw [filterCreativeImp_eq] at hpass
    split_ifs at hpass with hreach
    exact ⟨_, ⟨_, ⟨hv, hreach⟩, rfl, rfl, rfl⟩, of_decide_eq_true hpass⟩
  · rintro ⟨price, ⟨⟨imp', creative', prices⟩, ⟨hv, hreach⟩, rfl, rfl, rfl⟩, hpass⟩
    refine ⟨prices, hv, ?_⟩
    rw [filterCreativeImp_eq, if_pos hreach]
    exact decide_eq_true hpass

/-- An early return for the empty list is none where the rest returns the same. -/
theorem ite_nil_eq {β γ : Type} {l : List β} {rest : Option γ} (h : l = [] → rest = none) :
    (if l = [] then none else rest) = rest := by
  split_ifs with hnil
  · exact (h hnil).symm
  · rfl

/-- The stages before the device is looked up, as one pass over the candidates: where a stage leaves
nothing, no candidate gets to `FilterCreativeByImp`. -/
theorem selectByRequest_eq (w : BidWork) (req : ComRequest) :
    w.selectByRequest req =
      let c := w.filterCreativeByImp req (w.priceCandidates req)
      if c.impCreatives = [] then none else some c := by
  have hpolicies : ∀ {c : Candidates}, c.policies = [] →
      (w.filterPolicies req c).policies = [] := by
    intro c h
    simp [filterPolicies, h]
  have himpPolicies : ∀ {c : Candidates}, c.policies = [] →
      (filterPoliciesByImp req c.makeImpPolicies).impPolicies = [] := by
    intro c h
    simp [filterPoliciesByImp, Candidates.makeImpPolicies, filterEach, AddrSet.insertAll, h]
  have hcreatives : ∀ {c : Candidates}, c.impPolicies = [] →
      (w.filterCreativeByImp req c.adjustImpCreativesByImpPolicies).impCreatives = [] := by
    intro c h
    simp [Candidates.adjustImpCreativesByImpPolicies, filterCreativeByImp, sieveEach, h]
  -- one early return after the other
  refine (ite_nil_eq fun h => ?_).trans ((ite_nil_eq fun h => ?_).trans (ite_nil_eq fun h => ?_))
  · exact if_pos (hpolicies h)
  · exact if_pos (himpPolicies h)
  · exact if_pos (hcreatives h)

/-- The pair is found, passes the stages about policies, and gets as far as its price. -/
def Priced (w : BidWork) (req : ComRequest) (imp : ImpRef) (creative : CreativeInfo) : Prop :=
  ((imp ∈ req.imp.zipIdx ∧ creative ∈ adSelectorSearch w.adSelector req imp.1 []) ∧
    w.policyPasses req creative.policy = true ∧
      impPolicyPasses req imp creative.policy = true) ∧ w.reachesPrice imp creative = true

/-- Pairs of one mapid have one deal price. -/
def DealPricesByMapid (w : BidWork) (req : ComRequest) : Prop :=
  ∀ imp x imp' y, w.Priced req imp x → w.Priced req imp' y → x.mapid = y.mapid →
    ownDealPrice imp.1 x = ownDealPrice imp'.1 y

/-- Each candidate has a price that is compared. -/
theorem exists_comparedPrices {imp : ImpRef} {creative : CreativeInfo}
    (h : w.Priced req imp creative) : ∃ price, (imp, creative, price) ∈ w.comparedPrices req := by
  obtain ⟨prices, hv⟩ := pairs_iff_visited.mp (pairs_filterPoliciesByImp.mpr h.1)
  exact ⟨_, List.mem_map.mpr ⟨_, List.mem_filter.mpr ⟨hv, h.2⟩, rfl⟩⟩

/-- The prices that are remembered when `FilterCreativeByImp` is done. -/
def remembered (w : BidWork) (req : ComRequest) : List (ℤ × ℤ) :=
  (w.filterCreativeByImp req (w.priceCandidates req)).creativePrice

/-- A price that is compared is the one remembered at the end. -/
theorem mem_comparedPrices {imp : ImpRef} {creative : CreativeInfo} {price : ℤ}
    (h : (imp, creative, price) ∈ w.comparedPrices req) :
    w.Priced req imp creative ∧ (w.remembered req).lookup creative.mapid = some price := by
  obtain ⟨⟨imp', creative', prices⟩, hv, heq⟩ := List.mem_map.mp h
  obtain ⟨hv, hreach⟩ := List.mem_filter.mp hv
  obtain ⟨rfl, rfl, rfl⟩ : imp' = imp ∧ creative' = creative ∧ _ = price := by
    simpa using heq
  refine ⟨⟨pairs_filterPoliciesByImp.mp (pairs_iff_visited.mpr ⟨prices, hv⟩), hreach⟩, ?_⟩
  -- the price is remembered by its own turn, and kept by the later ones
  refine visitsEach_stay (Q := fun prices => prices.lookup creative'.mapid = some _) ?_ hv ?_
  · intro k x s hs
    rw [filterCreativeImp_eq]
    split_ifs
    · exact lookup_getPrice_of_lookup hs
    · exact hs
  · rw [filterCreativeImp_eq, if_pos hreach]
    exact lookup_getPrice _ _ _

/-- What is remembered is the deal price of every pair that asks for it. -/
def DealsValid (w : BidWork) (req : ComRequest) (prices : List (ℤ × ℤ)) : Prop :=
  ∀ mapid price, prices.lookup mapid = some price →
    ∀ imp creative, w.Priced req imp creative → creative.mapid = mapid →
      price = ownDealPrice imp.1 creative

/-- Where pairs of one mapid have one deal price, `GetPrice` answers with it, and goes on
remembering such prices only. -/
theorem getPrice_deal (hat : req.at_ ≠ bidRtb) (hsame : w.DealPricesByMapid req) {imp : ImpRef}
    {creative : CreativeInfo} (hpriced : w.Priced req imp creative) {prices : List (ℤ × ℤ)}
    (h : w.DealsValid req prices) :
    (w.getPrice req (imp.1.getDealId creative.policy) creative prices).1 =
        ownDealPrice imp.1 creative ∧
      w.DealsValid req (w.getPrice req (imp.1.getDealId creative.policy) creative prices).2 := by
  rw [getPrice]
  cases hlookup : prices.lookup creative.mapid with
  | some price => exact ⟨h _ _ hlookup imp creative hpriced rfl, h⟩
  | none =>
    -- the price of this pair is remembered for all pairs of its mapid
    rw [if_neg hat]
    refine ⟨rfl, fun mapid price hprice imp' x hx hmapid => ?_⟩
    rw [List.lookup_cons] at hprice
    by_cases heq : mapid = creative.mapid
    · rw [beq_iff_eq.mpr heq] at hprice
      obtain rfl := Option.some_inj.mp hprice
      exact hsame imp creative imp' x hpriced hx (hmapid.trans heq).symm
    · rw [beq_eq_false_iff_ne.mpr heq] at hprice
      exact h mapid price hprice imp' x hx hmapid

/-- Each price that is memoised is one of a deal. -/
theorem filterCreativeImp_valid (hat : req.at_ ≠ bidRtb) (hsame : w.DealPricesByMapid req)
    {imp : ImpRef} {creative : CreativeInfo}
    (hpair : Pairs (w.priceCandidates req).impCreatives imp creative) {prices : List (ℤ × ℤ)}
    (h : w.DealsValid req prices) :
    w.DealsValid req (w.filterCreativeImp req imp prices creative).2 := by
  rw [filterCreativeImp_eq]
  split_ifs with hreach
  · exact (getPrice_deal hat hsame ⟨pairs_filterPoliciesByImp.mp hpair, hreach⟩ h).2
  · exact h

/-- Nothing is remembered before `FilterCreativeByImp`. -/
theorem dealsValid_visits (hat : req.at_ ≠ bidRtb) (hsame : w.DealPricesByMapid req) :
    (∀ v ∈ visitsEach (w.filterCreativeImp req) (w.priceCandidates req).impCreatives
      (w.priceCandidates req).creativePrice, w.DealsValid req v.2.2) ∧
        w.DealsValid req (w.remembered req) := by
  apply visitsEach_keep
  · intro imp creative hpair prices h
    exact filterCreativeImp_valid hat hsame hpair h
  · intro mapid price h
    cases h

/-- The compared price of a candidate is that of its own deal. -/
theorem comparedPrices_deal (hat : req.at_ ≠ bidRtb) (hsame : w.DealPricesByMapid req)
    {imp : ImpRef} {creative : CreativeInfo} {price : ℤ}
    (h : (imp, creative, price) ∈ w.comparedPrices req) : price = ownDealPrice imp.1 creative := by
  obtain ⟨hpriced, hlookup⟩ := mem_comparedPrices h
  exact (dealsValid_visits hat hsame).2 _ _ hlookup imp creative hpriced rfl

/-! ## The bids -/

/-- `SetResponse` prices pairs that were priced before. -/
theorem setResponse_deal (hat : req.at_ ≠ bidRtb) (hsame : w.DealPricesByMapid req)
    {lookup : DeviceLookup} {tmpl : AdxTemplate} {m : List (ImpRef × List CreativeInfo)}
    (hm : ∀ imp creative, Pairs m imp creative → w.Priced req imp creative)
    {prices : List (ℤ × ℤ)} (h : w.DealsValid req prices) :
    ∀ bid ∈ w.setResponse (setDevice req lookup) tmpl m prices,
      bid.price = ownDealPrice bid.imp bid.creative := by
  -- a price does not depend on the device
  have hdevice : w.getPrice (setDevice req lookup) = w.getPrice req := by
    cases lookup <;> rfl
  induction m generalizing prices with
  | nil =>
    intro bid hbid
    cases hbid
  | cons e m ih =>
    obtain ⟨imp, creatives⟩ := e
    have hrest : ∀ imp creative, Pairs m imp creative → w.Priced req imp creative :=
      fun imp creative hp => hm imp creative ((pairs_cons ..).mpr (.inr hp))
    cases creatives with
    | nil => exact ih hrest h
    | cons creative creatives =>
      -- the bid is for the first creative, at the price that `GetPrice` gives now
      have hpriced := hm imp creative ((pairs_cons ..).mpr (.inl ⟨rfl, List.mem_cons_self⟩))
      obtain ⟨hprice, hvalid⟩ := getPrice_deal hat hsame hpriced h
      intro bid hbid
      simp only [setResponse, hdevice] at hbid
      split_ifs at hbid
      · rcases List.mem_cons.mp hbid with rfl | hbid
        · exact hprice
        · exact ih hrest hvalid bid hbid
      · exact ih hrest hvalid bid hbid

/-- The selection goes on with the device, and with pairs and prices of `FilterCreativeByImp`. -/
def ComesFrom (req : ComRequest) (lookup : DeviceLookup) (c : Candidates) : Selection → Prop
  | .selected req' c' => req' = setDevice req lookup ∧ c'.creativePrice = c.creativePrice ∧
      ∀ imp creative, Pairs c'.impCreatives imp creative → Pairs c.impCreatives imp creative
  | _ => True

/-- The device drops candidates only. -/
theorem comesFrom_selectByDevice (lookup : DeviceLookup) (c : Candidates) :
    ComesFrom req lookup c (w.selectByDevice req lookup c) := by
  have hspec := (@selectByDevice_spec w req c lookup).1
  cases hsel : w.selectByDevice req lookup c with
  | selected req' c' =>
    rw [hsel] at hspec
    simp only [selectByDevice] at hsel
    split_ifs at hsel
    obtain ⟨rfl, hc⟩ := Selection.selected.inj hsel
    refine ⟨rfl, ?_, fun imp creative h => ((hspec.1 imp creative).mp h).1⟩
    -- the stages about the device only remove candidates
    rw [← hc]
    cases lookup with
    | read d =>
      simp only [filterByAudience]
      split_ifs <;> rfl
    | crashed => rfl
    | unread => rfl
  | refused => trivial
  | crashed => trivial

/-- The bidding drops candidates only. -/
theorem comesFrom_filterByCreativeBidding {lookup : DeviceLookup} {c : Candidates}
    {i : BidInput} {sel : Selection} (h : ComesFrom req lookup c sel) :
    ComesFrom req lookup c (filterByCreativeBidding i sel) := by
  cases sel with
  | selected req' c' =>
    obtain ⟨hreq, hprices, hpairs⟩ := h
    rw [filterByCreativeBidding]
    cases hbid : bidEach i req' c'.creativePrice c'.impCreatives with
    | none => trivial
    | some kept =>
      cases kept with
      | nil => trivial
      | cons e kept =>
        exact ⟨hreq, hprices, fun imp creative hp =>
          hpairs imp creative (mem_of_mem_bidEach hbid hp)⟩
  | refused => trivial
  | crashed => trivial

/-- What is selected comes from the candidates. -/
theorem comesFrom_selectAdBid {S : Type} (exec : S → ClusterCmd → S × ClusterReply) (s : S)
    (i : BidInput) : ∃ lookup, ComesFrom req lookup
      (w.filterCreativeByImp req (w.priceCandidates req))
      ((w.selectAdBid req i).eval exec s).1 := by
  refine ⟨((getDeviceCount req).eval exec s).1, ?_⟩
  rw [selectAdBid, Prog.eval_bind, Prog.pure_eq_ret, Prog.eval_ret]
  apply comesFrom_filterByCreativeBidding
  rw [selectAd, selectByRequest_eq]
  by_cases hnil : (w.filterCreativeByImp req (w.priceCandidates req)).impCreatives = []
  · rw [if_pos hnil]
    trivial
  · rw [if_neg hnil, Prog.eval_bind]
    by_cases hcrash : ((getDeviceCount req).eval exec s).1 = .crashed
    · rw [if_pos hcrash]
      trivial
    · rw [if_neg hcrash]
      exact comesFrom_selectByDevice _ _

/-- The bids have the prices of their own deals. -/
theorem response_deal (hat : req.at_ ≠ bidRtb) (hsame : w.DealPricesByMapid req)
    {lookup : DeviceLookup} {tmpl : AdxTemplate} {sel : Selection}
    (h : ComesFrom req lookup (w.filterCreativeByImp req (w.priceCandidates req)) sel) :
    ∀ bid ∈ sel.response w tmpl, bid.price = ownDealPrice bid.imp bid.creative := by
  cases sel with
  | selected req' c =>
    obtain ⟨rfl, hprices, hpairs⟩ := h
    apply setResponse_deal hat hsame
    · intro imp creative hp
      obtain ⟨price, hmem, -⟩ := pairs_filterCreativeByImp.mp (hpairs imp creative hp)
      exact (mem_comparedPrices hmem).1
    · rw [hprices]
      exact (dealsValid_visits hat hsame).2
  | refused => exact fun _ h => absurd h List.not_mem_nil
  | crashed => exact fun _ h => absurd h List.not_mem_nil

end BidWork

/-- Every price that a PMP request compares with a floor, and every price it bids, is that of the
deal which its own imp offers, iff the pairs of an imp and a creative which are priced have one deal
price for each mapid. -/
theorem deal_prices_iff (w : BidWork) (req : ComRequest) (hat : req.at_ ≠ bidRtb)
    (i : BidWork.BidInput) (tmpl : AdxTemplate) {S : Type}
    (exec : S → ClusterCmd → S × ClusterReply) (s : S) :
    ((∀ imp creative price, (imp, creative, price) ∈ w.comparedPrices req →
        price = ownDealPrice imp.1 creative) ∧
      ∀ bid ∈ ((w.bid req i tmpl).eval exec s).1,
        bid.price = ownDealPrice bid.imp bid.creative) ↔ w.DealPricesByMapid req := by
  constructor
  · rintro ⟨hcompared, -⟩ imp x imp' y hx hy hmapid
    obtain ⟨price, hprice⟩ := BidWork.exists_comparedPrices hx
    obtain ⟨price', hprice'⟩ := BidWork.exists_comparedPrices hy
    -- both prices are the one remembered for the mapid at the end
    have hmemory := (BidWork.mem_comparedPrices hprice).2
    rw [hmapid, (BidWork.mem_comparedPrices hprice').2] at hmemory
    rw [← hcompared imp x price hprice, ← hcompared imp' y price' hprice']
    exact (Option.some_inj.mp hmemory).symm
  · intro hsame
    refine ⟨fun imp creative price h => BidWork.comparedPrices_deal hat hsame h, ?_⟩
    obtain ⟨lookup, hsel⟩ := @BidWork.comesFrom_selectAdBid w req S exec s i
    rw [BidWork.bid, Prog.eval_bind, Prog.pure_eq_ret, Prog.eval_ret]
    exact BidWork.response_deal hat hsame hsel

/-- A policy with a deal for 100 and one for 200. -/
def samplePmpPolicy : PolicyInfo :=
  { samplePolicy with atInfo := [(1, [(bytes "a", 100), (bytes "b", 200)])] }

/-- A PMP request with an imp for each deal, and a floor of 10. -/
def samplePmpRequest : ComRequest :=
  { sampleRequest (bytes "a") with
    imp := [{ sampleImpression with dealprice := [(bytes "a", 10)] },
      { sampleImpression with dealprice := [(bytes "b", 10)] }]
    at_ := 1 }

/-- A worker with one creative of the policy. -/
def samplePmpWork : BidWork :=
  sampleWork [{ sampleCreative 1 adtypeImage 320 50 with policy := samplePmpPolicy }]

/-- A template that bids pass. -/
def sampleTemplate : AdxTemplate := ⟨1, [bytes "i"], [bytes "c"], bytes "a", bytes "n", [(1, 2)]⟩

/-- The sample, with one deal for both impressions. -/
theorem deal_prices_iff_sample :
    ((∀ imp creative price, (imp, creative, price) ∈ samplePmpWork.comparedPrices samplePmpRequest →
        price = ownDealPrice imp.1 creative) ∧
      ∀ bid ∈ ((samplePmpWork.bid samplePmpRequest ⟨[], fun _ => 0⟩ sampleTemplate).eval
        deafCluster ()).1, bid.price = ownDealPrice bid.imp bid.creative) ↔
          samplePmpWork.DealPricesByMapid samplePmpRequest :=
  deal_prices_iff samplePmpWork samplePmpRequest (by decide) ⟨[], fun _ => 0⟩ sampleTemplate
    deafCluster ()

/-- The imp with the deal for 200 is compared and bid at the 100 of the imp before it. -/
theorem second_deal_at_first_price :
    (∃ v ∈ samplePmpWork.comparedPrices samplePmpRequest,
      v.2.2 = 100 ∧ ownDealPrice v.1.1 v.2.1 = 200) ∧
    ∃ bid ∈ ((samplePmpWork.bid samplePmpRequest ⟨[], fun _ => 0⟩ sampleTemplate).eval
      deafCluster ()).1,
        bid.dealid = bytes "b" ∧ bid.price = 100 ∧ ownDealPrice bid.imp bid.creative = 200 := by
  decide +kernel

end AdxDsp
