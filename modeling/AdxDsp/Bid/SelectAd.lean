import AdxDsp.Bid.AdCtrl
import AdxDsp.Bid.DeviceCount
import AdxDsp.Bid.FrequencyFilter
import AdxDsp.Bid.Selector
import AdxDsp.Lib.Sieve

/-!
# Selecting creatives

`BidWork::SelectAd` up to the bidding (`bidbase.cpp`, `filter_assist.cpp`).  The candidates are kept
three times over: the policies, the policies of each imp and the creatives of each imp.  A stage
erases from one of them what does not pass, and the next stage starts with carrying this over to
another.

The error details and the log are left out.
-/

namespace AdxDsp

open CText Sieve

/-! ## The candidates -/

/-- An imp of a request, by what it says and where it stands. -/
abbrev ImpRef := ComImpression × ℕ

/-- `Candidates`. -/
structure Candidates where
  policies : List PolicyInfo
  impPolicies : List (ImpRef × List PolicyInfo)
  impCreatives : List (ImpRef × List CreativeInfo)
  /-- Prices that were looked up before, by mapid. -/
  creativePrice : List (ℤ × ℤ)
  deriving DecidableEq

namespace Candidates

variable (c : Candidates)

/-- `Candidates::clear`. -/
def clear : Candidates := ⟨[], [], [], []⟩

/-- `Candidates::ImpCreative2Policies`. -/
def impCreative2Policies : Candidates :=
  { c with
    policies := AddrSet.insertAll PolicyInfo.addr
      (c.impCreatives.flatMap fun e => e.2.map CreativeInfo.policy) [] }

/-- `Candidates::MakeImpPolicies`.  There are no policies of imps yet, and each imp has one entry of
creatives. -/
def makeImpPolicies : Candidates :=
  { c with
    impPolicies := (c.impCreatives.map fun e =>
      (e.1, AddrSet.insertAll PolicyInfo.addr
        ((e.2.map CreativeInfo.policy).filter (· ∈ c.policies)) [])).filter fun e => e.2 ≠ [] }

/-- `Candidates::AdjustImpCreativesByImpPolicies`. -/
def adjustImpCreativesByImpPolicies : Candidates :=
  { c with
    impCreatives := c.impCreatives.filterMap fun e =>
      (c.impPolicies.lookup e.1).map fun policies => (e.1, e.2.filter (·.policy ∈ policies)) }

/-- `Candidates::AdjustImpCreativesByPolicies`. -/
def adjustImpCreativesByPolicies : Candidates :=
  { c with impCreatives := filterEach (fun _ one => one.policy ∈ c.policies) c.impCreatives }

end Candidates

/-! ## The stages -/

/-- The callbacks of an exchange; the price is checked with the ratio of its template. -/
structure Adapter where
  checkPolicyExt : Bytes → BidErr
  checkCreativeExt : ComImpression → CreativeExt → BidErr
  checkPrice : ℕ → ℤ → ℤ → BidErr

/-- What a `BidWork` works with. -/
structure BidWork where
  adx : ℤ
  adapter : Adapter
  adSelector : ClassifyCreativeType
  adCtrl : AdCtrl

namespace BidWork

variable (w : BidWork) (req : ComRequest)

/-- `BidWork::FilterCreative`. -/
def filterCreative (c : Candidates) : Candidates :=
  { c with
    impCreatives := req.imp.zipIdx.map fun imp =>
      (imp, adSelectorSearch w.adSelector req imp.1 []) }

/-- The turns of the loop of `FilterPolicies` that keep their policy. -/
def policyPasses (policy : PolicyInfo) : Bool :=
  if (w.adCtrl.pauseCampaign.lookup policy.campaignid).isSome then false
  else if (w.adCtrl.pausePolicy.lookup policy.id).isSome then false
  else if policy.filter req ≠ .success then false
  else if w.adapter.checkPolicyExt policy.extAdvid ≠ .success then false
  else true

/-- `BidWork::FilterPolicies`. -/
def filterPolicies (c : Candidates) : Candidates :=
  { c with policies := c.policies.filter (w.policyPasses req) }

/-- The turns of the loop of `FilterPoliciesByImp` that keep their policy. -/
def impPolicyPasses (imp : ImpRef) (policy : PolicyInfo) : Bool :=
  let hasDeviceid := decide (0 < req.device.dids.length ∨ 0 < req.device.dpids.length)
  if policy.filterImp imp.1 ≠ .success then false
  else if !hasDeviceid && !policy.checkAllowNoDeviceid req.app.id imp.1.type then false
  else true

/-- `BidWork::FilterPoliciesByImp`. -/
def filterPoliciesByImp (c : Candidates) : Candidates :=
  { c with impPolicies := filterEach (impPolicyPasses req) c.impPolicies }

/-- `BidWork::GetPrice`, with the prices it remembers. -/
def getPrice (dealid : Bytes) (creative : CreativeInfo) (prices : List (ℤ × ℤ)) :
    ℤ × List (ℤ × ℤ) :=
  match prices.lookup creative.mapid with
  | some price => (price, prices)
  | none =>
    let price :=
      if req.at_ = bidRtb then creative.getPrice w.adx req.app.name req.device.location
      else creative.policy.getDealPrice dealid
    (price, (creative.mapid, price) :: prices)

/-- One turn of the loop of `FilterCreativeByImp`. -/
def filterCreativeImp (imp : ImpRef) (prices : List (ℤ × ℤ)) (creative : CreativeInfo) :
    Bool × List (ℤ × ℤ) :=
  if creative.filterImp imp.1 ≠ .success then (false, prices)
  else if w.adapter.checkCreativeExt imp.1 creative.ext ≠ .success then (false, prices)
  else
    let dealid := imp.1.getDealId creative.policy
    let price := w.getPrice req dealid creative prices
    let bidfloor := imp.1.getBidfloor dealid creative.policy.advcat
    (decide (w.adapter.checkPrice req.at_ bidfloor price.1 = .success), price.2)

/-- `BidWork::FilterCreativeByImp`. -/
def filterCreativeByImp (c : Candidates) : Candidates :=
  let kept := sieveEach (w.filterCreativeImp req) c.impCreatives c.creativePrice
  { c with impCreatives := kept.1, creativePrice := kept.2 }

/-- `BidWork::FilterByAudience` after the device was looked up. -/
def filterByAudience (lookup : DeviceLookup) (c : Candidates) : Candidates :=
  match lookup with
  | .read d =>
    if d.blGlobal then { c with policies := [] }
    else
      { c with policies := c.policies.filter fun policy =>
          decide (policy.filterAudience d.audiences = .success) }
  | _ => c

/-- The request after `BidWork::FilterByAudience`. -/
def setDevice (lookup : DeviceLookup) : ComRequest :=
  match lookup with
  | .read d =>
    { req with device := { req.device with
        deviceid := d.id
        deviceidtype := (d.idType % 256).toNat } }
  | _ => req

/-- The filters of `BidWork::FilterByFrequency`. -/
structure FrequencyFilters where
  campaign : FrequencyFilter
  policy : FrequencyFilter
  creative : FrequencyFilter

/-- One turn of the loop of `FilterByFrequency`. -/
def filterFrequency (f : FrequencyFilters) (creative : CreativeInfo) : Bool × FrequencyFilters :=
  let campaign := f.campaign.check creative.policy.campaignid req w.adCtrl.fullCampaign
  if ¬campaign.1 then (false, { f with campaign := campaign.2 })
  else
    let policy := f.policy.check creative.policyid req w.adCtrl.fullPolicy
    if ¬policy.1 then (false, { f with campaign := campaign.2, policy := policy.2 })
    else
      let one := f.creative.check creative.creativeid req w.adCtrl.fullCreative
      (one.1, ⟨campaign.2, policy.2, one.2⟩)

/-- `BidWork::FilterByFrequency`. -/
def filterByFrequency (c : Candidates) : Candidates :=
  { c with
    impCreatives :=
      (sieveEach (fun _ => w.filterFrequency req) c.impCreatives ⟨.new, .new, .new⟩).1 }

/-! ## All stages -/

/-- How `BidWork::SelectAd` goes on: with undefined behaviour, by answering that there is no ad, or
with bidding among the candidates. -/
inductive Selection where
  | crashed
  | refused
  | selected (req : ComRequest) (c : Candidates)
  deriving DecidableEq

/-- The stages before the device is looked up; `none` if one of them leaves nothing. -/
def selectByRequest : Option Candidates :=
  let c := (w.filterCreative req .clear).impCreative2Policies
  if c.policies = [] then none
  else
    let c := w.filterPolicies req c
    if c.policies = [] then none
    else
      let c := filterPoliciesByImp req c.makeImpPolicies
      if c.impPolicies = [] then none
      else
        let c := w.filterCreativeByImp req c.adjustImpCreativesByImpPolicies
        if c.impCreatives = [] then none else some c

/-- The stages after the device is looked up. -/
def selectByDevice (lookup : DeviceLookup) (c : Candidates) : Selection :=
  let req' := setDevice req lookup
  let c := filterByAudience lookup c.impCreative2Policies
  if c.policies = [] then .refused
  else
    let c := w.filterByFrequency req' c.adjustImpCreativesByPolicies
    if c.impCreatives = [] then .refused else .selected req' c

/-- `BidWork::SelectAd` up to the bidding. -/
def selectAd : ClusterProg Selection :=
  match w.selectByRequest req with
  | none => .ret .refused
  | some c => do
    let lookup ← getDeviceCount req
    return if lookup = .crashed then .crashed else w.selectByDevice req lookup c

end BidWork

end AdxDsp
