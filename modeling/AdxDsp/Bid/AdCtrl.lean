import AdxDsp.Bid.Element
import AdxDsp.Lib.Containers
import AdxDsp.Lib.Redis

/-!
# The control data of the bidder

`AdCtrl::Update` reads from redis which campaigns and policies are paused, and which devices have
reached a frequency limit (`ad_cache.cpp`).  It reads the records of each id one after the other,
and passes over an id whose record cannot be read; when the program that keeps the control data has
not left a new stamp for some time, it drops everything it has read.  The run flag of the process,
which ends the loops over the ids, counts as set.
-/

namespace AdxDsp

open CText Redis

/-! ## The control data -/

/-- `AdCtrl`: the full sets of devices and the reasons of the pauses, by id. -/
structure AdCtrl where
  fullCampaign : List (ℤ × List Bytes)
  fullPolicy : List (ℤ × List Bytes)
  fullCreative : List (ℤ × List Bytes)
  pauseCampaign : List (ℤ × ℤ)
  pausePolicy : List (ℤ × ℤ)
  deriving DecidableEq

/-- `AdCtrl::ClearData`. -/
def AdCtrl.cleared : AdCtrl := ⟨[], [], [], [], []⟩

/-- `_campaigns`, `_policies` and `_creatives`. -/
structure AdIds where
  campaigns : List ℤ
  policies : List ℤ
  creatives : List ℤ
  deriving DecidableEq

/-- `EffectChecker`: the last stamp, and when it was new. -/
structure EffectChecker where
  serverStab : Bytes
  timeUpdate : ℤ
  deriving DecidableEq

/-! ## The environment -/

/-- The redis servers that `AdCtrl` reads. -/
inductive CtrlServer where
  | adElement
  | adControl
  deriving DecidableEq

/-- A function of `AdCtrl`, with the commands it sends. -/
abbrev CtrlProg (α : Type) := Prog (CtrlServer × Cmd) Reply α

/-- The redis servers and the outcomes of the commands to come. -/
abbrev CtrlWorld := World CtrlServer

/-- The JSON library: whether a text is a document, the text of a number and the set of an array
under a label of its root. -/
structure JsonLib where
  parses : Bytes → Bool
  number : Bytes → Bytes → Option Bytes
  integerSet : Bytes → Bytes → Option (List ℕ)

/-- `xRedisClient::get`. -/
def xRedisGet (v : CtrlServer) (key : Bytes) : CtrlProg (Option Bytes) := do
  match ← Prog.call (v, .get key) with
  | .string val => return some val
  | _ => return none

/-- `xRedisClient::smembers`. -/
def xRedisSmembers (v : CtrlServer) (key : Bytes) : CtrlProg (Option (List Bytes)) := do
  match ← Prog.call (v, .smembers key) with
  | .array vals => return some vals
  | _ => return none

/-! ## Reading the ids -/

section

variable (lib : JsonLib) (adx : ℤ)

/-- The record names the exchange, or no exchanges at all. -/
def supportsAdx (val : Bytes) : Bool :=
  (lib.integerSet val (bytes "adx")).all fun adxs => decide ((adx % 256).toNat ∈ adxs)

/-- What `AdCtrl::GetCampaignId` finds in the record of a policy. -/
def campaignOfRecord (val : Bytes) : Option ℤ :=
  if ¬lib.parses val then none
  else if ¬supportsAdx lib adx val then none
  else (lib.number val (bytes "campaignid")).map atoi

/-- `AdCtrl::GetCampaignId`. -/
def getCampaignId (policyid : Bytes) : CtrlProg (Option ℤ) := do
  let val ← xRedisGet .adElement (bytes "dsp_policy_info_" ++ policyid)
  return val.bind (campaignOfRecord lib adx)

/-- What `AdCtrl::GetCreativeId` finds in the record of a creative. -/
def creativeOfRecord (val : Bytes) : Option ℤ :=
  if ¬lib.parses val then none else (lib.number val (bytes "creativeid")).map atoi

/-- The loop of `AdCtrl::GetCreativeId`. -/
def getCreativeIds : List Bytes → CtrlProg (List ℤ)
  | [] => .ret []
  | mapid :: rest => do
    let val ← xRedisGet .adElement (bytes "dsp_mapid_" ++ mapid)
    let ids ← getCreativeIds rest
    return (val.bind (creativeOfRecord lib)).toList ++ ids

/-- `AdCtrl::GetCreativeId`, which fails if there is none. -/
def getCreativeId (policyid : Bytes) : CtrlProg (Option (List ℤ)) := do
  match ← xRedisSmembers .adElement (bytes "dsp_policy_mapids_" ++ policyid) with
  | none => return none
  | some vals =>
    let ids ← getCreativeIds lib vals
    return if ids = [] then none else some ids

/-- One turn of the loop of `AdCtrl::GetAllAdId`. -/
def addAdId (ids : AdIds) (strId : Bytes) : CtrlProg AdIds := do
  match ← getCampaignId lib adx strId with
  | none => return ids
  | some campaignid =>
    match ← getCreativeId lib strId with
    | none => return ids
    | some creativeIds =>
      return ⟨AddrSet.insert id campaignid ids.campaigns,
        AddrSet.insert id (atoi strId) ids.policies,
        AddrSet.insertAll id creativeIds ids.creatives⟩

/-- The loop of `AdCtrl::GetAllAdId`. -/
def addAdIds : List Bytes → AdIds → CtrlProg AdIds
  | [], ids => .ret ids
  | strId :: rest, ids => do
    let ids' ← addAdId lib adx ids strId
    addAdIds rest ids'

/-- `AdCtrl::GetAllAdId`. -/
def getAllAdId : CtrlProg AdIds := do
  match ← xRedisSmembers .adElement (bytes "dsp_policyids") with
  | none => return ⟨[], [], []⟩
  | some vals => addAdIds lib adx vals ⟨[], [], []⟩

end

/-! ## Reading the control data -/

/-- `AdCtrl::GetFreFullDeviceid`. -/
def getFreFullDeviceid (key : Bytes) : List ℤ → CtrlProg (List (ℤ × List Bytes))
  | [] => .ret []
  | id :: rest => do
    let vals ← xRedisSmembers .adControl (key ++ decimal id)
    let full ← getFreFullDeviceid key rest
    return if vals.getD [] = [] then full else (id, vals.getD []) :: full

/-- `AdCtrl::GetPauseAd`. -/
def getPauseAd (key : Bytes) : List ℤ → CtrlProg (List (ℤ × ℤ))
  | [] => .ret []
  | id :: rest => do
    let val ← xRedisGet .adControl (key ++ decimal id)
    let pause ← getPauseAd key rest
    return if val.getD [] = [] then pause else (id, atoi (val.getD [])) :: pause

/-- `EffectChecker::Check` for the stamp of the control data, which lasts for 600 seconds. -/
def EffectChecker.check (e : EffectChecker) (now : ℤ) : CtrlProg (Bool × EffectChecker) := do
  match ← xRedisGet .adControl (bytes "dsp_adcontrol_working") with
  | none => return (false, e)
  | some val =>
    if e.serverStab ≠ val then return (true, ⟨val, now⟩)
    else return (decide (now - e.timeUpdate ≤ 600), e)

/-- The part of `AdCtrl::Update` after the ids are known. -/
def readControl (ids : AdIds) : CtrlProg AdCtrl := do
  let fullCampaign ← getFreFullDeviceid (bytes "fc_campaign_") ids.campaigns
  let fullPolicy ← getFreFullDeviceid (bytes "fc_policy_") ids.policies
  let fullCreative ← getFreFullDeviceid (bytes "fc_creative_") ids.creatives
  let pauseCampaign ← getPauseAd (bytes "pause_campaign_") ids.campaigns
  let pausePolicy ← getPauseAd (bytes "pause_policy_") ids.policies
  return ⟨fullCampaign, fullPolicy, fullCreative, pauseCampaign, pausePolicy⟩

/-- `AdCtrl::Update`, with the control data it leaves. -/
def AdCtrl.update (lib : JsonLib) (adx now : ℤ) (e : EffectChecker) :
    CtrlProg (AdCtrl × EffectChecker) := do
  let ids ← getAllAdId lib adx
  let ctrl ← readControl ids
  let (working, e') ← e.check now
  return (if working then ctrl else .cleared, e')

end AdxDsp
