import AdxDsp.Bid.Element

/-!
# The checks of a creative and of a policy

The comparisons of `ad_element.cpp` and `req_common.cpp`: each looks at one creative or one policy
and at the request or one of its imps, and answers with an error code.
-/

namespace AdxDsp

open CText

/-! ## Error codes -/

/-- The dimensions of the device targeting; `all` is a targeting that allows nothing. -/
inductive DevicePart where
  | all
  | regioncode
  | connectiontype
  | os
  | carrier
  | devicetype
  | make
  deriving DecidableEq

/-- The error codes of the bidder.  The codes of a targeting exist for the policies and for the
exchange. -/
inductive BidErr where
  | success
  | targetDevice (isPolicy : Bool) (part : DevicePart)
  | targetAppId (isPolicy : Bool)
  | targetAppCat (isPolicy : Bool)
  | policyTargetScene
  | policyAt
  | policyDomainInBadv
  | policyCatInBl
  | policyExt
  | policyPmpDealid
  | policyNotWl
  | policyInBl
  | policyNeedDeviceid
  | creativeType
  | creativeSize
  | creativeDeeplink
  | creativeUnsupported
  | creativeBannerBtype
  | creativeBannerBattr
  | creativeVideoFtype
  | creativeNativeBctype
  | creativeNativeAssetType
  | creativeNativeAssetTitleLength
  | creativeNativeAssetImageType
  | creativeNativeAssetImageIconSize
  | creativeNativeAssetImageIconFtype
  | creativeNativeAssetImageIconUrl
  | creativeNativeAssetImageMainSize
  | creativeNativeAssetImageMainFtype
  | creativeNativeAssetImageMainUrl
  | creativeNativeAssetImageNum
  | creativeNativeAssetDataDescLength
  | creativeNativeAssetDataRatingValue
  | creativeNativeAssetDataCtatext
  | creativeExts
  | creativePriceCallback
  deriving DecidableEq

/-! ## Creatives and imps -/

namespace CreativeInfo

variable (c : CreativeInfo)

/-- `CreativeInfo::CheckBySize`. -/
def checkBySize (imp : ComImpression) : BidErr :=
  if imp.type = impBanner then
    if c.type ≠ adtypeImage then .creativeType
    else if imp.banner.w ≠ c.w ∨ imp.banner.h ≠ c.h then .creativeSize
    else .success
  else if imp.type = impNative then
    if c.type ≠ adtypeFeeds then .creativeType else .success
  else if imp.type = impVideo then
    if c.type ≠ adtypeVideo then .creativeType
    else if imp.video.isLimitSize ∧ ¬(imp.video.w = c.w ∧ imp.video.h = c.h) then .creativeSize
    else .success
  else .success

/-- `CreativeInfo::FilterBannerBattr`: no attribute is on the black list. -/
def filterBannerBattr (battr : List ℕ) : Bool := c.attr.all fun a => a ∉ battr

/-- The checks of an icon asset. -/
def filterIcon (native : ComNative) (img : ComImageRequest) : BidErr :=
  if native.imgNum = 0 ∧ 0 < c.imgs.length then .creativeNativeAssetImageNum
  else if ¬(img.w = c.icon.w ∧ img.h = c.icon.h) then .creativeNativeAssetImageIconSize
  else if img.mimes ≠ [] ∧ c.icon.ftype ∉ img.mimes then .creativeNativeAssetImageIconFtype
  else if c.icon.sourceurl = [] then .creativeNativeAssetImageIconUrl
  else .success

/-- The checks of a main image asset.  The index `j` of the source starts anew for each asset, so
that every main image is compared with the first one of the creative; `imgNum` counts the required
main images, so that there is a first one. -/
def filterMain (native : ComNative) (img : ComImageRequest) : BidErr :=
  if native.imgNum ≠ c.imgs.length then .creativeNativeAssetImageNum
  else
    let first := c.imgs.headD ⟨0, 0, 0, []⟩
    if ¬(img.w = first.w ∧ img.h = first.h) then .creativeNativeAssetImageMainSize
    else if img.mimes ≠ [] ∧ first.ftype ∉ img.mimes then .creativeNativeAssetImageMainFtype
    else if first.sourceurl = [] then .creativeNativeAssetImageMainUrl
    else .success

/-- One turn of the loop of `FilterNative`. -/
def filterAsset (native : ComNative) (asset : ComAssetRequest) : BidErr :=
  if asset.required = 0 then .success
  else if asset.type = nativeAssettypeTitle then
    if asset.titleLen < c.title.length then .creativeNativeAssetTitleLength else .success
  else if asset.type = nativeAssettypeImage then
    if asset.img.type = assetImagetypeIcon then c.filterIcon native asset.img
    else if asset.img.type = assetImagetypeMain then c.filterMain native asset.img
    else .creativeNativeAssetImageType
  else if asset.type = nativeAssettypeData then
    if asset.data.type = assetDatatypeDesc ∧ asset.data.len < c.description.length then
      .creativeNativeAssetDataDescLength
    else if asset.data.type = assetDatatypeRating ∧ 5 < c.rating then
      .creativeNativeAssetDataRatingValue
    else if asset.data.type = assetDatatypeCtatext ∧ c.ctatext = [] then
      .creativeNativeAssetDataCtatext
    else .success
  else .creativeNativeAssetType

/-- The loop of `FilterNative`: the first error counts. -/
def filterAssets (native : ComNative) : List ComAssetRequest → BidErr
  | [] => .success
  | asset :: assets =>
    if c.filterAsset native asset ≠ .success then c.filterAsset native asset
    else filterAssets native assets

/-- `CreativeInfo::FilterNative`. -/
def filterNative (native : ComNative) : BidErr :=
  if c.ctype ∈ native.bctype then .creativeNativeBctype else c.filterAssets native native.assets

/-- `CreativeInfo::FilterImp`. -/
def filterImp (imp : ComImpression) : BidErr :=
  if imp.type = impBanner then
    if c.type ∈ imp.banner.btype then .creativeBannerBtype
    else if ¬c.filterBannerBattr imp.banner.battr then .creativeBannerBattr
    else .success
  else if imp.type = impNative then c.filterNative imp.native
  else if imp.type = impVideo then
    if imp.video.mimes ≠ [] ∧ c.ftype ∉ imp.video.mimes then .creativeVideoFtype else .success
  else .creativeUnsupported

/-- The region codes that `GetPriceAdjustRegcode` tries: the code itself, then with less
precision. -/
def adjustedRegcodes (regcode : ℤ) : List ℤ :=
  regcode :: [regcode.tdiv 100 * 100, regcode.tdiv 10000 * 10000, regcode.tdiv 1000000 * 1000000,
    0].filter (· ≠ regcode)

/-- `CreativeInfo::GetPriceAdjustRegcode`. -/
def getPriceAdjustRegcode (adx : ℤ) (app : Bytes) (regcode : ℤ) : Option ℤ :=
  (adjustedRegcodes regcode).findSome? fun code => c.price.lookup ⟨cstr app, code, adx⟩

/-- `CreativeInfo::GetPrice`. -/
def getPrice (adx : ℤ) (app : Bytes) (regcode : ℤ) : ℤ :=
  ((c.getPriceAdjustRegcode adx app regcode).or
    ((c.getPriceAdjustRegcode adx (bytes "all") regcode).or
      ((c.getPriceAdjustRegcode 0 app regcode).or
        (c.getPriceAdjustRegcode 0 (bytes "all") regcode)))).getD 0

end CreativeInfo

/-! ## Targeting -/

/-- `find_set_cat`: a category of `cat`, or one of the two classes above it, is in `catFix`. -/
def findSetCat (catFix cat : List ℕ) : Bool :=
  cat.any fun tmp =>
    tmp &&& 0xFFFFFF ∈ catFix || tmp &&& 0xFFFF00 ∈ catFix || tmp &&& 0xFF0000 ∈ catFix

/-- One dimension of `TargetDevice::Check`, with the bits of its white list and of both its lists:
without a list everything passes, with a list only the members of a white list pass. -/
def devicePartPasses (flag whitelist mask : ℕ) (found : Bool) : Bool :=
  flag &&& mask = 0 || (found && flag &&& whitelist ≠ 0)

/-- `TargetDevice::Check`. -/
def TargetDevice.check (t : TargetDevice) (device : ComDevice) (isPolicy : Bool) : BidErr :=
  let location := ((device.location - 1156000000) % 2 ^ 32).toNat
  if t.flag = 0 then .success
  else if t.flag = 0xFFF then .targetDevice isPolicy .all
  else if ¬devicePartPasses t.flag 0x1 0x3 (location ≠ 0 && location ∈ t.regioncode) then
    .targetDevice isPolicy .regioncode
  else if ¬devicePartPasses t.flag 0x4 0xc (device.connectiontype ∈ t.connectiontype) then
    .targetDevice isPolicy .connectiontype
  else if ¬devicePartPasses t.flag 0x10 0x30 (device.os ∈ t.os) then .targetDevice isPolicy .os
  else if ¬devicePartPasses t.flag 0x40 0xc0 (device.carrier ∈ t.carrier) then
    .targetDevice isPolicy .carrier
  else if ¬devicePartPasses t.flag 0x100 0x300 (device.devicetype ∈ t.devicetype) then
    .targetDevice isPolicy .devicetype
  else if ¬devicePartPasses t.flag 0x400 0xc00 (device.make ∈ t.make) then
    .targetDevice isPolicy .make
  else .success

namespace TargetApp

variable (t : TargetApp) (app : ComApp)

/-- The flag that `TargetApp::Check` works with: both lists at once count as a black list, unless
the other kind of list is there too. -/
def checkFlag : ℕ :=
  let flag := (t.flagId ||| t.flagCat <<< 2) &&& 0xf
  if flag = 0x3 then 0x2 else if flag = 0xc then 0x8 else flag

/-- The part of `TargetApp::Check` about app ids; `none` goes on with the categories. -/
def checkId (isPolicy : Bool) : Option BidErr :=
  let flag := t.checkFlag
  let found := decide (app.id ∈ t.idList)
  let noCat := decide (flag &&& 0xc = 0)
  if flag &&& 0x2 ≠ 0 ∧ found then some (.targetAppId isPolicy)
  else if flag &&& 0x2 ≠ 0 ∧ noCat then some .success
  else if flag &&& 0x1 ≠ 0 ∧ found then some .success
  else if flag &&& 0x1 ≠ 0 ∧ noCat then some (.targetAppId isPolicy)
  else none

/-- The part of `TargetApp::Check` about categories. -/
def checkCat (isPolicy : Bool) : BidErr :=
  let flag := t.checkFlag
  let found := findSetCat t.catList app.cat || findSetCat app.cat t.catList
  if flag &&& 0xc = 0 then .success
  else if flag &&& 0x8 ≠ 0 ∧ found then .targetAppCat isPolicy
  else if flag &&& 0x8 ≠ 0 ∧ flag &&& 0x3 = 0 then .success
  else if flag &&& 0x4 ≠ 0 ∧ ¬found then .targetAppCat isPolicy
  else .success

/-- `TargetApp::Check`. -/
def check (isPolicy : Bool) : BidErr :=
  if (t.flagId ||| t.flagCat <<< 2) &&& 0xf = 0 then .success
  else (t.checkId app isPolicy).getD (t.checkCat app isPolicy)

end TargetApp

/-- `TargetScene::Check`. -/
def TargetScene.check (t : TargetScene) (device : ComDevice) : BidErr :=
  if t.flag = 0 then .success
  else if t.flag = 0x3 then .policyTargetScene
  else if t.flag &&& 0x3 ≠ 0 ∧ cstr device.locid ≠ [] then
    if device.locid.take t.length ∈ t.locSet then
      if t.flag &&& 0x1 ≠ 0 then .success else .policyTargetScene
    else if t.flag &&& 0x2 ≠ 0 then .success
    else .policyTargetScene
  else .policyTargetScene

/-! ## Policies -/

/-- `com_impression_object::GetDealId`: the first deal of the policy that the imp offers. -/
def ComImpression.getDealId (imp : ComImpression) (policy : PolicyInfo) : Bytes :=
  ((policy.atInfo.flatMap fun info => info.2.map (·.1)).find? fun dealid =>
    (imp.dealprice.lookup dealid).isSome).getD []

/-- `com_impression_object::GetBidfloor`. -/
def ComImpression.getBidfloor (imp : ComImpression) (dealid : Bytes) (advcat : ℤ) : ℤ :=
  (imp.fprice.lookup advcat).getD ((imp.dealprice.lookup dealid).getD imp.bidfloor)

/-- The operator `<` of `AllowNoDeviceid`, which orders pairs by both components. -/
def AllowNoDeviceid.lt (a b : AllowNoDeviceid) : Bool :=
  a ≠ b && a.imptype ≤ b.imptype && !(b.mediaid < a.mediaid)

namespace PolicyInfo

variable (p : PolicyInfo)

/-- `PolicyInfo::GetDealPrice`. -/
def getDealPrice (dealid : Bytes) : ℤ := ((p.atInfo.flatMap (·.2)).lookup dealid).getD 0

/-- `PolicyInfo::Filter`. -/
def filter (req : ComRequest) : BidErr :=
  if p.targetApp.check req.app true ≠ .success then p.targetApp.check req.app true
  else if p.targetDevice.check req.device true ≠ .success then
    p.targetDevice.check req.device true
  else if p.targetScene.check req.device ≠ .success then p.targetScene.check req.device
  else if (p.atInfo.lookup (req.at_ : ℤ)).isNone then .policyAt
  else if p.adomain ∈ req.badv then .policyDomainInBadv
  else if findSetCat p.cat req.bcat || findSetCat req.bcat p.cat then .policyCatInBl
  else .success

/-- `PolicyInfo::FilterImp`. -/
def filterImp (imp : ComImpression) : BidErr :=
  if imp.dealprice ≠ [] ∧ imp.getDealId p = [] then .policyPmpDealid else .success

/-- `PolicyInfo::CheckAllowNoDeviceid`. -/
def checkAllowNoDeviceid (appid : Bytes) (imptype : ℕ) : Bool :=
  p.allowNoDeviceid.contains AllowNoDeviceid.lt ⟨imptype, appid⟩

/-- The loop of `PolicyInfo::FilterAudience`. -/
def filterAudiences (idset : List Bytes) : List (Bytes × ℤ) → BidErr
  | [] => .success
  | (id, kind) :: rest =>
    if id ∉ idset then if kind = 1 then .policyNotWl else filterAudiences idset rest
    else if kind = 0 then .policyInBl
    else filterAudiences idset rest

/-- `PolicyInfo::FilterAudience`. -/
def filterAudience (idset : List Bytes) : BidErr := filterAudiences idset p.audiences

end PolicyInfo

end AdxDsp
