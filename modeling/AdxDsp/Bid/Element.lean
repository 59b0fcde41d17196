import AdxDsp.Lib.Bytes
import AdxDsp.Lib.SearchTree

/-!
# Requests, creatives and policies

The data that the bidder compares: what an exchange asks for (`req_common.h`) and what may be
delivered (`ad_element.h`).  A `std::set` of numbers or strings is a list of which only the members
matter; a `std::map` is a list of pairs in the order of its keys.  The small unsigned types are
natural numbers.
-/

namespace AdxDsp

open CText

/-! ## Constants -/

/-- `BID_RTB` -/
def bidRtb : ℕ := 0

/-- `IMP_BANNER` -/
def impBanner : ℕ := 1

/-- `IMP_VIDEO` -/
def impVideo : ℕ := 2

/-- `IMP_NATIVE` -/
def impNative : ℕ := 3

/-- `ADTYPE_UNKNOWN` -/
def adtypeUnknown : ℕ := 0

/-- `ADTYPE_IMAGE` -/
def adtypeImage : ℕ := 2

/-- `ADTYPE_VIDEO` -/
def adtypeVideo : ℕ := 6

/-- `ADTYPE_FEEDS` -/
def adtypeFeeds : ℕ := 9

/-- `NATIVE_ASSETTYPE_TITLE` -/
def nativeAssettypeTitle : ℕ := 1

/-- `NATIVE_ASSETTYPE_IMAGE` -/
def nativeAssettypeImage : ℕ := 2

/-- `NATIVE_ASSETTYPE_DATA` -/
def nativeAssettypeData : ℕ := 3

/-- `ASSET_IMAGETYPE_ICON` -/
def assetImagetypeIcon : ℕ := 1

/-- `ASSET_IMAGETYPE_MAIN` -/
def assetImagetypeMain : ℕ := 3

/-- `ASSET_DATATYPE_DESC` -/
def assetDatatypeDesc : ℕ := 2

/-- `ASSET_DATATYPE_RATING` -/
def assetDatatypeRating : ℕ := 3

/-- `ASSET_DATATYPE_CTATEXT` -/
def assetDatatypeCtatext : ℕ := 12

/-! ## Requests -/

/-- `COM_DEVICEOBJECT`, as the exchange has sent it. -/
structure ComDevice where
  /-- The id that was found in the redis cluster, empty before. -/
  deviceid : Bytes
  deviceidtype : ℕ
  dids : List (ℕ × Bytes)
  dpids : List (ℕ × Bytes)
  ip : Bytes
  location : ℤ
  /-- An array of 13 bytes. -/
  locid : Bytes
  carrier : ℕ
  make : ℕ
  model : Bytes
  os : ℕ
  connectiontype : ℕ
  devicetype : ℕ
  deriving DecidableEq

/-- `COM_APPOBJECT`. -/
structure ComApp where
  id : Bytes
  name : Bytes
  cat : List ℕ
  deriving DecidableEq

/-- `COM_BANNEROBJECT`. -/
structure ComBanner where
  w : ℕ
  h : ℕ
  btype : List ℕ
  battr : List ℕ
  deriving DecidableEq

/-- `COM_VIDEOOBJECT`. -/
structure ComVideo where
  mimes : List ℕ
  w : ℕ
  h : ℕ
  isLimitSize : Bool
  deriving DecidableEq

/-- `COM_IMAGE_REQUEST_OBJECT`. -/
structure ComImageRequest where
  type : ℕ
  w : ℕ
  h : ℕ
  mimes : List ℕ
  deriving DecidableEq

/-- `COM_DATA_REQUEST_OBJECT`. -/
structure ComDataRequest where
  type : ℕ
  len : ℕ
  deriving DecidableEq

/-- `COM_ASSET_REQUEST_OBJECT`. -/
structure ComAssetRequest where
  required : ℕ
  type : ℕ
  titleLen : ℕ
  img : ComImageRequest
  data : ComDataRequest
  deriving DecidableEq

/-- `COM_NATIVE_REQUEST_OBJECT`. -/
structure ComNative where
  bctype : List ℕ
  /-- The number of required main images among the assets. -/
  imgNum : ℕ
  assets : List ComAssetRequest
  deriving DecidableEq

/-- `COM_IMPEXT`. -/
structure ComImpExt where
  instl : ℕ
  splash : ℕ
  advid : UInt16
  deriving DecidableEq

/-- `COM_IMPRESSIONOBJECT`. -/
structure ComImpression where
  id : Bytes
  type : ℕ
  banner : ComBanner
  video : ComVideo
  native : ComNative
  requestidlife : ℕ
  bidfloor : ℤ
  fprice : List (ℤ × ℤ)
  dealprice : List (Bytes × ℤ)
  ext : ComImpExt
  deriving DecidableEq

/-- `COM_REQUEST`. -/
structure ComRequest where
  id : Bytes
  imp : List ComImpression
  app : ComApp
  device : ComDevice
  at_ : ℕ
  bcat : List ℕ
  badv : List Bytes
  supportDeepLink : ℤ
  deriving DecidableEq

/-! ## Policies -/

/-- `TargetDevice`. -/
structure TargetDevice where
  flag : ℕ
  regioncode : List ℕ
  connectiontype : List ℕ
  os : List ℕ
  carrier : List ℕ
  devicetype : List ℕ
  make : List ℕ
  deriving DecidableEq

/-- `TargetApp`. -/
structure TargetApp where
  flagId : ℕ
  flagCat : ℕ
  idList : List Bytes
  catList : List ℕ
  deriving DecidableEq

/-- `TargetScene`. -/
structure TargetScene where
  flag : ℕ
  length : ℕ
  locSet : List Bytes
  deriving DecidableEq

/-- `AllowNoDeviceid`: an app and an imp type that need no device id. -/
structure AllowNoDeviceid where
  imptype : ℤ
  mediaid : Bytes
  deriving DecidableEq

/-- `PolicyInfo`; `addr` is where it lies in memory. -/
structure PolicyInfo where
  addr : ℕ
  id : ℤ
  campaignid : ℤ
  cat : List ℕ
  advcat : ℤ
  adomain : Bytes
  atInfo : List (ℤ × List (Bytes × ℤ))
  extAdvid : Bytes
  targetDevice : TargetDevice
  targetApp : TargetApp
  targetScene : TargetScene
  audiences : List (Bytes × ℤ)
  allowNoDeviceid : SetTree AllowNoDeviceid
  deriving DecidableEq

/-! ## Creatives -/

/-- `PriceFactor`. -/
structure PriceFactor where
  app : Bytes
  regcode : ℤ
  adx : ℤ
  deriving DecidableEq

/-- `CreativeIcon` and `CreativeImg`. -/
structure CreativeImg where
  ftype : ℕ
  w : ℕ
  h : ℕ
  sourceurl : Bytes
  deriving DecidableEq

/-- `CreativeExt`. -/
structure CreativeExt where
  id : Bytes
  ext : Bytes
  deriving DecidableEq

/-- `CreativeInfo`; `addr` is where it lies in memory. -/
structure CreativeInfo where
  addr : ℕ
  mapid : ℤ
  creativeid : ℤ
  policyid : ℤ
  type : ℕ
  ftype : ℕ
  ctype : ℕ
  w : ℕ
  h : ℕ
  deeplink : Bytes
  attr : List ℕ
  icon : CreativeImg
  imgs : List CreativeImg
  title : Bytes
  description : Bytes
  rating : ℕ
  ctatext : Bytes
  ext : CreativeExt
  price : List (PriceFactor × ℤ)
  policy : PolicyInfo
  deriving DecidableEq

/-! ## A sample of each -/

/-- A banner of 320 × 50 on a phone. -/
def sampleImpression : ComImpression where
  id := bytes "1"
  type := impBanner
  banner := ⟨320, 50, [], []⟩
  video := ⟨[], 0, 0, false⟩
  native := ⟨[], 0, []⟩
  requestidlife := 1800
  bidfloor := 0
  fprice := []
  dealprice := []
  ext := ⟨0, 0, 0⟩

/-- A request with one banner. -/
def sampleRequest (id : Bytes) : ComRequest where
  id := id
  imp := [sampleImpression]
  app := ⟨bytes "9", bytes "app", []⟩
  device := {
    deviceid := bytes "123"
    deviceidtype := 16
    dids := [(16, bytes "123")]
    dpids := []
    ip := bytes "36.110.73.210"
    location := 1156110000
    locid := []
    carrier := 1
    make := 1
    model := bytes "iPhone5,1"
    os := 1
    connectiontype := 1
    devicetype := 1 }
  at_ := 0
  bcat := []
  badv := []
  supportDeepLink := 0

/-- A policy without any targeting, for requests of type 0. -/
def samplePolicy : PolicyInfo where
  addr := 1
  id := 9
  campaignid := 4
  cat := []
  advcat := 0
  adomain := bytes "a.com"
  atInfo := [(0, [([], 0)])]
  extAdvid := []
  targetDevice := ⟨0, [], [], [], [], [], []⟩
  targetApp := ⟨0, 0, [], []⟩
  targetScene := ⟨0, 0, []⟩
  audiences := []
  allowNoDeviceid := .leaf

/-- A creative of a type and a size. -/
def sampleCreative (addr type w h : ℕ) : CreativeInfo where
  addr := addr
  mapid := 31
  creativeid := 12
  policyid := 9
  type := type
  ftype := 18
  ctype := 1
  w := w
  h := h
  deeplink := []
  attr := []
  icon := ⟨0, 0, 0, []⟩
  imgs := []
  title := []
  description := []
  rating := 0
  ctatext := []
  ext := ⟨[], []⟩
  price := [(⟨bytes "all", 0, 0⟩, 100)]
  policy := samplePolicy

end AdxDsp
