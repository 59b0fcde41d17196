import AdxDsp.Lib.Bytes
import AdxDsp.Lib.Pointers

/-!
# The requests of Baidu in nginx

`adx_com_baidu_adapter_to_com` (`adx_com_baidu/adx_com_adapter.c`) copies a Baidu `BidRequest` into
a `com_request`.  Optional messages and repeated fields that are absent are `NULL`.  Two texts are
made in local arrays, and the `com_request` points to them.

* **Requests**: `BidRequest`, and `ComRequest` over the kind of its strings.
* **Local arrays**: `Locals`, and `Text`, a string by the place where it is.
* `toCom_safe_iff`: when no `NULL` is read.
-/

namespace AdxDsp

open CText

namespace BaiduAdapter

open Pointer

/-! ## Requests -/

/-- `ngx_bid_request_ad_slot_t` -/
structure AdSlot where
  adBlockKey : UInt64
  sequenceId : ℤ
  adslotType : ℤ
  width : ℤ
  height : ℤ
  minimumCpm : ℤ

/-- `ngx_bid_request_mobile_mobile_id_t` and `ngx_bid_request_mobile_for_advertising_id_t` -/
structure MobileId where
  type : ℤ
  id : Bytes

/-- `ngx_bid_request_mobile_device_os_version_t` -/
structure DeviceOsVersion where
  osVersionMajor : ℤ
  osVersionMinor : ℤ
  osVersionMicro : ℤ

/-- `ngx_bid_request_mobile_mobile_app_t` -/
structure MobileApp where
  appBundleId : Bytes
  appCategory : ℤ

/-- `ngx_bid_request_mobile_t` -/
structure Mobile where
  id : Pointer (List MobileId)
  forAdvertisingId : Pointer (List MobileId)
  deviceType : ℤ
  platform : ℤ
  osVersion : Pointer DeviceOsVersion
  brand : Bytes
  model : Bytes
  carrierId : ℤ
  wirelessNetworkType : ℤ
  mobileApp : Pointer MobileApp

/-- `ngx_bid_request_t` -/
structure BidRequest where
  id : Bytes
  ip : Bytes
  userAgent : Bytes
  mobile : Pointer Mobile
  adslot : Pointer (List AdSlot)

/-- `ngx_com_request_adx_slot_type_e` -/
inductive AdxSlotType where
  | unknown
  | banner
  | native
  | video
  deriving DecidableEq

/-- `ngx_com_request_device_device_id_type_e` -/
inductive DeviceIdType where
  | unknow
  | imei
  | imeiSha1
  | imeiMd5
  | androidId
  | androidIdSha1
  | androidIdMd5
  | idfa
  | idfaSha1
  | idfaMd5
  | mac
  | macSha1
  | macMd5
  deriving DecidableEq

/-- `ngx_com_request_device_device_type_e` -/
inductive DeviceType where
  | unknown
  | mobile
  | pad
  | pc
  deriving DecidableEq

/-- `ngx_com_request_device_os_e` -/
inductive Os where
  | unknown
  | ios
  | android
  | windows
  deriving DecidableEq

/-- `ngx_com_request_device_carrier_e` -/
inductive Carrier where
  | unknown
  | chinaMobile
  | chinaUnicom
  | chinaTelecom
  deriving DecidableEq

/-- `ngx_com_request_device_connection_e` -/
inductive Connection where
  | unknown
  | wifi
  | g2
  | g3
  | g4
  | g5
  deriving DecidableEq

section

variable (σ : Type)

/-- `ngx_com_request_adx_slot_t`; a banner is its width and height. -/
structure ComAdxSlot where
  adxSlotId : σ
  adxSlotSequenceId : ℤ
  priceFloor : ℤ
  adxSlotType : AdxSlotType
  banner : Pointer (ℤ × ℤ)
  deriving DecidableEq

/-- `ngx_com_request_device_t`, with the ids and their types. -/
structure ComDevice where
  deviceId : List (Bytes × DeviceIdType)
  deviceType : DeviceType
  os : Os
  osVersion : σ
  carrier : Carrier
  connection : Connection
  model : Bytes
  brand : Bytes
  userAgent : Bytes
  ip : Bytes
  deriving DecidableEq

/-- `ngx_com_request_t`, with the two fields of `ngx_com_request_app_t`. -/
structure ComRequest where
  adx : ℤ
  bid : Bytes
  adxSlot : List (ComAdxSlot σ)
  device : ComDevice σ
  appId : Bytes
  appCategory : ℤ
  deriving DecidableEq

end

/-! ## Local arrays -/

/-- What the local arrays `adx_slot_id_str` and `os_version_str` hold. -/
structure Locals where
  adxSlotIdStr : Bytes
  osVersionStr : Bytes
  deriving DecidableEq

/-- An `ngx_str_t` into a local array, by its length. -/
inductive Text where
  | adxSlotIdStr (len : ℕ)
  | osVersionStr (len : ℕ)
  deriving DecidableEq

/-- The bytes of a string, by what the arrays hold when it is read. -/
def Text.read (locals : Locals) : Text → Bytes
  | adxSlotIdStr len => locals.adxSlotIdStr.take len
  | osVersionStr len => locals.osVersionStr.take len

/-- What is packed for a slot. -/
def ComAdxSlot.read (locals : Locals) (slot : ComAdxSlot Text) : ComAdxSlot Bytes where
  adxSlotId := slot.adxSlotId.read locals
  adxSlotSequenceId := slot.adxSlotSequenceId
  priceFloor := slot.priceFloor
  adxSlotType := slot.adxSlotType
  banner := slot.banner

/-- What is packed for the device. -/
def ComDevice.read (locals : Locals) (device : ComDevice Text) : ComDevice Bytes where
  deviceId := device.deviceId
  deviceType := device.deviceType
  os := device.os
  osVersion := device.osVersion.read locals
  carrier := device.carrier
  connection := device.connection
  model := device.model
  brand := device.brand
  userAgent := device.userAgent
  ip := device.ip

/-- What is packed for a request, by what the arrays hold then. -/
def ComRequest.read (locals : Locals) (comRequest : ComRequest Text) : ComRequest Bytes where
  adx := comRequest.adx
  bid := comRequest.bid
  adxSlot := comRequest.adxSlot.map fun slot => slot.read locals
  device := comRequest.device.read locals
  appId := comRequest.appId
  appCategory := comRequest.appCategory

/-- `sprintf` of a text into an array. -/
def sprintf (array text : Bytes) : Bytes := text ++ 0 :: array.drop (text.length + 1)

/-! ## The conversion -/

/-- The decimal text of `ad_block_key` (`%lu`). -/
def AdSlot.keyText (adxSlot : AdSlot) : Bytes := decimalNat adxSlot.adBlockKey.toNat

/-- The text major.minor.micro. -/
def DeviceOsVersion.text (osVersion : DeviceOsVersion) : Bytes :=
  decimal osVersion.osVersionMajor ++ bytes "." ++ decimal osVersion.osVersionMinor ++ bytes "." ++
    decimal osVersion.osVersionMicro

/-- The type of an ad slot. -/
def comAdxSlotType (adxSlotType : ℤ) : AdxSlotType :=
  if adxSlotType = 0 ∨ adxSlotType = 1 ∨ adxSlotType = 11 ∨ adxSlotType = 12 ∨ adxSlotType = 26 then
    .banner
  else if adxSlotType = 8 ∨ adxSlotType = 13 then .native
  else if adxSlotType = 21 ∨ adxSlotType = 22 ∨ adxSlotType = 23 then .video
  else .unknown

/-- The ad slot that points to its id in `adx_slot_id_str`. -/
def comAdxSlot (adxSlot : AdSlot) : ComAdxSlot Text where
  adxSlotId := .adxSlotIdStr adxSlot.keyText.length
  adxSlotSequenceId := adxSlot.sequenceId
  priceFloor := adxSlot.minimumCpm
  adxSlotType := comAdxSlotType adxSlot.adslotType
  banner :=
    if comAdxSlotType adxSlot.adslotType = .banner then some (adxSlot.width, adxSlot.height)
    else none

/-- The loop over the ad slots; each turn prints its key into the same array. -/
def comAdxSlots : Bytes → List AdSlot → List (ComAdxSlot Text) × Bytes
  | adxSlotIdStr, [] => ([], adxSlotIdStr)
  | adxSlotIdStr, adxSlot :: adxSlots =>
    let rest := comAdxSlots (sprintf adxSlotIdStr adxSlot.keyText) adxSlots
    (comAdxSlot adxSlot :: rest.1, rest.2)

/-- A `MobileID`. -/
def comMobileId (deviceId : MobileId) : Bytes × DeviceIdType :=
  (deviceId.id,
    if deviceId.type = 1 then .imei else if deviceId.type = 2 then .mac else .unknow)

/-- A `ForAdvertisingID`. -/
def comForAdvertisingId (deviceId : MobileId) : Bytes × DeviceIdType :=
  (deviceId.id,
    if deviceId.type = 4 then .androidId else if deviceId.type = 5 then .idfa else .unknow)

/-- The type of the device, by its number. -/
def comDeviceType (deviceType : ℤ) : DeviceType :=
  if deviceType = 1 then .mobile else if deviceType = 2 then .pad else .unknown

/-- The operating system, by its number. -/
def comOs (os : ℤ) : Os :=
  if os = 1 then .ios else if os = 2 then .android else if os = 3 then .windows else .unknown

/-- The carrier; its number is an `int64` and becomes an `int`. -/
def comCarrier (carrierId : ℤ) : Carrier :=
  let carrier := toInt32 carrierId
  if carrier = 46000 ∨ carrier = 46002 ∨ carrier = 46007 ∨ carrier = 46008 ∨ carrier = 46020 then
    .chinaMobile
  else if carrier = 46001 ∨ carrier = 46006 ∨ carrier = 46009 then .chinaUnicom
  else if carrier = 46003 ∨ carrier = 46005 ∨ carrier = 46011 then .chinaTelecom
  else .unknown

/-- The connection, by its number. -/
def comConnection (connection : ℤ) : Connection :=
  if connection = 1 then .wifi
  else if connection = 2 then .g2
  else if connection = 3 then .g3
  else if connection = 4 then .g4
  else .unknown

/-- `adx_com_baidu_adapter_to_com`, with what its local arrays hold before and after it. -/
def toCom (locals : Locals) (bidRequest : BidRequest) : Reads (ComRequest Text × Locals) := do
  let mobile ← deref bidRequest.mobile
  let app := mobile.mobileApp
  let adxSlots ← deref bidRequest.adslot
  let (adxSlot, adxSlotIdStr) := comAdxSlots locals.adxSlotIdStr adxSlots
  let deviceIds ← deref mobile.id
  let device2Ids ← deref mobile.forAdvertisingId
  let osVersion ← deref mobile.osVersion
  let osVersionStr := sprintf locals.osVersionStr osVersion.text
  let app ← deref app
  return ({
    adx := 8
    bid := bidRequest.id
    adxSlot := adxSlot
    device := {
      deviceId := deviceIds.map comMobileId ++ device2Ids.map comForAdvertisingId
      deviceType := comDeviceType mobile.deviceType
      os := comOs mobile.platform
      osVersion := .osVersionStr osVersion.text.length
      carrier := comCarrier mobile.carrierId
      connection := comConnection mobile.wirelessNetworkType
      model := mobile.model
      brand := mobile.brand
      userAgent := bidRequest.userAgent
      ip := bidRequest.ip }
    appId := app.appBundleId
    appCategory := app.appCategory }, ⟨adxSlotIdStr, osVersionStr⟩)

/-! ## The parts that are read -/

/-- Every optional part that the conversion reads is present. -/
def BidRequest.Complete (bidRequest : BidRequest) : Prop :=
  bidRequest.adslot.isSome ∧ ∃ mobile ∈ bidRequest.mobile, mobile.mobileApp.isSome ∧
    mobile.id.isSome ∧ mobile.forAdvertisingId.isSome ∧ mobile.osVersion.isSome

/-- The conversion reads no `NULL` exactly if the ad slots, the mobile message, its app, its two
lists of ids and its system version are all present. -/
theorem toCom_safe_iff (locals : Locals) (bidRequest : BidRequest) :
    Safe (toCom locals bidRequest) ↔ bidRequest.Complete := by
  simp only [toCom, safe_deref_bind_iff, BidRequest.Complete, Option.isSome_iff_exists,
    Option.mem_def]
  constructor
  · rintro ⟨mobile, hmobile, adxSlots, hslots, ids, hids, ids2, hids2, osVersion, hos, app, happ, -⟩
    exact ⟨⟨adxSlots, hslots⟩, mobile, hmobile, ⟨app, happ⟩, ⟨ids, hids⟩, ⟨ids2, hids2⟩,
      ⟨osVersion, hos⟩⟩
  · rintro ⟨⟨adxSlots, hslots⟩, mobile, hmobile, ⟨app, happ⟩, ⟨ids, hids⟩, ⟨ids2, hids2⟩,
      ⟨osVersion, hos⟩⟩
    exact ⟨mobile, hmobile, adxSlots, hslots, ids, hids, ids2, hids2, osVersion, hos, app, happ,
      safe_pure _⟩

end BaiduAdapter

end AdxDsp
