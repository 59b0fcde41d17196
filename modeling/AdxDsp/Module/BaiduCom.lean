import AdxDsp.Module.ComProto
import AdxDsp.Module.LocalStrings
import AdxDsp.Module.PostHandlers

/-!
# What the server gets from Baidu's module

The module converts a request of Baidu into a `com_request`, packs it (`adx_com_to_chain`) and
sends it to the server, which unpacks it.  An `int` holds the size.

* `comObject`: the `com_request` as an object of the generated code.
* `ngxComRequestPack`: `ngx_com_request__pack` with the buffer that it is given.
* `adxComBaiduAdapterRequest_unpack`: the server gets what the module has converted.
-/

namespace AdxDsp

open CText ByteMemory

namespace BaiduCom

open NgxProtobuf ComProto PostHandlers BaiduAdapter Pointer

/-! ## Objects -/

/-- The number of an ad slot type. -/
def adxSlotTypeNumber : AdxSlotType → UInt32
  | .unknown => 0
  | .banner => 1
  | .native => 2
  | .video => 3

/-- The number of a kind of device id. -/
def deviceIdTypeNumber : DeviceIdType → UInt32
  | .unknow => 0
  | .imei => 1
  | .imeiSha1 => 2
  | .imeiMd5 => 3
  | .androidId => 4
  | .androidIdSha1 => 5
  | .androidIdMd5 => 6
  | .idfa => 7
  | .idfaSha1 => 8
  | .idfaMd5 => 9
  | .mac => 10
  | .macSha1 => 11
  | .macMd5 => 12

/-- The number of a device type. -/
def deviceTypeNumber : DeviceType → UInt32
  | .unknown => 0
  | .mobile => 1
  | .pad => 2
  | .pc => 3

/-- The number of an operating system. -/
def osNumber : Os → UInt32
  | .unknown => 0
  | .ios => 1
  | .android => 2
  | .windows => 3

/-- The number of a carrier. -/
def carrierNumber : Carrier → UInt32
  | .unknown => 0
  | .chinaMobile => 1
  | .chinaUnicom => 2
  | .chinaTelecom => 3

/-- The number of a kind of network. -/
def connectionNumber : Connection → UInt32
  | .unknown => 0
  | .wifi => 1
  | .g2 => 2
  | .g3 => 3
  | .g4 => 4
  | .g5 => 5

/-- An ad slot that `adx_com_baidu_adapter_to_com` has set. -/
def adxSlotObject (slot : BaiduAdapter.ComAdxSlot Bytes) : AdxSlot where
  adxSlotId := some slot.adxSlotId
  adxSlotSequenceId := some (.ofInt slot.adxSlotSequenceId)
  adxSlotType := some (adxSlotTypeNumber slot.adxSlotType)
  banner := slot.banner.map fun size => { width := some (.ofInt size.1), height := some (.ofInt size.2) }
  priceFloor := some (.ofInt slot.priceFloor)

/-- A device id that `adx_com_baidu_adapter_to_com` has set. -/
def deviceIdObject (id : Bytes × DeviceIdType) : DeviceId where
  id := some id.1
  type := some (deviceIdTypeNumber id.2)

/-- A device that `adx_com_baidu_adapter_to_com` has set. -/
def deviceObject (device : BaiduAdapter.ComDevice Bytes) : Device where
  deviceId := device.deviceId.map deviceIdObject
  deviceType := some (deviceTypeNumber device.deviceType)
  os := some (osNumber device.os)
  osVersion := some device.osVersion
  carrier := some (carrierNumber device.carrier)
  connection := some (connectionNumber device.connection)
  brand := some device.brand
  model := some device.model
  userAgent := some device.userAgent
  ip := some device.ip

/-- A request that `adx_com_baidu_adapter_to_com` has set. -/
def comObject (comRequest : BaiduAdapter.ComRequest Bytes) : ComProto.ComRequest where
  adx := some (.ofInt comRequest.adx)
  bid := some comRequest.bid
  adxSlot := comRequest.adxSlot.map adxSlotObject
  device := some (deviceObject comRequest.device)
  app := some {
    appId := some comRequest.appId
    appCategory := some (.ofInt comRequest.appCategory) }

/-! ## Packing -/

/-- `ngx_com_request__pack` in `adx_com_to_chain`, which has made the buffer with the size as an
`int`; so many bytes that it is negative are not there. -/
def ngxComRequestPack (comRequest : BaiduAdapter.ComRequest Bytes) : Pointer Bytes :=
  let len := toInt32 (ComProto.comRequest.size (comObject comRequest))
  let packed := ComProto.comRequest.pack len.toNat (comObject comRequest)
  if 0 ≤ len ∧ packed.1 = .ok then some packed.2 else none

/-- A slot of the adapter comes back whole, and is never empty. -/
theorem kept_adxSlotObject (slot : BaiduAdapter.ComAdxSlot Bytes) :
    nonEmpty {} AdxSlot.kept (adxSlotObject slot) = some (adxSlotObject slot) := by
  rw [nonEmpty, if_neg (by simp [adxSlotObject])]
  cases hbanner : slot.banner <;> simp [AdxSlot.kept, adxSlotObject, hbanner, nonEmpty, Banner.kept]

/-- A device id of the adapter comes back whole, and is never empty. -/
theorem kept_deviceIdObject (id : Bytes × DeviceIdType) :
    nonEmpty {} DeviceId.kept (deviceIdObject id) = some (deviceIdObject id) := by
  rw [nonEmpty, if_neg (by simp [deviceIdObject])]
  rfl

/-- No element is lost where none is empty. -/
theorem filterMap_nonEmpty {α τ : Type} [DecidableEq τ] {zero : τ} {kept : τ → τ} {f : α → τ}
    (h : ∀ a, nonEmpty zero kept (f a) = some (f a)) (l : List α) :
    (l.map f).filterMap (nonEmpty zero kept) = l.map f := by
  rw [List.filterMap_map]
  exact (List.filterMap_congr fun a _ => h a).trans (congrFun List.filterMap_eq_map _)

/-- No part of a request from the module is empty. -/
theorem kept_comObject (comRequest : BaiduAdapter.ComRequest Bytes) :
    (comObject comRequest).kept = comObject comRequest := by
  have hdevice : (deviceObject comRequest.device).kept = deviceObject comRequest.device := by
    simp only [Device.kept, deviceObject, filterMap_nonEmpty kept_deviceIdObject, List.map_nil]
  have hne : deviceObject comRequest.device ≠ {} := by simp [deviceObject]
  simp only [ComRequest.kept, comObject, filterMap_nonEmpty kept_adxSlotObject, Option.bind_some]
  rw [nonEmpty, if_neg hne, hdevice]
  simp [nonEmpty, App.kept]

/-- The module packs a request unless its size is no `int`. -/
theorem ngxComRequestPack_eq (comRequest : BaiduAdapter.ComRequest Bytes) :
    (2 ^ 31 ≤ ComProto.comRequest.size (comObject comRequest) ∧
      ngxComRequestPack comRequest = none) ∨
    (ComProto.comRequest.size (comObject comRequest) < 2 ^ 31 ∧
      ∃ w, ngxComRequestPack comRequest = some w ∧
        w.length = ComProto.comRequest.size (comObject comRequest) ∧
        ∀ start, start + w.length < 2 ^ 64 → ∀ dirt,
          ComProto.comRequest.unpack dirt (ofBytes start w) (start + w.length) start {} =
            some ⟨.ok, start + w.length, comObject comRequest, ofBytes start w⟩) := by
  have hlen := toInt32_eq (ComProto.comRequest.size (comObject comRequest))
  by_cases hsize : ComProto.comRequest.size (comObject comRequest) < 2 ^ 31
  · refine .inr ⟨hsize, ?_⟩
    obtain ⟨w, hw, hpack, htakes⟩ := lawful_comRequest.exists_bytes (comObject comRequest)
    have hnat : toInt32 (ComProto.comRequest.size (comObject comRequest)) =
        ComProto.comRequest.size (comObject comRequest) :=
      toInt32_of_bounds (by omega) (by omega)
    refine ⟨w, ?_, hw, fun start hstart dirt => ?_⟩
    · rw [ngxComRequestPack, hnat, Int.toNat_natCast, hpack _ le_rfl]
      exact if_pos ⟨by omega, rfl⟩
    · have hunpack := (htakes (by omega)).unpack dirt (holds_ofBytes start w) hstart
      rwa [restored_comRequest, kept_comObject] at hunpack
  · refine .inl ⟨not_lt.mp hsize, if_neg ?_⟩
    rintro ⟨hneg, hok⟩
    have hroom : (toInt32 (ComProto.comRequest.size (comObject comRequest))).toNat <
        ComProto.comRequest.size (comObject comRequest) := by omega
    rw [Message.pack, if_neg (by omega), if_pos hroom] at hok
    cases hok

/-- A request from the module has bytes: `adx` is set. -/
theorem size_comObject_ne_zero (comRequest : BaiduAdapter.ComRequest Bytes) :
    ComProto.comRequest.size (comObject comRequest) ≠ 0 := by
  intro hzero
  have hadx := (Message.size_eq_zero_iff.mp hzero).1
    (numberField 1 ComProto.ComRequest.adx fun v obj => { obj with adx := v }) List.mem_cons_self
  exact absurd (size_numberField.mp hadx) (by simp [comObject])

/-- The chain of the generated packer. -/
theorem adxComToChain_eq (unpack : Bytes → BidRequest)
    (comRequest : BaiduAdapter.ComRequest Bytes) :
    adxComToChain ⟨unpack, ngxComRequestPack⟩ comRequest =
      (ngxComRequestPack comRequest).elim [] adxChainAlloc := rfl

/-! ## From the module to the server -/

/-- Whatever Baidu's unpacker makes of a body, and whatever the dead arrays hold: a request that is
complete is converted, and the server gets what was converted unless the size is no `int`. -/
theorem adxComBaiduAdapterRequest_unpack (unpack : Bytes → BidRequest) (locals dead : Locals)
    (src : List Buf)
    (h : (adxComBaiduAdapterInit ⟨unpack, ngxComRequestPack⟩ src).Complete) :
    ∃ com chain, toCom locals (adxComBaiduAdapterInit ⟨unpack, ngxComRequestPack⟩ src) = .ok com ∧
      adxComBaiduAdapterRequest ⟨unpack, ngxComRequestPack⟩ locals dead src = .ok chain ∧
      ((2 ^ 31 ≤ ComProto.comRequest.size (comObject (com.1.read dead)) ∧ chain = []) ∨
        ComProto.comRequest.size (comObject (com.1.read dead)) < 2 ^ 31 ∧
        ∃ w, chain = [.memory w] ∧
          w.length = ComProto.comRequest.size (comObject (com.1.read dead)) ∧
          ∀ start, start + w.length < 2 ^ 64 → ∀ dirt,
            ComProto.comRequest.unpack dirt (ofBytes start w) (start + w.length) start {} =
              some ⟨.ok, start + w.length, comObject (com.1.read dead), ofBytes start w⟩) := by
  obtain ⟨com, hcom⟩ := (toCom_safe_iff locals _).mpr h
  refine ⟨com, adxComToChain ⟨unpack, ngxComRequestPack⟩ (com.1.read dead), hcom, ?_, ?_⟩
  · rw [adxComBaiduAdapterRequest, hcom]
    rfl
  · rcases ngxComRequestPack_eq (com.1.read dead) with
      ⟨hlarge, hnone⟩ | ⟨hsmall, w, hw, hlen, hback⟩
    · refine .inl ⟨hlarge, ?_⟩
      rw [adxComToChain_eq, hnone, Option.elim_none]
    · refine .inr ⟨hsmall, w, ?_, hlen, hback⟩
      have hne : w ≠ [] := by
        rintro rfl
        exact size_comObject_ne_zero _ hlen.symm
      rw [adxComToChain_eq, hw, Option.elim_some, adxChainAlloc, if_neg hne]

/-- A request for one ad slot, with its key still in the dead array. -/
theorem adxComBaiduAdapterRequest_unpack_one :
    ∃ com chain, toCom ⟨[], []⟩ (LocalStrings.sampleRequest [11]) = .ok com ∧
      adxComBaiduAdapterRequest ⟨fun _ => LocalStrings.sampleRequest [11], ngxComRequestPack⟩
        ⟨[], []⟩ ⟨bytes "11", bytes "4.2.1"⟩ [] = .ok chain ∧
      ((2 ^ 31 ≤ ComProto.comRequest.size
          (comObject (com.1.read ⟨bytes "11", bytes "4.2.1"⟩)) ∧ chain = []) ∨
        ComProto.comRequest.size
          (comObject (com.1.read ⟨bytes "11", bytes "4.2.1"⟩)) < 2 ^ 31 ∧
        ∃ w, chain = [.memory w] ∧
          w.length = ComProto.comRequest.size
            (comObject (com.1.read ⟨bytes "11", bytes "4.2.1"⟩)) ∧
          ∀ start, start + w.length < 2 ^ 64 → ∀ dirt,
            ComProto.comRequest.unpack dirt (ofBytes start w) (start + w.length) start {} =
              some ⟨.ok, start + w.length, comObject (com.1.read ⟨bytes "11", bytes "4.2.1"⟩),
                ofBytes start w⟩) :=
  adxComBaiduAdapterRequest_unpack (fun _ => LocalStrings.sampleRequest [11]) ⟨[], []⟩
    ⟨bytes "11", bytes "4.2.1"⟩ [] ⟨rfl, _, rfl, rfl, rfl, rfl, rfl⟩

end BaiduCom

end AdxDsp
