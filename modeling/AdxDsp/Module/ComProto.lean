import AdxDsp.Module.ProtobufLaws

/-!
# The messages between the modules and the server

The fields of `ComRequest`, `ComResponse` and of the messages inside them
(`adx_com_libs/ngx_adx_com_proto.c`, generated from `adx_com.proto`).  An optional field is there
with its `__has_` bit.

* **Objects**: `Banner`, …, `ComRequest`, `ComResponse`, and what comes of them (`ComRequest.kept`).
* **Code**: `banner`, …, `comRequest`, `comResponse`.
* `comRequest_unpack_pack`, `comResponse_unpack_pack`: a message comes back but for the empty
  messages in it.
* `comRequest_exists_unpack`, `comRequest_gaps`: what the unpacker does with a buffer of any content.
-/

namespace AdxDsp

open CText ByteMemory

namespace ComProto

open NgxProtobuf

/-! ## Objects -/

/-- `ngx_com_request_adx_slot_banner_t` -/
structure Banner where
  width : Option UInt32 := none
  height : Option UInt32 := none
  unknown : List Unknown := []
  deriving DecidableEq

/-- `ngx_com_request_adx_slot_native_t` -/
structure Native where
  iconWidth : Option UInt32 := none
  iconHeight : Option UInt32 := none
  width : Option UInt32 := none
  height : Option UInt32 := none
  unknown : List Unknown := []
  deriving DecidableEq

/-- `ngx_com_request_adx_slot_video_t` -/
structure Video where
  width : Option UInt32 := none
  height : Option UInt32 := none
  minDuration : Option UInt32 := none
  maxDuration : Option UInt32 := none
  unknown : List Unknown := []
  deriving DecidableEq

/-- `ngx_com_request_adx_slot_t` -/
structure AdxSlot where
  adxSlotId : Option Bytes := none
  adxSlotSequenceId : Option UInt32 := none
  adxSlotType : Option UInt32 := none
  banner : Option Banner := none
  native : Option Native := none
  video : Option Video := none
  priceFloor : Option UInt32 := none
  unknown : List Unknown := []
  deriving DecidableEq

/-- `ngx_com_request_device_device_id_t` -/
structure DeviceId where
  id : Option Bytes := none
  type : Option UInt32 := none
  unknown : List Unknown := []
  deriving DecidableEq

/-- `ngx_com_request_device_t` -/
structure Device where
  deviceId : List DeviceId := []
  deviceType : Option UInt32 := none
  os : Option UInt32 := none
  osVersion : Option Bytes := none
  carrier : Option UInt32 := none
  connection : Option UInt32 := none
  brand : Option Bytes := none
  model : Option Bytes := none
  userAgent : Option Bytes := none
  ip : Option Bytes := none
  unknown : List Unknown := []
  deriving DecidableEq

/-- `ngx_com_request_app_t` -/
structure App where
  appId : Option Bytes := none
  appCategory : Option UInt32 := none
  unknown : List Unknown := []
  deriving DecidableEq

/-- `ngx_com_request_t` -/
structure ComRequest where
  adx : Option UInt32 := none
  bid : Option Bytes := none
  adxSlot : List AdxSlot := []
  device : Option Device := none
  app : Option App := none
  unknown : List Unknown := []
  deriving DecidableEq

/-- `ngx_com_response_adx_slot_t` -/
structure ResponseAdxSlot where
  adxSlotId : Option Bytes := none
  adxSlotSequenceId : Option UInt32 := none
  adxSlotType : Option UInt32 := none
  price : Option UInt32 := none
  template : Option Bytes := none
  ext : Option Bytes := none
  unknown : List Unknown := []
  deriving DecidableEq

/-- `ngx_com_response_t` -/
structure ComResponse where
  bid : Option Bytes := none
  adxSlot : List ResponseAdxSlot := []
  unknown : List Unknown := []
  deriving DecidableEq

/-! ## Code -/

/-- `ngx_com_request_adx_slot_banner__unpack`, `__size` and `__pack` -/
def banner : Message Banner where
  zero := {}
  fields := [
    numberField 1 Banner.width fun v obj => { obj with width := v },
    numberField 2 Banner.height fun v obj => { obj with height := v }]
  unknown := Banner.unknown
  setUnknown l obj := { obj with unknown := l }

/-- `ngx_com_request_adx_slot_native__unpack`, `__size` and `__pack` -/
def native : Message Native where
  zero := {}
  fields := [
    numberField 1 Native.iconWidth fun v obj => { obj with iconWidth := v },
    numberField 2 Native.iconHeight fun v obj => { obj with iconHeight := v },
    numberField 3 Native.width fun v obj => { obj with width := v },
    numberField 4 Native.height fun v obj => { obj with height := v }]
  unknown := Native.unknown
  setUnknown l obj := { obj with unknown := l }

/-- `ngx_com_request_adx_slot_video__unpack`, `__size` and `__pack` -/
def video : Message Video where
  zero := {}
  fields := [
    numberField 1 Video.width fun v obj => { obj with width := v },
    numberField 2 Video.height fun v obj => { obj with height := v },
    numberField 3 Video.minDuration fun v obj => { obj with minDuration := v },
    numberField 4 Video.maxDuration fun v obj => { obj with maxDuration := v }]
  unknown := Video.unknown
  setUnknown l obj := { obj with unknown := l }

/-- `ngx_com_request_adx_slot__unpack`, `__size` and `__pack` -/
def adxSlot : Message AdxSlot where
  zero := {}
  fields := [
    stringField 1 AdxSlot.adxSlotId fun v obj => { obj with adxSlotId := v },
    numberField 2 AdxSlot.adxSlotSequenceId fun v obj => { obj with adxSlotSequenceId := v },
    numberField 3 AdxSlot.adxSlotType fun v obj => { obj with adxSlotType := v },
    messageField 4 banner AdxSlot.banner fun v obj => { obj with banner := v },
    messageField 5 native AdxSlot.native fun v obj => { obj with native := v },
    messageField 6 video AdxSlot.video fun v obj => { obj with video := v },
    numberField 7 AdxSlot.priceFloor fun v obj => { obj with priceFloor := v }]
  unknown := AdxSlot.unknown
  setUnknown l obj := { obj with unknown := l }

/-- `ngx_com_request_device_device_id__unpack`, `__size` and `__pack` -/
def deviceId : Message DeviceId where
  zero := {}
  fields := [
    stringField 1 DeviceId.id fun v obj => { obj with id := v },
    numberField 2 DeviceId.type fun v obj => { obj with type := v }]
  unknown := DeviceId.unknown
  setUnknown l obj := { obj with unknown := l }

/-- `ngx_com_request_device__unpack`, `__size` and `__pack` -/
def device : Message Device where
  zero := {}
  fields := [
    repeatedField 1 deviceId Device.deviceId fun v obj => { obj with deviceId := v },
    numberField 2 Device.deviceType fun v obj => { obj with deviceType := v },
    numberField 3 Device.os fun v obj => { obj with os := v },
    stringField 4 Device.osVersion fun v obj => { obj with osVersion := v },
    numberField 5 Device.carrier fun v obj => { obj with carrier := v },
    numberField 6 Device.connection fun v obj => { obj with connection := v },
    stringField 7 Device.brand fun v obj => { obj with brand := v },
    stringField 8 Device.model fun v obj => { obj with model := v },
    stringField 9 Device.userAgent fun v obj => { obj with userAgent := v },
    stringField 10 Device.ip fun v obj => { obj with ip := v }]
  unknown := Device.unknown
  setUnknown l obj := { obj with unknown := l }

/-- `ngx_com_request_app__unpack`, `__size` and `__pack` -/
def app : Message App where
  zero := {}
  fields := [
    stringField 1 App.appId fun v obj => { obj with appId := v },
    numberField 2 App.appCategory fun v obj => { obj with appCategory := v }]
  unknown := App.unknown
  setUnknown l obj := { obj with unknown := l }

/-- `ngx_com_request__unpack`, `__size` and `__pack` -/
def comRequest : Message ComRequest where
  zero := {}
  fields := [
    numberField 1 ComRequest.adx fun v obj => { obj with adx := v },
    stringField 2 ComRequest.bid fun v obj => { obj with bid := v },
    repeatedField 3 adxSlot ComRequest.adxSlot fun v obj => { obj with adxSlot := v },
    messageField 4 device ComRequest.device fun v obj => { obj with device := v },
    messageField 5 app ComRequest.app fun v obj => { obj with app := v }]
  unknown := ComRequest.unknown
  setUnknown l obj := { obj with unknown := l }

/-- `ngx_com_response_adx_slot__unpack`, `__size` and `__pack` -/
def responseAdxSlot : Message ResponseAdxSlot where
  zero := {}
  fields := [
    stringField 1 ResponseAdxSlot.adxSlotId fun v obj => { obj with adxSlotId := v },
    numberField 2 ResponseAdxSlot.adxSlotSequenceId fun v obj => { obj with adxSlotSequenceId := v },
    numberField 3 ResponseAdxSlot.adxSlotType fun v obj => { obj with adxSlotType := v },
    numberField 4 ResponseAdxSlot.price fun v obj => { obj with price := v },
    stringField 5 ResponseAdxSlot.template fun v obj => { obj with template := v },
    stringField 6 ResponseAdxSlot.ext fun v obj => { obj with ext := v }]
  unknown := ResponseAdxSlot.unknown
  setUnknown l obj := { obj with unknown := l }

/-- `ngx_com_response__unpack`, `__size` and `__pack` -/
def comResponse : Message ComResponse where
  zero := {}
  fields := [
    stringField 1 ComResponse.bid fun v obj => { obj with bid := v },
    repeatedField 2 responseAdxSlot ComResponse.adxSlot fun v obj => { obj with adxSlot := v }]
  unknown := ComResponse.unknown
  setUnknown l obj := { obj with unknown := l }

/-! ## The code is lawful -/

/-- The packer and the unpacker of a banner fit together. -/
theorem lawful_banner : banner.Lawful where
  fields := List.forall_iff_forall_mem.mp
    ⟨⟨lawful_numberField (by norm_num) fun _ => rfl, rfl⟩,
      ⟨lawful_numberField (by norm_num) fun _ => rfl, rfl⟩⟩
  field_zero := rfl
  unknown := ⟨fun _ => rfl, fun _ _ => rfl, fun _ _ _ => rfl⟩

/-- Those of a native ad. -/
theorem lawful_native : native.Lawful where
  fields := List.forall_iff_forall_mem.mp
    ⟨⟨lawful_numberField (by norm_num) fun _ => rfl, rfl⟩,
      ⟨lawful_numberField (by norm_num) fun _ => rfl, rfl⟩,
      ⟨lawful_numberField (by norm_num) fun _ => rfl, rfl⟩,
      ⟨lawful_numberField (by norm_num) fun _ => rfl, rfl⟩⟩
  field_zero := rfl
  unknown := ⟨fun _ => rfl, fun _ _ => rfl, fun _ _ _ => rfl⟩

/-- Those of a video. -/
theorem lawful_video : video.Lawful where
  fields := List.forall_iff_forall_mem.mp
    ⟨⟨lawful_numberField (by norm_num) fun _ => rfl, rfl⟩,
      ⟨lawful_numberField (by norm_num) fun _ => rfl, rfl⟩,
      ⟨lawful_numberField (by norm_num) fun _ => rfl, rfl⟩,
      ⟨lawful_numberField (by norm_num) fun _ => rfl, rfl⟩⟩
  field_zero := rfl
  unknown := ⟨fun _ => rfl, fun _ _ => rfl, fun _ _ _ => rfl⟩

/-- Those of a slot. -/
theorem lawful_adxSlot : adxSlot.Lawful where
  fields := List.forall_iff_forall_mem.mp
    ⟨⟨lawful_stringField (by norm_num) fun _ => rfl, rfl⟩,
      ⟨lawful_numberField (by norm_num) fun _ => rfl, rfl⟩,
      ⟨lawful_numberField (by norm_num) fun _ => rfl, rfl⟩,
      ⟨lawful_messageField (by norm_num) lawful_banner fun _ => rfl, rfl⟩,
      ⟨lawful_messageField (by norm_num) lawful_native fun _ => rfl, rfl⟩,
      ⟨lawful_messageField (by norm_num) lawful_video fun _ => rfl, rfl⟩,
      ⟨lawful_numberField (by norm_num) fun _ => rfl, rfl⟩⟩
  field_zero := rfl
  unknown := ⟨fun _ => rfl, fun _ _ => rfl, fun _ _ _ => rfl⟩

/-- Those of a device id. -/
theorem lawful_deviceId : deviceId.Lawful where
  fields := List.forall_iff_forall_mem.mp
    ⟨⟨lawful_stringField (by norm_num) fun _ => rfl, rfl⟩,
      ⟨lawful_numberField (by norm_num) fun _ => rfl, rfl⟩⟩
  field_zero := rfl
  unknown := ⟨fun _ => rfl, fun _ _ => rfl, fun _ _ _ => rfl⟩

/-- Those of a device. -/
theorem lawful_device : device.Lawful where
  fields := List.forall_iff_forall_mem.mp
    ⟨⟨lawful_repeatedField (by norm_num) lawful_deviceId
        ⟨fun _ => rfl, fun _ _ => rfl, fun _ _ _ => rfl⟩, rfl⟩,
      ⟨lawful_numberField (by norm_num) fun _ => rfl, rfl⟩,
      ⟨lawful_numberField (by norm_num) fun _ => rfl, rfl⟩,
      ⟨lawful_stringField (by norm_num) fun _ => rfl, rfl⟩,
      ⟨lawful_numberField (by norm_num) fun _ => rfl, rfl⟩,
      ⟨lawful_numberField (by norm_num) fun _ => rfl, rfl⟩,
      ⟨lawful_stringField (by norm_num) fun _ => rfl, rfl⟩,
      ⟨lawful_stringField (by norm_num) fun _ => rfl, rfl⟩,
      ⟨lawful_stringField (by norm_num) fun _ => rfl, rfl⟩,
      ⟨lawful_stringField (by norm_num) fun _ => rfl, rfl⟩⟩
  field_zero := rfl
  unknown := ⟨fun _ => rfl, fun _ _ => rfl, fun _ _ _ => rfl⟩

/-- Those of an app. -/
theorem lawful_app : app.Lawful where
  fields := List.forall_iff_forall_mem.mp
    ⟨⟨lawful_stringField (by norm_num) fun _ => rfl, rfl⟩,
      ⟨lawful_numberField (by norm_num) fun _ => rfl, rfl⟩⟩
  field_zero := rfl
  unknown := ⟨fun _ => rfl, fun _ _ => rfl, fun _ _ _ => rfl⟩

/-- Those of a request. -/
theorem lawful_comRequest : comRequest.Lawful where
  fields := List.forall_iff_forall_mem.mp
    ⟨⟨lawful_numberField (by norm_num) fun _ => rfl, rfl⟩,
      ⟨lawful_stringField (by norm_num) fun _ => rfl, rfl⟩,
      ⟨lawful_repeatedField (by norm_num) lawful_adxSlot
        ⟨fun _ => rfl, fun _ _ => rfl, fun _ _ _ => rfl⟩, rfl⟩,
      ⟨lawful_messageField (by norm_num) lawful_device fun _ => rfl, rfl⟩,
      ⟨lawful_messageField (by norm_num) lawful_app fun _ => rfl, rfl⟩⟩
  field_zero := rfl
  unknown := ⟨fun _ => rfl, fun _ _ => rfl, fun _ _ _ => rfl⟩

/-- Those of a slot of the response. -/
theorem lawful_responseAdxSlot : responseAdxSlot.Lawful where
  fields := List.forall_iff_forall_mem.mp
    ⟨⟨lawful_stringField (by norm_num) fun _ => rfl, rfl⟩,
      ⟨lawful_numberField (by norm_num) fun _ => rfl, rfl⟩,
      ⟨lawful_numberField (by norm_num) fun _ => rfl, rfl⟩,
      ⟨lawful_numberField (by norm_num) fun _ => rfl, rfl⟩,
      ⟨lawful_stringField (by norm_num) fun _ => rfl, rfl⟩,
      ⟨lawful_stringField (by norm_num) fun _ => rfl, rfl⟩⟩
  field_zero := rfl
  unknown := ⟨fun _ => rfl, fun _ _ => rfl, fun _ _ _ => rfl⟩

/-- Those of a response. -/
theorem lawful_comResponse : comResponse.Lawful where
  fields := List.forall_iff_forall_mem.mp
    ⟨⟨lawful_stringField (by norm_num) fun _ => rfl, rfl⟩,
      ⟨lawful_repeatedField (by norm_num) lawful_responseAdxSlot
        ⟨fun _ => rfl, fun _ _ => rfl, fun _ _ _ => rfl⟩, rfl⟩⟩
  field_zero := rfl
  unknown := ⟨fun _ => rfl, fun _ _ => rfl, fun _ _ _ => rfl⟩

/-! ## What comes of an object -/

section

variable {σ : Type} [DecidableEq σ]

/-- What comes of a nested object: an empty one is not there any more. -/
def nonEmpty (zero : σ) (kept : σ → σ) (obj : σ) : Option σ :=
  if obj = zero then none else some (kept obj)

/-- What a field delivers: nothing of an empty message, else what is kept of it. -/
theorem delivered_eq {M : Message σ} {kept : σ → σ} (hsize : ∀ obj, M.size obj = 0 ↔ obj = M.zero)
    (hkept : ∀ obj, M.restored obj = kept obj) : M.delivered = nonEmpty M.zero kept := by
  funext obj
  rw [Message.delivered, nonEmpty, hkept]
  exact if_congr (hsize obj) rfl rfl

end

/-- What comes of a `Banner` that is packed and unpacked. -/
def Banner.kept (obj : Banner) : Banner := { obj with unknown := obj.unknown.map Unknown.bare }

/-- What comes of a `Native` that is packed and unpacked. -/
def Native.kept (obj : Native) : Native := { obj with unknown := obj.unknown.map Unknown.bare }

/-- What comes of a `Video` that is packed and unpacked. -/
def Video.kept (obj : Video) : Video := { obj with unknown := obj.unknown.map Unknown.bare }

/-- What comes of an `AdxSlot` that is packed and unpacked: its empty messages are lost. -/
def AdxSlot.kept (obj : AdxSlot) : AdxSlot := { obj with
  banner := obj.banner.bind (nonEmpty {} Banner.kept)
  native := obj.native.bind (nonEmpty {} Native.kept)
  video := obj.video.bind (nonEmpty {} Video.kept)
  unknown := obj.unknown.map Unknown.bare }

/-- What comes of a `DeviceId` that is packed and unpacked. -/
def DeviceId.kept (obj : DeviceId) : DeviceId :=
  { obj with unknown := obj.unknown.map Unknown.bare }

/-- What comes of a `Device` that is packed and unpacked: its empty ids are lost. -/
def Device.kept (obj : Device) : Device := { obj with
  deviceId := obj.deviceId.filterMap (nonEmpty {} DeviceId.kept)
  unknown := obj.unknown.map Unknown.bare }

/-- What comes of an `App` that is packed and unpacked. -/
def App.kept (obj : App) : App := { obj with unknown := obj.unknown.map Unknown.bare }

/-- What comes of a `ComRequest` that is packed and unpacked. -/
def ComRequest.kept (obj : ComRequest) : ComRequest := { obj with
  adxSlot := obj.adxSlot.filterMap (nonEmpty {} AdxSlot.kept)
  device := obj.device.bind (nonEmpty {} Device.kept)
  app := obj.app.bind (nonEmpty {} App.kept)
  unknown := obj.unknown.map Unknown.bare }

/-- What comes of a `ResponseAdxSlot` that is packed and unpacked. -/
def ResponseAdxSlot.kept (obj : ResponseAdxSlot) : ResponseAdxSlot :=
  { obj with unknown := obj.unknown.map Unknown.bare }

/-- What comes of a `ComResponse` that is packed and unpacked. -/
def ComResponse.kept (obj : ComResponse) : ComResponse := { obj with
  adxSlot := obj.adxSlot.filterMap (nonEmpty {} ResponseAdxSlot.kept)
  unknown := obj.unknown.map Unknown.bare }

/-- A banner as a field. -/
theorem delivered_banner : banner.delivered = nonEmpty {} Banner.kept := by
  refine delivered_eq (fun obj => ?_) fun obj => ?_
  · obtain ⟨width, height, unknown⟩ := obj
    simp [Message.size_eq_zero_iff, banner, and_assoc]
  · simp [Message.restored, banner, numberField, Banner.kept]

/-- A native ad as a field. -/
theorem delivered_native : native.delivered = nonEmpty {} Native.kept := by
  refine delivered_eq (fun obj => ?_) fun obj => ?_
  · obtain ⟨iconWidth, iconHeight, width, height, unknown⟩ := obj
    simp [Message.size_eq_zero_iff, native, and_assoc]
  · simp [Message.restored, native, numberField, Native.kept]

/-- A video as a field. -/
theorem delivered_video : video.delivered = nonEmpty {} Video.kept := by
  refine delivered_eq (fun obj => ?_) fun obj => ?_
  · obtain ⟨width, height, minDuration, maxDuration, unknown⟩ := obj
    simp [Message.size_eq_zero_iff, video, and_assoc]
  · simp [Message.restored, video, numberField, Video.kept]

/-- A slot as a field. -/
theorem delivered_adxSlot : adxSlot.delivered = nonEmpty {} AdxSlot.kept := by
  refine delivered_eq (fun obj => ?_) fun obj => ?_
  · obtain ⟨adxSlotId, adxSlotSequenceId, adxSlotType, banner, native, video, priceFloor, unknown⟩ :=
      obj
    simp [Message.size_eq_zero_iff, adxSlot, and_assoc]
  · simp [Message.restored, adxSlot, numberField, stringField, messageField, AdxSlot.kept,
      delivered_banner, delivered_native, delivered_video]

/-- A device id as a field. -/
theorem delivered_deviceId : deviceId.delivered = nonEmpty {} DeviceId.kept := by
  refine delivered_eq (fun obj => ?_) fun obj => ?_
  · obtain ⟨id, type, unknown⟩ := obj
    simp [Message.size_eq_zero_iff, deviceId, and_assoc]
  · simp [Message.restored, deviceId, numberField, stringField, DeviceId.kept]

/-- A device as a field. -/
theorem delivered_device : device.delivered = nonEmpty {} Device.kept := by
  refine delivered_eq (fun obj => ?_) fun obj => ?_
  · obtain ⟨deviceId, deviceType, os, osVersion, carrier, connection, brand, model, userAgent, ip,
      unknown⟩ := obj
    simp [Message.size_eq_zero_iff, device, and_assoc]
  · simp [Message.restored, device, numberField, stringField, repeatedField, Device.kept,
      delivered_deviceId]

/-- An app as a field. -/
theorem delivered_app : app.delivered = nonEmpty {} App.kept := by
  refine delivered_eq (fun obj => ?_) fun obj => ?_
  · obtain ⟨appId, appCategory, unknown⟩ := obj
    simp [Message.size_eq_zero_iff, app, and_assoc]
  · simp [Message.restored, app, numberField, stringField, App.kept]

/-- What is restored of a request is what is kept of it. -/
theorem restored_comRequest (obj : ComRequest) : comRequest.restored obj = obj.kept := by
  simp [Message.restored, comRequest, numberField, stringField, repeatedField, messageField,
    ComRequest.kept, delivered_adxSlot, delivered_device, delivered_app]

/-- A slot of the response as a field. -/
theorem delivered_responseAdxSlot :
    responseAdxSlot.delivered = nonEmpty {} ResponseAdxSlot.kept := by
  refine delivered_eq (fun obj => ?_) fun obj => ?_
  · obtain ⟨adxSlotId, adxSlotSequenceId, adxSlotType, price, template, ext, unknown⟩ := obj
    simp [Message.size_eq_zero_iff, responseAdxSlot, and_assoc]
  · simp [Message.restored, responseAdxSlot, numberField, stringField, ResponseAdxSlot.kept]

/-- What is restored of a response is what is kept of it. -/
theorem restored_comResponse (obj : ComResponse) : comResponse.restored obj = obj.kept := by
  simp [Message.restored, comResponse, stringField, repeatedField, ComResponse.kept,
    delivered_responseAdxSlot]

/-! ## Buffers -/

section

variable {start : ℕ}

/-- A `ComRequest` is packed into as many bytes as its size says, and comes back from them but for
the empty messages in it. -/
theorem comRequest_unpack_pack (obj : ComRequest) (hsize : comRequest.size obj < 2 ^ 32)
    (hstart : start + comRequest.size obj < 2 ^ 64) :
    ∃ w, w.length = comRequest.size obj ∧ comRequest.pack (comRequest.size obj) obj = (.ok, w) ∧
      ∀ dirt, comRequest.unpack dirt (ofBytes start w) (start + w.length) start {} =
        some ⟨.ok, start + w.length, obj.kept, ofBytes start w⟩ := by
  have hunpack := lawful_comRequest.unpack_pack obj hsize hstart
  rwa [restored_comRequest] at hunpack

/-- An app and a banner that are empty, and an empty slot. -/
def sampleRequest : ComRequest where
  adx := some 8
  bid := some [97, 98]
  adxSlot := [{ adxSlotType := some 1, banner := some {} }, {}]
  device := some { deviceId := [{ type := some 0xffffffff }] }
  app := some {}

/-- A request with an empty app: it comes back without the app. -/
theorem comRequest_unpack_pack_sample :
    ∃ w, w.length = 26 ∧ ∀ dirt,
      comRequest.unpack dirt (ofBytes 4096 w) (4096 + w.length) 4096 {} =
        some ⟨.ok, 4096 + w.length, { sampleRequest with
          adxSlot := [{ adxSlotType := some 1 }], app := none }, ofBytes 4096 w⟩ := by
  have hsize : comRequest.size sampleRequest = 26 := by decide +kernel
  obtain ⟨w, hw, -, hunpack⟩ := @comRequest_unpack_pack 4096 sampleRequest
    (by rw [hsize]; norm_num) (by rw [hsize]; norm_num)
  exact ⟨w, hw.trans hsize, hunpack⟩

/-- The same for a `ComResponse`. -/
theorem comResponse_unpack_pack (obj : ComResponse) (hsize : comResponse.size obj < 2 ^ 32)
    (hstart : start + comResponse.size obj < 2 ^ 64) :
    ∃ w, w.length = comResponse.size obj ∧ comResponse.pack (comResponse.size obj) obj = (.ok, w) ∧
      ∀ dirt, comResponse.unpack dirt (ofBytes start w) (start + w.length) start {} =
        some ⟨.ok, start + w.length, obj.kept, ofBytes start w⟩ := by
  have hunpack := lawful_comResponse.unpack_pack obj hsize hstart
  rwa [restored_comResponse] at hunpack

/-- For a buffer of any content the unpacker returns, where its last byte ends a number or a byte
follows, no number has ten bytes, and the buffer ends in the lower half of the addresses.  It goes
forward, to the one byte behind the buffer at most, to the end if all is well, and writes over no
byte outside of the buffer. -/
theorem comRequest_exists_unpack {m : ByteMemory} {w : Bytes} (h : m.Holds start w)
    (hends : (∃ b, m (start + w.length) = some b) ∨ ∀ b ∈ w.getLast?, b.toNat < 128)
    (hshort : ∀ v, v <:+: w → v.length = 9 → ∃ b ∈ v, b.toNat < 128)
    (hlow : start + w.length < 2 ^ 63) (dirt : Dirt) (obj : ComRequest) :
    ∃ r, comRequest.unpack dirt m (start + w.length) start obj = some r ∧ start ≤ r.pos ∧
      r.pos ≤ start + w.length + 1 ∧ (r.rc = .ok → start + w.length ≤ r.pos) ∧
      ∀ a, a < start ∨ start + w.length ≤ a → r.mem a = m a := by
  obtain ⟨r, hunpack, hwithin, hend⟩ := lawful_comRequest.exists_unpack dirt
    (readable_of_holds h hends hshort hlow) (by omega) obj
  refine ⟨r, hunpack, hwithin.pos_le, hwithin.le_last, hend, fun a ha => hwithin.same a ?_⟩
  exact ha.imp_right .inr

/-- A slot whose banner ends in a number that goes on outside of the banner, a field `adx` of eight
bytes, which is skipped, and an unknown field of four. -/
def sampleBuffer : Bytes :=
  [0x1a, 5, 0x22, 2, 0x08, 0xff, 0x01, 0x09, 1, 2, 3, 4, 5, 6, 7, 8, 0x35, 1, 2, 3, 4]

/-- The sample is unpacked without a stop, whatever the fields in it are. -/
theorem comRequest_exists_unpack_sample :
    ∃ r, comRequest.unpack (fun _ => 0xdead) (ofBytes 4096 sampleBuffer)
        (4096 + sampleBuffer.length) 4096 {} = some r ∧ 4096 ≤ r.pos ∧
      r.pos ≤ 4096 + sampleBuffer.length + 1 ∧ (r.rc = .ok → 4096 + sampleBuffer.length ≤ r.pos) ∧
      ∀ a, a < 4096 ∨ 4096 + sampleBuffer.length ≤ a → r.mem a = ofBytes 4096 sampleBuffer a := by
  have hshort : ∀ v, v <:+: sampleBuffer → v.length = 9 → ∃ b ∈ v, b.toNat < 128 := by
    intro v hv hlength
    by_contra hnot
    have hhigh : v.filter (fun b => 128 ≤ b.toNat) = v :=
      List.filter_eq_self.mpr fun b hb => decide_eq_true (not_lt.mp fun hlt => hnot ⟨b, hb, hlt⟩)
    have hle := (hv.sublist.filter fun b => 128 ≤ b.toNat).length_le
    rw [hhigh, hlength] at hle
    exact absurd hle (by decide)
  have hends : ∀ b ∈ sampleBuffer.getLast?, b.toNat < 128 := by
    intro b hb
    obtain rfl : 4 = b := Option.some.inj hb
    decide
  have hlow : 4096 + sampleBuffer.length < 2 ^ 63 := by
    rw [show sampleBuffer.length = 21 from rfl]
    norm_num
  exact comRequest_exists_unpack (holds_ofBytes 4096 sampleBuffer) (.inr hends) hshort hlow _ {}

/-- Behind any request that is packed, a number that goes on at the end of the buffer is read from
behind it, and the length of a string may lead out of the addresses. -/
theorem comRequest_gaps (obj : ComRequest) (hsize : comRequest.size obj < 2 ^ 32)
    (hstart : start + comRequest.size obj + 11 < 2 ^ 64) :
    ∃ w, comRequest.pack (comRequest.size obj) obj = (.ok, w) ∧
      (∀ dirt, ∀ b : UInt8, 128 ≤ b.toNat →
        comRequest.unpack dirt (ofBytes start (w ++ [0x08, b])) (start + (w ++ [0x08, b]).length)
          start {} = none) ∧
      ∀ dirt, ∀ v < 2 ^ 64, 2 ^ 64 ≤ start + (w ++ 0x12 :: writeUint64 v).length + v →
        comRequest.unpack dirt (ofBytes start (w ++ 0x12 :: writeUint64 v))
          (start + (w ++ 0x12 :: writeUint64 v).length) start {} = none := by
  obtain ⟨w, hw, hpack, -⟩ := lawful_comRequest.exists_bytes obj
  -- the headers of the fields, as they stand in the statement
  have hadx : writeUint32 (header 1 0) = [0x08] := by decide +kernel
  have hbid : writeUint32 (header 2 2) = [0x12] := by decide +kernel
  refine ⟨w, hpack _ le_rfl, fun dirt b hb => ?_, fun dirt v hv hwraps => ?_⟩
  · have hf : comRequest.field 1 =
        some (numberField 1 ComRequest.adx fun v obj => { obj with adx := v }) := rfl
    have hlast : start + (w ++ (writeUint32 (header 1 0) ++ [b])).length < 2 ^ 64 := by
      simp only [hadx, List.length_append, List.length_singleton]
      omega
    have hnone := lawful_comRequest.unpack_behind dirt hsize (hpack _ le_rfl) hf (by norm_num) hb
      hlast
    rwa [hadx] at hnone
  -- a number needs ten bytes at most, for which there are addresses
  · have hten : (writeUint64 v).length ≤ 10 := by
      rw [writeUint64, writeUint_eq, Nat.mod_eq_of_lt hv]
      exact Varint.length_encode_le_ten hv
    have hf : comRequest.field 2 =
        some (stringField 2 ComRequest.bid fun v obj => { obj with bid := v }) := rfl
    have hlast : start + (w ++ (writeUint32 (header 2 2) ++ writeUint64 v)).length < 2 ^ 64 := by
      simp only [hbid, List.length_append, List.length_singleton]
      omega
    have hwraps' : 2 ^ 64 ≤
        start + (w ++ (writeUint32 (header 2 2) ++ writeUint64 v)).length + v := by
      rwa [hbid]
    have hnone := lawful_comRequest.unpack_wraps dirt hsize (hpack _ le_rfl) hf (by norm_num) hv
      hlast hwraps'
    rwa [hbid] at hnone

/-- A byte of `adx` with its high bit, and a `bid` whose length is the largest that there is. -/
theorem comRequest_gaps_sample :
    ∃ w, comRequest.pack (comRequest.size { adx := some 8 }) { adx := some 8 } = (.ok, w) ∧
      comRequest.unpack (fun _ => 0) (ofBytes 4096 (w ++ [0x08, 0x80]))
        (4096 + (w ++ [0x08, 0x80]).length) 4096 {} = none ∧
      comRequest.unpack (fun _ => 0) (ofBytes 4096 (w ++ 0x12 :: writeUint64 (2 ^ 64 - 1)))
        (4096 + (w ++ 0x12 :: writeUint64 (2 ^ 64 - 1)).length) 4096 {} = none := by
  have hsize : comRequest.size { adx := some 8 } = 2 := by decide +kernel
  obtain ⟨w, hpack, hbehind, hwraps⟩ := @comRequest_gaps 4096 { adx := some 8 }
    (by rw [hsize]; norm_num) (by rw [hsize]; norm_num)
  exact ⟨w, hpack, hbehind _ 0x80 (by decide), hwraps _ (2 ^ 64 - 1) (by norm_num) (by omega)⟩

end

end ComProto

end AdxDsp
