import AdxDsp.Bid.FlagKey

/-!
# The round trip of the tracking parameters

`SetTraceUrlPar` writes 21 parameters; four of them are encoded, the others are pasted as they are.
The tracker reads each of them back with `adx_string_url_param_value`.

* **`traceFields`**: the parameters as a list, which `traceUrlPar` writes one after the other.
* **`trace_fields_read_back_iff`**: all of them are read back iff no text that is pasted has an `&`.
-/

namespace AdxDsp

open CText Redis

/-- A tracking parameter: its name, its value, and whether the value is encoded. -/
structure TraceField where
  name : Bytes
  value : Bytes
  encoded : Bool

namespace TraceField

/-- The text that is written for the value. -/
def text (f : TraceField) : Bytes := if f.encoded then urlencode f.value else cstr f.value

/-- The value that a reader takes from a text. -/
def decode (f : TraceField) (t : Bytes) : Bytes := if f.encoded then urlDecode t else t

/-- A value without a `NUL` is taken from the text that is written for it. -/
theorem decode_text {f : TraceField} (h : 0 ∉ f.value) : f.decode f.text = f.value := by
  unfold decode text
  split_ifs
  · rw [urlDecode_urlencode, cstr_eq_self h]
  · rw [cstr_eq_self h]

/-- A separator in the text comes from a value that is pasted. -/
theorem amp_notMem_text {f : TraceField} (h : f.encoded = false → 38 ∉ f.value) : 38 ∉ f.text := by
  unfold text
  split_ifs with he
  · exact amp_notMem_urlencode f.value
  · intro hamp
    apply h (Bool.eq_false_iff.mpr he)
    exact (List.takeWhile_sublist _).subset hamp

end TraceField

section

variable (req : ComRequest) (bid : ComBid)

/-- The parameters of `SetTraceUrlPar`, in their order. -/
def traceFields : List TraceField :=
  [⟨bytes "bid", req.id, true⟩,
    ⟨bytes "impid", bid.impid, true⟩,
    ⟨bytes "advid", decimal bid.imp.ext.advid.toNat, false⟩,
    ⟨bytes "at", decimal req.at_, false⟩,
    ⟨bytes "mapid", decimal bid.mapid, false⟩,
    ⟨bytes "impt", decimal bid.imp.type, false⟩,
    ⟨bytes "impm", (calImpm bid.imp).1, false⟩,
    ⟨bytes "ip", req.device.ip, false⟩,
    ⟨bytes "w", decimal (calImpm bid.imp).2.1, false⟩,
    ⟨bytes "h", decimal (calImpm bid.imp).2.2, false⟩,
    ⟨bytes "deviceid", req.device.deviceid, false⟩,
    ⟨bytes "deviceidtype", decimal req.device.deviceidtype, false⟩,
    ⟨bytes "appid", req.app.id, true⟩,
    ⟨bytes "nw", decimal req.device.connectiontype, false⟩,
    ⟨bytes "os", decimal req.device.os, false⟩,
    ⟨bytes "gp", decimal req.device.location, false⟩,
    ⟨bytes "tp", decimal req.device.devicetype, false⟩,
    ⟨bytes "mb", decimal req.device.make, false⟩,
    ⟨bytes "md", req.device.model, true⟩,
    ⟨bytes "op", decimal req.device.carrier, false⟩,
    ⟨bytes "dealid", bid.dealid, false⟩]

/-- The texts that come from outside. -/
def freeTexts : List Bytes :=
  [req.id, bid.impid, req.device.ip, req.device.deviceid, req.app.id, req.device.model, bid.dealid]

/-- The tracker reads back the value of a parameter from the text of all parameters. -/
def ReadsBack (f : TraceField) : Prop :=
  ∃ par value, setTraceUrlPar req bid = some par ∧
    adxStringUrlParamValue par f.name = some value ∧ f.decode value = f.value

/-- A byte that is neither a digit, nor a minus sign, nor a comma stands in no `impm`. -/
theorem notMem_calImpm {b : UInt8} (hd : isDigit b = false) (hm : b ≠ 45) (hc : b ≠ 44)
    (imp : ComImpression) : b ∉ (calImpm imp).1 := by
  have hdec : ∀ z : ℤ, b ∉ decimal z := notMem_decimal hd hm
  have hcomma : b ∉ bytes "," := by
    intro h
    exact hc (List.mem_singleton.mp h)
  unfold calImpm
  split_ifs <;>
    simp only [List.mem_append, hdec, hcomma, List.not_mem_nil, or_self, not_false_eq_true]

/-- The parameters are written one after the other. -/
theorem traceUrlPar_eq_parText :
    traceUrlPar req bid = parText ((traceFields req bid).map fun f => (f.name, f.text)) := by
  have himpm : cstr (calImpm bid.imp).1 = (calImpm bid.imp).1 :=
    cstr_eq_self (notMem_calImpm (by decide) (by decide) (by decide) bid.imp)
  simp only [traceUrlPar, traceUrlRest, traceFields, parText, List.map_cons, List.map_nil,
    List.flatMap_cons, List.flatMap_nil, List.append_nil, TraceField.text, if_true, himpm,
    Bool.false_eq_true, if_false, cstr_decimal, List.append_assoc]

/-- The names of the parameters. -/
def traceNames : List Bytes :=
  [bytes "bid", bytes "impid", bytes "advid", bytes "at", bytes "mapid", bytes "impt", bytes "impm",
    bytes "ip", bytes "w", bytes "h", bytes "deviceid", bytes "deviceidtype", bytes "appid",
    bytes "nw", bytes "os", bytes "gp", bytes "tp", bytes "mb", bytes "md", bytes "op",
    bytes "dealid"]

/-- The names of the fields, in their order. -/
theorem map_name_traceFields : (traceFields req bid).map TraceField.name = traceNames := rfl

/-- No two parameters have the same name. -/
theorem nodup_traceNames : traceNames.Nodup := by decide +kernel

/-- The names are free of separators. -/
theorem notMem_traceNames : ∀ name ∈ traceNames, 61 ∉ name ∧ 38 ∉ name := by decide +kernel

variable {req bid}

/-- A value without a `NUL`: a number, or one of the free texts. -/
theorem zero_notMem_value (hnul : ∀ t ∈ freeTexts req bid, 0 ∉ t) {f : TraceField}
    (hf : f ∈ traceFields req bid) : 0 ∉ f.value := by
  have hdec : ∀ z : ℤ, (0 : UInt8) ∉ decimal z := notMem_decimal (by decide) (by decide)
  have himpm : (0 : UInt8) ∉ (calImpm bid.imp).1 :=
    notMem_calImpm (by decide) (by decide) (by decide) bid.imp
  simp only [freeTexts, List.forall_mem_cons] at hnul
  obtain ⟨hid, himpid, hip, hdeviceid, happ, hmodel, hdealid, -⟩ := hnul
  revert f
  simp only [traceFields, List.forall_mem_cons]
  exact ⟨hid, himpid, hdec _, hdec _, hdec _, hdec _, himpm, hip, hdec _, hdec _, hdeviceid,
    hdec _, happ, hdec _, hdec _, hdec _, hdec _, hdec _, hmodel, hdec _, hdealid, by simp⟩

/-- The values that are pasted are numbers, and three free texts. -/
theorem amp_notMem_value (hip : 38 ∉ req.device.ip) (hdeviceid : 38 ∉ req.device.deviceid)
    (hdealid : 38 ∉ bid.dealid) {f : TraceField} (hf : f ∈ traceFields req bid)
    (he : f.encoded = false) : 38 ∉ f.value := by
  have hdec : ∀ z : ℤ, (38 : UInt8) ∉ decimal z := notMem_decimal (by decide) (by decide)
  have himpm : (38 : UInt8) ∉ (calImpm bid.imp).1 :=
    notMem_calImpm (by decide) (by decide) (by decide) bid.imp
  revert f
  simp only [traceFields, List.forall_mem_cons]
  refine ⟨?_, ?_, fun _ => hdec _, fun _ => hdec _, fun _ => hdec _, fun _ => hdec _,
    fun _ => himpm, fun _ => hip, fun _ => hdec _, fun _ => hdec _, fun _ => hdeviceid,
    fun _ => hdec _, ?_, fun _ => hdec _, fun _ => hdec _, fun _ => hdec _, fun _ => hdec _,
    fun _ => hdec _, ?_, fun _ => hdec _, fun _ => hdealid, by simp⟩
  all_goals
    intro he
    exact absurd he (by decide)

/-- A value that is pasted and read back has no separator. -/
theorem ReadsBack.amp_notMem {f : TraceField} (h : ReadsBack req bid f) (he : f.encoded = false) :
    38 ∉ f.value := by
  obtain ⟨par, value, -, hvalue, hdecode⟩ := h
  obtain ⟨-, -, hfirst⟩ := adxStringUrlParamValue_eq_some_iff.mp hvalue
  rw [TraceField.decode, he, if_neg Bool.false_ne_true] at hdecode
  rw [← hdecode, ← hfirst, paramValue]
  cases hread : firstValue par f.name with
  | none => exact List.not_mem_nil
  | some v => exact amp_notMem_firstValue hread

/-- For free texts without `NUL`, in parameters that fit the buffers: every parameter is read back
if and only if none of the texts that are pasted, the ip, the device id and the deal id, has an
`&`. -/
theorem trace_fields_read_back_iff (hnul : ∀ t ∈ freeTexts req bid, 0 ∉ t)
    (hfit : (traceUrlPar req bid).length < 2048)
    (hvalue : ∀ f ∈ traceFields req bid, f.text.length < 1024) :
    (∀ f ∈ traceFields req bid, ReadsBack req bid f) ↔
      38 ∉ req.device.ip ∧ 38 ∉ req.device.deviceid ∧ 38 ∉ bid.dealid := by
  constructor
  · intro h
    -- what the reader returns ends before the first separator
    have hpasted : ∀ f ∈ traceFields req bid, f.encoded = false → 38 ∉ f.value :=
      fun f hf he => (h f hf).amp_notMem he
    simp only [traceFields, List.forall_mem_cons] at hpasted
    obtain ⟨-, -, -, -, -, -, -, hip, -, -, hdeviceid, -, -, -, -, -, -, -, -, -, hdealid, -⟩ :=
      hpasted
    exact ⟨hip trivial, hdeviceid trivial, hdealid trivial⟩
  · rintro ⟨hip, hdeviceid, hdealid⟩ f hf
    -- without a separator in a text, the first parameter of a name is the one that was written
    have hfirst : firstValue (traceUrlPar req bid) f.name = some f.text := by
      rw [traceUrlPar_eq_parText]
      have hnames : ((traceFields req bid).map fun f => (f.name, f.text)).map Prod.fst =
          traceNames := map_name_traceFields req bid
      apply firstValue_parText _ _ (hnames ▸ nodup_traceNames) (List.mem_map_of_mem hf)
      · intro p hp
        exact notMem_traceNames p.1 (hnames ▸ List.mem_map_of_mem hp)
      · intro p hp
        obtain ⟨g, hg, rfl⟩ := List.mem_map.mp hp
        exact TraceField.amp_notMem_text (amp_notMem_value hip hdeviceid hdealid hg)
    have hpar : paramValue (traceUrlPar req bid) f.name = f.text := by
      rw [paramValue, hfirst]
      rfl
    refine ⟨traceUrlPar req bid, f.text, ?_, ?_, ?_⟩
    · rw [setTraceUrlPar, if_pos (by omega)]
    · rw [adxStringUrlParamValue_eq_some_iff, hpar]
      exact ⟨hfit, hvalue f hf, rfl⟩
    · exact TraceField.decode_text (zero_notMem_value hnul hf)

end

/-! ## A device id with a separator -/

/-- The parameters of the bid on the sample banner are read back. -/
theorem trace_fields_read_back_iff_sample :
    (∀ f ∈ traceFields (sampleRequest (bytes "a=&b")) sampleBid,
      ReadsBack (sampleRequest (bytes "a=&b")) sampleBid f) ↔
      38 ∉ (sampleRequest (bytes "a=&b")).device.ip ∧
        38 ∉ (sampleRequest (bytes "a=&b")).device.deviceid ∧ 38 ∉ sampleBid.dealid :=
  trace_fields_read_back_iff (by decide +kernel) (by decide +kernel) (by decide +kernel)

/-- A request from a device with the id `1&os=2`. -/
def injectingRequest : ComRequest :=
  { sampleRequest (bytes "b") with
    device := { (sampleRequest (bytes "b")).device with deviceid := bytes "1&os=2" } }

/-- The device id `1&os=2` is read back as `1`, and the system of the device as `2` in place of
`1`, although the parameters fit all buffers. -/
theorem deviceid_overrides_os :
    (∀ t ∈ freeTexts injectingRequest sampleBid, 0 ∉ t) ∧
      (traceUrlPar injectingRequest sampleBid).length < 2048 ∧
      (∀ f ∈ traceFields injectingRequest sampleBid, f.text.length < 1024) ∧
      adxStringUrlParamValue (traceUrlPar injectingRequest sampleBid) (bytes "deviceid") =
        some (bytes "1") ∧
      adxStringUrlParamValue (traceUrlPar injectingRequest sampleBid) (bytes "os") =
        some (bytes "2") ∧
      ¬∀ f ∈ traceFields injectingRequest sampleBid, ReadsBack injectingRequest sampleBid f := by
  refine ⟨by decide +kernel, by decide +kernel, by decide +kernel, by decide +kernel,
    by decide +kernel, ?_⟩
  intro h
  have hmem : (⟨bytes "deviceid", bytes "1&os=2", false⟩ : TraceField) ∈
      traceFields injectingRequest sampleBid := by
    simp [traceFields, injectingRequest]
  exact absurd ((h _ hmem).amp_notMem rfl) (by decide)

end AdxDsp
