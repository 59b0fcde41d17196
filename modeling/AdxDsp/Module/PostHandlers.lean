import AdxDsp.Cache.FromJson
import AdxDsp.Module.BaiduAdapter

/-!
# The post handlers of Baidu and Inmobi

nginx calls a post handler when it has read the body of a request; the handler lets an adapter
convert the body and sets the `Content-Length` for a subrequest (`adx_com_module.c`).  There is no
`Content-Length` header where the request is chunked, and no byte in memory where the body is empty
or in a temporary file.

* **The adapters**: `adxComBaiduAdapterRequest`, `adxComInmobiAdapterRequest`.
* **The handlers**: `postHandler`.
* `postHandlers_safe_iff`: when no `NULL` is read.
* `empty_body_reads_null`: an empty body.
-/

namespace AdxDsp

open CText

namespace PostHandlers

open Pointer Json BaiduAdapter

/-! ## Chains of buffers -/

/-- `ngx_buf_t`: the bytes between `pos` and `last`, or a part of a file, without such bytes. -/
inductive Buf where
  | memory (data : Bytes)
  | file (data : Bytes)
  deriving DecidableEq

/-- The bytes between `pos` and `last`. -/
def Buf.data : Buf → Bytes
  | memory data => data
  | file _ => []

/-- `adx_chain_len`; a chain that is `NULL` is empty. -/
def adxChainLen (chain : List Buf) : ℤ := (chain.map fun buf => (buf.data.length : ℤ)).sum

/-- `adx_chain_alloc` -/
def adxChainAlloc (buffer : Bytes) : List Buf := if buffer = [] then [] else [.memory buffer]

/-- `adx_chain_to_str`, by its `data`. -/
def adxChainToStr (src : List Buf) : Pointer Bytes :=
  if adxChainLen src ≤ 0 then none else some (src.flatMap Buf.data)

/-! ## Baidu -/

/-- The generated code: `ngx_bid_request__unpack`, which leaves what is absent `NULL`, and
`ngx_com_request__pack`, which may fail. -/
structure Protobuf where
  unpack : Bytes → BidRequest
  pack : BaiduAdapter.ComRequest Bytes → Pointer Bytes

/-- `adx_com_baidu_adapter_init` -/
def adxComBaiduAdapterInit (protobuf : Protobuf) (src : List Buf) : BidRequest :=
  protobuf.unpack ((adxChainToStr src).getD [])

/-- `adx_com_to_chain` -/
def adxComToChain (protobuf : Protobuf) (comRequest : BaiduAdapter.ComRequest Bytes) : List Buf :=
  (protobuf.pack comRequest).elim [] adxChainAlloc

/-- `adx_com_baidu_adapter_request`, by what the local arrays of the conversion hold before it and
when the request is packed. -/
def adxComBaiduAdapterRequest (protobuf : Protobuf) (locals dead : Locals) (src : List Buf) :
    Reads (List Buf) := do
  let comRequest ← toCom locals (adxComBaiduAdapterInit protobuf src)
  return adxComToChain protobuf (comRequest.1.read dead)

/-! ## Inmobi -/

/-- `adx_json_parse` -/
def adxJsonParse (buffer : Pointer Bytes) : Reads (Pointer AdxJson) := do
  let str ← deref buffer
  match (Json.adxJsonParse (str.length + 1) str).outcome with
  | .ok root _ => return some root
  | _ => return none

/-- `adx_json_find` -/
def adxJsonFind (root : Pointer AdxJson) (key : String) : Reads (Pointer AdxJson) :=
  if root.isNone then return none
  else do
    let root ← deref root
    return Json.adxJsonFind root (bytes key)

/-- `adx_json_array_check`, as a truth value. -/
def adxJsonArrayCheck (json : Pointer AdxJson) : Reads Bool :=
  if json.isNone then return false
  else do
    let json ← deref json
    return Json.adxJsonArrayCheck json

/-- `adx_json_find_value_string` -/
def adxJsonFindValueString (root : Pointer AdxJson) (key : String) : Reads (Pointer Bytes) := do
  let json ← adxJsonFind root key
  if json.isNone then return none
  else do
    let json ← deref json
    return if json.type = .string then json.val else none

/-- `adx_json_find_value_number` -/
def adxJsonFindValueNumber (root : Pointer AdxJson) (key : String) : Reads ℤ := do
  let json ← adxJsonFind root key
  if json.isNone then return 0
  else do
    let json ← deref json
    if json.type ≠ .number ∨ json.val.isNone then return 0
    else do
      let val ← deref json.val
      return atol val

/-- A line of the output; `%s` of `NULL` is `(null)`. -/
def line (label : String) (val : Pointer Bytes) : Bytes :=
  bytes label ++ val.getD (bytes "(null)") ++ [10]

/-- A string that is found and printed. -/
def printString (root : Pointer AdxJson) (key label : String) : Reads Bytes := do
  let val ← adxJsonFindValueString root key
  return line label val

/-- Strings that are found and printed, by their keys and labels. -/
def printStrings (root : Pointer AdxJson) (strings : List (String × String)) :
    Reads (List Bytes) :=
  strings.mapM fun p => printString root p.1 p.2

/-- A number that is found and printed, as an `int`. -/
def printNumber (root : Pointer AdxJson) (key label : String) : Reads Bytes := do
  let val ← adxJsonFindValueNumber root key
  return line label (some (decimal (toInt32 val)))

/-- `adx_com_inmobi_parse_banner`, with the lines that it prints. -/
def adxComInmobiParseBanner (banner : Pointer AdxJson) : Reads (List Bytes) := do
  let w ← printNumber banner "w" "banner -> w = "
  let h ← printNumber banner "h" "banner -> h = "
  let mimes ← adxJsonFind banner "mimes"
  let isArray ← adxJsonArrayCheck mimes
  if isArray then do
    let mimes ← deref mimes
    let strings := mimes.child.nodes.filter fun node => node.type = .string
    return w :: h :: strings.map fun node => line "banner -> mimes = " node.val
  else return [w, h]

/-- The turn of `adx_com_inmobi_parse_native` for an asset. -/
def parseAsset (node : AdxJson) : Reads (List Bytes) := do
  let img ← adxJsonFind (some node) "img"
  let type ← adxJsonFindValueNumber img "type"
  if toInt32 type = 1 ∨ toInt32 type = 3 then do
    let w ← printNumber img "wmin" "native -> w = "
    let h ← printNumber img "hmin" "native -> h = "
    return [w, h]
  else return []

/-- `adx_com_inmobi_parse_native` -/
def adxComInmobiParseNative (native : Pointer AdxJson) : Reads (List Bytes) := do
  let requestobj ← adxJsonFind native "requestobj"
  let layout ← printNumber requestobj "layout" "native -> layout = "
  let assets ← adxJsonFind requestobj "assets"
  let isArray ← adxJsonArrayCheck assets
  if isArray then do
    let assets ← deref assets
    let lines ← assets.child.nodes.mapM parseAsset
    return layout :: lines.flatten
  else return [layout]

/-- The texts of a device that are printed, with their keys. -/
def deviceStrings : List (String × String) :=
  [("ifa", "device -> device_id -> ifa = "),
    ("didsha1", "device -> device_id -> imei_sha1 = "),
    ("didmd5", "device -> device_id -> imei_md5 = "),
    ("dpidsha1", "device -> device_id -> android_id_sha1 = "),
    ("dpidmd5", "device -> device_id -> android_id_md5 = ")]

/-- The texts of `ext`. -/
def extStrings : List (String × String) :=
  [("idfasha1", "device -> device_id -> idfa_sha1 = "),
    ("idfamd5", "device -> device_id -> idfa_md5 = "),
    ("gpid", "device -> device_id -> android_id = ")]

/-- `adx_com_inmobi_parse_device` -/
def adxComInmobiParseDevice (device : Pointer AdxJson) : Reads (List Bytes) := do
  let ids ← printStrings device deviceStrings
  let ext ← adxJsonFind device "ext"
  let extIds ← printStrings ext extStrings
  let deviceType ← printNumber device "devicetype" "device -> device_type = "
  let os ← printString device "os" "device -> os = "
  let osv ← printString device "osv" "device -> osv = "
  let connectionType ← printNumber device "connectiontype" "device -> connection_type = "
  let model ← printString device "model" "device -> model = "
  let brand ← printString device "make" "device -> brand = "
  let ua ← printString device "ua" "device -> ua = "
  let ip ← printString device "ip" "device -> ip = "
  return ids ++ extIds ++ [deviceType, os, osv, connectionType, model, brand, ua, ip]

/-- `adx_com_inmobi_parse_app` -/
def adxComInmobiParseApp (app : Pointer AdxJson) : Reads (List Bytes) := do
  let id ← printString app "id" "app -> id = "
  let name ← printString app "name" "app -> name = "
  return [id, name]

/-- What is done with an object that is there. -/
def ifSome (json : Pointer AdxJson) (f : Pointer AdxJson → Reads (List Bytes)) :
    Reads (List Bytes) :=
  if json.isSome then f json else pure []

/-- The turn of `adx_com_inmobi_parse` for an imp. -/
def parseImp (adxSlot : AdxJson) : Reads (List Bytes) := do
  let banner ← adxJsonFind (some adxSlot) "banner"
  let native ← adxJsonFind (some adxSlot) "native"
  let bannerLines ← ifSome banner adxComInmobiParseBanner
  let nativeLines ← ifSome native adxComInmobiParseNative
  return bannerLines ++ nativeLines

/-- `adx_com_inmobi_parse` -/
def adxComInmobiParse (buffer : Pointer Bytes) : Reads (List Bytes) := do
  let json ← adxJsonParse buffer
  let bid ← printString json "id" "bid = "
  let adxSlots ← adxJsonFind json "imp"
  let isArray ← adxJsonArrayCheck adxSlots
  if isArray then do
    let adxSlots ← deref adxSlots
    let lines ← adxSlots.child.nodes.mapM parseImp
    let device ← adxJsonFind json "device"
    let deviceLines ← adxComInmobiParseDevice device
    let app ← adxJsonFind json "app"
    let appLines ← adxComInmobiParseApp app
    return bid :: lines.flatten ++ deviceLines ++ appLines
  else return [bid]

/-- `adx_com_inmobi_adapter_request`; what is printed is not used. -/
def adxComInmobiAdapterRequest (src : List Buf) : Reads (List Buf) := do
  let _ ← adxComInmobiParse (adxChainToStr src)
  return src

/-! ## The handlers -/

/-- `ngx_http_request_t`: the header, its number, and `request_body->bufs`. -/
structure HttpRequest where
  contentLength : Pointer Bytes
  contentLengthN : ℤ
  bufs : List Buf
  deriving DecidableEq

/-- The post handlers, by their adapters, up to the subrequest. -/
def postHandler (adapterRequest : List Buf → Reads (List Buf)) (r : HttpRequest) :
    Reads HttpRequest := do
  let bufs ← adapterRequest r.bufs
  let contentLength := adxChainLen bufs
  -- `r->headers_in.content_length->value = ...`
  let _ ← deref r.contentLength
  return ⟨some (decimal contentLength), contentLength, bufs⟩

/-- `adx_com_baidu_post_handler` -/
def adxComBaiduPostHandler (protobuf : Protobuf) (locals dead : Locals) (r : HttpRequest) :
    Reads HttpRequest :=
  postHandler (adxComBaiduAdapterRequest protobuf locals dead) r

/-- `adx_com_inmobi_post_handler` -/
def adxComInmobiPostHandler (r : HttpRequest) : Reads HttpRequest :=
  postHandler adxComInmobiAdapterRequest r

/-! ## Where no `NULL` is read -/

section

variable (json : Pointer AdxJson) (key label : String)

/-- The search faults nowhere, and finds nothing in a null. -/
theorem adxJsonFind_eq :
    adxJsonFind json key = .ok (json.bind fun root => Json.adxJsonFind root (bytes key)) := by
  cases json <;> rfl

/-- The check faults nowhere, and a null is no array. -/
theorem adxJsonArrayCheck_eq :
    adxJsonArrayCheck json = .ok (json.any Json.adxJsonArrayCheck) := by
  cases json <;> rfl

/-- Looking up a text is safe, also in a null. -/
theorem safe_findValueString : Safe (adxJsonFindValueString json key) := by
  rw [adxJsonFindValueString, adxJsonFind_eq]
  cases json.bind fun root => Json.adxJsonFind root (bytes key) with
  | none => exact safe_pure none
  | some json => exact safe_pure _

/-- Looking up a number is safe, also in a null. -/
theorem safe_findValueNumber : Safe (adxJsonFindValueNumber json key) := by
  rw [adxJsonFindValueNumber, adxJsonFind_eq]
  cases json.bind fun root => Json.adxJsonFind root (bytes key) with
  | none => exact safe_pure 0
  | some json =>
    change Safe (if json.type ≠ .number ∨ json.val.isNone then pure 0 else _)
    split_ifs with hnull
    · exact safe_pure 0
    · -- the value is there
      rw [not_or] at hnull
      obtain ⟨val, hval⟩ := Option.ne_none_iff_exists'.mp (mt Option.isNone_iff_eq_none.mpr hnull.2)
      rw [hval]
      exact safe_pure _

/-- Printing a text is safe, also a missing one. -/
theorem safe_printString : Safe (printString json key label) :=
  (safe_findValueString json key).bind fun _ => safe_pure _

/-- Printing several texts is safe. -/
theorem safe_printStrings (strings : List (String × String)) :
    Safe (printStrings json strings) := by
  unfold printStrings
  have hbody : ∀ p : String × String, Safe (printString json p.1 p.2) := by
    intro p
    exact safe_printString json p.1 p.2
  exact safe_mapM hbody strings

/-- Printing a number is safe. -/
theorem safe_printNumber : Safe (printNumber json key label) :=
  (safe_findValueNumber json key).bind fun _ => safe_pure _

/-- What is done with an array is only done where there is one. -/
theorem safe_ifArray {α : Type} {f : AdxJson → Reads α} {x : Reads α} (hf : ∀ json, Safe (f json))
    (hx : Safe x) :
    Safe (adxJsonArrayCheck json >>= fun isArray => if isArray then deref json >>= f else x) := by
  rw [adxJsonArrayCheck_eq]
  cases json with
  | none => exact hx
  | some json =>
    change Safe (if Json.adxJsonArrayCheck json then f json else x)
    split_ifs
    · exact hf json
    · exact hx

end

section

variable (node : AdxJson) (json : Pointer AdxJson)

/-- The banner is checked before it is read. -/
theorem safe_parseBanner : Safe (adxComInmobiParseBanner json) := by
  unfold adxComInmobiParseBanner
  refine (safe_printNumber ..).bind fun w => (safe_printNumber ..).bind fun h => ?_
  rw [adxJsonFind_eq]
  exact safe_ifArray _ (fun mimes => safe_pure _) (safe_pure _)

/-- An asset is checked before it is read. -/
theorem safe_parseAsset : Safe (parseAsset node) := by
  unfold parseAsset
  rw [adxJsonFind_eq]
  refine (safe_findValueNumber ..).bind fun type => ?_
  split_ifs
  · exact (safe_printNumber ..).bind fun w => (safe_printNumber ..).bind fun h => safe_pure _
  · exact safe_pure _

/-- The native ad is checked before it is read. -/
theorem safe_parseNative : Safe (adxComInmobiParseNative json) := by
  unfold adxComInmobiParseNative
  rw [adxJsonFind_eq]
  refine (safe_printNumber ..).bind fun layout => ?_
  rw [adxJsonFind_eq]
  refine safe_ifArray _ (fun assets => ?_) (safe_pure _)
  exact (safe_mapM safe_parseAsset _).bind fun lines => safe_pure _

/-- The device is checked before it is read. -/
theorem safe_parseDevice : Safe (adxComInmobiParseDevice json) := by
  unfold adxComInmobiParseDevice
  refine (safe_printStrings ..).bind fun ids => ?_
  rw [adxJsonFind_eq]
  refine (safe_printStrings ..).bind fun extIds => ?_
  refine (safe_printNumber ..).bind fun deviceType => (safe_printString ..).bind fun os => ?_
  refine (safe_printString ..).bind fun osv => (safe_printNumber ..).bind fun connectionType => ?_
  refine (safe_printString ..).bind fun model => (safe_printString ..).bind fun brand => ?_
  exact (safe_printString ..).bind fun ua => (safe_printString ..).bind fun ip => safe_pure _

/-- The app is checked before it is read. -/
theorem safe_parseApp : Safe (adxComInmobiParseApp json) :=
  (safe_printString ..).bind fun _ => (safe_printString ..).bind fun _ => safe_pure _

/-- What is done only where there is something is safe. -/
theorem safe_ifSome {f : Pointer AdxJson → Reads (List Bytes)} (hf : ∀ json, Safe (f json)) :
    Safe (ifSome json f) := by
  unfold ifSome
  split_ifs
  · exact hf json
  · exact safe_pure []

/-- An impression is checked before it is read. -/
theorem safe_parseImp : Safe (parseImp node) := by
  unfold parseImp
  rw [adxJsonFind_eq, adxJsonFind_eq]
  refine (safe_ifSome _ safe_parseBanner).bind fun bannerLines => ?_
  exact (safe_ifSome _ safe_parseNative).bind fun nativeLines => safe_pure _

/-- Only an absent text is read through `NULL`. -/
theorem safe_adxComInmobiParse (buffer : Pointer Bytes) :
    Safe (adxComInmobiParse buffer) ↔ buffer.isSome := by
  cases buffer with
  | none => simp [adxComInmobiParse, adxJsonParse, deref, bind, Except.bind]
  | some str =>
    refine iff_of_true ?_ rfl
    have hparse : Safe (adxJsonParse (some str)) := by
      unfold adxJsonParse
      rw [deref_some]
      change Safe (match (Json.adxJsonParse (str.length + 1) str).outcome with
        | .ok root _ => pure (some root)
        | _ => pure none)
      split <;> exact safe_pure _
    unfold adxComInmobiParse
    refine hparse.bind fun json => (safe_printString ..).bind fun bid => ?_
    rw [adxJsonFind_eq]
    refine safe_ifArray _ (fun adxSlots => ?_) (safe_pure _)
    refine (safe_mapM safe_parseImp _).bind fun lines => ?_
    rw [adxJsonFind_eq, adxJsonFind_eq]
    exact (safe_parseDevice _).bind fun _ => (safe_parseApp _).bind fun _ => safe_pure _

end

/-! ## The handlers -/

section

variable {src : List Buf}

/-- The length of a chain is that of its bytes. -/
theorem adxChainLen_eq : adxChainLen src = (src.flatMap Buf.data).length := by
  rw [adxChainLen, List.length_flatMap]
  induction src with
  | nil => rfl
  | cons buf src ih => simp [ih]

/-- The bytes in memory, where there are any. -/
theorem adxChainToStr_isSome : (adxChainToStr src).isSome ↔ src.flatMap Buf.data ≠ [] := by
  rw [adxChainToStr, adxChainLen_eq, ← List.length_pos_iff]
  split_ifs with hlen
  · simp only [Option.isSome_none, Bool.false_eq_true, false_iff]
    omega
  · simp only [Option.isSome_some, true_iff]
    omega

/-- The text of a chain has its bytes. -/
theorem adxChainToStr_getD : (adxChainToStr src).getD [] = src.flatMap Buf.data := by
  rw [adxChainToStr, adxChainLen_eq]
  split_ifs with hlen
  · have hnil : (src.flatMap Buf.data).length = 0 := by omega
    exact (List.length_eq_zero_iff.mp hnil).symm
  · rfl

/-- A handler reads no `NULL` if its adapter reads none and there is a `Content-Length`. -/
theorem safe_postHandler {adapterRequest : List Buf → Reads (List Buf)} {r : HttpRequest} :
    Safe (postHandler adapterRequest r) ↔
      r.contentLength.isSome ∧ Safe (adapterRequest r.bufs) := by
  rw [postHandler, safe_bind_iff, Option.isSome_iff_exists]
  constructor
  · rintro ⟨bufs, hbufs, hsafe⟩
    obtain ⟨val, hval, -⟩ := safe_deref_bind_iff.mp hsafe
    exact ⟨⟨val, hval⟩, bufs, hbufs⟩
  · rintro ⟨⟨val, hval⟩, bufs, hbufs⟩
    exact ⟨bufs, hbufs, safe_deref_bind_iff.mpr ⟨val, hval, safe_pure _⟩⟩

end

section

variable (protobuf : Protobuf) (locals dead : Locals)

/-- For every Baidu request and every request to nginx: the conversion reads no `NULL` exactly if
all its parts are present, the handler of Baidu if there is a `Content-Length` and what is unpacked
from the memory has all parts, and the handler of Inmobi if there is a `Content-Length` and a byte
in memory. -/
theorem postHandlers_safe_iff (bidRequest : BidRequest) (r : HttpRequest) :
    (Safe (toCom locals bidRequest) ↔ bidRequest.Complete) ∧
      (Safe (adxComBaiduPostHandler protobuf locals dead r) ↔
        r.contentLength.isSome ∧ (protobuf.unpack (r.bufs.flatMap Buf.data)).Complete) ∧
      (Safe (adxComInmobiPostHandler r) ↔
        r.contentLength.isSome ∧ r.bufs.flatMap Buf.data ≠ []) := by
  refine ⟨toCom_safe_iff locals bidRequest, ?_, ?_⟩
  · rw [adxComBaiduPostHandler, safe_postHandler]
    refine and_congr_right fun _ => ?_
    rw [adxComBaiduAdapterRequest, adxComBaiduAdapterInit, adxChainToStr_getD,
      ← toCom_safe_iff locals, safe_bind_iff]
    constructor
    · rintro ⟨com, hcom, -⟩
      exact ⟨com, hcom⟩
    · rintro ⟨com, hcom⟩
      exact ⟨com, hcom, safe_pure _⟩
  · rw [adxComInmobiPostHandler, safe_postHandler]
    refine and_congr_right fun _ => ?_
    rw [← adxChainToStr_isSome, ← safe_adxComInmobiParse, adxComInmobiAdapterRequest,
      safe_bind_iff]
    constructor
    · rintro ⟨lines, hlines, -⟩
      exact ⟨lines, hlines⟩
    · rintro ⟨lines, hlines⟩
      exact ⟨lines, hlines, safe_pure _⟩

end

/-! ## An empty body -/

/-- A request without any optional part, which is also what is unpacked from no bytes. -/
def emptyRequest : BidRequest := ⟨[], [], [], none, none⟩

/-- A POST request with the header `Content-Length: 0`. -/
def emptyBody : HttpRequest := ⟨some (bytes "0"), 0, []⟩

/-- A chunked request with a body of two bytes. -/
def chunkedBody : HttpRequest := ⟨none, -1, [.memory (bytes "\x7b\x7d")]⟩

/-- The conversion of a request without a part, the two handlers at an empty body, and that of
Inmobi at a chunked one. -/
theorem empty_body_reads_null :
    let protobuf : Protobuf := ⟨fun _ => emptyRequest, fun _ => none⟩
    let locals : Locals := ⟨[], []⟩
    ¬ Safe (toCom locals emptyRequest) ∧
      ¬ Safe (adxComBaiduPostHandler protobuf locals locals emptyBody) ∧
      ¬ Safe (adxComInmobiPostHandler emptyBody) ∧
      ¬ Safe (adxComInmobiPostHandler chunkedBody) := by
  decide

end PostHandlers

end AdxDsp
