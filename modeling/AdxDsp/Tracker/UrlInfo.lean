import AdxDsp.Lib.Bytes

/-!
# The parameters of a notice

The tracker reads a notice from the query part of its URL (`url_info_parse` over
`adx_string_url_param_value`).  A query of 2048 bytes or more, and a value of 1024 bytes or more,
overrun the buffers of the program: the model answers `none` there, for nothing is known about the
rest of such a run.
-/

namespace AdxDsp

open CText

/-! ## Query strings -/

/-- The pieces `strtok_r(url, "&")` returns: empty pieces are skipped. -/
def urlSegments (url : Bytes) : List Bytes := (url.splitOn 38).filter (· ≠ [])

/-- The value of a segment `key=value`; the first `=` separates them. -/
def segmentValue? (key segment : Bytes) : Option Bytes :=
  match segment.dropWhile (· ≠ 61) with
  | [] => none
  | _ :: value => if segment.takeWhile (· ≠ 61) = key then some value else none

/-- `adx_string_url_param_value`: the value of the first segment with this name, and the empty
string if there is none. -/
def adxStringUrlParamValue (url key : Bytes) : Option Bytes :=
  if 2048 ≤ url.length then none
  else
    match (urlSegments url).findSome? (segmentValue? key) with
    -- the length test of the source looks at the terminator it has just written
    | some value => if value.length < 1024 then some value else none
    | none => some []

/-- `isxdigit`. -/
def isXdigit (b : UInt8) : Bool := isDigit b || (65 ≤ b && b ≤ 70) || (97 ≤ b && b ≤ 102)

/-- The value of a hexadecimal digit, as `url_decode` computes it. -/
def xdigitValue (b : UInt8) : UInt8 :=
  let c := tolowerByte b
  if isDigit c then c - 48 else c - 97 + 10

/-- `url_decode`: `+` is a blank, `%` and two hexadecimal digits are one byte. -/
def urlDecode : Bytes → Bytes
  | [] => []
  | 37 :: a :: b :: rest =>
    if isXdigit a && isXdigit b then (xdigitValue a * 16 + xdigitValue b) :: urlDecode rest
    else 37 :: urlDecode (a :: b :: rest)
  | c :: rest => (if c = 43 then 32 else c) :: urlDecode rest

/-- A byte that is not escaped. -/
theorem urlDecode_cons {c : UInt8} (h : c ≠ 37) (rest : Bytes) :
    urlDecode (c :: rest) = (if c = 43 then 32 else c) :: urlDecode rest := by
  match rest with
  | [] => rw [urlDecode.eq_3 _ _ (by simp)]
  | [a] => rw [urlDecode.eq_3 _ _ (by simp)]
  | a :: b :: r => rw [urlDecode.eq_3 _ _ (fun _ _ _ h37 => absurd h37 h)]

/-! ## The notice -/

/-- The kinds of notices the tracker counts: win, impression, click. -/
def mtypeWin : UInt8 := 119

/-- An impression notice, `i`. -/
def mtypeImp : UInt8 := 105

/-- A click notice, `c`. -/
def mtypeClk : UInt8 := 99

/-- `adx_url_info_t`: the parameters of a notice. -/
structure UrlInfo where
  remoteaddr : Bytes
  ip : Bytes
  mtype : UInt8
  bid : Bytes
  at_ : ℤ
  mapid : ℤ
  impid : Bytes
  impt : Bytes
  impm : Bytes
  w : Bytes
  h : Bytes
  deviceid : Bytes
  deviceidtype : ℤ
  adx : ℤ
  price : Bytes
  curl : Bytes
  appid : Bytes
  nw : Bytes
  os : Bytes
  gp : Bytes
  tp : Bytes
  mb : Bytes
  md : Bytes
  op : Bytes
  ds : Bytes
  dealid : Bytes
  advid : Bytes
  activationParameter : Bytes
  ua : Bytes
  deriving DecidableEq

/-- `url_info_parse`. -/
def urlInfoParse (remoteaddr requestparam ua : Bytes) : Option UrlInfo := do
  let value := adxStringUrlParamValue requestparam
  let ip ← value (bytes "ip")
  let mtype ← value (bytes "mtype")
  let bid ← value (bytes "bid")
  let at_ ← value (bytes "at")
  let mapid ← value (bytes "mapid")
  let impid ← value (bytes "impid")
  let impt ← value (bytes "impt")
  let impm ← value (bytes "impm")
  let w ← value (bytes "w")
  let h ← value (bytes "h")
  let deviceidtype ← value (bytes "deviceidtype")
  let adx ← value (bytes "adx")
  let price ← value (bytes "price")
  let curl ← value (bytes "curl")
  let appid ← value (bytes "appid")
  let nw ← value (bytes "nw")
  let os ← value (bytes "os")
  let gp ← value (bytes "gp")
  let tp ← value (bytes "tp")
  let mb ← value (bytes "mb")
  let md ← value (bytes "md")
  let op ← value (bytes "op")
  let ds ← value (bytes "ds")
  let dealid ← value (bytes "dealid")
  let advid ← value (bytes "advid")
  let deviceid ← value (bytes "deviceid")
  let activationParameter ← value (bytes "activation_parameter")
  return {
    remoteaddr, ip, mtype := mtype.headD 0, bid, at_ := atoi at_, mapid := atoi mapid, impid, impt,
    impm, w, h, deviceid := tolower deviceid, deviceidtype := atoi deviceidtype, adx := atoi adx,
    price, curl, appid, nw, os, gp, tp, mb, md, op, ds, dealid, advid, activationParameter, ua }

/-- `google_bid_parse`: the request ids of exchange 16 arrive encoded. -/
def googleBidParse (bid : Bytes) : Bytes := cstr (urlDecode bid)

/-- The notice `adx_tracker` works with after its special case for exchange 16. -/
def UrlInfo.decodeBid (u : UrlInfo) : UrlInfo :=
  if u.adx = 16 then { u with bid := googleBidParse u.bid } else u

/-- `dsp_id_flag_(bid)_(impid)_(advid)`. -/
def dspIdFlagKey (bid impid advid : Bytes) : Bytes :=
  bytes "dsp_id_flag_" ++ bid ++ bytes "_" ++ impid ++ bytes "_" ++ advid

/-- The key of the flag word of a notice. -/
def UrlInfo.flagKey (u : UrlInfo) : Bytes := dspIdFlagKey u.bid u.impid u.advid

/-- `get_deviceidtype`: the name of a device id type. -/
def getDeviceidtype (type : ℤ) : Bytes :=
  if type = 0x00 then bytes "unknow_unknow"
  else if type = 0x10 then bytes "imei_Clear"
  else if type = 0x11 then bytes "imei_SHA1"
  else if type = 0x12 then bytes "imei_md5"
  else if type = 0x20 then bytes "mac_Clear"
  else if type = 0x21 then bytes "mac_SHA1"
  else if type = 0x22 then bytes "mac_md5"
  else if type = 0x60 then bytes "androidid_Clear"
  else if type = 0x61 then bytes "androidid_SHA1"
  else if type = 0x62 then bytes "androidid_md5"
  else if type = 0x70 then bytes "idfa_Clear"
  else if type = 0x71 then bytes "idfa_SHA1"
  else if type = 0x72 then bytes "idfa_md5"
  else bytes "other_other"

example : adxStringUrlParamValue (bytes "bid=a=b&&at=0") (bytes "bid") = some (bytes "a=b") := by
  decide

end AdxDsp
