import AdxDsp.Bid.Element
import AdxDsp.Lib.Redis

/-!
# Tracking parameters and the flag word of a bid

What the bidder leaves behind for a bid: the parameters of its tracking URLs
(`com_bid_object::SetTraceUrlPar`) and the flag word in the redis cluster
(`BidWork::SetBidRedisFlag`).  Texts are written to buffers of a fixed size; `none` stands for a
text that overruns its buffer.
-/

namespace AdxDsp

open CText Redis

/-! ## `urlencode` -/

/-- A hexadecimal digit, in upper case. -/
def hexchar (n : UInt8) : UInt8 := if n < 10 then 48 + n else 55 + n

/-- The bytes that `urlencode` writes as `%` and two digits; a blank becomes `+` before the test. -/
def isEscaped (c : UInt8) : Bool :=
  (c < 48 && c ≠ 45 && c ≠ 46) || (c < 65 && c > 57) || (c > 90 && c < 97 && c ≠ 95) || c > 122

/-- One step of `urlencode`. -/
def urlencodeByte (c : UInt8) : Bytes :=
  if c = 32 then [43]
  else if isEscaped c then [37, hexchar (c / 16), hexchar (c % 16)]
  else [c]

/-- `urlencode`: it stops at a zero byte. -/
def urlencode (str : Bytes) : Bytes := (cstr str).flatMap urlencodeByte

/-! ## `SetTraceUrlPar` -/

/-- What `cal_impm` counts among the required assets of a native imp. -/
structure NativeCount where
  iconNum : ℕ
  mainimgNum : ℕ
  titleNum : ℕ
  descNum : ℕ
  iconSize : ℕ × ℕ
  mainSize : Option (ℕ × ℕ)

/-- One turn of the loop of `cal_impm`. -/
def NativeCount.add (n : NativeCount) (asset : ComAssetRequest) : NativeCount :=
  if asset.required = 0 then n
  else if asset.type = nativeAssettypeTitle then { n with titleNum := n.titleNum + 1 }
  else if asset.type = nativeAssettypeImage then
    if asset.img.type = assetImagetypeIcon then
      { n with iconNum := n.iconNum + 1, iconSize := (asset.img.w, asset.img.h) }
    else if asset.img.type = assetImagetypeMain then
      { n with
        mainimgNum := n.mainimgNum + 1
        mainSize := some (n.mainSize.getD (asset.img.w, asset.img.h)) }
    else n
  else if asset.type = nativeAssettypeData ∧ asset.data.type = assetDatatypeDesc then
    { n with descNum := n.descNum + 1 }
  else n

/-- `cal_impm`: the parameter `impm` and the size of an imp. -/
def calImpm (imp : ComImpression) : Bytes × ℕ × ℕ :=
  if imp.type = impBanner then
    (decimal imp.ext.instl ++ bytes "," ++ decimal imp.ext.splash, imp.banner.w, imp.banner.h)
  else if imp.type = impNative then
    let n := imp.native.assets.foldl NativeCount.add ⟨0, 0, 0, 0, (0, 0), none⟩
    (decimal n.iconNum ++ bytes "," ++ decimal n.mainimgNum ++ bytes "," ++ decimal n.titleNum ++
      bytes "," ++ decimal n.descNum, n.mainSize.getD n.iconSize)
  else if imp.type = impVideo then ([], imp.video.w, imp.video.h)
  else ([], 0, 0)

/-- `COM_BIDOBJECT`, with the fields that the tracking parameters need. -/
structure ComBid where
  mapid : ℤ
  impid : Bytes
  dealid : Bytes
  imp : ComImpression

/-- The parameters behind `advid`, in their order. -/
def traceUrlRest (req : ComRequest) (bid : ComBid) : Bytes :=
  urlPar (bytes "impt") (decimal bid.imp.type) ++
  urlPar (bytes "impm") (calImpm bid.imp).1 ++
  urlPar (bytes "ip") (cstr req.device.ip) ++
  urlPar (bytes "w") (decimal (calImpm bid.imp).2.1) ++
  urlPar (bytes "h") (decimal (calImpm bid.imp).2.2) ++
  urlPar (bytes "deviceid") (cstr req.device.deviceid) ++
  urlPar (bytes "deviceidtype") (decimal req.device.deviceidtype) ++
  urlPar (bytes "appid") (urlencode req.app.id) ++
  urlPar (bytes "nw") (decimal req.device.connectiontype) ++
  urlPar (bytes "os") (decimal req.device.os) ++
  urlPar (bytes "gp") (decimal req.device.location) ++
  urlPar (bytes "tp") (decimal req.device.devicetype) ++
  urlPar (bytes "mb") (decimal req.device.make) ++
  urlPar (bytes "md") (urlencode req.device.model) ++
  urlPar (bytes "op") (decimal req.device.carrier) ++
  urlPar (bytes "dealid") (cstr bid.dealid)

/-- The text of the tracking parameters. -/
def traceUrlPar (req : ComRequest) (bid : ComBid) : Bytes :=
  urlPar (bytes "bid") (urlencode req.id) ++
  urlPar (bytes "impid") (urlencode bid.impid) ++
  urlPar (bytes "advid") (decimal bid.imp.ext.advid.toNat) ++
  urlPar (bytes "at") (decimal req.at_) ++
  urlPar (bytes "mapid") (decimal bid.mapid) ++
  traceUrlRest req bid

/-- `com_bid_object::SetTraceUrlPar`, with its buffer of 4096 bytes. -/
def setTraceUrlPar (req : ComRequest) (bid : ComBid) : Option Bytes :=
  if (traceUrlPar req bid).length < 4096 then some (traceUrlPar req bid) else none

/-! ## `SetBidRedisFlag` -/

/-- The key of the flag word of a bid; the bid id is the id of the request. -/
def bidFlagKey (req : ComRequest) (bid : ComBid) : Bytes :=
  bytes "dsp_id_flag_" ++ cstr req.id ++ bytes "_" ++ cstr bid.impid ++ bytes "_" ++
    decimal bid.imp.ext.advid.toNat

/-- The command of `BidWork::SetBidRedisFlag` for one bid, with its buffer of 256 bytes. -/
def setBidRedisFlag (req : ComRequest) (bid : ComBid) : Option Cmd :=
  if (bidFlagKey req bid).length < 256 then
    some (.setex (bidFlagKey req bid) bid.imp.requestidlife (bytes "1"))
  else none

end AdxDsp
