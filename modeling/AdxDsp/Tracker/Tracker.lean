import AdxDsp.Tracker.Control

/-!
# Processing a notice

`adx_tracker`: the parameters are checked, the flag word of the bid decides whether the notice is
new, the price is found by deal or by decryption, and an accepted impression or click is counted.
The answer to the client and the message log are left out, for they feed nothing back.
-/

namespace AdxDsp

open CText Redis

/-! ## Prices -/

/-- A price library: its exchange and, if the library has one, the function `DecodeWinningPrice`,
which returns an error code or a price. -/
structure PriceLib where
  adx : ℤ
  decodeWinningPrice : Option (Bytes → Except ℤ ℚ)

/-- `price_normalization`: the units of the exchanges, without the rounding of a `double`. -/
def priceNormalization (price : ℚ) (adx : ℤ) : ℚ :=
  if adx = 14 then price / 100
  else if adx = 3 ∨ adx = 13 ∨ adx = 23 then price * 100
  else if adx = 16 then price / 10
  else price

/-- `parse_notice_price`: the first library of the exchange decides. -/
def parseNoticePrice : List PriceLib → ℤ → Bytes → Except ErrCode ℚ
  | [], _, _ => .error .dlDecodeFailed
  | l :: libs, adx, coding =>
    if l.adx = adx then
      match l.decodeWinningPrice with
      | none => .error .dlDecodeFailed
      | some decode =>
        match decode coding with
        | .error code => .error (.priceLib code)
        | .ok price => .ok (if price ≠ 0 then priceNormalization price adx else price)
    else parseNoticePrice libs adx coding

/-- What `adx_tracker` finds out about a notice: whether it is valid, why not, and its price. -/
structure DspInfo where
  iv : ℤ
  ic : ErrCode
  price : ℚ

/-- `dsp_id_price_(bid)_(impid)`: the winning price of a bid. -/
def dspIdPriceKey (bid impid : Bytes) : Bytes :=
  bytes "dsp_id_price_" ++ bid ++ bytes "_" ++ impid

/-- The elements of an array reply; every other reply has none. -/
def adxRedisReplyArray : Reply → Except ErrCode (List Bytes)
  | .array [] => .error .redisKeyNotExist
  | .array elements => .ok elements
  | .null => .error .redisCommand
  | .down => .error .redisConnectInvalid
  | _ => .error .redisKeyNotExist

/-- The value of a field in the reply of `HGETALL`, empty if it is absent. -/
def pairsValue (field : Bytes) : List Bytes → Bytes
  | f :: v :: rest => if f = field then v else pairsValue field rest
  | _ => []

section

variable (lib : CLib) (priceLibs : List PriceLib) (u : UrlInfo)

/-- `adx_deal_process`: the fixed price of a deal. -/
def adxDealProcess (price : ℚ) : TrackerProg (ErrCode × ℚ) := do
  let reply ← Prog.call (.adSettingSlave,
    .hgetall (bytes "dsp_fixprice_" ++ decimal u.adx ++ bytes "_" ++ u.dealid))
  match adxRedisReplyArray reply with
  | .error e => return (e, price)
  | .ok values =>
    if u.mtype = mtypeImp ∧ pairsValue (bytes "imp") values ≠ bytes "-1" then
      return (.success, lib.atof (pairsValue (bytes "imp") values))
    else if u.mtype = mtypeClk ∧ pairsValue (bytes "clk") values ≠ bytes "-1" then
      return (.success, lib.atof (pairsValue (bytes "clk") values))
    else return (.success, price)

/-- `adx_rtb_winnotice`: keep the winning price for the impression. -/
def adxRtbWinnotice (price : ℚ) : TrackerProg ErrCode :=
  adxRedisCommand .adCounterMaster
    (.setex (dspIdPriceKey u.bid u.impid) 36000 (lib.formatF price))

/-- `adx_rtb_impnotice`: the price of the win notice. -/
def adxRtbImpnotice (price : ℚ) : TrackerProg (ErrCode × ℚ) := do
  let r ← adxRedisCommandString .adCounterMaster (.get (dspIdPriceKey u.bid u.impid))
  match r with
  | .ok value => return (.success, lib.atof value)
  | .error _ => return (.trackFailedDecodePrice, price)

/-- `adx_rtb_process`.  The early return tests the exchange `adx`, where a test of `mtype` would
leave out the clicks. -/
def adxRtbProcess (price : ℚ) : TrackerProg (ErrCode × ℚ) :=
  if u.adx = mtypeClk.toNat then return (.success, price)
  else
    match (if u.price ≠ [] then parseNoticePrice priceLibs u.adx u.price
      else .error .dlDecodeFailed) with
    | .ok decoded =>
      if u.mtype = mtypeWin then do
        let errcode ← adxRtbWinnotice lib u decoded
        return (errcode, decoded)
      else return (.success, decoded)
    | .error e =>
      if u.mtype = mtypeImp then adxRtbImpnotice lib u price else return (e, price)

end

/-! ## The flag word -/

/-- `DSP_FLAG_PRICE`: a win notice has come. -/
def dspFlagPrice : BitVec 32 := 2

/-- `DSP_FLAG_SHOW`: an impression has come. -/
def dspFlagShow : BitVec 32 := 4

/-- `DSP_FLAG_CLICK`: a click has come. -/
def dspFlagClick : BitVec 32 := 8

/-- Write the flag word of a notice. -/
def dspIdFlagSet (u : UrlInfo) (flag : BitVec 32) : TrackerProg ErrCode :=
  adxRedisCommand .adCounterMaster (.setex u.flagKey 36000 (decimal flag.toInt))

/-- The notice is new, by a flag word that was read. -/
def dspIdFlagAccepts (mtype : UInt8) (flag : BitVec 32) : Bool :=
  if mtype = mtypeWin then flag &&& dspFlagPrice = 0
  else if mtype = mtypeImp then flag &&& dspFlagShow = 0
  else flag &&& dspFlagShow ≠ 0 && flag &&& dspFlagClick = 0

/-- The flag of a kind of notice. -/
def dspIdFlagBit (mtype : UInt8) : BitVec 32 :=
  if mtype = mtypeWin then dspFlagPrice
  else if mtype = mtypeImp then dspFlagShow
  else dspFlagClick

/-- What `adx_tracker` does once it has read the flag word: test the flag and set it.  Impressions
and clicks share the error code of a repeated click. -/
def dspIdFlagTest (u : UrlInfo) (flag : BitVec 32) : TrackerProg ErrCode :=
  if u.mtype = mtypeWin ∨ u.mtype = mtypeImp ∨ u.mtype = mtypeClk then
    if dspIdFlagAccepts u.mtype flag then dspIdFlagSet u (flag ||| dspIdFlagBit u.mtype)
    else return (if u.mtype = mtypeWin then .trackRepeatedWinnotice else .trackRepeatedClknotice)
  else return .success

/-- The flag check of `adx_tracker`: read the word, test the flag, set it. -/
def dspIdFlagCheck (u : UrlInfo) : TrackerProg ErrCode := do
  let r ← adxRedisCommandNumber 0 .adCounterMaster (.get u.flagKey)
  if r.1 = .success then dspIdFlagTest u (BitVec.ofInt 32 r.2) else return r.1

/-! ## `adx_tracker` -/

/-- What the tracker is started with. -/
structure TrackerConf where
  lib : CLib
  priceLibs : List PriceLib
  dump : Dump

/-- The checks of the parameters; the last error found counts. -/
def checkParams (u : UrlInfo) : ErrCode :=
  if u.mapid = 0 then .trackEmptyMapid
  else if u.adx ≤ 0 ∨ u.adx ≥ 255 then .trackUndefineAdx
  else if ¬(u.mtype = mtypeWin ∨ u.mtype = mtypeImp ∨ u.mtype = mtypeClk) then .trackUndefineMtype
  else .success

/-- The checks of the bid id and the imp id. -/
def checkIds (u : UrlInfo) : ErrCode :=
  if u.impid = [] then .trackEmptyImpid else if u.bid = [] then .trackEmptyBid else .success

/-- What is known about a notice after `adx_tracker`; `count` is there when it was counted. -/
structure TrackerResult where
  errcode : ErrCode
  info : DspInfo
  count : Option DspCount

section

variable (conf : TrackerConf) (clk : ℕ → ℤ)

/-- The prices of an accepted notice: by deal for `at = 1`, by auction otherwise. -/
def trackerPrice (u : UrlInfo) : TrackerProg (ErrCode × ℚ) :=
  if u.at_ = 1 then adxDealProcess conf.lib u 0 else adxRtbProcess conf.lib conf.priceLibs u 0

/-- The part of `adx_tracker` behind the flag check. -/
def trackerAccepted (u : UrlInfo) : TrackerProg TrackerResult := do
  let r ← trackerPrice conf u
  let info : DspInfo := ⟨1, .success, r.2⟩
  if u.mtype = mtypeImp ∨ u.mtype = mtypeClk then do
    let c ← adxDspControl conf.lib clk conf.dump u r.2
    return ⟨c.1, info, some c.2⟩
  else return ⟨r.1, info, none⟩

/-- `adx_tracker` from the checks of the parameters on. -/
def adxTracker (u : UrlInfo) : TrackerProg TrackerResult :=
  if checkParams u ≠ .success then return ⟨checkParams u, ⟨0, .success, 0⟩, none⟩
  else if checkIds u ≠ .success then return ⟨checkIds u, ⟨0, checkIds u, 0⟩, none⟩
  else do
    let u := u.decodeBid
    let errcode ← dspIdFlagCheck u
    if errcode = .success then trackerAccepted conf clk u
    else return ⟨errcode, ⟨0, errcode, 0⟩, none⟩

/-- `adx_tracker` on a request: `none` if reading the parameters overruns a buffer. -/
def adxTrackerRequest (remoteaddr requestparam ua : Bytes) : Option (TrackerProg TrackerResult) :=
  (urlInfoParse remoteaddr requestparam ua).map (adxTracker conf clk)

end

end AdxDsp
