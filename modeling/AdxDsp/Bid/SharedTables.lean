import Mathlib.Data.Finset.Basic
import AdxDsp.Lib.Bytes
import AdxDsp.Lib.StdMap

/-!
# The tables of the context

The workers of one process share the tables of its context and read them without a lock.  Some of
the readings are subscripts, which put a missing key into the table.

* **The four adapters** (`TanxBid.serve`, `GoogleAdapter.serve`, `Inmobi.serve`, `BaiduBid.serve`):
  the tables after one request has been parsed and answered.
* **The frame** (`tables_unchanged_iff`): each request leaves the tables as they are exactly when
  every number looked up by subscript is a key of its table.
-/

namespace AdxDsp

open CText

/-- The fields of `com_request` that are filled from the tables. -/
structure TableFields where
  appCat : Finset UInt32 := ∅
  bcat : Finset UInt32 := ∅
  battr : Finset UInt8 := ∅
  make : ℕ := 0
  location : ℤ := 0

/-- `insert` of all the values that the lookups have found. -/
def insertAll {α : Type} [DecidableEq α] (found : List (List α)) : Finset α :=
  found.flatten.toFinset

/-- The search for the maker of a device: the first entry whose key is part of the brand. -/
def deviceMake (devMakeTable : List (Bytes × ℕ)) (brand : Bytes) : ℕ :=
  if brand = [] then 0
  else ((devMakeTable.find? fun e => e.1 <:+: brand).map (·.2)).getD 0

/-- The error for a bad request. -/
def eBadRequest : ℤ := 0xE0010001
/-- The answer to a ping. -/
def eRequestIsPing : ℤ := 0xE0020010
/-- The error for a device. -/
def eRequestDevice : ℤ := 0xE0020201

/-! ## Tanx -/

/-- The tables of `TanxContext`. -/
structure TanxContext where
  appcattable : StdMap Int32 (List UInt32)
  outputadcat : StdMap UInt32 (List Int32)
  inputadcat : StdMap Int32 (List UInt32)
  devMakeTable : List (Bytes × ℕ)

/-- `Tanx::BidRequest_Mobile`: the ids of the categories, and the brand if there is a device. -/
structure TanxMobile where
  appCategories : List Int32
  device : Option Bytes

/-- `Tanx::BidRequest`. -/
structure TanxRequest where
  isPing : Bool
  mobile : Option TanxMobile
  excludedAdCategory : List Int32

/-- The categories and the type of a bid of `_com_resp`. -/
structure TanxBidObject where
  cat : List UInt32
  ctype : ℕ

/-- A request to a worker: its message, unless it cannot be parsed, and the bids with which it is
answered if an ad is selected. -/
structure TanxVisit where
  message : Option TanxRequest
  selected : Option (List TanxBidObject)

namespace TanxBid

/-- `ParseDeviceApp`. -/
def parseDeviceApp (ctx : TanxContext) (req : TanxRequest) (com : TableFields) :
    ℤ × TanxContext × TableFields :=
  match req.mobile with
  | none => (eRequestDevice, ctx, com)
  | some mobile =>
    let (found, table) := ctx.appcattable.indexAll mobile.appCategories
    let ctx := { ctx with appcattable := table }
    let com := { com with appCat := insertAll found }
    match mobile.device with
    | some brand => (0, ctx, { com with make := deviceMake ctx.devMakeTable brand })
    | none => (eRequestDevice, ctx, com)

/-- `set_bcat`; the number is an `uint32_t` on its way to the key. -/
def setBcat (ctx : TanxContext) (req : TanxRequest) (com : TableFields) :
    TanxContext × TableFields :=
  let (found, table) :=
    ctx.inputadcat.indexAll (req.excludedAdCategory.map fun c => c.toUInt32.toInt32)
  ({ ctx with inputadcat := table }, { com with bcat := insertAll found })

/-- `ParseRequest`. -/
def parseRequest (ctx : TanxContext) : Option TanxRequest → ℤ × TanxContext × TableFields
  | none => (eBadRequest, ctx, {})
  | some req =>
    if req.isPing then (eRequestIsPing, ctx, {})
    else
      let (nRes, ctx, com) := parseDeviceApp ctx req {}
      if nRes ≠ 0 then (nRes, ctx, com)
      else
        let (ctx, com) := setBcat ctx req com
        (0, ctx, com)

/-- `set_response_category_new` and the categories that `ParseResponse` adds to it. -/
def setResponseCategory (ctx : TanxContext) (bid : TanxBidObject) : List Int32 × TanxContext :=
  let (found, table) := ctx.outputadcat.indexAll bid.cat
  let category := found.flatten ++ if bid.ctype = 2 ∨ bid.ctype = 3 then [901] else []
  (if category = [] then [79901] else category, { ctx with outputadcat := table })

/-- `ParseResponse(true)`: the categories of the ads. -/
def parseResponse (ctx : TanxContext) : List TanxBidObject → List (List Int32) × TanxContext
  | [] => ([], ctx)
  | bid :: bids =>
    let (category, ctx) := setResponseCategory ctx bid
    let (ads, ctx) := parseResponse ctx bids
    (category :: ads, ctx)

/-- The context after a request has been parsed and answered. -/
def serve (ctx : TanxContext) (v : TanxVisit) : TanxContext :=
  let (nRes, ctx, _) := parseRequest ctx v.message
  if nRes ≠ 0 then ctx
  else
    match v.selected with
    | some bids => (parseResponse ctx bids).2
    | none => ctx

end TanxBid

namespace TanxVisit

/-- The message, if it is parsed beyond the test for a ping. -/
def parsed (v : TanxVisit) : Option TanxRequest := v.message.filter fun req => !req.isPing

/-- The message, if it has a device, without which the parsing stops. -/
def withDevice (v : TanxVisit) : Option TanxRequest :=
  v.parsed.filter fun req => (req.mobile.bind TanxMobile.device).isSome

/-- The numbers looked up in `appcattable`. -/
def appcattableKeys (v : TanxVisit) : List Int32 :=
  ((v.parsed.bind TanxRequest.mobile).map TanxMobile.appCategories).getD []

/-- The numbers looked up in `inputadcat`. -/
def inputadcatKeys (v : TanxVisit) : List Int32 :=
  (v.withDevice.map fun req => req.excludedAdCategory.map fun c => c.toUInt32.toInt32).getD []

/-- The numbers looked up in `outputadcat`. -/
def outputadcatKeys (v : TanxVisit) : List UInt32 :=
  if v.withDevice.isSome then (v.selected.getD []).flatMap TanxBidObject.cat else []

/-- Every number that the request makes the worker look up is a key of its table. -/
def Known (ctx : TanxContext) (v : TanxVisit) : Prop :=
  (∀ k ∈ v.appcattableKeys, ctx.appcattable.Has k) ∧
    (∀ k ∈ v.inputadcatKeys, ctx.inputadcat.Has k) ∧
    ∀ k ∈ v.outputadcatKeys, ctx.outputadcat.Has k

end TanxVisit

/-! ## Google -/

/-- The tables of `GoogleContext`. -/
structure GoogleContext where
  appCatTable : StdMap Int32 (List UInt32)
  devMakeTable : List (Bytes × ℕ)
  creativeAttrIn : StdMap UInt8 UInt8
  geoIpb : StdMap ℤ ℤ

/-- `BidRequest` of Google: the excluded attributes of each slot, the brand if there is a device,
and of a mobile request whether it comes from an application, and its categories. -/
structure GoogleRequest where
  /-- The region of the address, from the table of addresses. -/
  location : ℤ
  geoCriteriaId : Option ℤ
  adslot : List (List Int32)
  device : Option Bytes
  mobile : Option (Bool × List Int32)

namespace GoogleAdapter

/-- `CheckIp`, which searches its table with `find`. -/
def checkIp (ctx : GoogleContext) (geoCriteriaId location : ℤ) : Bool :=
  match ctx.geoIpb.find geoCriteriaId with
  | none => false
  | some region => region = location

/-- `ToCom`.  The loop over the slots ends with the first one. -/
def toCom (ctx : GoogleContext) (req : GoogleRequest) : GoogleContext × TableFields :=
  let location :=
    match req.geoCriteriaId with
    | some geo => if checkIp ctx geo req.location then req.location else 0
    | none => req.location
  let (battr, attrs) := ctx.creativeAttrIn.indexAll
    ((req.adslot.head?.getD []).map fun attr => attr.toUInt32.toUInt8)
  let ctx := { ctx with creativeAttrIn := attrs }
  let make := deviceMake ctx.devMakeTable (req.device.getD [])
  let com : TableFields := { battr := battr.toFinset, make := make, location := location }
  match req.mobile with
  | some (true, appCategoryIds) =>
    let (found, table) := ctx.appCatTable.indexAll appCategoryIds
    ({ ctx with appCatTable := table }, { com with appCat := insertAll found })
  | _ => (ctx, com)

/-- The context after a request; the answer looks nothing up. -/
def serve (ctx : GoogleContext) : Option GoogleRequest → GoogleContext
  | none => ctx
  | some req => (toCom ctx req).1

end GoogleAdapter

namespace GoogleRequest

/-- The numbers looked up in `creative_attr_in`. -/
def creativeAttrInKeys (req : GoogleRequest) : List UInt8 :=
  (req.adslot.head?.getD []).map fun attr => attr.toUInt32.toUInt8

/-- The numbers looked up in `app_cat_table`. -/
def appCatTableKeys (req : GoogleRequest) : List Int32 :=
  match req.mobile with
  | some (true, appCategoryIds) => appCategoryIds
  | _ => []

/-- Every number that the request makes the worker look up is a key of its table. -/
def Known (ctx : GoogleContext) (req : GoogleRequest) : Prop :=
  (∀ k ∈ req.creativeAttrInKeys, ctx.creativeAttrIn.Has k) ∧
    ∀ k ∈ req.appCatTableKeys, ctx.appCatTable.Has k

end GoogleRequest

/-! ## Inmobi -/

/-- The tables of `InmobiContext`. -/
structure InmobiContext where
  appCatTableAdx2com : StdMap Bytes (List UInt32)
  advCatTableAdx2com : StdMap Bytes (List UInt32)
  devMakeTable : List (Bytes × ℕ)

/-- `MESSAGEREQUEST`. -/
structure InmobiRequest where
  appCat : List Bytes
  make : Bytes
  bcat : List Bytes

namespace Inmobi

/-- `ToCom`. -/
def toCom (ctx : InmobiContext) (req : InmobiRequest) : InmobiContext × TableFields :=
  let (app, appTable) := ctx.appCatTableAdx2com.indexAll req.appCat
  let (adv, advTable) := ctx.advCatTableAdx2com.indexAll req.bcat
  ({ ctx with appCatTableAdx2com := appTable, advCatTableAdx2com := advTable },
    { appCat := insertAll app
      bcat := insertAll adv
      make := deviceMake ctx.devMakeTable req.make })

/-- The context after a request, which has no message if its text is not JSON. -/
def serve (ctx : InmobiContext) : Option InmobiRequest → InmobiContext
  | none => ctx
  | some req => (toCom ctx req).1

end Inmobi

/-- Every category that the request makes the worker look up is a key of its table. -/
def InmobiRequest.Known (ctx : InmobiContext) (req : InmobiRequest) : Prop :=
  (∀ k ∈ req.appCat, ctx.appCatTableAdx2com.Has k) ∧ ∀ k ∈ req.bcat, ctx.advCatTableAdx2com.Has k

/-! ## Baidu -/

/-- The tables of `BaiduContext`. -/
structure BaiduContext where
  appCatTable : StdMap Int32 (List UInt32)
  advCatTable : StdMap Int32 (List UInt32)
  devMakeTable : List (Bytes × ℕ)

/-- `BidRequest_Mobile` of Baidu: the category of the application, if there is one, and the
brand. -/
structure BaiduMobile where
  mobileApp : Option Int32
  brand : Bytes

/-- `BidRequest` of Baidu. -/
structure BaiduRequest where
  isPing : Bool
  mobile : Option BaiduMobile
  excludedProductCategory : List Int32

namespace BaiduBid

/-- `ParseApp`. -/
def parseApp (ctx : BaiduContext) (req : BaiduRequest) (com : TableFields) :
    ℤ × BaiduContext × TableFields :=
  match req.mobile with
  | none => (eRequestDevice, ctx, com)
  | some mobile =>
    match mobile.mobileApp with
    | none => (0, ctx, com)
    | some appCat =>
      let (found, table) := ctx.appCatTable.index appCat
      (0, { ctx with appCatTable := table }, { com with appCat := insertAll [found] })

/-- The part of `ParseDevice` that reads a table. -/
def parseDevice (ctx : BaiduContext) (req : BaiduRequest) (com : TableFields) : TableFields :=
  { com with make := deviceMake ctx.devMakeTable ((req.mobile.map BaiduMobile.brand).getD []) }

/-- `Set_bcat`. -/
def setBcat (ctx : BaiduContext) (req : BaiduRequest) (com : TableFields) :
    BaiduContext × TableFields :=
  let (found, table) := ctx.advCatTable.indexAll req.excludedProductCategory
  ({ ctx with advCatTable := table }, { com with bcat := insertAll found })

/-- `ParseRequest`; `ParseImp` reads no table and succeeds. -/
def parseRequest (ctx : BaiduContext) : Option BaiduRequest → ℤ × BaiduContext × TableFields
  | none => (eBadRequest, ctx, {})
  | some req =>
    if req.isPing then (eRequestIsPing, ctx, {})
    else
      let (ret, ctx, com) := parseApp ctx req {}
      if ret ≠ 0 then (ret, ctx, com)
      else
        let (ctx, com) := setBcat ctx req (parseDevice ctx req com)
        (0, ctx, com)

/-- The context after a request; the answer looks nothing up. -/
def serve (ctx : BaiduContext) (message : Option BaiduRequest) : BaiduContext :=
  (parseRequest ctx message).2.1

end BaiduBid

namespace BaiduRequest

/-- The number looked up in `app_cat_table`. -/
def appCatTableKeys (req : BaiduRequest) : List Int32 :=
  if req.isPing then [] else (req.mobile.bind BaiduMobile.mobileApp).toList

/-- The numbers looked up in `adv_cat_table`. -/
def advCatTableKeys (req : BaiduRequest) : List Int32 :=
  if req.isPing ∨ req.mobile = none then [] else req.excludedProductCategory

/-- Every number that the request makes the worker look up is a key of its table. -/
def Known (ctx : BaiduContext) (req : BaiduRequest) : Prop :=
  (∀ k ∈ req.appCatTableKeys, ctx.appCatTable.Has k) ∧
    ∀ k ∈ req.advCatTableKeys, ctx.advCatTable.Has k

end BaiduRequest

/-! ## One request -/

section

open StdMap

/-- A response reads the categories through `operator[]`. -/
theorem TanxBid.parseResponse_tables (ctx : TanxContext) (bids : List TanxBidObject) :
    (parseResponse ctx bids).2 = { ctx with
      outputadcat := (ctx.outputadcat.indexAll (bids.flatMap TanxBidObject.cat)).2 } := by
  induction bids generalizing ctx with
  | nil => rfl
  | cons bid bids ih =>
    show (parseResponse (setResponseCategory ctx bid).2 bids).2 = _
    rw [ih, List.flatMap_cons, indexAll_append]
    rfl

/-- What a request to Tanx makes of the tables. -/
theorem TanxBid.serve_tables (ctx : TanxContext) (v : TanxVisit) :
    serve ctx v = { ctx with
      appcattable := (ctx.appcattable.indexAll v.appcattableKeys).2
      inputadcat := (ctx.inputadcat.indexAll v.inputadcatKeys).2
      outputadcat := (ctx.outputadcat.indexAll v.outputadcatKeys).2 } := by
  obtain ⟨message, selected⟩ := v
  cases message with
  | none => rfl
  | some req =>
    obtain ⟨isPing, mobile, excluded⟩ := req
    cases isPing with
    | true => rfl
    | false =>
      -- without a mobile or its device the parsing stops before the other two tables
      rcases mobile with _ | ⟨appCategories, _ | brand⟩
      · rfl
      · rfl
      · cases selected with
        | none => rfl
        | some bids =>
          show (parseResponse _ bids).2 = _
          rw [parseResponse_tables]
          rfl

/-- A visit keeps the tables just if it asks for known keys. -/
theorem TanxBid.serve_keeps_iff (ctx : TanxContext) (v : TanxVisit) :
    serve ctx v = ctx ↔ v.Known ctx := by
  rw [serve_tables, TanxVisit.Known, ← indexAll_keeps_iff, ← indexAll_keeps_iff,
    ← indexAll_keeps_iff]
  obtain ⟨_, _, _, _⟩ := ctx
  simp only [TanxContext.mk.injEq, and_true]
  tauto

/-- What a request to Google makes of the tables. -/
theorem GoogleAdapter.toCom_tables (ctx : GoogleContext) (req : GoogleRequest) :
    (toCom ctx req).1 = { ctx with
      creativeAttrIn := (ctx.creativeAttrIn.indexAll req.creativeAttrInKeys).2
      appCatTable := (ctx.appCatTable.indexAll req.appCatTableKeys).2 } := by
  obtain ⟨location, geo, adslot, device, mobile⟩ := req
  rcases mobile with _ | ⟨_ | _, appCategoryIds⟩ <;> rfl

/-- A request keeps the tables just if it asks for known keys. -/
theorem GoogleAdapter.toCom_keeps_iff (ctx : GoogleContext) (req : GoogleRequest) :
    (toCom ctx req).1 = ctx ↔ req.Known ctx := by
  rw [toCom_tables, GoogleRequest.Known, ← indexAll_keeps_iff, ← indexAll_keeps_iff]
  obtain ⟨_, _, _, _⟩ := ctx
  simp only [GoogleContext.mk.injEq, true_and, and_true]
  tauto

/-- A request keeps the tables just if it asks for known keys. -/
theorem Inmobi.toCom_keeps_iff (ctx : InmobiContext) (req : InmobiRequest) :
    (toCom ctx req).1 = ctx ↔ req.Known ctx := by
  rw [InmobiRequest.Known, ← indexAll_keeps_iff, ← indexAll_keeps_iff]
  obtain ⟨_, _, _⟩ := ctx
  simp only [toCom, InmobiContext.mk.injEq, and_true]

/-- What a request to Baidu makes of the tables. -/
theorem BaiduBid.serve_tables (ctx : BaiduContext) (req : BaiduRequest) :
    serve ctx (some req) = { ctx with
      appCatTable := (ctx.appCatTable.indexAll req.appCatTableKeys).2
      advCatTable := (ctx.advCatTable.indexAll req.advCatTableKeys).2 } := by
  obtain ⟨isPing, mobile, excluded⟩ := req
  cases isPing with
  | true => rfl
  | false =>
    rcases mobile with _ | ⟨_ | appCat, brand⟩
    · rfl
    · rfl
    · rfl

/-- A request keeps the tables just if it asks for known keys. -/
theorem BaiduBid.serve_keeps_iff (ctx : BaiduContext) (req : BaiduRequest) :
    serve ctx (some req) = ctx ↔ req.Known ctx := by
  rw [serve_tables, BaiduRequest.Known, ← indexAll_keeps_iff, ← indexAll_keeps_iff]
  obtain ⟨_, _, _⟩ := ctx
  simp only [BaiduContext.mk.injEq, and_true]

/-- A request whose message cannot be parsed changes nothing. -/
theorem keeps_message_iff {σ ρ : Type} {serve : σ → Option ρ → σ} {known : σ → ρ → Prop} {s : σ}
    (hnone : serve s none = s) (hsome : ∀ req, serve s (some req) = s ↔ known s req)
    (m : Option ρ) : serve s m = s ↔ ∀ req ∈ m, known s req := by
  cases m with
  | none => simp [hnone]
  | some req => simp [hsome]

end

/-- **The tables are left as they are** by each of a sequence of requests exactly when every number
looked up by subscript, in each of the requests, is a key of its table. -/
theorem tables_unchanged_iff (tanx : TanxContext) (visits : List TanxVisit)
    (google : GoogleContext) (googleMsgs : List (Option GoogleRequest))
    (inmobi : InmobiContext) (inmobiMsgs : List (Option InmobiRequest))
    (baidu : BaiduContext) (baiduMsgs : List (Option BaiduRequest)) :
    (EachKeeps TanxBid.serve tanx visits ↔ ∀ v ∈ visits, v.Known tanx) ∧
      (EachKeeps GoogleAdapter.serve google googleMsgs ↔
        ∀ m ∈ googleMsgs, ∀ req ∈ m, req.Known google) ∧
      (EachKeeps Inmobi.serve inmobi inmobiMsgs ↔
        ∀ m ∈ inmobiMsgs, ∀ req ∈ m, req.Known inmobi) ∧
      (EachKeeps BaiduBid.serve baidu baiduMsgs ↔
        ∀ m ∈ baiduMsgs, ∀ req ∈ m, req.Known baidu) := by
  refine ⟨?_, ?_, ?_, ?_⟩
  · rw [eachKeeps_iff]
    simp only [TanxBid.serve_keeps_iff]
  · rw [eachKeeps_iff]
    exact forall₂_congr fun m _ => keeps_message_iff rfl (GoogleAdapter.toCom_keeps_iff google) m
  · rw [eachKeeps_iff]
    exact forall₂_congr fun m _ => keeps_message_iff rfl (Inmobi.toCom_keeps_iff inmobi) m
  · rw [eachKeeps_iff]
    exact forall₂_congr fun m _ => keeps_message_iff rfl (BaiduBid.serve_keeps_iff baidu) m

/-- A request to Baidu that excludes a category missing from the file of categories. -/
def unknownCategory : BaiduRequest where
  isPing := false
  mobile := some ⟨some 1, bytes "vivo"⟩
  excludedProductCategory := [7, 99]

/-- The tables of a Baidu context that knows one category of applications and one of ads. -/
def smallBaiduContext : BaiduContext where
  appCatTable := .ofList [(1, [0x10100])]
  advCatTable := .ofList [(7, [0x60200])]
  devMakeTable := []

/-- An unknown category is put into the shared table. -/
theorem unknown_category_inserted :
    smallBaiduContext.advCatTable.find 99 = none ∧
      (BaiduBid.serve smallBaiduContext (some unknownCategory)).advCatTable.find 99 = some [] ∧
      ¬ EachKeeps BaiduBid.serve smallBaiduContext [some unknownCategory] := by
  have hafter :
      (BaiduBid.serve smallBaiduContext (some unknownCategory)).advCatTable.find 99 = some [] := rfl
  refine ⟨rfl, hafter, fun h => ?_⟩
  have hkeep := (eachKeeps_iff BaiduBid.serve).mp h (some unknownCategory) (by simp)
  rw [hkeep] at hafter
  exact absurd hafter (by decide)

end AdxDsp
