import AdxDsp.Lib.GrowingVector
import AdxDsp.Bid.Filter

/-!
# Data kept by the address of an imp

Tanx and Autohome keep what they need for the response in a map whose keys are the addresses of the
imps (`tanx_bid.cpp`, `autohome_bid.cpp`).  The addresses are taken while the vector of the imps
still grows, and `com_request::CheckInstl` erases imps from it afterwards.

* `imp_data_found`: when each bid finds the data of its own imp.
* `two_imps_lost`: two imps and room for one.
-/

namespace AdxDsp

open CText

namespace ImpAddress

/-! ## Sizes -/

/-- `%d` of `sscanf`: an `int`, and what follows it. -/
def scanInt (t : Bytes) : Option (ℤ × Bytes) :=
  let sign := match t.dropWhile isSpace with
    | 45 :: rest => ((-1 : ℤ), rest)
    | 43 :: rest => (1, rest)
    | rest => (1, rest)
  let digits := sign.2.takeWhile isDigit
  if digits = [] then none
  else some (toInt32 (sign.1 * digitsValue digits), sign.2.drop digits.length)

/-- `sscanf` with `%dx%d`, for variables that are 0 before. -/
def scanSize (t : Bytes) : ℤ × ℤ :=
  match scanInt t with
  | none => (0, 0)
  | some (w, 120 :: rest) => (w, ((scanInt rest).map Prod.fst).getD 0)
  | some (w, _) => (w, 0)

/-- Conversion to `uint16_t`. -/
def toUInt16 (z : ℤ) : ℕ := (z % 2 ^ 16).toNat

/-! ## The native creative of Tanx -/

/-- `Tanx::BidRequest_Mobile_NativeAdTemplate_Area_Creative` -/
structure TanxCreative where
  requiredFields : List ℤ
  recommendedFields : List ℤ
  titleMaxSafeLength : ℤ
  adWordsMaxSafeLength : ℤ
  imageSize : Bytes
  deriving DecidableEq

/-- `Tanx::BidRequest_Mobile_NativeAdTemplate_Area` -/
structure TanxArea where
  id : ℤ
  creativeCount : ℤ
  creative : Option TanxCreative
  deriving DecidableEq

/-- `Tanx::BidRequest_Mobile_NativeAdTemplate` -/
structure TanxTemplate where
  nativeTemplateId : Bytes
  areas : List TanxArea
  deriving DecidableEq

/-- `NATIVE_CREATIVE` -/
structure NativeCreative where
  nativeTemplateId : List (ℤ × List Bytes)
  requiredFields : List ℤ
  recommendedFields : List ℤ
  titleMaxSafeLength : ℤ
  adWordsMaxSafeLength : ℤ
  imageSize : Bytes
  id : ℤ
  creativeCount : ℤ
  deriving DecidableEq

/-- The constructor of `NATIVE_CREATIVE`. -/
instance : Inhabited NativeCreative := ⟨⟨[], [], [], 0, 0, [], 0, 0⟩⟩

/-- `native_template_id[key].push_back(id)` -/
def pushId (key : ℤ) (id : Bytes) (ids : List (ℤ × List Bytes)) : List (ℤ × List Bytes) :=
  (key, (ids.lookup key).getD [] ++ [id]) :: ids.filter (·.1 ≠ key)

/-- The asset of a field, if it is a title or a text; a length of 0 counts as 15 characters. -/
def titleOrData (required : ℕ) (titleLen adWordsLen field : ℤ) : Option ComAssetRequest :=
  let length (len : ℤ) : ℕ := ((if len = 0 then 15 * 3 else len) % 2 ^ 32).toNat
  if field = 1 then
    some ⟨required, nativeAssettypeTitle, length titleLen, ⟨0, 0, 0, []⟩, ⟨0, 0⟩⟩
  else if field = 2 then
    some ⟨required, nativeAssettypeData, 0, ⟨0, 0, 0, []⟩, ⟨assetDatatypeDesc, length adWordsLen⟩⟩
  else none

/-- `initialize_title_or_data` -/
def initializeTitleOrData (fields : List ℤ) (required : ℕ) (titleLen adWordsLen : ℤ) :
    List ComAssetRequest :=
  fields.filterMap (titleOrData required titleLen adWordsLen)

/-- One turn of the loop over the templates; `first` in the first one. -/
def addTemplate (first : Bool) (creative : NativeCreative) (template : TanxTemplate) :
    Option NativeCreative := do
  let area ← template.areas.head?
  let c ← area.creative
  -- field 13 is a download
  let downloads := c.requiredFields.filter (· = 13)
  let ids := downloads.foldl (fun ids _ => pushId 1 template.nativeTemplateId ids)
    creative.nativeTemplateId
  let ids := if downloads = [] then pushId 0 template.nativeTemplateId ids else ids
  if first then
    return {
      nativeTemplateId := ids
      requiredFields := creative.requiredFields ++ c.requiredFields.filter (· ≠ 13)
      recommendedFields := creative.recommendedFields ++ c.recommendedFields
      titleMaxSafeLength := c.titleMaxSafeLength
      adWordsMaxSafeLength := c.adWordsMaxSafeLength
      imageSize := c.imageSize
      id := area.id
      creativeCount := area.creativeCount }
  else return { creative with nativeTemplateId := ids }

/-- The loop over the templates. -/
def addTemplates : Bool → NativeCreative → List TanxTemplate → Option NativeCreative
  | _, creative, [] => some creative
  | first, creative, template :: templates => do
    let creative ← addTemplate first creative template
    addTemplates false creative templates

/-- `CTYPE_DOWNLOAD_APP` -/
def ctypeDownloadApp : ℕ := 2

/-- `CTYPE_DOWNLOAD_APP_FROM_APPSTORE` -/
def ctypeDownloadAppFromAppstore : ℕ := 3

/-- The native request of a creative. -/
def nativeRequest (creative : NativeCreative) : ComNative where
  bctype := if (creative.nativeTemplateId.lookup 1).isNone then
    [ctypeDownloadApp, ctypeDownloadAppFromAppstore] else []
  imgNum := 0
  assets :=
    let size := scanSize creative.imageSize
    ⟨1, nativeAssettypeImage, 0, ⟨assetImagetypeMain, toUInt16 size.1, toUInt16 size.2, []⟩,
      ⟨0, 0⟩⟩ ::
      initializeTitleOrData creative.requiredFields 1 creative.titleMaxSafeLength
        creative.adWordsMaxSafeLength ++
      initializeTitleOrData creative.recommendedFields 0 creative.titleMaxSafeLength
        creative.adWordsMaxSafeLength

/-- `initialize_have_native`: the creative of the request, the same for each of its imps.  Without
`mobile` there is nothing to read. -/
def initializeHaveNative (mobile : Option (List TanxTemplate)) :
    Option (NativeCreative × ComNative) :=
  match mobile with
  | none => some (default, ⟨[], 0, []⟩)
  | some templates => do
    let creative ← addTemplates true default templates
    if creative.nativeTemplateId = [] then none else return (creative, nativeRequest creative)

/-! ## The imps of Tanx -/

/-- `Tanx::BidRequest_AdzInfo` -/
structure AdzInfo where
  id : Option ℕ
  api : List ℕ
  impressionRepeatable : Bool
  minCpmPrice : Option ℕ
  size : Option Bytes
  viewType : List ℕ
  excludedFilter : List ℕ
  deriving DecidableEq

/-- `ADTYPE_TEXT_LINK` -/
def adtypeTextLink : ℕ := 1

/-- `ADTYPE_FLASH` -/
def adtypeFlash : ℕ := 7

/-- `REQUESTIDLIFE` -/
def requestidlife : ℕ := 1800

/-- `TanxBid::is_banner` -/
def isBanner (viewtype : ℕ) : Bool := viewtype = 101 || viewtype = 102 || viewtype = 103

/-- `TanxBid::is_native` -/
def isNative (viewtype : ℕ) : Bool := viewtype = 108

/-- The type of creatives that a filter excludes. -/
def excludedType (excludefilter : ℕ) : Option ℕ :=
  if excludefilter = 1 then some adtypeTextLink
  else if excludefilter = 2 then some adtypeImage
  else if excludefilter = 3 then some adtypeFlash
  else if excludefilter = 4 then some adtypeVideo
  else none

/-- One turn of the loop of `TanxBid::ParseImp`: the imp, and its creative if it is native.  Videos
and all other kinds of imps are skipped. -/
def parseAdz (setsize : List Bytes) (mobile : Option (List TanxTemplate)) (adz : AdzInfo) :
    Option (ComImpression × Option NativeCreative) :=
  if adz.api ≠ [] then none
  else if adz.impressionRepeatable then none
  else
    match adz.size with
    | none => none
    | some size =>
      let imp : ComImpression := {
        id := adz.id.elim [] fun id => decimal id
        type := 0
        banner := ⟨0, 0, [], []⟩
        video := ⟨[], 0, 0, false⟩
        native := ⟨[], 0, []⟩
        requestidlife := requestidlife
        bidfloor := adz.minCpmPrice.elim 0 fun price => toInt32 price
        fprice := []
        dealprice := []
        ext := ⟨0, 0, 0⟩ }
      let viewtype := adz.viewType.headD 0
      if isBanner viewtype then
        let factor : ℤ := if size ∈ setsize then 2 else 1
        let wh := scanSize size
        some ({ imp with
          type := impBanner
          banner := ⟨toUInt16 (wh.1 * factor), toUInt16 (wh.2 * factor),
            adz.excludedFilter.filterMap excludedType, []⟩ }, none)
      else if isNative viewtype then
        (initializeHaveNative mobile).map fun one =>
          ({ imp with type := impNative, requestidlife := 10800, native := one.2 }, some one.1)
      else none

/-! ## Checking the imps -/

/-- What `com_request::CheckInstl` does with an imp: banners of a size that is not known are
erased. -/
def checkInstlOne (imgImptype : List (Bytes × ℕ)) (imp : ComImpression) : Option ComImpression :=
  if imp.type ≠ impBanner then some imp
  else
    (imgImptype.lookup (decimal imp.banner.w ++ bytes "x" ++ decimal imp.banner.h)).map fun instl =>
      if imp.ext.instl = 0 then { imp with ext := { imp.ext with instl := instl } } else imp

/-- The check keeps the type of an impression. -/
theorem checkInstlOne_type {imgImptype : List (Bytes × ℕ)} {imp imp' : ComImpression}
    (h : checkInstlOne imgImptype imp = some imp') : imp'.type = imp.type := by
  unfold checkInstlOne at h
  by_cases hbanner : imp.type ≠ impBanner
  · rw [if_pos hbanner] at h
    rw [Option.some.inj h]
  · rw [if_neg hbanner] at h
    obtain ⟨instl, -, rfl⟩ := Option.map_eq_some_iff.mp h
    split_ifs <;> rfl

/-! ## Tanx -/

section

variable {α : Type} [DecidableEq α] (g : Growth) (address : ℕ → ℕ → α)
  (imgImptype : List (Bytes × ℕ))

/-- The parts of a Tanx request that `ParseImp` reads. -/
structure TanxRequest where
  adzinfo : List AdzInfo
  mobile : Option (List TanxTemplate)

/-- The imps that are pushed, with their creatives. -/
def TanxRequest.items (setsize : List Bytes) (req : TanxRequest) :
    List (ComImpression × Option NativeCreative) :=
  req.adzinfo.filterMap (parseAdz setsize req.mobile)

/-- `TanxBid::ParseImp`, after `_natives.clear()` and `imp.clear()`. -/
def TanxRequest.parseImp (setsize : List Bytes) (vec : GrowingVector ComImpression)
    (req : TanxRequest) : Addressed ComImpression NativeCreative α :=
  Addressed.storeAll g address ⟨vec.clear, ⟨fun _ => none⟩⟩ (req.items setsize)

/-- The bids for native imps; a bid is given by the place of its imp in the vector. -/
def nativeBids (vec : GrowingVector ComImpression) (bids : List ℕ) : List ℕ :=
  bids.filter fun p => vec.elems[p]?.any (·.type = impNative)

/-- The lookups of `TanxBid::ParseResponse`, after the imps have been checked. -/
def tanxReads (s : Addressed ComImpression NativeCreative α) (bids : List ℕ) :
    List (ℕ × NativeCreative) :=
  let vec := s.vec.sweep (checkInstlOne imgImptype)
  let native := nativeBids vec bids
  native.zip (s.data.indexAll (native.map (address vec.buffer))).1

/-- Each lookup gives the data that were made for the imp of its bid. -/
def Right {δ : Type} (items : List (ComImpression × Option δ)) (reads : List (ℕ × Option δ)) :
    Prop :=
  ∀ e ∈ reads, ∃ i imp d, (origins (checkInstlOne imgImptype) (items.map Prod.fst))[e.1]? = some i ∧
    items[i]? = some (imp, some d) ∧ e.2 = some d

/-- The imp at the place of the bid was native when it was pushed, and no later push has moved the
vector; or the creative of the request is the one that the map inserts for a missing key. -/
def TanxKept (capacity : ℕ) (setsize : List Bytes) (req : TanxRequest) (p : ℕ) : Prop :=
  (initializeHaveNative req.mobile).map Prod.fst = some default ∨
    Settled g capacity (req.items setsize).length p ∧
      ∃ imp one, (req.items setsize)[p]? = some (imp, some one)

end

/-! ## Autohome -/

section

variable {α : Type} [DecidableEq α] (g : Growth) (address : ℕ → ℕ → α)
  (imgImptype : List (Bytes × ℕ))

/-- `DATA_RESPONSE` -/
structure DataResponse where
  slotid : Bytes
  creativeType : ℕ
  templateld : ℤ
  deriving DecidableEq

/-- A request of Autohome: the objects that `adSlot` starts with, and the bids of the response. -/
structure AutohomeRequest (σ : Type) where
  slots : List σ
  bids : List ℕ

variable {σ : Type} (parseImp : σ → Option (ComImpression × DataResponse))

/-- The imps that are pushed, with their data. -/
def AutohomeRequest.items (req : AutohomeRequest σ) :
    List (ComImpression × Option DataResponse) :=
  req.slots.filterMap fun slot => (parseImp slot).map fun e => (e.1, some e.2)

/-- `AutohomeBid::ParseRequest`, after `imp.clear()`, and the check of the imps; `_imp_tmp` is not
cleared. -/
def AutohomeRequest.serve (s : Addressed ComImpression DataResponse α) (req : AutohomeRequest σ) :
    Addressed ComImpression DataResponse α :=
  let s := Addressed.storeAll g address ⟨s.vec.clear, s.data⟩ (req.items parseImp)
  ⟨s.vec.sweep (checkInstlOne imgImptype), s.data⟩

/-- The lookups of `AutohomeBid::ParseResponse`; `none` is the failing assertion. -/
def AutohomeRequest.reads (s : Addressed ComImpression DataResponse α)
    (req : AutohomeRequest σ) : List (ℕ × Option DataResponse) :=
  let s := req.serve g address imgImptype parseImp s
  req.bids.map fun p => (p, s.data.find (address s.vec.buffer p))

/-- No imp up to that of the bid is erased, and no later push has moved the vector. -/
def AutohomeKept (capacity : ℕ) (req : AutohomeRequest σ) (p : ℕ) : Prop :=
  (origins (checkInstlOne imgImptype) ((req.items parseImp).map Prod.fst))[p]? = some p ∧
    Settled g capacity (req.items parseImp).length p

end

/-! ## What Tanx finds -/

section

variable {α : Type} [DecidableEq α] {g : Growth} {address : ℕ → ℕ → α}
  {imgImptype : List (Bytes × ℕ)} {setsize : List Bytes} {vec : GrowingVector ComImpression}
  {req : TanxRequest} {bids : List ℕ} {p : ℕ}

/-- Exactly the native imps have a creative, which is that of the request. -/
theorem parseAdz_spec {mobile : Option (List TanxTemplate)} {adz : AdzInfo} {imp : ComImpression}
    {o : Option NativeCreative} (h : parseAdz setsize mobile adz = some (imp, o)) :
    (imp.type = impNative → ∃ one, o = some one) ∧
      ∀ one, o = some one → (initializeHaveNative mobile).map Prod.fst = some one := by
  unfold parseAdz at h
  split_ifs at h
  cases hsize : adz.size with
  | none =>
    rw [hsize] at h
    cases h
  | some size =>
    rw [hsize] at h
    dsimp only at h
    by_cases hbanner : isBanner (adz.viewType.headD 0) = true
    · rw [if_pos hbanner] at h
      obtain ⟨rfl, rfl⟩ := Prod.mk.inj (Option.some.inj h)
      exact ⟨fun htype => absurd htype (show impBanner ≠ impNative by decide), nofun⟩
    · rw [if_neg hbanner] at h
      split_ifs at h
      obtain ⟨one, hone, heq⟩ := Option.map_eq_some_iff.mp h
      obtain ⟨rfl, rfl⟩ := Prod.mk.inj heq
      refine ⟨fun _ => ⟨one.1, rfl⟩, fun _ hsome => ?_⟩
      rw [hone, Option.map_some, hsome]

/-- The native creative of an item is that of the mobile. -/
theorem creative_of_mem_items {imp : ComImpression} {o : Option NativeCreative}
    (h : (imp, o) ∈ req.items setsize) :
    (imp.type = impNative → ∃ one, o = some one) ∧
      ∀ one, o = some one → (initializeHaveNative req.mobile).map Prod.fst = some one := by
  obtain ⟨adz, -, hadz⟩ := List.mem_filterMap.mp h
  exact parseAdz_spec hadz

/-- The impressions are those of the items. -/
theorem elems_parseImp : (req.parseImp g address setsize vec).vec.elems =
    (req.items setsize).map Prod.fst :=
  Addressed.elems_storeAll rfl

/-- The buffer depends on how many impressions were pushed. -/
theorem buffer_parseImp : (req.parseImp g address setsize vec).vec.buffer =
    vec.clear.buffer + growths g vec.clear.capacity (req.items setsize).length :=
  Addressed.buffer_storeAll rfl

/-- Where the imp of a native bid comes from. -/
theorem exists_of_mem_nativeBids
    (h : p ∈ nativeBids ((req.parseImp g address setsize vec).vec.sweep
      (checkInstlOne imgImptype)) bids) :
    ∃ i imp one,
      (origins (checkInstlOne imgImptype) ((req.items setsize).map Prod.fst))[p]? = some i ∧
        (req.items setsize)[i]? = some (imp, some one) ∧
          (initializeHaveNative req.mobile).map Prod.fst = some one := by
  have hany := (List.mem_filter.mp h).2
  rw [GrowingVector.sweep_elems, elems_parseImp, getElem?_filterMap] at hany
  obtain ⟨imp', himp', htype⟩ := (Option.any_eq_true _ _).mp hany
  obtain ⟨i, hi, hbind⟩ := Option.bind_eq_some_iff.mp himp'
  obtain ⟨imp, himp, hcheck⟩ := Option.bind_eq_some_iff.mp hbind
  rw [List.getElem?_map] at himp
  obtain ⟨⟨x, o⟩, hitem, rfl⟩ := Option.map_eq_some_iff.mp himp
  obtain ⟨hnative, hcreative⟩ := creative_of_mem_items (List.mem_of_getElem? hitem)
  have hx : x.type = impNative := by
    rw [← checkInstlOne_type hcheck]
    exact of_decide_eq_true htype
  obtain ⟨one, rfl⟩ := hnative hx
  exact ⟨i, x, one, hi, hitem, hcreative one rfl⟩

/-- What is read for the native bids is what lies at the addresses of their impressions. -/
theorem tanxReads_eq (s : Addressed ComImpression NativeCreative α) :
    tanxReads address imgImptype s bids =
      (nativeBids (s.vec.sweep (checkInstlOne imgImptype)) bids).map fun p =>
        (p, (s.data.find (address s.vec.buffer p)).getD default) := by
  unfold tanxReads
  dsimp only
  rw [StdMap.fst_indexAll, List.map_map, GrowingVector.sweep_buffer]
  have hzip := List.zip_map' (f := id)
    (g := fun p => (s.data.find (address s.vec.buffer p)).getD default)
    (l := nativeBids (s.vec.sweep (checkInstlOne imgImptype)) bids)
  rwa [List.map_id] at hzip

/-- A lookup finds the creative of its imp if the imp of its place is kept. -/
theorem tanx_read_of_kept (hinj : ∀ b, Function.Injective (address b)) {one : NativeCreative}
    (hone : (initializeHaveNative req.mobile).map Prod.fst = some one)
    (hkept : TanxKept g vec.capacity setsize req p) :
    ((req.parseImp g address setsize vec).data.find
      (address (req.parseImp g address setsize vec).vec.buffer p)).getD default = one := by
  -- whatever is in the map is the creative of the request
  have hvalue : ∀ a d, (req.parseImp g address setsize vec).data.find a = some d → d = one := by
    intro a d hfind
    rcases Addressed.mem_of_find_storeAll hfind with hold | ⟨⟨imp, o⟩, hitem, rfl⟩
    · cases hold
    · have := (creative_of_mem_items hitem).2 d rfl
      exact Option.some.inj (this.symm.trans hone)
  rcases hkept with hdefault | ⟨hsettled, imp, d, hp⟩
  · obtain rfl := Option.some.inj (hdefault.symm.trans hone)
    cases hfind : (req.parseImp g address setsize vec).data.find
      (address (req.parseImp g address setsize vec).vec.buffer p) with
    | none => rfl
    | some d => exact hvalue _ d hfind
  · have hfind : (req.parseImp g address setsize vec).data.find
        (address (req.parseImp g address setsize vec).vec.buffer p) = some d := by
      rw [buffer_parseImp]
      exact Addressed.find_storeAll_of_settled rfl hinj hp hsettled
    rw [hfind, Option.getD_some]
    exact hvalue _ d hfind

/-- Where no address is used twice, a lookup finds the creative only if the imp is kept. -/
theorem tanx_kept_of_read
    (hinj : ∀ b b' i i', address b i = address b' i' → b = b' ∧ i = i') {one : NativeCreative}
    (hone : (initializeHaveNative req.mobile).map Prod.fst = some one)
    (hread : ((req.parseImp g address setsize vec).data.find
      (address (req.parseImp g address setsize vec).vec.buffer p)).getD default = one) :
    TanxKept g vec.capacity setsize req p := by
  rw [buffer_parseImp] at hread
  unfold TanxRequest.parseImp at hread
  cases hfind : (Addressed.storeAll g address ⟨vec.clear, ⟨fun _ => none⟩⟩
      (req.items setsize)).data.find
      (address (vec.clear.buffer + growths g vec.clear.capacity (req.items setsize).length) p) with
  | none =>
    rw [hfind, Option.getD_none] at hread
    exact .inl (hread ▸ hone)
  | some d =>
    right
    rcases Addressed.exists_of_find_storeAll rfl hinj hfind with hold | ⟨⟨imp, himp⟩, hb⟩
    · cases hold
    · refine ⟨?_, imp, d, himp⟩
      unfold Settled
      simp only [GrowingVector.clear_buffer, GrowingVector.clear_capacity] at hb
      omega

end

/-! ## Both adapters -/

section

variable {α : Type} [DecidableEq α] (g : Growth) (address : ℕ → ℕ → α)
  (imgImptype : List (Bytes × ℕ))

/-- All native bids of a Tanx request find their creatives. -/
def TanxRight (setsize : List Bytes) (vec : GrowingVector ComImpression) (req : TanxRequest)
    (bids : List ℕ) : Prop :=
  Right imgImptype (req.items setsize)
    ((tanxReads address imgImptype (req.parseImp g address setsize vec) bids).map fun e =>
      (e.1, some e.2))

/-- All native bids of a Tanx request are kept. -/
def TanxAllKept (setsize : List Bytes) (vec : GrowingVector ComImpression) (req : TanxRequest)
    (bids : List ℕ) : Prop :=
  ∀ p ∈ nativeBids ((req.parseImp g address setsize vec).vec.sweep (checkInstlOne imgImptype))
    bids, TanxKept g vec.capacity setsize req p

variable {σ : Type} (parseImp : σ → Option (ComImpression × DataResponse))

/-- The state after some Autohome requests. -/
def autohomeRun (s : Addressed ComImpression DataResponse α) (reqs : List (AutohomeRequest σ)) :
    Addressed ComImpression DataResponse α :=
  reqs.foldl (fun s req => req.serve g address imgImptype parseImp s) s

variable {g address imgImptype parseImp}

/-- The answer is right just if each native bid reads the creative that was stored for it. -/
theorem right_iff_read {setsize : List Bytes} {vec : GrowingVector ComImpression}
    {req : TanxRequest} {bids : List ℕ} :
    TanxRight g address imgImptype setsize vec req bids ↔
      ∀ p ∈ nativeBids ((req.parseImp g address setsize vec).vec.sweep
        (checkInstlOne imgImptype)) bids,
        ∃ one, (initializeHaveNative req.mobile).map Prod.fst = some one ∧
          ((req.parseImp g address setsize vec).data.find
            (address (req.parseImp g address setsize vec).vec.buffer p)).getD default = one := by
  unfold TanxRight Right
  rw [tanxReads_eq, List.map_map, List.forall_mem_map]
  refine forall₂_congr fun p hp => ?_
  obtain ⟨i, imp, one, hi, hitem, hone⟩ := exists_of_mem_nativeBids hp
  constructor
  · rintro ⟨i', imp', d, hi', hitem', hd⟩
    obtain rfl := Option.some.inj (hi'.symm.trans hi)
    obtain ⟨-, hone'⟩ := Prod.mk.inj (Option.some.inj (hitem'.symm.trans hitem))
    exact ⟨one, hone, (Option.some.inj hd).trans (Option.some.inj hone')⟩
  · rintro ⟨one', hone', hread⟩
    obtain rfl := Option.some.inj (hone'.symm.trans hone)
    exact ⟨i, imp, one', hi, hitem, congrArg some hread⟩

/-- A request of Autohome whose bids are kept finds all their data. -/
theorem autohome_right_of_kept (hinj : ∀ b, Function.Injective (address b))
    {s : Addressed ComImpression DataResponse α} {req : AutohomeRequest σ}
    (hkept : ∀ p ∈ req.bids, AutohomeKept g imgImptype parseImp s.vec.capacity req p) :
    Right imgImptype (req.items parseImp) (req.reads g address imgImptype parseImp s) := by
  unfold Right AutohomeRequest.reads
  dsimp only
  rw [List.forall_mem_map]
  intro p hp
  obtain ⟨horigin, hsettled⟩ := hkept p hp
  have hlt : p < (req.items parseImp).length := by
    simpa using List.mem_range.mp (List.mem_filter.mp (List.mem_of_getElem? horigin)).1
  obtain ⟨⟨imp, o⟩, hitem⟩ : ∃ item, (req.items parseImp)[p]? = some item :=
    ⟨_, List.getElem?_eq_getElem hlt⟩
  -- every imp of Autohome has its data
  obtain ⟨slot, -, hslot⟩ := List.mem_filterMap.mp (List.mem_of_getElem? hitem)
  obtain ⟨e, -, heq⟩ := Option.map_eq_some_iff.mp hslot
  obtain ⟨rfl, rfl⟩ := Prod.mk.inj heq
  refine ⟨p, e.1, e.2, horigin, hitem, ?_⟩
  have hbuf : (Addressed.storeAll g address ⟨s.vec.clear, s.data⟩ (req.items parseImp)).vec.buffer =
      s.vec.clear.buffer + growths g s.vec.clear.capacity (req.items parseImp).length :=
    Addressed.buffer_storeAll rfl
  unfold AutohomeRequest.serve
  dsimp only
  rw [GrowingVector.sweep_buffer, hbuf]
  exact Addressed.find_storeAll_of_settled rfl hinj hitem hsettled

/-- Each bid finds the data of its own imp if its imp is kept; for Tanx, where the map is empty
before each request, only then if no address is used twice. -/
theorem imp_data_found (hinj : ∀ b, Function.Injective (address b)) :
    (∀ setsize vec req bids, TanxAllKept g address imgImptype setsize vec req bids →
        TanxRight g address imgImptype setsize vec req bids) ∧
      ((∀ b b' i i', address b i = address b' i' → b = b' ∧ i = i') →
        ∀ setsize vec req bids, TanxRight g address imgImptype setsize vec req bids →
          TanxAllKept g address imgImptype setsize vec req bids) ∧
      ∀ s (reqs : List (AutohomeRequest σ)),
        (∀ pre req post, reqs = pre ++ req :: post → ∀ p ∈ req.bids,
          AutohomeKept g imgImptype parseImp
            (autohomeRun g address imgImptype parseImp s pre).vec.capacity req p) →
        ∀ pre req post, reqs = pre ++ req :: post →
          Right imgImptype (req.items parseImp) (req.reads g address imgImptype parseImp
            (autohomeRun g address imgImptype parseImp s pre)) := by
  refine ⟨?_, ?_, ?_⟩
  · intro setsize vec req bids hkept
    refine right_iff_read.mpr fun p hp => ?_
    obtain ⟨-, -, one, -, -, hone⟩ := exists_of_mem_nativeBids hp
    exact ⟨one, hone, tanx_read_of_kept hinj hone (hkept p hp)⟩
  · intro hfresh setsize vec req bids hright p hp
    obtain ⟨one, hone, hread⟩ := right_iff_read.mp hright p hp
    exact tanx_kept_of_read hfresh hone hread
  · intro s reqs hkept pre req post heq
    exact autohome_right_of_kept hinj (hkept pre req post heq)

end

/-! ## Two imps -/

/-- A request for two native imps with one template. -/
def sampleTanxRequest : TanxRequest where
  adzinfo := [⟨some 1, [], false, none, some (bytes "300x250"), [108], []⟩,
    ⟨some 2, [], false, none, some (bytes "300x250"), [108], []⟩]
  mobile := some [⟨bytes "10", [⟨7, 1, some ⟨[1], [2], 30, 60, bytes "300x250"⟩⟩]⟩]

/-- A request of Autohome for two imps, with a bid for each; a slot is given by its id. -/
def sampleAutohomeRequest : AutohomeRequest Bytes := ⟨[bytes "a", bytes "b"], [0, 1]⟩

/-- Every slot is a native imp. -/
def sampleParseImp (slotid : Bytes) : Option (ComImpression × DataResponse) :=
  some ({ sampleImpression with type := impNative }, ⟨slotid, 1003, 10001⟩)

/-- An empty vector in its first buffer. -/
def sampleVector (capacity : ℕ) : GrowingVector ComImpression :=
  ⟨0, capacity, [], Nat.zero_le _⟩

/-- With room for both imps all data are found. -/
theorem two_imps_kept :
    TanxRight Growth.double Prod.mk [] [] (sampleVector 2) sampleTanxRequest [0, 1] ∧
      Right [] (sampleAutohomeRequest.items sampleParseImp)
        (sampleAutohomeRequest.reads Growth.double Prod.mk [] sampleParseImp
          ⟨sampleVector 2, ⟨fun _ => none⟩⟩) := by
  obtain ⟨htanx, -, hautohome⟩ := @imp_data_found _ _ Growth.double Prod.mk [] _ sampleParseImp
    fun b i j h => (Prod.mk.inj h).2
  constructor
  · refine htanx [] (sampleVector 2) sampleTanxRequest [0, 1] fun p hp => .inr ?_
    have hmem : p = 0 ∨ p = 1 := by simpa using List.mem_of_mem_filter hp
    rcases hmem with rfl | rfl
    · exact ⟨by decide, _, _, rfl⟩
    · exact ⟨by decide, _, _, rfl⟩
  · refine hautohome ⟨sampleVector 2, ⟨fun _ => none⟩⟩ [sampleAutohomeRequest]
      (fun pre req post heq p hp => ?_) [] sampleAutohomeRequest [] rfl
    -- the request is the only one of the run
    obtain ⟨rfl, rfl, rfl⟩ : pre = [] ∧ req = sampleAutohomeRequest ∧ post = [] := by
      cases pre with
      | nil => simpa [eq_comm] using heq
      | cons _ _ => simp at heq
    have hmem : p = 0 ∨ p = 1 := by simpa [sampleAutohomeRequest] using hp
    rcases hmem with rfl | rfl
    · exact ⟨by decide, by decide⟩
    · exact ⟨by decide, by decide⟩

/-- With room for one imp the second push moves the first imp, and its data are lost: Tanx reads an
empty creative, and the assertion of Autohome fails. -/
theorem two_imps_lost :
    ¬TanxRight Growth.double Prod.mk [] [] (sampleVector 1) sampleTanxRequest [0, 1] ∧
      ¬Right [] (sampleAutohomeRequest.items sampleParseImp)
        (sampleAutohomeRequest.reads Growth.double Prod.mk [] sampleParseImp
          ⟨sampleVector 1, ⟨fun _ => none⟩⟩) ∧
      (0, none) ∈ sampleAutohomeRequest.reads Growth.double Prod.mk [] sampleParseImp
        ⟨sampleVector 1, ⟨fun _ => none⟩⟩ := by
  have hmissing : (0, none) ∈ sampleAutohomeRequest.reads Growth.double Prod.mk []
      sampleParseImp ⟨sampleVector 1, ⟨fun _ => none⟩⟩ := by decide
  refine ⟨fun h => ?_, fun h => ?_, hmissing⟩
  · obtain ⟨one, hone, hread⟩ := right_iff_read.mp h 0 (by decide)
    rw [← hread] at hone
    exact absurd hone (by decide)
  · obtain ⟨-, -, d, -, -, hd⟩ := h _ hmissing
    cases hd

end ImpAddress

end AdxDsp
