import AdxDsp.Bid.ImpAddress
import AdxDsp.Bid.NativeAssets

/-!
# The native templates of Google

`GoogleAdapter::ToCom` makes an asset for each required field of a template, and `ConstructResponse`
writes the assets of the response into the fields of a native ad (`google_adapter.cpp`);
`com_native_response_object::Set` fills them in between (`NativeAssets`).

* **The two translations**: `Template.assets`, `nativeAd`.
* `nativeAd_set`: the image and the app icon change places, and three fields are never set.
* `nativeAd_iff`: when a response has the required fields, with images of the sizes asked for.
* `image_as_appIcon`: a headline and an image.
-/

namespace AdxDsp.GoogleNative

open CText ImpAddress NativeAssets

/-! ## From the template -/

/-- `BidRequest_AdSlot_NativeAdTemplate_Fields`, which are also the fields of a native ad. -/
inductive Field where
  | headline
  | body
  | callToAction
  | advertiser
  | image
  | logo
  | appIcon
  | starRating
  | price
  | store
  deriving DecidableEq

/-- The number of a field in `required_fields`. -/
def Field.bit : Field → ℕ
  | .headline => 0
  | .body => 1
  | .callToAction => 2
  | .advertiser => 3
  | .image => 4
  | .logo => 5
  | .appIcon => 6
  | .starRating => 7
  | .price => 8
  | .store => 9

/-- The fields, in the order in which `ToCom` looks for them. -/
def fields : List Field :=
  [.headline, .body, .callToAction, .advertiser, .image, .logo, .appIcon, .starRating, .price,
    .store]

/-- `BidRequest_AdSlot_NativeAdTemplate`: what is not there is 0. -/
structure Template where
  requiredFields : Option ℕ
  headlineMaxSafeLength : ℤ
  bodyMaxSafeLength : ℤ
  callToActionMaxSafeLength : ℤ
  advertiserMaxSafeLength : ℤ
  imageWidth : ℤ
  imageHeight : ℤ
  logoWidth : ℤ
  logoHeight : ℤ
  appIconWidth : ℤ
  appIconHeight : ℤ
  priceMaxSafeLength : ℤ
  storeMaxSafeLength : ℤ

/-- `ASSET_IMAGETYPE_LOGO` -/
def assetImagetypeLogo : ℕ := 2

/-- `ASSET_DATATYPE_SPONSORED` -/
def assetDatatypeSponsored : ℕ := 1

/-- `ASSET_DATATYPE_DOWNLOADS` -/
def assetDatatypeDownloads : ℕ := 5

/-- `ASSET_DATATYPE_PRICE` -/
def assetDatatypePrice : ℕ := 6

/-- A required title; a length is an `uint32_t`. -/
def titleAsset (len : ℤ) : ComAssetRequest :=
  ⟨1, nativeAssettypeTitle, (len % 2 ^ 32).toNat, ⟨0, 0, 0, []⟩, ⟨0, 0⟩⟩

/-- A required text. -/
def dataAsset (type : ℕ) (len : ℤ) : ComAssetRequest :=
  ⟨1, nativeAssettypeData, 0, ⟨0, 0, 0, []⟩, ⟨type, (len % 2 ^ 32).toNat⟩⟩

/-- A required image. -/
def imageAsset (type : ℕ) (w h : ℤ) : ComAssetRequest :=
  ⟨1, nativeAssettypeImage, 0, ⟨type, toUInt16 w, toUInt16 h, []⟩, ⟨0, 0⟩⟩

namespace Template

variable (t : Template)

/-- The asset of a field. -/
def asset : Field → ComAssetRequest
  | .headline => titleAsset t.headlineMaxSafeLength
  | .body => dataAsset assetDatatypeDesc t.bodyMaxSafeLength
  | .callToAction => dataAsset assetDatatypeCtatext t.callToActionMaxSafeLength
  | .advertiser => dataAsset assetDatatypeSponsored t.advertiserMaxSafeLength
  | .image => imageAsset assetImagetypeMain t.imageWidth t.imageHeight
  | .logo => imageAsset assetImagetypeLogo t.logoWidth t.logoHeight
  | .appIcon => imageAsset assetImagetypeIcon t.appIconWidth t.appIconHeight
  | .starRating => dataAsset assetDatatypeRating 0
  | .price => dataAsset assetDatatypePrice t.priceMaxSafeLength
  | .store => dataAsset assetDatatypeDownloads t.storeMaxSafeLength

/-- The field is required. -/
def Requires (field : Field) : Prop :=
  ∃ requiredFields ∈ t.requiredFields, requiredFields.testBit field.bit

instance (field : Field) : Decidable (t.Requires field) :=
  inferInstanceAs (Decidable (∃ requiredFields ∈ t.requiredFields, _))

/-- The native imp of `ToCom`. -/
def native : NativeRequest where
  layout := nativeLayouttypeNewsfeed
  plcmtcnt := 1
  bctype := []
  assets := (fields.filter fun field => t.Requires field).map t.asset

/-- The size that the template asks for, of the fields with one. -/
def size : Field → Option (ℤ × ℤ)
  | .image => some (t.imageWidth, t.imageHeight)
  | .logo => some (t.logoWidth, t.logoHeight)
  | .appIcon => some (t.appIconWidth, t.appIconHeight)
  | _ => none

end Template

/-! ## Into the native ad -/

/-- What a field of a native ad is set to. -/
inductive Value where
  | text (text : Bytes)
  | number (number : ℤ)
  | image (url : Bytes) (width height : ℤ)
  deriving DecidableEq

/-- `BidResponse_Ad_NativeAd` -/
abbrev NativeAd := Field → Option Value

/-- The field that an asset of the response sets. -/
def target (comasset : AssetResponse) : Option (Field × Value) :=
  if comasset.required = 0 then none
  else if comasset.type = nativeAssettypeTitle then some (.headline, .text comasset.titleText)
  else if comasset.type = nativeAssettypeImage then
    let url := replaceMacro comasset.img.url (bytes "http:") (bytes "https:")
    let image : Value := .image url comasset.img.w comasset.img.h
    if comasset.img.type = assetImagetypeMain then some (.appIcon, image)
    else if comasset.img.type = assetImagetypeIcon then some (.image, image)
    else if comasset.img.type = assetImagetypeLogo then some (.logo, image)
    else none
  else if comasset.type = nativeAssettypeData then
    if comasset.data.type = assetDatatypeDesc then some (.body, .text comasset.data.value)
    else if comasset.data.type = assetDatatypeRating then
      some (.starRating, .number (atoi (cstr comasset.data.value)))
    else if comasset.data.type = assetDatatypeCtatext then
      some (.callToAction, .text comasset.data.value)
    else none
  else none

/-- One turn of the loop over the assets. -/
def setField (nativeAd : NativeAd) (comasset : AssetResponse) : NativeAd :=
  (target comasset).elim nativeAd fun p => Function.update nativeAd p.1 (some p.2)

/-- The native ad of `ConstructResponse`. -/
def nativeAd (assets : List AssetResponse) : NativeAd := assets.foldl setField fun _ => none

/-- A value is there, and an image has the size. -/
def Value.Fits (size : Option (ℤ × ℤ)) (value : Option Value) : Prop :=
  value.isSome ∧ ∀ p ∈ size, ∃ url, value = some (.image url p.1 p.2)

/-- Each required field has a value, and each required image the size of the template. -/
def Meets (t : Template) (assets : List AssetResponse) : Prop :=
  ∀ field, t.Requires field → Value.Fits (t.size field) (nativeAd assets field)

/-! ## Where an asset ends up -/

/-- The field that the asset of a field sets; it is its own inverse. -/
def crossed : Field → Option Field
  | .image => some .appIcon
  | .appIcon => some .image
  | .advertiser => none
  | .price => none
  | .store => none
  | field => some field

/-- The exchange of two fields works in both directions. -/
theorem crossed_eq_some_comm {field dest : Field} :
    crossed field = some dest ↔ crossed dest = some field := by
  cases field <;> cases dest <;> simp [crossed]

section

variable (c : CreativeInfo) (isSecure : ℤ)

/-- A URL after `Set` and `ConstructResponse`. -/
def shownUrl (url : Bytes) : Bytes :=
  let url := if isSecure = 1 then replaceMacro url (bytes "http:") (bytes "https:") else url
  replaceMacro url (bytes "http:") (bytes "https:")

/-- What a field is set to, if it is. -/
def value : Field → Value
  | .headline => .text c.title
  | .body => .text c.description
  | .callToAction => .text c.ctatext
  | .image => .image (shownUrl isSecure c.icon.sourceurl) c.icon.w c.icon.h
  | .logo => .image (shownUrl isSecure []) 0 0
  | .appIcon =>
    (c.imgs[0]?).elim (.text []) fun img => .image (shownUrl isSecure img.sourceurl) img.w img.h
  | .starRating => .number (atoi (cstr (decimal c.rating)))
  | .advertiser => .text []
  | .price => .text []
  | .store => .text []

/-- A field is set to its value. -/
def setTo (nativeAd : NativeAd) (field : Field) : NativeAd :=
  Function.update nativeAd field (some (value c isSecure field))

end

section

variable {t : Template} {c : CreativeInfo} {isSecure : ℤ}

/-- The main asset is the image. -/
theorem isMain_asset {field : Field} : isMain (t.asset field) = true ↔ field = .image := by
  cases field <;> simp [isMain, Template.asset, titleAsset, dataAsset, imageAsset,
    nativeAssettypeTitle, nativeAssettypeData, nativeAssettypeImage, assetImagetypeMain,
    assetImagetypeLogo, assetImagetypeIcon]

/-- An answered asset sets the field that it goes to. -/
theorem setField_of_target {ad : NativeAd} {out : AssetResponse} {field : Field}
    (h : target out = (crossed field).map fun dest => (dest, value c isSecure dest)) :
    setField ad out = (crossed field).elim ad (setTo c isSecure ad) := by
  rw [setField, h]
  cases crossed field <;> rfl

/-- No asset of a template may be left out. -/
theorem leaveOut_asset {field : Field} : leaveOut (t.asset field) = .error .assertion := by
  cases field <;> rfl

/-- The asset of a field other than the main image. -/
theorem target_setOther {field : Field} {out : Option AssetResponse}
    (h : setOther c isSecure (t.asset field) = .ok out) (hfield : field ≠ .image) :
    ∃ a, out = some a ∧
      target a = (crossed field).map fun dest => (dest, value c isSecure dest) := by
  cases field with
  | image => exact absurd rfl hfield
  | headline =>
    change (if (t.asset .headline).titleLen < c.title.length then leaveOut (t.asset .headline)
      else _) = _ at h
    rw [leaveOut_asset] at h
    split_ifs at h
    cases h
    exact ⟨_, rfl, rfl⟩
  | body =>
    change (if (t.asset .body).data.len < c.description.length then leaveOut (t.asset .body)
      else _) = _ at h
    rw [leaveOut_asset] at h
    split_ifs at h
    cases h
    exact ⟨_, rfl, rfl⟩
  | callToAction =>
    change (if c.ctatext = [] then leaveOut (t.asset .callToAction) else _) = _ at h
    rw [leaveOut_asset] at h
    split_ifs at h
    cases h
    exact ⟨_, rfl, rfl⟩
  | starRating =>
    change (if 5 < c.rating then leaveOut (t.asset .starRating) else _) = _ at h
    rw [leaveOut_asset] at h
    split_ifs at h
    cases h
    exact ⟨_, rfl, rfl⟩
  | advertiser | logo | appIcon | price | store =>
    cases h
    exact ⟨_, rfl, rfl⟩

/-- The first field is set, and then the others. -/
theorem foldl_crossed_cons {field : Field} {l : List Field} {ad : NativeAd} :
    ((field :: l).filterMap crossed).foldl (setTo c isSecure) ad =
      (l.filterMap crossed).foldl (setTo c isSecure)
        ((crossed field).elim ad (setTo c isSecure ad)) := by
  cases h : crossed field with
  | none => rw [List.filterMap_cons_none h, Option.elim_none]
  | some dest => rw [List.filterMap_cons_some h, List.foldl_cons, Option.elim_some]

/-- The loops over the assets of the two functions. -/
theorem foldl_setField {l : List Field} {k : ℕ} {outs : List AssetResponse}
    (h : setAssets c isSecure k (l.map t.asset) = .ok outs) (hnodup : l.Nodup)
    (hk : .image ∈ l → k = 0) (ad : NativeAd) :
    outs.foldl setField ad = (l.filterMap crossed).foldl (setTo c isSecure) ad := by
  induction l generalizing k outs ad with
  | nil =>
    cases h
    rfl
  | cons field l ih =>
    obtain ⟨hfield, hrest⟩ := List.nodup_cons.mp hnodup
    rw [List.map_cons, setAssets] at h
    rw [foldl_crossed_cons]
    by_cases himage : field = .image
    -- the one asset with a main image has the first image of the creative
    · subst himage
      rw [if_pos (isMain_asset.mpr rfl), hk List.mem_cons_self] at h
      cases himg : c.imgs[0]? with
      | none =>
        rw [himg] at h
        cases h
      | some img =>
        rw [himg] at h
        cases hset : setAssets c isSecure (0 + 1) (l.map t.asset) with
        | error fault =>
          rw [hset] at h
          cases h
        | ok rest =>
          rw [hset] at h
          cases h
          have hk : .image ∈ l → 0 + 1 = 0 := fun hmem => absurd hmem hfield
          rw [List.foldl_cons, ih hset hrest hk]
          congr 1
          change _ = Function.update ad .appIcon (some (value c isSecure .appIcon))
          rw [value, himg]
          rfl
    -- every other asset is filled by its own field
    · rw [if_neg (mt isMain_asset.mp himage)] at h
      cases hother : setOther c isSecure (t.asset field) with
      | error fault =>
        rw [hother] at h
        cases h
      | ok out =>
        obtain ⟨a, rfl, ha⟩ := target_setOther hother himage
        rw [hother] at h
        cases hset : setAssets c isSecure k (l.map t.asset) with
        | error fault =>
          rw [hset] at h
          cases h
        | ok rest =>
          rw [hset] at h
          cases h
          change rest.foldl setField (setField ad a) = _
          rw [ih hset hrest (fun hmem => hk (List.mem_cons_of_mem _ hmem)), setField_of_target ha]

/-- The fields of the list are set, the others stay. -/
theorem foldl_setTo {l : List Field} {ad : NativeAd} {field : Field} :
    l.foldl (setTo c isSecure) ad field =
      if field ∈ l then some (value c isSecure field) else ad field := by
  induction l generalizing ad with
  | nil => rw [List.foldl_nil, if_neg List.not_mem_nil]
  | cons dest l ih =>
    rw [List.foldl_cons, ih, setTo]
    by_cases hmem : field ∈ l
    · rw [if_pos hmem, if_pos (List.mem_cons_of_mem dest hmem)]
    · rw [if_neg hmem]
      by_cases heq : field = dest
      · subst heq
        rw [Function.update_self, if_pos List.mem_cons_self]
      · rw [Function.update_of_ne heq, if_neg (by simp [heq, hmem])]

/-- The main image fills the app icon, the icon the image, and advertiser, price and store stay
empty. -/
theorem nativeAd_set {outs : List AssetResponse} {imgNum : ℕ} {bctype : List ℕ}
    (h : set c isSecure ⟨bctype, imgNum, t.native.assets⟩ = .ok outs) (field : Field) :
    nativeAd outs field =
      if ∃ source ∈ crossed field, t.Requires source then some (value c isSecure field)
      else none := by
  have hnodup : (fields.filter fun field => t.Requires field).Nodup :=
    List.Nodup.filter _ (by decide)
  rw [nativeAd, foldl_setField h hnodup (fun _ => rfl), foldl_setTo]
  congr 1
  rw [eq_iff_iff, List.mem_filterMap]
  constructor
  · rintro ⟨source, hsource, hcrossed⟩
    have hreq := (List.mem_filter.mp hsource).2
    exact ⟨source, crossed_eq_some_comm.mp hcrossed, of_decide_eq_true hreq⟩
  · rintro ⟨source, hcrossed, hreq⟩
    have hmem : source ∈ fields := by cases source <;> decide
    exact ⟨source, List.mem_filter.mpr ⟨hmem, decide_eq_true hreq⟩,
      crossed_eq_some_comm.mp hcrossed⟩

end

/-! ## When the fields are right -/

/-- The response meets the template: no field that is never set is required, no logo of a size, and
the image and the app icon only together, with the sizes of each other. -/
structure Template.MetBy (t : Template) (c : CreativeInfo) : Prop where
  advertiser : ¬ t.Requires .advertiser
  price : ¬ t.Requires .price
  store : ¬ t.Requires .store
  logo : t.Requires .logo → t.logoWidth = 0 ∧ t.logoHeight = 0
  image : t.Requires .image →
    t.Requires .appIcon ∧ t.imageWidth = c.icon.w ∧ t.imageHeight = c.icon.h
  appIcon : t.Requires .appIcon → t.Requires .image ∧
    ∃ img ∈ c.imgs[0]?, t.appIconWidth = img.w ∧ t.appIconHeight = img.h

section

variable {t : Template} {c : CreativeInfo} {isSecure : ℤ}

/-- A missing value fits nowhere. -/
theorem fits_none {size : Option (ℤ × ℤ)} : ¬ Value.Fits size none := fun h => nomatch h.1

/-- A text fits where no size is asked for. -/
theorem fits_text {value : Value} : Value.Fits none (some value) := ⟨rfl, nofun⟩

/-- An image fits just if its size is the one asked for. -/
theorem fits_image {url : Bytes} {w h width height : ℤ} :
    Value.Fits (some (w, h)) (some (.image url width height)) ↔ w = width ∧ h = height := by
  simp [Value.Fits, eq_comm]

/-- A value that is there under a condition. -/
theorem fits_ite {p : Prop} [Decidable p] {size : Option (ℤ × ℤ)} {value : Value} :
    Value.Fits size (if p then some value else none) ↔ p ∧ Value.Fits size (some value) := by
  by_cases hp : p <;> simp [hp, fits_none]

/-- For every template, creative and request: the fields that the template requires are there, with
images of its sizes, exactly if neither advertiser, price nor store is required, no logo but an
empty one, and the image only together with the app icon, each with the size of the other. -/
theorem nativeAd_iff {outs : List AssetResponse} {imgNum : ℕ} {bctype : List ℕ}
    (h : set c isSecure ⟨bctype, imgNum, t.native.assets⟩ = .ok outs) :
    Meets t outs ↔ t.MetBy c := by
  have hset := nativeAd_set h
  simp only [Meets, hset, fits_ite]
  constructor
  · intro hmeets
    -- a field that nothing is written to cannot be required
    have hunset : ∀ field, crossed field = none → ¬ t.Requires field := by
      intro field hcrossed hreq
      obtain ⟨⟨source, hsource, -⟩, -⟩ := hmeets field hreq
      rw [hcrossed] at hsource
      cases hsource
    refine ⟨hunset _ rfl, hunset _ rfl, hunset _ rfl, fun hreq => ?_, fun hreq => ?_,
      fun hreq => ?_⟩
    · exact fits_image.mp (hmeets .logo hreq).2
    -- `image` and `appIcon` have changed places in the answer
    · obtain ⟨⟨source, hsource, happIcon⟩, hfits⟩ := hmeets .image hreq
      cases hsource
      exact ⟨happIcon, fits_image.mp hfits⟩
    · obtain ⟨⟨source, hsource, himage⟩, hfits⟩ := hmeets .appIcon hreq
      cases hsource
      rw [value] at hfits
      cases himg : c.imgs[0]? with
      | none =>
        rw [himg] at hfits
        obtain ⟨url, hurl⟩ := hfits.2 _ rfl
        cases hurl
      | some img =>
        rw [himg] at hfits
        exact ⟨himage, img, rfl, fits_image.mp hfits⟩
  · intro hmet field hreq
    cases field with
    | headline | body | callToAction | starRating => exact ⟨⟨_, rfl, hreq⟩, fits_text⟩
    | advertiser => exact absurd hreq hmet.advertiser
    | price => exact absurd hreq hmet.price
    | store => exact absurd hreq hmet.store
    | logo => exact ⟨⟨.logo, rfl, hreq⟩, fits_image.mpr (hmet.logo hreq)⟩
    | image =>
      obtain ⟨happIcon, hsize⟩ := hmet.image hreq
      exact ⟨⟨.appIcon, rfl, happIcon⟩, fits_image.mpr hsize⟩
    | appIcon =>
      obtain ⟨himage, img, himg, hsize⟩ := hmet.appIcon hreq
      refine ⟨⟨.image, rfl, himage⟩, ?_⟩
      rw [value, Option.mem_def.mp himg]
      exact fits_image.mpr hsize

end

/-! ## A headline and an image -/

/-- A template with these required fields, a headline of up to 20 bytes, and an image and an app
icon of 300 × 250 each. -/
def sampleTemplate (requiredFields : ℕ) : Template :=
  ⟨some requiredFields, 20, 0, 0, 0, 300, 250, 0, 0, 300, 250, 0, 0⟩

/-- A feed with an icon of the size of its image. -/
def sampleIconFeed : CreativeInfo := { sampleFeed [sampleImg] with icon := sampleImg }

/-- A headline, an image and an app icon of one size: it does not show that they are exchanged. -/
theorem equal_sizes_meet :
    ∃ outs, set sampleIconFeed 0 ⟨[], 1, (sampleTemplate 81).native.assets⟩ = .ok outs ∧
      Meets (sampleTemplate 81) outs := by
  have hset : ∃ outs,
      set sampleIconFeed 0 ⟨[], 1, (sampleTemplate 81).native.assets⟩ = .ok outs := ⟨_, rfl⟩
  obtain ⟨outs, houts⟩ := hset
  refine ⟨outs, houts, (nativeAd_iff houts).mpr ?_⟩
  refine ⟨by decide, by decide, by decide, fun hreq => absurd hreq (by decide), fun _ => ?_,
    fun _ => ?_⟩
  · exact ⟨by decide, rfl, rfl⟩
  · exact ⟨by decide, sampleImg, rfl, rfl, rfl⟩

/-- The template of a headline and an image passes the check, the creative has the image in the
size, and the native ad has it as its app icon: there is no image. -/
theorem image_as_appIcon :
    (sampleTemplate 17).native.check.1 = .success ∧
      (sampleFeed [sampleImg]).filterNative (sampleTemplate 17).native.check.2 = .success ∧
      ∃ outs, set (sampleFeed [sampleImg]) 0 (sampleTemplate 17).native.check.2 = .ok outs ∧
        nativeAd outs .image = none ∧ ¬ Meets (sampleTemplate 17) outs := by
  refine ⟨by decide, by decide, _, rfl, by decide, fun hmeets => ?_⟩
  exact absurd (hmeets .image (by decide)).1 (by decide)

end AdxDsp.GoogleNative
