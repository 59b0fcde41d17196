import AdxDsp.Bid.Filter
import AdxDsp.Text.ReplaceMacro

/-!
# The assets of a native imp

A native imp asks for assets, each required or optional.  `com_native_request_object::Check` drops
or refuses the ill-formed ones and counts the required main images, `CreativeInfo::FilterNative`
compares the required ones with a creative, and `com_native_response_object::Set` fills in all of
them (`req_common.cpp`, `ad_element.cpp`).

* `NativeRequest.check_count`: the check counts the required main images that it leaves.
* `set_safe_iff`: when `Set` stays inside the images of the creative; its assertions always hold.
* `optional_image_behind_images`: an optional main image without which it does not.
-/

namespace AdxDsp

open CText

namespace NativeAssets

/-! ## Checking the imp -/

/-- `NATIVE_LAYOUTTYPE_NEWSFEED` -/
def nativeLayouttypeNewsfeed : ℕ := 3

/-- `NATIVE_LAYOUTTYPE_CONTENTSTREAM` -/
def nativeLayouttypeContentstream : ℕ := 6

/-- `NATIVE_LAYOUTTYPE_OPENSCREEN` -/
def nativeLayouttypeOpenscreen : ℕ := 245

/-- The error codes of the check. -/
inductive CheckErr where
  | success
  | layout
  | plcmtcnt
  | assetcnt
  | assetType
  | assetTitleLength
  | assetImageSize
  | assetImageType
  | assetDataType
  | assetDataLength
  deriving DecidableEq

/-- `COM_NATIVE_REQUEST_OBJECT` as an exchange fills it in; `img_num` is 0 then. -/
structure NativeRequest where
  layout : ℕ
  plcmtcnt : ℕ
  bctype : List ℕ
  assets : List ComAssetRequest

/-- The checks of one asset. -/
def checkAsset (asset : ComAssetRequest) : CheckErr :=
  if asset.type = nativeAssettypeTitle then
    if asset.titleLen = 0 then .assetTitleLength else .success
  else if asset.type = nativeAssettypeImage then
    if asset.img.type = assetImagetypeIcon ∨ asset.img.type = assetImagetypeMain then
      if asset.img.w = 0 ∨ asset.img.h = 0 then .assetImageSize else .success
    else .assetImageType
  else if asset.type = nativeAssettypeData then
    if asset.data.type ≠ assetDatatypeDesc ∧ asset.data.type ≠ assetDatatypeRating ∧
        asset.data.type ≠ assetDatatypeCtatext then .assetDataType
    else if asset.data.type = assetDatatypeDesc ∧ asset.data.len = 0 then .assetDataLength
    else .success
  else .assetType

/-- A main image. -/
def isMain (asset : ComAssetRequest) : Bool :=
  asset.type = nativeAssettypeImage && asset.img.type = assetImagetypeMain

/-- `img_num` after a well-formed asset. -/
def countMain (imgNum : ℕ) (asset : ComAssetRequest) : ℕ :=
  if isMain asset ∧ asset.required = 1 then imgNum + 1 else imgNum

/-- The loop of `Check`, from the place `i` of the vector on and with a bound on its turns: a
well-formed asset is passed over, a bad one is an error if it is required, and erased if not. -/
def checkFrom : ℕ → ℕ → ℕ → List ComAssetRequest → CheckErr × ℕ × List ComAssetRequest
  | 0, _, imgNum, assets => (.success, imgNum, assets)
  | turns + 1, i, imgNum, assets =>
    match assets[i]? with
    | none => (.success, imgNum, assets)
    | some asset =>
      let errcodeTmp := checkAsset asset
      if errcodeTmp = .success then checkFrom turns (i + 1) (countMain imgNum asset) assets
      else if asset.required = 1 then (errcodeTmp, imgNum, assets)
      -- the next asset moves to this place, so that `i` stays
      else checkFrom turns i imgNum (assets.eraseIdx i)

/-- `com_native_request_object::Check` around its loop, by what the loop comes to. -/
def NativeRequest.checkBy (native : NativeRequest)
    (checked : CheckErr × ℕ × List ComAssetRequest) : CheckErr × ComNative :=
  if native.layout ≠ nativeLayouttypeNewsfeed ∧ native.layout ≠ nativeLayouttypeContentstream ∧
      native.layout ≠ nativeLayouttypeOpenscreen then
    (.layout, ⟨native.bctype, 0, native.assets⟩)
  else if native.plcmtcnt < 1 then (.plcmtcnt, ⟨native.bctype, 0, native.assets⟩)
  else
    let err :=
      if checked.1 ≠ .success then checked.1
      else if checked.2.2.length < 2 then .assetcnt
      else .success
    (err, ⟨native.bctype, checked.2.1, checked.2.2⟩)

/-- `com_native_request_object::Check`, with the object it leaves; a turn of the loop passes or
erases an asset, so that there are no more turns than assets. -/
def NativeRequest.check (native : NativeRequest) : CheckErr × ComNative :=
  native.checkBy (checkFrom native.assets.length 0 0 native.assets)

/-- What the loop comes to, by recursion over the assets. -/
def checkAssets : ℕ → List ComAssetRequest → CheckErr × ℕ × List ComAssetRequest
  | imgNum, [] => (.success, imgNum, [])
  | imgNum, asset :: assets =>
    if checkAsset asset = .success then
      let rest := checkAssets (countMain imgNum asset) assets
      (rest.1, rest.2.1, asset :: rest.2.2)
    else if asset.required = 1 then (checkAsset asset, imgNum, asset :: assets)
    else checkAssets imgNum assets

/-- The assets in front of `i` stay, and the others are checked one after the other. -/
theorem checkFrom_eq {turns i : ℕ} (imgNum : ℕ) {assets : List ComAssetRequest}
    (hturns : assets.length ≤ i + turns) :
    checkFrom turns i imgNum assets =
      ((checkAssets imgNum (assets.drop i)).1, (checkAssets imgNum (assets.drop i)).2.1,
        assets.take i ++ (checkAssets imgNum (assets.drop i)).2.2) := by
  -- by induction on the turns; an asset that is erased makes the vector shorter
  induction turns generalizing i imgNum assets with
  | zero =>
    rw [Nat.add_zero] at hturns
    rw [checkFrom, List.drop_of_length_le hturns, List.take_of_length_le hturns, checkAssets,
      List.append_nil]
  | succ turns ih =>
    rw [checkFrom]
    by_cases hi : i < assets.length
    · rw [List.getElem?_eq_getElem hi, List.drop_eq_getElem_cons hi, checkAssets]
      dsimp only
      split_ifs with hgood hreq
      · -- the asset joins those in front
        rw [ih _ (by omega), ← List.take_concat_get' assets i hi, List.append_assoc]
        rfl
      · rw [← List.drop_eq_getElem_cons hi, List.take_append_drop]
      -- the asset is erased, so that the next one is at the same place
      · have herase : assets.eraseIdx i = assets.take i ++ assets.drop (i + 1) :=
          List.eraseIdx_eq_take_drop_succ assets i
        have hlen : (assets.take i).length = i := List.length_take_of_le hi.le
        have hshorter : (assets.eraseIdx i).length ≤ i + turns := by
          rw [List.length_eraseIdx_of_lt hi]
          omega
        rw [ih _ hshorter, herase, List.drop_left' hlen, List.take_left' hlen]
    · have hle : assets.length ≤ i := Nat.le_of_not_lt hi
      rw [List.getElem?_eq_none hle, List.drop_of_length_le hle, List.take_of_length_le hle,
        checkAssets, List.append_nil]

/-- The walk with its index is the recursion over the assets. -/
theorem NativeRequest.check_eq (native : NativeRequest) :
    native.check = native.checkBy (checkAssets 0 native.assets) := by
  rw [NativeRequest.check, checkFrom_eq 0 (Nat.le_add_left _ _), List.drop_zero, List.take_zero,
    List.nil_append]

/-- What it takes to pass the check. -/
theorem NativeRequest.check_fst_iff (native : NativeRequest) :
    native.check.1 = .success ↔
      (native.layout = nativeLayouttypeNewsfeed ∨ native.layout = nativeLayouttypeContentstream ∨
        native.layout = nativeLayouttypeOpenscreen) ∧
      1 ≤ native.plcmtcnt ∧ (checkAssets 0 native.assets).1 = .success ∧
      2 ≤ (checkAssets 0 native.assets).2.2.length := by
  rw [NativeRequest.check_eq, NativeRequest.checkBy]
  split_ifs with hlayout hplc hloop hlen
  · exact iff_of_false (by simp) fun h => by omega
  · exact iff_of_false (by simp) fun h => by omega
  · exact iff_of_false hloop fun h => hloop h.2.2.1
  · exact iff_of_false (by simp) fun h => by omega
  · exact iff_of_true rfl ⟨by omega, by omega, not_not.mp hloop, by omega⟩

/-- What is left of a request that passes. -/
theorem NativeRequest.check_snd {native : NativeRequest} (h : native.check.1 = .success) :
    native.check.2 = ⟨native.bctype, (checkAssets 0 native.assets).2.1,
      (checkAssets 0 native.assets).2.2⟩ := by
  obtain ⟨hlayout, hplc, -⟩ := native.check_fst_iff.mp h
  rw [NativeRequest.check_eq, NativeRequest.checkBy, if_neg (by omega), if_neg (by omega)]

/-! ## Filling in the assets -/

/-- `replaceMacro` for a pattern that is not empty; each turn of its loop replaces a byte of the text
or more, so that this bound on the turns is none. -/
def replaceMacro (str pattern data : Bytes) : Bytes :=
  (UtilBase.replaceMacro str (some pattern) (some data) (str.length + 1)).getD str

/-- With a pattern that is not empty all occurrences are replaced. -/
theorem replaceMacro_eq_replaceAll {str pattern data : Bytes} (hstr : 0 ∉ str)
    (hpattern : pattern ≠ []) (hnul : 0 ∉ pattern) (hdata : 0 ∉ data) :
    replaceMacro str pattern data = replaceAll pattern data str := by
  rw [replaceMacro, UtilBase.replaceMacro, cstr_eq_self hnul, cstr_eq_self hdata]
  exact congrArg (Option.getD · str)
    (UtilBase.replaceMacroLoop_eq hpattern data hstr (Nat.lt_succ_self _) [])

/-- `COM_IMAGE_RESPONSE_OBJECT`. -/
structure ImageResponse where
  type : ℕ
  w : ℕ
  h : ℕ
  url : Bytes
  deriving DecidableEq

/-- `COM_DATA_RESPONSE_OBJECT`. -/
structure DataResponse where
  type : ℕ
  label : Bytes
  value : Bytes
  deriving DecidableEq

/-- `COM_ASSET_RESPONSE_OBJECT`. -/
structure AssetResponse where
  required : ℕ
  type : ℕ
  titleText : Bytes
  img : ImageResponse
  data : DataResponse
  deriving DecidableEq

/-- What ends `Set`: an image behind the last one, or an assertion. -/
inductive Fault where
  | index
  | assertion
  deriving DecidableEq

/-- An asset that does not fit is left out, and the source asserts that it is optional. -/
def leaveOut (asset : ComAssetRequest) : Except Fault (Option AssetResponse) :=
  if asset.required = 0 then .ok none else .error .assertion

/-- The asset before anything is filled in. -/
def emptyResponse (asset : ComAssetRequest) : AssetResponse where
  required := asset.required
  type := asset.type
  titleText := []
  img := ⟨asset.img.type, 0, 0, []⟩
  data := ⟨asset.data.type, [], []⟩

section

variable (c : CreativeInfo) (isSecure : ℤ)

/-- The image of an asset, with its URL as the request needs it. -/
def setImage (asset : ComAssetRequest) (w h : ℕ) (url : Bytes) : AssetResponse :=
  let url := if isSecure = 1 then replaceMacro url (bytes "http:") (bytes "https:") else url
  { emptyResponse asset with img := ⟨asset.img.type, w, h, url⟩ }

/-- One turn of the loop of `Set`, for an asset that is no main image. -/
def setOther (asset : ComAssetRequest) : Except Fault (Option AssetResponse) :=
  let out := emptyResponse asset
  if asset.type = nativeAssettypeTitle then
    if asset.titleLen < c.title.length then leaveOut asset
    else .ok (some { out with titleText := c.title })
  else if asset.type = nativeAssettypeImage then
    if asset.img.type = assetImagetypeIcon then
      .ok (some (setImage isSecure asset c.icon.w c.icon.h c.icon.sourceurl))
    else .ok (some (setImage isSecure asset 0 0 []))
  else if asset.type = nativeAssettypeData then
    if asset.data.type = assetDatatypeDesc then
      if asset.data.len < c.description.length then leaveOut asset
      else .ok (some { out with data := ⟨asset.data.type, [], c.description⟩ })
    else if asset.data.type = assetDatatypeRating then
      if 5 < c.rating then leaveOut asset
      else .ok (some { out with data := ⟨asset.data.type, bytes "Rating", decimal c.rating⟩ })
    else if asset.data.type = assetDatatypeCtatext then
      if c.ctatext = [] then leaveOut asset
      else .ok (some { out with data := ⟨asset.data.type, [], c.ctatext⟩ })
    else .ok (some out)
  else .ok (some out)

/-- The loop of `Set`; `k` counts the main images so far, whether required or not. -/
def setAssets : ℕ → List ComAssetRequest → Except Fault (List AssetResponse)
  | _, [] => .ok []
  | k, asset :: assets =>
    if isMain asset then
      match c.imgs[k]? with
      | none => .error .index
      | some img => do
        let outs ← setAssets (k + 1) assets
        return setImage isSecure asset img.w img.h img.sourceurl :: outs
    else do
      let out ← setOther c isSecure asset
      let outs ← setAssets k assets
      return out.toList ++ outs

/-- `com_native_response_object::Set`. -/
def set (native : ComNative) : Except Fault (List AssetResponse) :=
  setAssets c isSecure 0 native.assets

end

/-! ## What the check counts -/

/-- The count goes up by one for a main image that is required. -/
theorem countMain_eq (imgNum : ℕ) (asset : ComAssetRequest) :
    countMain imgNum asset = imgNum + ([asset].filter isMain).countP (·.required = 1) := by
  by_cases hmain : isMain asset = true
  · by_cases hone : asset.required = 1 <;> simp [countMain, hmain, hone]
  · simp [countMain, hmain]

/-- The required main images among the assets that are left are counted. -/
theorem checkAssets_count {imgNum : ℕ} {assets : List ComAssetRequest}
    (h : (checkAssets imgNum assets).1 = .success) :
    (checkAssets imgNum assets).2.1 = imgNum +
      ((checkAssets imgNum assets).2.2.filter isMain).countP (·.required = 1) := by
  induction assets generalizing imgNum with
  | nil => simp [checkAssets]
  | cons asset assets ih =>
    rw [checkAssets] at h ⊢
    split_ifs at h ⊢ with hgood hreq
    · have hcount := ih h
      have hone := countMain_eq imgNum asset
      change (checkAssets (countMain imgNum asset) assets).2.1 = imgNum +
        (([asset] ++ (checkAssets (countMain imgNum asset) assets).2.2).filter isMain).countP _
      rw [List.filter_append, List.countP_append]
      omega
    · exact absurd h hgood
    · exact ih h

/-- A request that passes the check has the number of its required main images. -/
theorem NativeRequest.check_count {native : NativeRequest} (h : native.check.1 = .success) :
    native.check.2.imgNum =
      (native.check.2.assets.filter isMain).countP (·.required = 1) := by
  rw [NativeRequest.check_snd h]
  exact (checkAssets_count (native.check_fst_iff.mp h).2.2.1).trans (Nat.zero_add _)

/-! ## What the filter promises -/

section

variable {c : CreativeInfo} {isSecure : ℤ} {native : ComNative} {asset : ComAssetRequest}
  {assets : List ComAssetRequest}

/-- The filter lets a list of assets pass if it lets each of them pass. -/
theorem filterAssets_eq_success :
    c.filterAssets native assets = .success ↔
      ∀ asset ∈ assets, c.filterAsset native asset = .success := by
  induction assets with
  | nil => simp [CreativeInfo.filterAssets]
  | cons asset assets ih =>
    rw [CreativeInfo.filterAssets, List.forall_mem_cons, ← ih]
    split_ifs with hbad
    · simp [hbad]
    · simp [not_not.mp hbad]

/-- If the native ad passes, so does each asset. -/
theorem filterAsset_of_filterNative (h : c.filterNative native = .success) :
    ∀ asset ∈ native.assets, c.filterAsset native asset = .success := by
  rw [CreativeInfo.filterNative] at h
  split_ifs at h
  exact filterAssets_eq_success.mp h

/-- An asset that is not required may be left out. -/
theorem leaveOut_eq_ok (h : asset.required = 0) : leaveOut asset = .ok none := if_pos h

/-- An asset that the filter lets pass fits the creative, or is optional. -/
theorem exists_setOther (h : c.filterAsset native asset = .success) :
    ∃ out, setOther c isSecure asset = .ok out := by
  unfold setOther
  by_cases hreq : asset.required = 0
  · -- an optional asset is left out at worst
    rw [leaveOut_eq_ok hreq]
    split_ifs <;> exact ⟨_, rfl⟩
  · unfold CreativeInfo.filterAsset at h
    rw [if_neg hreq] at h
    by_cases htitle : asset.type = nativeAssettypeTitle
    · rw [if_pos htitle] at h ⊢
      split_ifs at h ⊢ with hlen
      exact ⟨_, rfl⟩
    · rw [if_neg htitle] at h ⊢
      by_cases himage : asset.type = nativeAssettypeImage
      · rw [if_pos himage]
        split_ifs <;> exact ⟨_, rfl⟩
      · rw [if_neg himage] at h ⊢
        by_cases hdata : asset.type = nativeAssettypeData
        · rw [if_pos hdata] at h ⊢
          -- the three texts of a data asset are compared as in `Set`
          split_ifs at h with hdesc hrating hctatext
          split_ifs <;> first | exact ⟨_, rfl⟩ | simp_all
        · rw [if_neg hdata]
          exact ⟨_, rfl⟩

/-! ## What `Set` reads -/

/-- Where every asset fits, no assertion fails, and `Set` stays inside the images exactly if they
are enough for all main images. -/
theorem setAssets_ok_iff {k : ℕ}
    (h : ∀ asset ∈ assets, ∃ out, setOther c isSecure asset = .ok out) :
    setAssets c isSecure k assets ≠ .error .assertion ∧
      ((∃ outs, setAssets c isSecure k assets = .ok outs) ↔
        (assets.filter isMain).length = 0 ∨
          k + (assets.filter isMain).length ≤ c.imgs.length) := by
  -- by induction over the assets, `k` being the number of the next image
  induction assets generalizing k with
  | nil => simp [setAssets]
  | cons asset assets ih =>
    obtain ⟨hfit, hrest⟩ := List.forall_mem_cons.mp h
    rw [setAssets]
    by_cases hmain : isMain asset = true
    · rw [if_pos hmain, List.filter_cons_of_pos hmain, List.length_cons]
      obtain ⟨hassert, hok⟩ := ih (k := k + 1) hrest
      -- the image of the asset is read without a check
      cases himg : c.imgs[k]? with
      | none =>
        have hlen : c.imgs.length ≤ k := List.getElem?_eq_none_iff.mp himg
        refine ⟨by simp, ?_⟩
        constructor
        · rintro ⟨outs, houts⟩
          cases houts
        · omega
      | some img =>
        have hlen : k < c.imgs.length := (List.getElem?_eq_some_iff.mp himg).1
        cases hset : setAssets c isSecure (k + 1) assets with
        | error fault =>
          rw [hset] at hassert hok
          refine ⟨fun hfault => hassert hfault, ?_⟩
          constructor
          · rintro ⟨outs, houts⟩
            cases houts
          · intro hbound
            obtain ⟨outs, houts⟩ := hok.mpr (by omega)
            cases houts
        | ok outs =>
          have hbound := (hset ▸ hok).mp ⟨outs, rfl⟩
          refine ⟨nofun, fun _ => ?_, fun _ => ⟨_, rfl⟩⟩
          omega
    -- another asset needs no image
    · rw [if_neg hmain, List.filter_cons_of_neg hmain]
      obtain ⟨out, hout⟩ := hfit
      obtain ⟨hassert, hok⟩ := ih (k := k) hrest
      rw [hout, ← hok]
      cases hset : setAssets c isSecure k assets with
      | error fault =>
        rw [hset] at hassert
        exact ⟨fun hfault => hassert hfault, nofun, nofun⟩
      | ok outs => exact ⟨nofun, fun _ => ⟨_, rfl⟩, fun _ => ⟨_, rfl⟩⟩

/-- A required main image that passes the filter needs as many images as the check has counted. -/
theorem imgNum_eq_of_main (h : c.filterAsset native asset = .success) (hmain : isMain asset = true)
    (hreq : asset.required ≠ 0) : native.imgNum = c.imgs.length := by
  rw [isMain, Bool.and_eq_true, decide_eq_true_iff, decide_eq_true_iff] at hmain
  obtain ⟨himage, himg⟩ := hmain
  unfold CreativeInfo.filterAsset at h
  rw [if_neg hreq, if_neg (by rw [himage]; decide), if_pos himage, if_neg (by rw [himg]; decide),
    if_pos himg, CreativeInfo.filterMain] at h
  split_ifs at h with hnum
  exact not_not.mp hnum

end

section

variable (native : NativeRequest) (c : CreativeInfo) (isSecure : ℤ)

/-- The images are enough: either all main images are required, or none is and the creative has one
for each. -/
def EnoughImages (native : ComNative) (c : CreativeInfo) : Prop :=
  (∀ asset ∈ native.assets.filter isMain, asset.required = 1) ∨
    (∀ asset ∈ native.assets.filter isMain, asset.required = 0) ∧
      (native.assets.filter isMain).length ≤ c.imgs.length

/-- After the check and the filter no asset fails its assertion, and `Set` stays inside the images
exactly if they are enough. -/
theorem set_safe_iff (hcheck : native.check.1 = .success)
    (hfilter : c.filterNative native.check.2 = .success) :
    (∀ asset ∈ native.check.2.assets, ∃ out, setOther c isSecure asset = .ok out) ∧
      set c isSecure native.check.2 ≠ .error .assertion ∧
      ((∃ outs, set c isSecure native.check.2 = .ok outs) ↔ EnoughImages native.check.2 c) := by
  have hcount := NativeRequest.check_count hcheck
  have hassets : ∀ asset ∈ native.check.2.assets,
      c.filterAsset native.check.2 asset = .success := filterAsset_of_filterNative hfilter
  have hfits : ∀ asset ∈ native.check.2.assets, ∃ out, setOther c isSecure asset = .ok out :=
    fun asset hasset => exists_setOther (hassets asset hasset)
  obtain ⟨hassert, hok⟩ := setAssets_ok_iff (k := 0) hfits
  refine ⟨hfits, hassert, hok.trans ?_⟩
  rw [Nat.zero_add, EnoughImages]
  -- the checks compare the numbers of images only for an asset that is required
  have himgs : ∀ asset ∈ native.check.2.assets.filter isMain, asset.required ≠ 0 →
      native.check.2.imgNum = c.imgs.length := by
    intro asset hasset hreq
    obtain ⟨hmem, hmain⟩ := List.mem_filter.mp hasset
    exact imgNum_eq_of_main (hassets asset hmem) hmain hreq
  -- from here on only the main images and their number matter
  generalize native.check.2.assets.filter isMain = mains at hcount himgs ⊢
  have hall : (∀ asset ∈ mains, asset.required = 1) ↔
      mains.countP (·.required = 1) = mains.length := by
    rw [List.countP_eq_length]
    simp only [decide_eq_true_eq]
  by_cases hzero : ∀ asset ∈ mains, asset.required = 0
  · constructor
    · rintro (hnone | hlen)
      · exact .inr ⟨hzero, by omega⟩
      · exact .inr ⟨hzero, hlen⟩
    · rintro (hone | ⟨-, hlen⟩)
      · -- required and optional at once: there is no main image
        left
        rw [List.length_eq_zero_iff, List.eq_nil_iff_forall_not_mem]
        intro asset hasset
        have h0 := hzero asset hasset
        have h1 := hone asset hasset
        omega
      · exact .inr hlen
  -- one of them is required: the numbers were compared
  · simp only [not_forall] at hzero
    obtain ⟨asset, hasset, hreq⟩ := hzero
    have hlen := himgs asset hasset hreq
    have hpos : 0 < mains.length := List.length_pos_of_mem hasset
    rw [hall, ← hcount, hlen]
    have hle := List.countP_le_length (l := mains) (p := fun asset => decide (asset.required = 1))
    constructor
    · rintro (hnone | hbound)
      · omega
      · left
        omega
    · rintro (hone | ⟨hnone, -⟩)
      · right
        omega
      · exact absurd (hnone asset hasset) hreq

end

/-! ## A title and an image -/

/-- A title of up to 20 bytes and a main image of 300 × 250. -/
def sampleNative (imageRequired : ℕ) : NativeRequest where
  layout := nativeLayouttypeNewsfeed
  plcmtcnt := 1
  bctype := []
  assets := [⟨1, nativeAssettypeTitle, 20, ⟨0, 0, 0, []⟩, ⟨0, 0⟩⟩,
    ⟨imageRequired, nativeAssettypeImage, 0, ⟨assetImagetypeMain, 300, 250, []⟩, ⟨0, 0⟩⟩]

/-- A feed with these images. -/
def sampleFeed (imgs : List CreativeImg) : CreativeInfo :=
  { sampleCreative 1 adtypeFeeds 0 0 with imgs := imgs, title := bytes "Title" }

/-- An image that fits. -/
def sampleImg : CreativeImg := ⟨1, 300, 250, bytes "http://a/1.png"⟩

/-- A required image, and a feed that has one. -/
theorem required_image_set :
    (∃ outs, set (sampleFeed [sampleImg]) 0 (sampleNative 1).check.2 = .ok outs) ∧
      EnoughImages (sampleNative 1).check.2 (sampleFeed [sampleImg]) := by
  obtain ⟨-, -, hok⟩ := set_safe_iff (sampleNative 1) (sampleFeed [sampleImg]) 0 (by decide)
    (by decide)
  have henough : EnoughImages (sampleNative 1).check.2 (sampleFeed [sampleImg]) :=
    .inl (by decide)
  exact ⟨hok.mpr henough, henough⟩

/-- An optional image, and a feed without images: the filter does not look at it, and `Set` reads
behind the images. -/
theorem optional_image_behind_images :
    (sampleNative 0).check.1 = .success ∧
      (sampleFeed []).filterNative (sampleNative 0).check.2 = .success ∧
      set (sampleFeed []) 0 (sampleNative 0).check.2 = .error .index := by
  refine ⟨by decide, by decide, by decide⟩

end NativeAssets

end AdxDsp
