import AdxDsp.Bid.NativeAssets

/-!
# What the check of a native imp leaves, and which image answers which asset

`com_native_request_object::Check` leaves the well-formed assets.  `CreativeInfo::FilterNative`
compares every main image asset with the first image of the creative, whereas
`com_native_response_object::Set` answers the `k`-th one with the `k`-th image.

* `NativeRequest.check_success_iff`: the imps that pass the check, and what it leaves.
* `set_answers_iff`: when every main image asset gets an image of its size and file type.
* `second_image_unlike_first`: two assets of one size, and two images of different sizes.
-/

namespace AdxDsp

open CText

namespace NativeAssets

/-! ## What it leaves -/

/-- A well-formed asset: a title, an icon or a main image with its sizes, or data of a known type.
-/
def Valid (asset : ComAssetRequest) : Prop :=
  (asset.type = nativeAssettypeTitle ∧ asset.titleLen ≠ 0) ∨
    (asset.type = nativeAssettypeImage ∧
      (asset.img.type = assetImagetypeIcon ∨ asset.img.type = assetImagetypeMain) ∧
      asset.img.w ≠ 0 ∧ asset.img.h ≠ 0) ∨
    (asset.type = nativeAssettypeData ∧
      (asset.data.type = assetDatatypeDesc ∧ asset.data.len ≠ 0 ∨
        asset.data.type = assetDatatypeRating ∨ asset.data.type = assetDatatypeCtatext))

instance : DecidablePred Valid := fun _ => inferInstanceAs (Decidable (_ ∨ _))

/-- An asset is accepted just if it is valid. -/
theorem checkAsset_eq_success (asset : ComAssetRequest) :
    checkAsset asset = .success ↔ Valid asset := by
  -- the three types are 1, 2 and 3
  have htypes : nativeAssettypeTitle ≠ nativeAssettypeImage ∧
      nativeAssettypeTitle ≠ nativeAssettypeData ∧
      nativeAssettypeImage ≠ nativeAssettypeData := by decide
  unfold checkAsset Valid
  by_cases htitle : asset.type = nativeAssettypeTitle
  · rw [if_pos htitle]
    split_ifs with hlen <;> simp [htitle, htypes, hlen]
  by_cases himage : asset.type = nativeAssettypeImage
  · rw [if_neg htitle, if_pos himage]
    split_ifs with himg hsize
    · simp [himage, htypes, htypes.1.symm]
      tauto
    · simp [himage, htypes.1.symm]
      tauto
    · simp [himage, htypes, htypes.1.symm, himg]
  by_cases hdata : asset.type = nativeAssettypeData
  · have hdesc : assetDatatypeDesc ≠ assetDatatypeRating ∧
        assetDatatypeDesc ≠ assetDatatypeCtatext := by decide
    rw [if_neg htitle, if_neg himage, if_pos hdata]
    split_ifs with htype hlen
    · simp [hdata, htypes.2.1.symm, htypes.2.2.symm, htype]
    · simp [hdata, htypes.2.1.symm, htypes.2.2.symm, hlen, hdesc]
    · simp [hdata, htypes.2.1.symm, htypes.2.2.symm]
      tauto
  · rw [if_neg htitle, if_neg himage, if_neg hdata]
    simp [htitle, himage, hdata]

/-- The loop succeeds if every required asset is well-formed. -/
theorem checkAssets_success_iff (imgNum : ℕ) (assets : List ComAssetRequest) :
    (checkAssets imgNum assets).1 = .success ↔
      ∀ asset ∈ assets, asset.required = 1 → Valid asset := by
  induction assets generalizing imgNum with
  | nil => simp [checkAssets]
  | cons asset assets ih =>
    rw [checkAssets, List.forall_mem_cons]
    by_cases hgood : checkAsset asset = .success
    · rw [if_pos hgood]
      have hvalid := (checkAsset_eq_success asset).mp hgood
      exact (ih _).trans ⟨fun hrest => ⟨fun _ => hvalid, hrest⟩, And.right⟩
    · rw [if_neg hgood]
      have hvalid : ¬Valid asset := mt (checkAsset_eq_success asset).mpr hgood
      by_cases hreq : asset.required = 1
      · rw [if_pos hreq]
        exact ⟨fun h => absurd h hgood, fun h => absurd (h.1 hreq) hvalid⟩
      · rw [if_neg hreq]
        exact (ih _).trans ⟨fun hrest => ⟨fun h => absurd h hreq, hrest⟩, And.right⟩

/-- Where it succeeds, the well-formed assets are left, in their order. -/
theorem checkAssets_left {imgNum : ℕ} {assets : List ComAssetRequest}
    (h : (checkAssets imgNum assets).1 = .success) :
    (checkAssets imgNum assets).2.2 = assets.filter Valid := by
  induction assets generalizing imgNum with
  | nil => rfl
  | cons asset assets ih =>
    rw [checkAssets] at h ⊢
    split_ifs at h ⊢ with hgood hreq
    · have hvalid := (checkAsset_eq_success asset).mp hgood
      rw [List.filter_cons_of_pos (by simpa using hvalid)]
      exact congrArg (asset :: ·) (ih h)
    · exact absurd h hgood
    · have hvalid : ¬Valid asset := mt (checkAsset_eq_success asset).mpr hgood
      rw [List.filter_cons_of_neg (by simpa using hvalid)]
      exact ih h

/-- A native imp passes the check exactly if its layout is supported, it has a place, its required
assets are well-formed and at least two assets are; then the well-formed assets are left, in their
order, and the required main images among them are counted. -/
theorem NativeRequest.check_success_iff (native : NativeRequest) :
    (native.check.1 = .success ↔
      (native.layout = nativeLayouttypeNewsfeed ∨ native.layout = nativeLayouttypeContentstream ∨
        native.layout = nativeLayouttypeOpenscreen) ∧
      1 ≤ native.plcmtcnt ∧
      (∀ asset ∈ native.assets, asset.required = 1 → Valid asset) ∧
      2 ≤ (native.assets.filter Valid).length) ∧
    (native.check.1 = .success →
      native.check.2.assets = native.assets.filter Valid ∧
      native.check.2.imgNum =
        (native.assets.filter Valid).countP fun asset => isMain asset ∧ asset.required = 1) := by
  have hleft : native.check.1 = .success → native.check.2.assets = native.assets.filter Valid := by
    intro h
    rw [NativeRequest.check_snd h]
    exact checkAssets_left (native.check_fst_iff.mp h).2.2.1
  constructor
  · rw [native.check_fst_iff, checkAssets_success_iff]
    refine and_congr_right fun _ => and_congr_right fun _ => and_congr_right fun hall => ?_
    rw [checkAssets_left ((checkAssets_success_iff 0 _).mpr hall)]
  · intro h
    have hassets := hleft h
    refine ⟨hassets, ?_⟩
    rw [NativeRequest.check_count h, hassets, List.countP_filter]
    apply List.countP_congr
    intro asset _
    simp [and_comm]

/-! ## Which image answers which asset -/

/-- A main image among the assets of the response. -/
def AssetResponse.isMain (out : AssetResponse) : Bool :=
  out.type = nativeAssettypeImage && out.img.type = assetImagetypeMain

/-- The image has the size that the asset asks for, and one of its file types if it names any. -/
def Answers (img : CreativeImg) (asset : ComAssetRequest) : Prop :=
  img.w = asset.img.w ∧ img.h = asset.img.h ∧
    (asset.img.mimes ≠ [] → img.ftype ∈ asset.img.mimes)

instance (img : CreativeImg) (asset : ComAssetRequest) : Decidable (Answers img asset) :=
  inferInstanceAs (Decidable (_ ∧ _))

/-- The images have the size of the first one, and its file type or another one that suits the asset
in their place. -/
def ImagesAlike (native : ComNative) (c : CreativeInfo) : Prop :=
  ∀ p ∈ (native.assets.filter isMain).zip c.imgs, ∀ first ∈ c.imgs.head?,
    p.2.w = first.w ∧ p.2.h = first.h ∧
      (p.2.ftype = first.ftype ∨ p.1.img.mimes = [] ∨ p.2.ftype ∈ p.1.img.mimes)

/-- Two steps that succeed, taken apart. -/
theorem exists_of_bind_eq_ok {α β : Type} {x : Except Fault α} {f : α → Except Fault β} {b : β}
    (h : x >>= f = .ok b) : ∃ a, x = .ok a ∧ f a = .ok b := by
  cases x with
  | error fault => cases h
  | ok a => exact ⟨a, rfl, h⟩

section

variable {native : ComNative} {c : CreativeInfo} {isSecure : ℤ} {asset : ComAssetRequest}

/-- An asset in the response has the types of the asset that it answers. -/
theorem types_of_setOther {out : AssetResponse} (h : setOther c isSecure asset = .ok (some out)) :
    out.type = asset.type ∧ out.img.type = asset.img.type := by
  unfold setOther leaveOut at h
  dsimp only at h
  split_ifs at h <;> cases h <;> exact ⟨rfl, rfl⟩

/-- The other assets keep whether they are the main one. -/
theorem isMain_of_setOther {out : AssetResponse} (h : setOther c isSecure asset = .ok (some out)) :
    out.isMain = isMain asset := by
  obtain ⟨htype, himg⟩ := types_of_setOther h
  rw [AssetResponse.isMain, isMain, htype, himg]

/-- An image keeps whether it is the main one. -/
theorem isMain_setImage (w h : ℕ) (url : Bytes) :
    (setImage isSecure asset w h url).isMain = isMain asset := rfl

/-- `Set` answers the main image assets with the images from place `k` on, one after the other. -/
theorem mains_setAssets {k : ℕ} {assets : List ComAssetRequest} {outs : List AssetResponse}
    (h : setAssets c isSecure k assets = .ok outs) :
    outs.filter AssetResponse.isMain =
      List.zipWith (fun asset img => setImage isSecure asset img.w img.h img.sourceurl)
        (assets.filter isMain) (c.imgs.drop k) := by
  induction assets generalizing k outs with
  | nil =>
    obtain rfl := Except.ok.inj h
    rfl
  | cons asset assets ih =>
    rw [setAssets] at h
    by_cases hmain : isMain asset = true
    · rw [if_pos hmain] at h
      cases himg : c.imgs[k]? with
      | none =>
        rw [himg] at h
        cases h
      | some img =>
        rw [himg] at h
        obtain ⟨rest, hrest, h⟩ := exists_of_bind_eq_ok h
        obtain rfl := Except.ok.inj h
        have hdrop : c.imgs.drop k = img :: c.imgs.drop (k + 1) := by
          obtain ⟨hk, rfl⟩ := List.getElem?_eq_some_iff.mp himg
          exact List.drop_eq_getElem_cons hk
        rw [List.filter_cons_of_pos ((isMain_setImage _ _ _).trans hmain),
          List.filter_cons_of_pos hmain, hdrop, List.zipWith_cons_cons, ih hrest]
    · rw [if_neg hmain] at h
      obtain ⟨out, hout, h⟩ := exists_of_bind_eq_ok h
      obtain ⟨rest, hrest, h⟩ := exists_of_bind_eq_ok h
      obtain rfl := Except.ok.inj h
      rw [List.filter_cons_of_neg hmain, List.filter_append, ih hrest]
      -- the answer to another asset is no main image
      cases out with
      | none => rfl
      | some out =>
        have hout := isMain_of_setOther hout
        rw [Option.toList_some, List.filter_cons_of_neg (hout ▸ hmain)]
        rfl

/-- The filter compares a required main image asset with the first image. -/
theorem answers_first (h : c.filterAsset native asset = .success) (hmain : isMain asset = true)
    (hreq : asset.required = 1) {first : CreativeImg} (hfirst : first ∈ c.imgs.head?) :
    Answers first asset := by
  rw [isMain, Bool.and_eq_true, decide_eq_true_iff, decide_eq_true_iff] at hmain
  obtain ⟨himage, himg⟩ := hmain
  have hhead : c.imgs.headD ⟨0, 0, 0, []⟩ = first := by
    rw [List.headD_eq_head?_getD, Option.mem_def.mp hfirst, Option.getD_some]
  unfold CreativeInfo.filterAsset at h
  rw [if_neg (by omega), if_neg (by rw [himage]; decide), if_pos himage,
    if_neg (by rw [himg]; decide), if_pos himg, CreativeInfo.filterMain, hhead] at h
  dsimp only at h
  split_ifs at h with hnum hsize hmimes hurl
  obtain ⟨hw, hh⟩ := hsize
  exact ⟨hw.symm, hh.symm, fun hne => not_not.mp fun hnot => hmimes ⟨hne, hnot⟩⟩

end

section

variable (native : NativeRequest) (c : CreativeInfo) (isSecure : ℤ)

/-- After the check and the filter, where all main image assets are required: `Set` answers the
`k`-th of them with the `k`-th image of the creative, and all images are what the assets ask for
exactly if they are like the first one. -/
theorem set_answers_iff (hcheck : native.check.1 = .success)
    (hfilter : c.filterNative native.check.2 = .success)
    (hreq : ∀ asset ∈ native.check.2.assets.filter isMain, asset.required = 1) :
    ∃ outs, set c isSecure native.check.2 = .ok outs ∧
      outs.filter AssetResponse.isMain =
        List.zipWith (fun asset img => setImage isSecure asset img.w img.h img.sourceurl)
          (native.check.2.assets.filter isMain) c.imgs ∧
      (outs.filter AssetResponse.isMain).length =
        (native.check.2.assets.filter isMain).length ∧
      ((∀ p ∈ (native.check.2.assets.filter isMain).zip c.imgs, Answers p.2 p.1) ↔
        ImagesAlike native.check.2 c) := by
  have hassets : ∀ asset ∈ native.check.2.assets,
      c.filterAsset native.check.2 asset = .success := filterAsset_of_filterNative hfilter
  have hfits : ∀ asset ∈ native.check.2.assets, ∃ out, setOther c isSecure asset = .ok out :=
    fun asset hasset => exists_setOther (hassets asset hasset)
  -- the check has counted all of them, and the creative has as many images
  have hlen : (native.check.2.assets.filter isMain).length ≤ c.imgs.length := by
    have hcount := NativeRequest.check_count hcheck
    have hall : (native.check.2.assets.filter isMain).countP (·.required = 1) =
        (native.check.2.assets.filter isMain).length := by
      rw [List.countP_eq_length]
      simpa using hreq
    cases hmains : native.check.2.assets.filter isMain with
    | nil => exact Nat.zero_le _
    | cons asset mains =>
      have hmem : asset ∈ native.check.2.assets.filter isMain := hmains ▸ List.mem_cons_self
      obtain ⟨hasset, hmain⟩ := List.mem_filter.mp hmem
      have hone := hreq asset hmem
      have hnum := imgNum_eq_of_main (hassets asset hasset) hmain (by omega)
      rw [← hmains]
      omega
  obtain ⟨outs, houts⟩ := (setAssets_ok_iff (k := 0) hfits).2.mpr (.inr (by omega))
  have hmains := mains_setAssets houts
  rw [List.drop_zero] at hmains
  refine ⟨outs, houts, hmains, by rw [hmains, List.length_zipWith]; omega, ?_⟩
  -- both sides speak about the pairs of an asset and its image
  apply forall₂_congr
  intro p hp
  obtain ⟨hasset, himg⟩ := List.of_mem_zip hp
  obtain ⟨first, hfirst⟩ : ∃ first, first ∈ c.imgs.head? := by
    cases himgs : c.imgs with
    | nil => exact absurd himg (himgs ▸ List.not_mem_nil)
    | cons first imgs => exact ⟨first, rfl⟩
  obtain ⟨hmem, hmain⟩ := List.mem_filter.mp hasset
  obtain ⟨hw, hh, hmimes⟩ := answers_first (hassets _ hmem) hmain (hreq _ hasset) hfirst
  constructor
  · rintro ⟨hw', hh', hmimes'⟩ first' hfirst'
    obtain rfl := Option.mem_unique hfirst hfirst'
    refine ⟨hw'.trans hw.symm, hh'.trans hh.symm, .inr ?_⟩
    exact or_iff_not_imp_left.mpr hmimes'
  · intro halike
    obtain ⟨hw', hh', hftype⟩ := halike first hfirst
    refine ⟨hw'.trans hw, hh'.trans hh, fun hne => ?_⟩
    rcases hftype with hsame | hnone | hlisted
    · exact hsame ▸ hmimes hne
    · exact absurd hnone hne
    · exact hlisted

end

/-- Two required main images of 300 × 250. -/
def sampleTwoImages : NativeRequest where
  layout := nativeLayouttypeNewsfeed
  plcmtcnt := 1
  bctype := []
  assets := [⟨1, nativeAssettypeImage, 0, ⟨assetImagetypeMain, 300, 250, []⟩, ⟨0, 0⟩⟩,
    ⟨1, nativeAssettypeImage, 0, ⟨assetImagetypeMain, 300, 250, []⟩, ⟨0, 0⟩⟩]

/-- A feed with two images that fit. -/
theorem alike_images_answer :
    ∃ outs, set (sampleFeed [sampleImg, sampleImg]) 0 sampleTwoImages.check.2 = .ok outs ∧
      outs.filter AssetResponse.isMain =
        List.zipWith (fun asset img => setImage 0 asset img.w img.h img.sourceurl)
          (sampleTwoImages.check.2.assets.filter isMain) [sampleImg, sampleImg] ∧
      (outs.filter AssetResponse.isMain).length =
        (sampleTwoImages.check.2.assets.filter isMain).length ∧
      ((∀ p ∈ (sampleTwoImages.check.2.assets.filter isMain).zip [sampleImg, sampleImg],
          Answers p.2 p.1) ↔
        ImagesAlike sampleTwoImages.check.2 (sampleFeed [sampleImg, sampleImg])) :=
  set_answers_iff sampleTwoImages (sampleFeed [sampleImg, sampleImg]) 0 (by decide) (by decide)
    (by decide)

/-- A feed whose second image is a banner of 640 × 100: it passes the check and the filter, and the
second asset, which asks for 300 × 250, is answered with the banner. -/
theorem second_image_unlike_first :
    sampleTwoImages.check.1 = .success ∧
      (∀ asset ∈ sampleTwoImages.assets.filter isMain, asset.required = 1) ∧
      (sampleFeed [sampleImg, ⟨1, 640, 100, bytes "http://a/2.png"⟩]).filterNative
        sampleTwoImages.check.2 = .success ∧
      set (sampleFeed [sampleImg, ⟨1, 640, 100, bytes "http://a/2.png"⟩]) 0
          sampleTwoImages.check.2 =
        .ok [⟨1, nativeAssettypeImage, [], ⟨assetImagetypeMain, 300, 250, bytes "http://a/1.png"⟩,
            ⟨0, [], []⟩⟩,
          ⟨1, nativeAssettypeImage, [], ⟨assetImagetypeMain, 640, 100, bytes "http://a/2.png"⟩,
            ⟨0, [], []⟩⟩] := by
  refine ⟨by decide, by decide, by decide, by decide⟩

end NativeAssets

end AdxDsp
