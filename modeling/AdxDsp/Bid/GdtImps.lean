import AdxDsp.Bid.ImpAddress
import AdxDsp.Bid.ImpInfo
import AdxDsp.Bid.NativeAssets
import AdxDsp.Lib.Transducer

/-!
# The imps of GDT

GDT sends impressions with the numbers of templates, and `GdtBid::ParseImp` appends an imp for each
template whose specification is one of a banner or of a native imp (`gdt_bid.cpp`).  The lengths
that a specification sets live outside both loops, and one object is used for all imps of an
impression.

* **The parser** (`parseImp`), with what a specification sets (`sets`).
* `parseImp_iff`: when each imp is the one that its impression and its specification alone give.
* `title_of_other_spec`: a native imp with the title of the specification before it.
-/

namespace AdxDsp.GdtImps

open CText ImpAddress ImpInfo Transducer

/-! ## Imps -/

/-- `BidRequest::Impression`, as far as it goes into the imps; of its natives `required_fields`. -/
structure Impression where
  id : Bytes
  bidFloor : ℤ
  contractCode : List Bytes
  creativeSpecs : List ℤ
  multimediaTypeWhiteList : List Bytes
  natives : List ℕ
  /-- What is in `w` and `h` of the banner of the object that is made for the impression: its
  constructor does not set them. -/
  unsetSize : ℕ × ℕ

/-- `COM_IMPRESSIONOBJECT`, as far as the adapter fills it in; each asset with its id. -/
structure Imp where
  id : Bytes
  bidfloorcur : Bytes
  bidfloor : ℤ
  dealprice : List (Bytes × ℤ)
  type : ℕ
  advPriority : ℕ
  advid : ℕ
  banner : ComBanner
  layout : ℕ
  assets : List (ℕ × ComAssetRequest)
  deriving DecidableEq

/-- The banner of the object of an impression, before one is set. -/
def Impression.noBanner (impression : Impression) : ComBanner :=
  ⟨impression.unsetSize.1, impression.unsetSize.2, [], []⟩

/-- The object of an impression, before its specifications are read. -/
def Impression.new (impression : Impression) : Imp where
  id := impression.id
  bidfloorcur := bytes "CNY"
  bidfloor := impression.bidFloor
  dealprice := (impression.contractCode.filter (· ≠ [])).dedup.map (·, impression.bidFloor)
  type := 0
  advPriority := 0
  advid := 0
  banner := impression.noBanner
  layout := 0
  assets := []

/-- `COM_ASSET_REQUEST_OBJECT` after its constructor. -/
def newAsset : ComAssetRequest := ⟨0, 0, 0, ⟨0, 0, 0, []⟩, ⟨0, 0⟩⟩

/-- The size of the icon, for the templates that have one. -/
def iconSize (advid : ℤ) (img : ComImageRequest) : ComImageRequest :=
  if advid = 147 ∨ advid = 148 ∨ advid = 149 ∨ advid = 150 then { img with w := 300, h := 300 }
  else if advid = 65 then { img with w := 80, h := 80 }
  else img

/-- `set_native` for the native with number `j`: one object is filled in for all its fields. -/
def fieldAssets (advid : ℤ) (info : Info) (j requestField : ℕ) : List (ℕ × ComAssetRequest) :=
  let title := if requestField.testBit 0 then
    { newAsset with required := 1, type := nativeAssettypeTitle, titleLen := info .tLen }
    else newAsset
  let icon := if requestField.testBit 1 then
    { title with
      required := 1
      type := nativeAssettypeImage
      img := iconSize advid { title.img with type := assetImagetypeIcon } }
    else title
  let data := if requestField.testBit 3 then
    { icon with required := 1, type := nativeAssettypeData, data := ⟨2, info .dLen⟩ }
    else icon
  let main := if requestField.testBit 2 then
    { data with
      required := 1
      type := nativeAssettypeImage
      img := { data.img with
        type := assetImagetypeMain, w := toUInt16 (info .w), h := toUInt16 (info .h) } }
    else data
  (if requestField.testBit 0 then [(j, title)] else []) ++
    (if requestField.testBit 1 then [(j, icon)] else []) ++
    (if requestField.testBit 3 then [(j, data)] else []) ++
    if requestField.testBit 2 then [(j, main)] else []

/-- `set_native` without natives. -/
def lengthAssets (info : Info) : List (ℕ × ComAssetRequest) :=
  let asset := { newAsset with required := 1 }
  let img := if info .w ≠ 0 ∧ info .h ≠ 0 then
    { asset with
      type := nativeAssettypeImage
      img := { asset.img with
        type := assetImagetypeMain, w := toUInt16 (info .w), h := toUInt16 (info .h) } }
    else asset
  let title := if info .tLen ≠ 0 then
    { img with type := nativeAssettypeTitle, titleLen := info .tLen } else img
  let data := if info .dLen ≠ 0 then
    { title with type := nativeAssettypeData, data := ⟨2, info .dLen⟩ } else title
  (if info .w ≠ 0 ∧ info .h ≠ 0 then [(1, img)] else []) ++
    (if info .tLen ≠ 0 then [(2, title)] else []) ++ if info .dLen ≠ 0 then [(3, data)] else []

/-- The assets of `set_native`. -/
def setNative (natives : List ℕ) (advid : ℤ) (info : Info) : List (ℕ × ComAssetRequest) :=
  if natives = [] then lengthAssets info
  else natives.zipIdx.flatMap fun p => fieldAssets advid info p.2 p.1

/-- The banner of a specification with these lengths. -/
def Impression.banner (impression : Impression) (info : Info) : ComBanner where
  w := toUInt16 (info .w)
  h := toUInt16 (info .h)
  btype := if impression.multimediaTypeWhiteList.head? = some (bytes "jpeg") then [3] else []
  battr := []

/-! ## The loops -/

/-- What lives while the specifications of an impression are read. -/
structure State where
  info : Info
  impressionobject : Imp
  imp : List Imp

/-- One turn of the inner loop, for at most so many turns of `get_native_info`. -/
def parseSpec (fuel : ℕ) (advidTable : List (ℤ × Bytes)) (impression : Impression) (s : State)
    (advid : ℤ) : Option State :=
  if advid = 0 then some s
  else match advidTable.lookup advid with
    | none => some s
    | some impInfo => do
      let (advtype, info) ← getImpInfo .gdt fuel impInfo (-1) s.info
      let object := { s.impressionobject with
        advPriority := toUInt16 (info .proi), advid := toUInt16 advid }
      if advtype = 1 then
        let object := { object with type := impBanner, banner := impression.banner info }
        return ⟨info, object, s.imp ++ [object]⟩
      else if advtype = 2 then
        let object := { object with
          type := impNative
          layout := NativeAssets.nativeLayouttypeNewsfeed
          assets := setNative impression.natives advid info }
        return ⟨info, object, s.imp ++ [object]⟩
      else return ⟨info, object, s.imp⟩

/-- One turn of the outer loop: the lengths, and the imps of the request. -/
def parseImpression (fuel : ℕ) (advidTable : List (ℤ × Bytes)) (s : Info × List Imp)
    (impression : Impression) : Option (Info × List Imp) := do
  let s ← impression.creativeSpecs.foldlM (parseSpec fuel advidTable impression)
    ⟨s.1, impression.new, s.2⟩
  return (s.info, s.imp)

/-- `GdtBid::ParseImp` -/
def parseImp (fuel : ℕ) (advidTable : List (ℤ × Bytes)) (impressions : List Impression) :
    Option (List Imp) := do
  let s ← impressions.foldlM (parseImpression fuel advidTable) (fun _ => 0, [])
  return s.2

/-- The imps of an impression with one specification, read alone. -/
def alone (fuel : ℕ) (advidTable : List (ℤ × Bytes)) (impression : Impression) (advid : ℤ) :
    List Imp :=
  (parseImp fuel advidTable [{ impression with creativeSpecs := [advid] }]).getD []

/-! ## What a specification sets -/

/-- The type that a specification gives, 1 for a banner and 2 for a native imp. -/
def kind (impInfo : Bytes) : ℤ := impType impInfo (-1)

/-- What `get_banner_info` sets. -/
def bannerSets (impInfo : Bytes) : Field → Option ℕ
  | .w => (cut 59 impInfo).bind fun p => (cut 58 p.1).map fun w =>
      (atoi (cstr w.2) % 2 ^ 32).toNat
  | .h => (cut 59 impInfo).bind fun p => (cut 58 p.2).map fun h =>
      (atoi (cstr h.2) % 2 ^ 32).toNat
  | .proi => (find (bytes "proi:") impInfo).map fun pos =>
      (atoi (cstr (impInfo.drop (pos + 5))) % 2 ^ 32).toNat
  | _ => none

/-- What `get_native_info` sets: the value of the last piece with the tag of the field. -/
def nativeSets (impInfo : Bytes) (field : Field) : Option ℕ :=
  (Adapter.gdt.tags.find? (·.field = field)).bind fun tag =>
    (lastValue tag.name impInfo).map tag.value

/-- What a specification sets a field to, if it does; the priority is 100 without a value. -/
def sets (impInfo : Bytes) (field : Field) : Option ℕ :=
  let value := (cut 59 impInfo).bind fun p =>
    let rest := if 58 ∈ p.1 then p.2 else impInfo
    if kind impInfo = 1 then bannerSets rest field else nativeSets rest field
  value.or (if field = .proi then some 100 else none)

/-- The fields after a specification. -/
def after (impInfo : Bytes) (info : Info) : Info := fun field =>
  (sets impInfo field).getD (info field)

/-- Every spec sets `proi`. -/
theorem sets_proi (impInfo : Bytes) : (sets impInfo .proi).isSome := by
  unfold sets
  rw [if_pos rfl, Option.isSome_or]
  exact Bool.or_true _

/-- The banner's part of a spec sets its own fields only. -/
theorem bannerInfo_eq (impInfo : Bytes) (info : Info) (field : Field) :
    getBannerInfo .gdt impInfo info field = (bannerSets impInfo field).getD (info field) := by
  unfold getBannerInfo bannerSize
  cases hcut : cut 59 impInfo with
  | none => cases hproi : find (bytes "proi:") impInfo <;>
      cases field <;> simp [bannerSets, hcut, hproi, setValue]
  | some p =>
    cases hw : cut 58 p.1 <;> cases hh : cut 58 p.2 <;>
      cases hproi : find (bytes "proi:") impInfo <;>
        cases field <;> simp [bannerSets, hcut, hw, hh, hproi, setValue]

/-- What the loop returns is what its pieces set: by induction on the turns. -/
theorem eq_setPieces {tags : List Tag} {fuel : ℕ} {temp : Bytes} {info info' : Info}
    (h : getNativeInfo tags fuel temp info = some info') :
    info' = setPieces tags (tagged temp) info := by
  induction fuel generalizing temp info with
  | zero => cases h
  | succ fuel ih =>
    cases hcut : cut 59 temp with
    | none =>
      rw [getNativeInfo_of_cut_none hcut] at h
      exact (Option.some.inj h).symm
    | some p =>
      obtain ⟨first, rest⟩ := p
      rw [getNativeInfo_of_cut hcut] at h
      cases hpiece : cut 58 first with
      | none =>
        rw [hpiece] at h
        exact ih h
      | some piece =>
        rw [hpiece] at h
        rw [tagged_of_cut hcut, hpiece]
        exact ih h

/-- The native part of a spec sets its own fields only. -/
theorem nativeInfo_eq {fuel : ℕ} {impInfo : Bytes} {info info' : Info}
    (h : getNativeInfo Adapter.gdt.tags fuel impInfo info = some info') (field : Field) :
    info' field = (nativeSets impInfo field).getD (info field) := by
  have hset : ∀ tag ∈ Adapter.gdt.tags, info' tag.field =
      ((lastValue tag.name impInfo).map tag.value).getD (info tag.field) := by
    intro tag htag
    rw [eq_setPieces h, setPieces_field (distinct_tags .gdt) htag]
    cases hlast : lastValue tag.name impInfo <;> unfold lastValue at hlast <;> rw [hlast] <;> rfl
  cases field with
  | w => exact hset ⟨bytes "w", .w, 1⟩ (by simp [Adapter.tags])
  | h => exact hset ⟨bytes "h", .h, 1⟩ (by simp [Adapter.tags])
  | tLen => exact hset ⟨bytes "title", .tLen, 3⟩ (by simp [Adapter.tags])
  | dLen => exact hset ⟨bytes "des", .dLen, 3⟩ (by simp [Adapter.tags])
  | proi => exact hset ⟨bytes "proi", .proi, 1⟩ (by simp [Adapter.tags])

/-- `get_ImpInfo` sets what the specification sets, and nothing else. -/
theorem getImpInfo_eq_after {fuel : ℕ} {impInfo : Bytes} {info info' : Info} {advtype : ℤ}
    (h : getImpInfo .gdt fuel impInfo (-1) info = some (advtype, info')) :
    advtype = kind impInfo ∧ info' = after impInfo info := by
  -- the priority is 100 before the pieces are read
  have hstart : ∀ (value : Option ℕ) (field : Field),
      value.getD (Function.update info .proi 100 field) =
        (value.or (if field = .proi then some 100 else none)).getD (info field) := by
    intro value field
    cases value with
    | some n => rfl
    | none =>
      rw [Option.getD_none, Option.none_or]
      by_cases hfield : field = .proi
      · rw [hfield, if_pos rfl, Function.update_self]
        rfl
      · rw [if_neg hfield, Function.update_of_ne hfield]
        rfl
  unfold getImpInfo at h
  rw [if_pos rfl] at h
  cases hcut : cut 59 impInfo with
  | none =>
    rw [hcut] at h
    obtain ⟨rfl, rfl⟩ := Prod.mk.inj (Option.some.inj h)
    refine ⟨by rw [kind, impType, hcut]; rfl, funext fun field => ?_⟩
    rw [after, sets, hcut]
    exact hstart none field
  | some p =>
    obtain ⟨typestr, rest⟩ := p
    have hkind : kind impInfo = (cut 58 typestr).elim (-1) fun q => atoi (cstr q.2) := by
      rw [kind, impType, hcut]
      rfl
    have hread : ∀ (part : Bytes), part = (if 58 ∈ typestr then rest else impInfo) →
        (if kind impInfo = 1 then
          some (kind impInfo, getBannerInfo .gdt part (Function.update info .proi 100))
        else (getNativeInfo Adapter.gdt.tags fuel part (Function.update info .proi 100)).map
          fun info => (kind impInfo, info)) = some (advtype, info') →
        advtype = kind impInfo ∧ info' = after impInfo info := by
      rintro part rfl hpart
      by_cases hbanner : kind impInfo = 1
      · rw [if_pos hbanner] at hpart
        obtain ⟨rfl, rfl⟩ := Prod.mk.inj (Option.some.inj hpart)
        refine ⟨rfl, funext fun field => ?_⟩
        rw [bannerInfo_eq, hstart, after, sets, hcut, Option.bind_some, if_pos hbanner]
      · rw [if_neg hbanner, Option.map_eq_some_iff] at hpart
        obtain ⟨found, hfound, heq⟩ := hpart
        obtain ⟨rfl, rfl⟩ := Prod.mk.inj heq
        refine ⟨rfl, funext fun field => ?_⟩
        rw [nativeInfo_eq hfound, hstart, after, sets, hcut, Option.bind_some, if_neg hbanner]
    rw [hcut] at h
    dsimp only at h
    cases htype : cut 58 typestr with
    | none =>
      have hnot : 58 ∉ typestr := cut_eq_none_iff.mp htype
      rw [htype] at hkind h
      rw [hkind] at hread
      refine (hread impInfo (by rw [if_neg hnot]) h).imp_left fun ht => ht.trans hkind.symm
    | some q =>
      have hmem : 58 ∈ typestr := by
        by_contra hnot
        rw [cut_eq_none_iff.mpr hnot] at htype
        cases htype
      rw [htype] at hkind h
      rw [hkind] at hread
      exact (hread rest (by rw [if_pos hmem]) h).imp_left fun ht => ht.trans hkind.symm

/-! ## The run -/

/-- The specification of a template, if it is read. -/
def specOf (advidTable : List (ℤ × Bytes)) (advid : ℤ) : Option (ℤ × Bytes) :=
  if advid = 0 then none else (advidTable.lookup advid).map (advid, ·)

/-- The specifications that are read for an impression. -/
def specsOf (advidTable : List (ℤ × Bytes)) (impression : Impression) : List (ℤ × Bytes) :=
  impression.creativeSpecs.filterMap (specOf advidTable)

section

variable (impression : Impression)

/-- The object after a specification, with the fields after it. -/
def filled (info : Info) (object : Imp) (spec : ℤ × Bytes) : Imp :=
  let object := { object with
    advPriority := toUInt16 (info .proi), advid := toUInt16 spec.1 }
  if kind spec.2 = 1 then { object with type := impBanner, banner := impression.banner info }
  else if kind spec.2 = 2 then
    { object with
      type := impNative
      layout := NativeAssets.nativeLayouttypeNewsfeed
      assets := setNative impression.natives spec.1 info }
  else object

/-- The fields and the object after a specification. -/
def next (s : Info × Imp) (spec : ℤ × Bytes) : Info × Imp :=
  (after spec.2 s.1, filled impression (after spec.2 s.1) s.2 spec)

/-- The imps that a specification appends. -/
def appended (s : Info × Imp) (spec : ℤ × Bytes) : List Imp :=
  if kind spec.2 = 1 ∨ kind spec.2 = 2 then [(next impression s spec).2] else []

/-- What a specification appends when it is read alone. -/
def own (spec : ℤ × Bytes) : List Imp := appended impression (fun _ => 0, impression.new) spec

end

section

variable {fuel : ℕ} {advidTable : List (ℤ × Bytes)} {impression : Impression}

/-- One spec: its info, its impression and what it appends. -/
theorem parseSpec_eq {s s' : State} {advid : ℤ}
    (h : parseSpec fuel advidTable impression s advid = some s') :
    s' = (specOf advidTable advid).elim s fun spec =>
      ⟨(next impression (s.info, s.impressionobject) spec).1,
        (next impression (s.info, s.impressionobject) spec).2,
        s.imp ++ appended impression (s.info, s.impressionobject) spec⟩ := by
  unfold parseSpec at h
  unfold specOf
  -- an id that is 0 or not in the table is skipped
  by_cases hzero : advid = 0
  · rw [if_pos hzero] at h ⊢
    exact (Option.some.inj h).symm
  · rw [if_neg hzero] at h ⊢
    cases hlookup : advidTable.lookup advid with
    | none =>
      rw [hlookup] at h
      exact (Option.some.inj h).symm
    | some impInfo =>
      rw [hlookup] at h
      obtain ⟨⟨advtype, info⟩, hinfo, h⟩ := Option.bind_eq_some_iff.mp h
      obtain ⟨rfl, rfl⟩ := getImpInfo_eq_after hinfo
      dsimp only at h
      -- then the kind of the spec decides
      unfold appended next filled
      by_cases hbanner : kind impInfo = 1
      · rw [if_pos hbanner] at h
        simpa [hbanner] using (Option.some.inj h).symm
      · rw [if_neg hbanner] at h
        by_cases hnative : kind impInfo = 2
        · rw [if_pos hnative] at h
          simpa [hbanner, hnative] using (Option.some.inj h).symm
        · rw [if_neg hnative] at h
          simpa [hbanner, hnative] using (Option.some.inj h).symm

/-- The specs of a request, one after another. -/
theorem foldlM_parseSpec {advids : List ℤ} {s s' : State}
    (h : advids.foldlM (parseSpec fuel advidTable impression) s = some s') :
    (s'.info, s'.impressionobject) = (advids.filterMap (specOf advidTable)).foldl
        (next impression) (s.info, s.impressionobject) ∧
      s'.imp = s.imp ++ outputs (next impression) (appended impression)
        (s.info, s.impressionobject) (advids.filterMap (specOf advidTable)) := by
  induction advids generalizing s with
  | nil =>
    obtain rfl := Option.some.inj h
    exact ⟨rfl, (List.append_nil _).symm⟩
  | cons advid advids ih =>
    rw [List.foldlM_cons] at h
    obtain ⟨t, ht, h⟩ := Option.bind_eq_some_iff.mp h
    have heq := parseSpec_eq ht
    obtain ⟨hstate, himp⟩ := ih h
    cases hspec : specOf advidTable advid with
    | none =>
      rw [hspec] at heq
      obtain rfl : t = s := heq
      rw [List.filterMap_cons_none hspec]
      exact ⟨hstate, himp⟩
    | some spec =>
      rw [hspec] at heq
      subst heq
      rw [List.filterMap_cons_some hspec, List.foldl_cons, outputs]
      refine ⟨hstate, ?_⟩
      exact himp.trans (List.append_assoc _ _ _)

/-- The fields after an impression. -/
def nextInfo (advidTable : List (ℤ × Bytes)) (info : Info) (impression : Impression) : Info :=
  ((specsOf advidTable impression).foldl (next impression) (info, impression.new)).1

/-- The imps of an impression. -/
def impsFrom (advidTable : List (ℤ × Bytes)) (info : Info) (impression : Impression) : List Imp :=
  outputs (next impression) (appended impression) (info, impression.new)
    (specsOf advidTable impression)

/-- The outer loop appends the imps of one impression after the other. -/
theorem foldlM_parseImpression {impressions : List Impression} {s s' : Info × List Imp}
    (h : impressions.foldlM (parseImpression fuel advidTable) s = some s') :
    s'.2 = s.2 ++
      outputs (nextInfo advidTable) (impsFrom advidTable) s.1 impressions := by
  induction impressions generalizing s with
  | nil =>
    obtain rfl := Option.some.inj h
    exact (List.append_nil _).symm
  | cons impression impressions ih =>
    rw [List.foldlM_cons] at h
    obtain ⟨t, ht, h⟩ := Option.bind_eq_some_iff.mp h
    obtain ⟨u, hu, ht⟩ := Option.bind_eq_some_iff.mp ht
    obtain rfl := Option.some.inj ht
    obtain ⟨hstate, himp⟩ := foldlM_parseSpec hu
    have hinfo : u.info = nextInfo advidTable s.1 impression := congrArg Prod.fst hstate
    have hrest : s'.2 = u.imp ++ outputs (nextInfo advidTable) (impsFrom advidTable)
        u.info impressions := ih h
    rw [hrest, hinfo, himp, outputs, List.append_assoc]
    rfl

end

/-! ## One specification alone -/

section

variable {fuel : ℕ} {advidTable : List (ℤ × Bytes)} {impression : Impression}

/-- Whether the loop returns does not depend on what the fields are before. -/
theorem isSome_getNativeInfo (tags : List Tag) (temp : Bytes) (info info' : Info) :
    (getNativeInfo tags fuel temp info).isSome = (getNativeInfo tags fuel temp info').isSome := by
  induction fuel generalizing temp info info' with
  | zero => rfl
  | succ fuel ih =>
    cases hcut : cut 59 temp with
    | none => rw [getNativeInfo_of_cut_none hcut, getNativeInfo_of_cut_none hcut]; rfl
    | some p =>
      obtain ⟨first, rest⟩ := p
      rw [getNativeInfo_of_cut hcut, getNativeInfo_of_cut hcut]
      cases cut 58 first with
      | none => exact ih temp info info'
      | some piece => exact ih rest _ _

/-- Whether a spec can be read does not depend on the info before it. -/
theorem isSome_getImpInfo (impInfo : Bytes) (info info' : Info) :
    (getImpInfo .gdt fuel impInfo (-1) info).isSome =
      (getImpInfo .gdt fuel impInfo (-1) info').isSome := by
  obtain ⟨i, h⟩ := getImpInfo_eq .gdt fuel impInfo (-1) info
  obtain ⟨i', h'⟩ := getImpInfo_eq .gdt fuel impInfo (-1) info'
  rw [h, h']
  cases nativePart impInfo (-1) with
  | none => rfl
  | some part =>
    rw [Option.elim, Option.elim, Option.isSome_map, Option.isSome_map]
    exact isSome_getNativeInfo _ _ _ _

/-- Whether a spec can be parsed does not depend on what was before it. -/
theorem isSome_parseSpec (s s' : State) (advid : ℤ) :
    (parseSpec fuel advidTable impression s advid).isSome =
      (parseSpec fuel advidTable impression s' advid).isSome := by
  unfold parseSpec
  by_cases hzero : advid = 0
  · rw [if_pos hzero, if_pos hzero]
    rfl
  · rw [if_neg hzero, if_neg hzero]
    cases advidTable.lookup advid with
    | none => rfl
    | some impInfo =>
      -- with the fields of the specification, each kind of object is made
      have hbind : ∀ (x : Option (ℤ × Info)) (k : ℤ × Info → Option State),
          (∀ r, (k r).isSome) → (x >>= k).isSome = x.isSome := by
        intro x k hk
        cases x with
        | none => rfl
        | some r => exact hk r
      dsimp only
      rw [hbind _ _ fun r => by split_ifs <;> rfl, hbind _ _ fun r => by split_ifs <;> rfl]
      exact isSome_getImpInfo _ _ _

/-- In a run that returns, each specification that is read alone gives its own imps. -/
theorem alone_eq {advids : List ℤ} {s s' : State}
    (h : advids.foldlM (parseSpec fuel advidTable impression) s = some s') :
    ∀ advid ∈ advids, alone fuel advidTable impression advid =
      (specOf advidTable advid).elim [] (own impression) := by
  -- by induction over the ids; a spec that is read is read in any state
  induction advids generalizing s with
  | nil => exact fun advid hmem => absurd hmem List.not_mem_nil
  | cons advid advids ih =>
    rw [List.foldlM_cons] at h
    obtain ⟨t, ht, h⟩ := Option.bind_eq_some_iff.mp h
    rw [List.forall_mem_cons]
    refine ⟨?_, ih h⟩
    have hsome := @isSome_parseSpec fuel advidTable impression s
      ⟨fun _ => 0, impression.new, []⟩ advid
    rw [ht] at hsome
    obtain ⟨u, hu⟩ := Option.isSome_iff_exists.mp hsome.symm
    -- alone, it is the only spec of an impression of its own
    have halone : alone fuel advidTable impression advid = u.imp := by
      have hparse : parseSpec fuel advidTable { impression with creativeSpecs := [advid] }
          ⟨fun _ => 0, impression.new, []⟩ advid = some u := hu
      have hone : parseImpression fuel advidTable (fun _ => 0, [])
          { impression with creativeSpecs := [advid] } = some (u.info, u.imp) := by
        rw [parseImpression, List.foldlM_cons]
        change ((parseSpec fuel advidTable { impression with creativeSpecs := [advid] }
          ⟨fun _ => 0, impression.new, []⟩ advid >>= _) >>= _) = _
        rw [hparse]
        rfl
      rw [alone, parseImp, List.foldlM_cons, hone]
      rfl
    rw [halone, parseSpec_eq hu]
    cases specOf advidTable advid <;> rfl

end

/-! ## What is carried over -/

/-- The value of a field after some specifications: the one that the last of them sets. -/
def carried (texts : List Bytes) : Info := fun field =>
  (texts.reverse.findSome? fun impInfo => sets impInfo field).getD 0

/-- What is carried after one more spec. -/
theorem carried_concat (texts : List Bytes) (impInfo : Bytes) :
    carried (texts ++ [impInfo]) = after impInfo (carried texts) := by
  funext field
  rw [carried, List.reverse_append, List.reverse_singleton, List.singleton_append,
    List.findSome?_cons, after]
  cases sets impInfo field <;> rfl

/-- The same size, in the 16 bits of an imp. -/
def SameSize (info info' : Info) : Prop :=
  toUInt16 (info .w) = toUInt16 (info' .w) ∧ toUInt16 (info .h) = toUInt16 (info' .h)

/-- The size that is asked for without natives, if it is. -/
def shownSize (info : Info) : Option (ℕ × ℕ) :=
  if info .w ≠ 0 ∧ info .h ≠ 0 then some (toUInt16 (info .w), toUInt16 (info .h)) else none

/-- The same lengths, as far as the natives ask for them. -/
def SameLengths (natives : List ℕ) (info info' : Info) : Prop :=
  if natives = [] then
    shownSize info = shownSize info' ∧ info .tLen = info' .tLen ∧ info .dLen = info' .dLen
  else
    ((∃ requestField ∈ natives, requestField.testBit 0) → info .tLen = info' .tLen) ∧
      ((∃ requestField ∈ natives, requestField.testBit 2) → SameSize info info') ∧
        ((∃ requestField ∈ natives, requestField.testBit 3) → info .dLen = info' .dLen)

/-- The infos that make the same assets from the request's fields. -/
theorem fieldAssets_eq_iff (advid : ℤ) (info info' : Info) (j requestField : ℕ) :
    fieldAssets advid info j requestField = fieldAssets advid info' j requestField ↔
      (requestField.testBit 0 → info .tLen = info' .tLen) ∧
        (requestField.testBit 2 → SameSize info info') ∧
          (requestField.testBit 3 → info .dLen = info' .dLen) := by
  unfold fieldAssets SameSize
  cases h0 : requestField.testBit 0 <;> cases h1 : requestField.testBit 1 <;>
    cases h2 : requestField.testBit 2 <;> cases h3 : requestField.testBit 3 <;>
      simp <;> tauto

/-- The infos that make the same assets from the spec's lengths. -/
theorem lengthAssets_eq_iff (info info' : Info) :
    lengthAssets info = lengthAssets info' ↔
      shownSize info = shownSize info' ∧ info .tLen = info' .tLen ∧ info .dLen = info' .dLen := by
  unfold lengthAssets shownSize
  by_cases hs : info .w ≠ 0 ∧ info .h ≠ 0 <;> by_cases hs' : info' .w ≠ 0 ∧ info' .h ≠ 0 <;>
    by_cases ht : info .tLen = 0 <;> by_cases ht' : info' .tLen = 0 <;>
      by_cases hd : info .dLen = 0 <;> by_cases hd' : info' .dLen = 0 <;>
        simp [hs, hs', ht, ht', hd, hd'] <;> omega

/-- The infos that make the same native ad. -/
theorem setNative_eq_iff (natives : List ℕ) (advid : ℤ) (info info' : Info) :
    setNative natives advid info = setNative natives advid info' ↔
      SameLengths natives info info' := by
  unfold setNative SameLengths
  by_cases hnil : natives = []
  · rw [if_pos hnil, if_pos hnil, if_pos hnil]
    exact lengthAssets_eq_iff info info'
  · rw [if_neg hnil, if_neg hnil, if_neg hnil]
    -- as many assets come from a field, whatever is carried
    have hlen : ∀ p : ℕ × ℕ, (fieldAssets advid info p.2 p.1).length =
        (fieldAssets advid info' p.2 p.1).length := by
      intro p
      unfold fieldAssets
      simp only [List.length_append]
      split_ifs <;> rfl
    -- the numbers of the fields do not matter here
    have hfst : ∀ P : ℕ → Prop, (∀ p ∈ natives.zipIdx, P p.1) ↔ ∀ f ∈ natives, P f := by
      intro P
      conv_rhs => rw [← List.zipIdx_map_fst 0 natives]
      exact List.forall_mem_map.symm
    rw [flatMap_eq_flatMap_iff hlen]
    simp only [fieldAssets_eq_iff]
    rw [hfst fun f => (f.testBit 0 → info .tLen = info' .tLen) ∧
      (f.testBit 2 → SameSize info info') ∧ (f.testBit 3 → info .dLen = info' .dLen)]
    constructor
    · intro h
      refine ⟨?_, ?_, ?_⟩
      · exact fun ⟨f, hf, hbit⟩ => (h f hf).1 hbit
      · exact fun ⟨f, hf, hbit⟩ => (h f hf).2.1 hbit
      · exact fun ⟨f, hf, hbit⟩ => (h f hf).2.2 hbit
    · rintro ⟨htitle, hsize, hdata⟩ f hf
      exact ⟨fun hbit => htitle ⟨f, hf, hbit⟩, fun hbit => hsize ⟨f, hf, hbit⟩,
        fun hbit => hdata ⟨f, hf, hbit⟩⟩

/-! ## The object of an impression -/

section

variable {impression : Impression} {before : List Bytes} {here : List (ℤ × Bytes)}
  {spec : ℤ × Bytes}

/-- The last banner before has left what was there in a new object. -/
def NoBannerLeft (impression : Impression) (before : List Bytes) (here : List (ℤ × Bytes)) : Prop :=
  ∀ pre banner post, here = pre ++ banner :: post → kind banner.2 = 1 →
    (∀ p ∈ post, kind p.2 ≠ 1) →
      impression.banner (carried (before ++ (pre ++ [banner]).map Prod.snd)) =
        impression.noBanner

/-- The fields and the object after some specifications of an impression. -/
structure Reached (impression : Impression) (before : List Bytes) (here : List (ℤ × Bytes))
    (s : Info × Imp) : Prop where
  info : s.1 = carried (before ++ here.map Prod.snd)
  id : s.2.id = impression.new.id
  bidfloorcur : s.2.bidfloorcur = impression.new.bidfloorcur
  bidfloor : s.2.bidfloor = impression.new.bidfloor
  dealprice : s.2.dealprice = impression.new.dealprice
  native : s.2.layout = 0 ∧ s.2.assets = [] ↔ ∀ p ∈ here, kind p.2 ≠ 2
  banner : s.2.banner = impression.noBanner ↔ NoBannerLeft impression before here

/-- A spec of another kind leaves the banner alone. -/
theorem noBannerLeft_concat (h : kind spec.2 ≠ 1) :
    NoBannerLeft impression before (here ++ [spec]) ↔ NoBannerLeft impression before here := by
  constructor
  · rintro hleft pre banner post rfl hbanner hpost
    refine hleft pre banner (post ++ [spec]) (by simp) hbanner ?_
    rw [List.forall_mem_append, List.forall_mem_singleton]
    exact ⟨hpost, h⟩
  · intro hleft pre banner post heq hbanner hpost
    rcases List.eq_nil_or_concat' post with rfl | ⟨post, last, rfl⟩
    · obtain ⟨-, hlast⟩ := List.append_inj' heq rfl
      rw [List.singleton_inj] at hlast
      exact absurd (hlast ▸ hbanner) h
    · rw [← List.cons_append, ← List.append_assoc] at heq
      obtain ⟨rfl, -⟩ := List.append_inj' heq rfl
      exact hleft pre banner post rfl hbanner fun p hp => hpost p (List.mem_append_left _ hp)

/-- What one specification does. -/
theorem Reached.next {s : Info × Imp} (h : Reached impression before here s) (spec : ℤ × Bytes) :
    Reached impression before (here ++ [spec]) (next impression s spec) := by
  -- what is carried on to the next spec, whatever this one is
  have hinfo : after spec.2 s.1 = carried (before ++ (here ++ [spec]).map Prod.snd) := by
    rw [List.map_append, ← List.append_assoc, List.map_singleton, carried_concat, h.info]
  have hnative : (∀ p ∈ here ++ [spec], kind p.2 ≠ 2) ↔
      (∀ p ∈ here, kind p.2 ≠ 2) ∧ kind spec.2 ≠ 2 := by
    rw [List.forall_mem_append, List.forall_mem_singleton]
  unfold GdtImps.next filled
  -- a banner is the last one so far, a native spec sets the layout, others do nothing
  by_cases hbanner : kind spec.2 = 1
  · rw [if_pos hbanner]
    refine ⟨hinfo, h.id, h.bidfloorcur, h.bidfloor, h.dealprice, ?_, ?_⟩
    · rw [hnative, ← h.native, hbanner]
      exact (and_iff_left (by decide)).symm
    · dsimp only
      rw [hinfo]
      constructor
      · intro hleft pre banner post heq hkind hpost
        rcases List.eq_nil_or_concat' post with rfl | ⟨post, last, rfl⟩
        · rwa [heq] at hleft
        · rw [← List.cons_append, ← List.append_assoc] at heq
          obtain ⟨-, hlast⟩ := List.append_inj' heq rfl
          rw [List.singleton_inj] at hlast
          exact absurd (hlast ▸ hbanner) (hpost last (by simp))
      · exact fun hleft => hleft here spec [] rfl hbanner fun p hp => absurd hp List.not_mem_nil
  · rw [if_neg hbanner]
    by_cases hkind : kind spec.2 = 2
    · rw [if_pos hkind]
      refine ⟨hinfo, h.id, h.bidfloorcur, h.bidfloor, h.dealprice, ?_, ?_⟩
      · rw [hnative]
        refine iff_of_false ?_ fun hnone => hnone.2 hkind
        rintro ⟨hlayout, -⟩
        cases hlayout
      · rw [noBannerLeft_concat hbanner]
        exact h.banner
    · rw [if_neg hkind]
      refine ⟨hinfo, h.id, h.bidfloorcur, h.bidfloor, h.dealprice, ?_, ?_⟩
      · rw [hnative, and_iff_left hkind]
        exact h.native
      · rw [noBannerLeft_concat hbanner]
        exact h.banner

/-- The state in which the specs of an impression are reached. -/
theorem reached (impression : Impression) (before : List Bytes) (here : List (ℤ × Bytes)) :
    Reached impression before here
      (here.foldl (next impression) (carried before, impression.new)) := by
  induction here using List.reverseRecOn with
  | nil =>
    refine ⟨by simp, rfl, rfl, rfl, rfl, iff_of_true ⟨rfl, rfl⟩ nofun, iff_of_true rfl ?_⟩
    exact fun pre banner post h => absurd h.symm (by simp)
  | append_singleton here spec ih =>
    rw [List.foldl_append]
    exact ih.next spec

/-- The specification uses no length that it does not set, and finds nothing of another imp in the
object. -/
structure SpecOwn (impression : Impression) (before : List Bytes) (here : List (ℤ × Bytes))
    (spec : ℤ × Bytes) : Prop where
  banner : kind spec.2 = 1 →
    SameSize (carried (before ++ here.map Prod.snd ++ [spec.2])) (carried [spec.2]) ∧
      ∀ p ∈ here, kind p.2 ≠ 2
  native : kind spec.2 = 2 →
    SameLengths impression.natives (carried (before ++ here.map Prod.snd ++ [spec.2]))
        (carried [spec.2]) ∧
      NoBannerLeft impression before here

/-- What a specification appends is its own exactly if it uses nothing else. -/
theorem appended_eq_own_iff {s : Info × Imp} (h : Reached impression before here s) :
    appended impression s spec = own impression spec ↔ SpecOwn impression before here spec := by
  have hinfo : after spec.2 s.1 = carried (before ++ here.map Prod.snd ++ [spec.2]) := by
    rw [carried_concat, h.info]
  have hown : after spec.2 (fun _ => 0) = carried [spec.2] := (carried_concat [] spec.2).symm
  -- the priority is always set
  have hproi : ∀ info info' : Info, after spec.2 info .proi = after spec.2 info' .proi := by
    intro info info'
    obtain ⟨value, hvalue⟩ := Option.isSome_iff_exists.mp (sets_proi spec.2)
    rw [after, after, hvalue]
    rfl
  have hpriority := hproi s.1 fun _ => 0
  unfold own appended next
  by_cases hbanner : kind spec.2 = 1
  · have hne : kind spec.2 ≠ 2 := by rw [hbanner]; decide
    have hsize : impression.banner (after spec.2 s.1) =
        impression.banner (after spec.2 fun _ => 0) ↔
          SameSize (after spec.2 s.1) (after spec.2 fun _ => 0) := by
      simp [Impression.banner, SameSize]
    have heq : filled impression (after spec.2 s.1) s.2 spec =
        filled impression (after spec.2 fun _ => 0) impression.new spec ↔
          SameSize (after spec.2 s.1) (after spec.2 fun _ => 0) ∧
            s.2.layout = 0 ∧ s.2.assets = [] := by
      simp only [filled, if_pos hbanner, Imp.mk.injEq, h.id, h.bidfloorcur, h.bidfloor,
        h.dealprice, hpriority, hsize, true_and]
      rfl
    rw [if_pos (.inl hbanner), if_pos (.inl hbanner), List.singleton_inj, heq, h.native, hinfo,
      hown]
    exact ⟨fun hsame => ⟨fun _ => hsame, fun hkind => absurd hkind hne⟩,
      fun hspec => hspec.banner hbanner⟩
  · by_cases hnative : kind spec.2 = 2
    · have heq : filled impression (after spec.2 s.1) s.2 spec =
          filled impression (after spec.2 fun _ => 0) impression.new spec ↔
            SameLengths impression.natives (after spec.2 s.1) (after spec.2 fun _ => 0) ∧
              s.2.banner = impression.noBanner := by
        simp only [filled, if_neg hbanner, if_pos hnative, Imp.mk.injEq, h.id, h.bidfloorcur,
          h.bidfloor, h.dealprice, hpriority, setNative_eq_iff, true_and]
        exact and_comm
      rw [if_pos (.inr hnative), if_pos (.inr hnative), List.singleton_inj, heq, h.banner, hinfo,
        hown]
      exact ⟨fun hsame => ⟨fun hkind => absurd hkind hbanner, fun _ => hsame⟩,
        fun hspec => hspec.native hnative⟩
    · have hnot : ¬(kind spec.2 = 1 ∨ kind spec.2 = 2) := not_or.mpr ⟨hbanner, hnative⟩
      rw [if_neg hnot, if_neg hnot]
      exact iff_of_true rfl ⟨fun hkind => absurd hkind hbanner, fun hkind => absurd hkind hnative⟩

end

/-! ## Whole requests -/

section

variable {fuel : ℕ} {advidTable : List (ℤ × Bytes)}

/-- Every specification of the request uses only what is its own. -/
def AllOwn (advidTable : List (ℤ × Bytes)) (impressions : List Impression) : Prop :=
  ∀ pre impression post, impressions = pre ++ impression :: post →
    ∀ here spec rest, specsOf advidTable impression = here ++ spec :: rest →
      SpecOwn impression (pre.flatMap fun i => (specsOf advidTable i).map Prod.snd) here spec

/-- What is carried after whole impressions. -/
theorem foldl_nextInfo (impressions : List Impression) :
    impressions.foldl (nextInfo advidTable) (fun _ => 0) =
      carried (impressions.flatMap fun i => (specsOf advidTable i).map Prod.snd) := by
  induction impressions using List.reverseRecOn with
  | nil => rfl
  | append_singleton impressions impression ih =>
    rw [List.foldl_append, List.flatMap_append, List.flatMap_singleton, ih]
    exact (reached impression _ _).info

/-- In a run that returns, the imps that the specifications of each impression give alone. -/
theorem flatMap_alone {impressions : List Impression} {s s' : Info × List Imp}
    (h : impressions.foldlM (parseImpression fuel advidTable) s = some s') :
    ∀ impression ∈ impressions,
      impression.creativeSpecs.flatMap (alone fuel advidTable impression) =
        (specsOf advidTable impression).flatMap (own impression) := by
  induction impressions generalizing s with
  | nil => exact fun impression hmem => absurd hmem List.not_mem_nil
  | cons impression impressions ih =>
    rw [List.foldlM_cons] at h
    obtain ⟨t, ht, h⟩ := Option.bind_eq_some_iff.mp h
    obtain ⟨u, hu, -⟩ := Option.bind_eq_some_iff.mp ht
    rw [List.forall_mem_cons]
    refine ⟨?_, ih h⟩
    have hspecs : ∀ advids : List ℤ, advids.flatMap (fun advid =>
        (specOf advidTable advid).elim [] (own impression)) =
          (advids.filterMap (specOf advidTable)).flatMap (own impression) := by
      intro advids
      induction advids with
      | nil => rfl
      | cons advid advids ihs =>
        rw [List.flatMap_cons, ihs]
        cases hspec : specOf advidTable advid with
        | none => rw [List.filterMap_cons_none hspec]; rfl
        | some spec => rw [List.filterMap_cons_some hspec, List.flatMap_cons]; rfl
    rw [specsOf, ← hspecs]
    exact List.flatMap_congr (alone_eq hu)

/-- Each imp is the one that its impression and its specification give alone, if and only if no
specification uses a length that another one has set, or finds something of another imp in the
object. -/
theorem parseImp_iff {impressions : List Impression} {imps : List Imp}
    (h : parseImp fuel advidTable impressions = some imps) :
    imps = (impressions.flatMap fun impression =>
        impression.creativeSpecs.flatMap (alone fuel advidTable impression)) ↔
      AllOwn advidTable impressions := by
  obtain ⟨s, hs, himps⟩ := Option.bind_eq_some_iff.mp h
  obtain rfl := Option.some.inj himps
  have hlen : ∀ (impression : Impression) (s : Info × Imp) (spec : ℤ × Bytes),
      (appended impression s spec).length = (own impression spec).length := by
    intro impression s spec
    unfold own appended
    split_ifs <;> rfl
  have hlens : ∀ (info : Info) (impression : Impression),
      (impsFrom advidTable info impression).length =
        ((specsOf advidTable impression).flatMap (own impression)).length :=
    fun info impression => length_outputs (hlen impression) _
  rw [List.flatMap_congr (flatMap_alone hs), foldlM_parseImpression hs, List.nil_append,
    outputs_eq_flatMap_iff hlens]
  refine forall_congr' fun pre => forall_congr' fun impression => forall_congr' fun post =>
    imp_congr_right fun _ => ?_
  rw [impsFrom, outputs_eq_flatMap_iff (hlen impression), foldl_nextInfo]
  refine forall_congr' fun here => forall_congr' fun spec => forall_congr' fun rest =>
    imp_congr_right fun _ => ?_
  exact appended_eq_own_iff (reached impression _ here)

end

/-! ## Two specifications -/

/-- Two specifications of native imps, the first one with a title, and one of a banner. -/
def sampleTable : List (ℤ × Bytes) :=
  [(1, bytes "type:2;w:640;h:100;title:12"), (2, bytes "type:2;w:300;h:250"),
    (3, bytes "type:1;w:320;h:50")]

/-- An impression for some of the templates. -/
def sampleImpression (creativeSpecs : List ℤ) : Impression :=
  ⟨bytes "a", 100, [], creativeSpecs, [], [], (7, 7)⟩

/-- The second specification and, in another impression, a banner use only what is their own. -/
theorem two_specs_own : AllOwn sampleTable [sampleImpression [2], sampleImpression [3]] :=
  (@parseImp_iff 40 sampleTable [sampleImpression [2], sampleImpression [3]] _ rfl).mp rfl

/-- Behind the other one the second specification asks for a title as well. -/
theorem title_of_other_spec : ∃ imps,
    parseImp 40 sampleTable [sampleImpression [1, 2]] = some imps ∧
      imps ≠ [sampleImpression [1, 2]].flatMap fun impression =>
        impression.creativeSpecs.flatMap (alone 40 sampleTable impression) :=
  ⟨_, rfl, by decide⟩

end AdxDsp.GdtImps
