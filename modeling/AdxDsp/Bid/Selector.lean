import AdxDsp.Bid.Filter
import AdxDsp.Lib.Containers

/-!
# Finding the creatives of an imp

`AdSelector` sorts the creatives once into a tree, by their type, by their size and by whether they
need deep links, and looks up the creatives of an imp there (`ad_optimize.cpp`).  What the tree
excludes is only logged and is left out.

* `mem_search_iff`: what a search finds.
* `search_exact_iff`: when that is what `CheckBySize` and the deep link rule let pass, namely when
  the width of the slot decides.
-/

namespace AdxDsp

open CText


/-! ## The tree -/

/-- `ClassifyDeeplink`: its children are leaves, and exist from their first creative on. -/
structure ClassifyDeeplink where
  supports : Option (List CreativeInfo)
  notSupports : Option (List CreativeInfo)

/-- `ClassifySize::CreativeSize`. -/
structure CreativeSize where
  w : ℕ
  h : ℕ
  deriving DecidableEq

/-- The operator `<` of `CreativeSize`, which leaves out the height. -/
def CreativeSize.lt (a b : CreativeSize) : Bool := a.w < b.w

/-- `ClassifySize`. -/
abbrev ClassifySize := List (CreativeSize × ClassifyDeeplink)

/-- `ClassifyCreativeType`, the root of the tree. -/
abbrev ClassifyCreativeType := List (ℕ × ClassifySize)

/-- `ClassifyDeeplink::Add`.  The first creative with a deep link needs the child of those without:
the source sets an error code there, through a null pointer if there is no such child yet. -/
def ClassifyDeeplink.add (one : CreativeInfo) (n : ClassifyDeeplink) : Option ClassifyDeeplink :=
  if one.deeplink ≠ [] then
    match n.supports, n.notSupports with
    | some l, _ => some { n with supports := some (l ++ [one]) }
    | none, some _ => some { n with supports := some [one] }
    | none, none => none
  else some { n with notSupports := some (n.notSupports.getD [] ++ [one]) }

/-- The size under which `ClassifySize::Add` keeps a creative. -/
def CreativeInfo.size (one : CreativeInfo) : CreativeSize :=
  if one.type = adtypeFeeds then ⟨0, 0⟩ else ⟨one.w, one.h⟩

/-- `ClassifySize::Add`. -/
def ClassifySize.add (one : CreativeInfo) (n : ClassifySize) : Option ClassifySize :=
  CmpMap.update CreativeSize.lt one.size ⟨none, none⟩ (ClassifyDeeplink.add one) n

/-- `ClassifyCreativeType::Add`. -/
def ClassifyCreativeType.add (n : ClassifyCreativeType) (one : CreativeInfo) :
    Option ClassifyCreativeType :=
  CmpMap.update (fun a b => decide (a < b)) one.type [] (ClassifySize.add one) n

/-- `AdSelector::Creater`; `none` if it goes through a null pointer. -/
def adSelectorCreater (creatives : List CreativeInfo) : Option ClassifyCreativeType :=
  creatives.foldlM ClassifyCreativeType.add []

/-! ## The search -/

/-- `ClassifyDeeplink::Search`: the creatives that are inserted, in their order. -/
def ClassifyDeeplink.search (req : ComRequest) (n : ClassifyDeeplink) : List CreativeInfo :=
  if req.supportDeepLink = 0 then n.notSupports.getD []
  else n.supports.getD [] ++ n.notSupports.getD []

/-- The size that `ClassifySize::Search` looks for. -/
def ComImpression.searchSize (imp : ComImpression) : CreativeSize :=
  if imp.type = impBanner then ⟨imp.banner.w, imp.banner.h⟩
  else if imp.type = impVideo then ⟨imp.video.w, imp.video.h⟩
  else ⟨0, 0⟩

/-- `ClassifySize::Search`. -/
def ClassifySize.search (req : ComRequest) (imp : ComImpression) (n : ClassifySize) :
    List CreativeInfo :=
  match CmpMap.find CreativeSize.lt imp.searchSize n with
  | some child => child.search req
  | none => []

/-- The creative type that `ClassifyCreativeType::Search` looks for. -/
def ComImpression.searchType (imp : ComImpression) : ℕ :=
  if imp.type = impBanner then adtypeImage
  else if imp.type = impNative then adtypeFeeds
  else if imp.type = impVideo then adtypeVideo
  else adtypeUnknown

/-- `ClassifyCreativeType::Search`. -/
def ClassifyCreativeType.search (req : ComRequest) (imp : ComImpression)
    (n : ClassifyCreativeType) : List CreativeInfo :=
  match CmpMap.find (fun a b => decide (a < b)) imp.searchType n with
  | some child => ClassifySize.search req imp child
  | none => []

/-- `AdSelector::Search` into a set of creatives. -/
def adSelectorSearch (n : ClassifyCreativeType) (req : ComRequest) (imp : ComImpression)
    (creatives : List CreativeInfo) : List CreativeInfo :=
  AddrSet.insertAll CreativeInfo.addr (n.search req imp) creatives

/-! ## What a search finds -/

/-- Being neither before nor behind is an equivalence of numbers. -/
theorem same_lt_nat : Equivalence (CmpMap.Same fun a b : ℕ => decide (a < b)) := by
  have hiff : ∀ a b : ℕ, CmpMap.Same (fun a b : ℕ => decide (a < b)) a b ↔ a = b := by
    intro a b
    simp only [CmpMap.Same, decide_eq_false_iff_not]
    omega
  refine ⟨fun a => (hiff a a).mpr rfl, fun h => ?_, fun h h' => ?_⟩
  · rw [hiff] at *
    exact h.symm
  · rw [hiff] at *
    exact h.trans h'

/-- It is equality. -/
theorem same_lt_nat_iff {a b : ℕ} : CmpMap.Same (fun a b : ℕ => decide (a < b)) a b ↔ a = b := by
  simp only [CmpMap.Same, decide_eq_false_iff_not]
  omega

/-- Sizes count as equal as soon as their widths are. -/
theorem same_lt_size_iff {a b : CreativeSize} : CmpMap.Same CreativeSize.lt a b ↔ a.w = b.w := by
  simp only [CmpMap.Same, CreativeSize.lt, decide_eq_false_iff_not]
  omega

/-- It is an equivalence of sizes. -/
theorem same_lt_size : Equivalence (CmpMap.Same CreativeSize.lt) := by
  refine ⟨fun a => same_lt_size_iff.mpr rfl, fun h => ?_, fun h h' => ?_⟩
  · exact same_lt_size_iff.mpr (same_lt_size_iff.mp h).symm
  · exact same_lt_size_iff.mpr ((same_lt_size_iff.mp h).trans (same_lt_size_iff.mp h'))

/-- The request takes deep links, or the creative has none. -/
def DeeplinkAllowed (req : ComRequest) (c : CreativeInfo) : Prop :=
  req.supportDeepLink ≠ 0 ∨ c.deeplink = []

instance (req : ComRequest) (c : CreativeInfo) : Decidable (DeeplinkAllowed req c) :=
  inferInstanceAs (Decidable (_ ∨ _))

section

variable {req : ComRequest} {c one : CreativeInfo}

/-- The new creative is found in its leaf, where the deep link rule allows. -/
theorem mem_search_add_deeplink {n n' : ClassifyDeeplink} (h : n.add one = some n') :
    c ∈ n'.search req ↔ c ∈ n.search req ∨ c = one ∧ DeeplinkAllowed req one := by
  rw [ClassifyDeeplink.add] at h
  split_ifs at h with hdl
  -- the leaf with the deeplinks has the creative at its end, wherever it is made
  · have hfound : n'.notSupports = n.notSupports ∧
        n'.supports.getD [] = n.supports.getD [] ++ [one] := by
      cases hs : n.supports with
      | some l =>
        rw [hs] at h
        obtain rfl := Option.some_inj.mp h
        exact ⟨rfl, rfl⟩
      | none =>
        cases hn : n.notSupports with
        | some l =>
          rw [hs, hn] at h
          obtain rfl := Option.some_inj.mp h
          exact ⟨rfl, rfl⟩
        | none =>
          rw [hs, hn] at h
          exact absurd h (by simp)
    rw [ClassifyDeeplink.search, ClassifyDeeplink.search, hfound.1, hfound.2, DeeplinkAllowed]
    by_cases hreq : req.supportDeepLink = 0
    · simp [hreq, hdl]
    · simp [hreq]
      tauto
  -- without a deeplink the creative is found by both kinds of requests
  · obtain rfl := Option.some_inj.mp h
    have hnil : one.deeplink = [] := not_not.mp hdl
    simp only [ClassifyDeeplink.search, DeeplinkAllowed, hnil, or_true, and_true,
      Option.getD_some]
    split_ifs
    · simp
    · simp [or_assoc]

/-- One more creative under its size. -/
theorem mem_search_add_size {imp : ComImpression} {n n' : ClassifySize} (h : n.add one = some n') :
    c ∈ n'.search req imp ↔ c ∈ n.search req imp ∨
      c = one ∧ one.size.w = imp.searchSize.w ∧ DeeplinkAllowed req one := by
  obtain ⟨child, hchild, hfind⟩ := CmpMap.find_update same_lt_size h
  have hmem : c ∈ child.search req ↔ _ := mem_search_add_deeplink hchild
  rw [ClassifySize.search, ClassifySize.search, hfind]
  by_cases hw : CmpMap.Same CreativeSize.lt one.size imp.searchSize
  · rw [CmpMap.find_congr same_lt_size hw] at hmem
    rw [if_pos hw]
    have hw' := same_lt_size_iff.mp hw
    cases hn : CmpMap.find CreativeSize.lt imp.searchSize n with
    | some child₀ =>
      rw [hn] at hmem
      simpa [hw'] using hmem
    | none =>
      rw [hn] at hmem
      simpa [hw', ClassifyDeeplink.search] using hmem
  · rw [if_neg hw]
    rw [same_lt_size_iff] at hw
    simp [hw]

/-- One more creative under its type. -/
theorem mem_search_add {imp : ComImpression} {n n' : ClassifyCreativeType}
    (h : n.add one = some n') :
    c ∈ n'.search req imp ↔ c ∈ n.search req imp ∨ c = one ∧ one.type = imp.searchType ∧
      one.size.w = imp.searchSize.w ∧ DeeplinkAllowed req one := by
  obtain ⟨child, hchild, hfind⟩ := CmpMap.find_update same_lt_nat h
  have hmem : c ∈ ClassifySize.search req imp child ↔ _ := mem_search_add_size hchild
  rw [ClassifyCreativeType.search, ClassifyCreativeType.search, hfind]
  by_cases htype : one.type = imp.searchType
  · rw [if_pos (same_lt_nat_iff.mpr htype)]
    rw [htype] at hmem
    cases hn : CmpMap.find (fun a b => decide (a < b)) imp.searchType n with
    | some child₀ =>
      rw [hn] at hmem
      simpa [htype] using hmem
    | none =>
      rw [hn] at hmem
      simpa [htype, ClassifySize.search, CmpMap.find] using hmem
  · rw [if_neg (fun h => htype (same_lt_nat_iff.mp h))]
    simp [htype]

end

/-- What the slot asks of the type and the width of a creative, and the request of its deep link. -/
def Searched (req : ComRequest) (imp : ComImpression) (c : CreativeInfo) : Prop :=
  c.type = imp.searchType ∧ c.size.w = imp.searchSize.w ∧ DeeplinkAllowed req c

/-- Adding creatives one after the other: by induction over them, from any tree. -/
theorem mem_search_foldlM {req : ComRequest} {imp : ComImpression} {c : CreativeInfo}
    {creatives : List CreativeInfo} {n n' : ClassifyCreativeType}
    (h : creatives.foldlM ClassifyCreativeType.add n = some n') :
    c ∈ n'.search req imp ↔ c ∈ n.search req imp ∨ c ∈ creatives ∧ Searched req imp c := by
  induction creatives generalizing n with
  | nil =>
    obtain rfl := Option.some_inj.mp h
    simp
  | cons one creatives ih =>
    rw [List.foldlM_cons] at h
    obtain ⟨n₁, h₁, h₂⟩ := Option.bind_eq_some_iff.mp h
    rw [ih h₂, mem_search_add h₁, List.mem_cons, or_assoc]
    refine or_congr_right ?_
    rw [or_and_right]
    refine or_congr_left (and_congr_right ?_)
    rintro rfl
    exact Iff.rfl

/-- A search finds the creatives of the slot's type and width, as the deep link rule allows. -/
theorem mem_search_iff {creatives : List CreativeInfo} {n : ClassifyCreativeType}
    (h : adSelectorCreater creatives = some n) {req : ComRequest} {imp : ComImpression}
    {c : CreativeInfo} :
    c ∈ adSelectorSearch n req imp [] ↔ c ∈ creatives ∧ Searched req imp c := by
  rw [adSelectorSearch, AddrSet.mem_insertAll, mem_search_foldlM h]
  simp [ClassifyCreativeType.search, CmpMap.find]

/-! ## Against the plain check -/

/-- For a creative of the type of a slot, its width decides whether the size fits: with the width of
the slot it has a height that the slot takes, and a video slot of any size has that width. -/
def ComImpression.WidthDecides (imp : ComImpression) (c : CreativeInfo) : Prop :=
  (imp.type = impBanner → c.w = imp.banner.w → c.h = imp.banner.h) ∧
    (imp.type = impVideo →
      if imp.video.isLimitSize then c.w = imp.video.w → c.h = imp.video.h
      else c.w = imp.video.w)

instance (imp : ComImpression) (c : CreativeInfo) : Decidable (imp.WidthDecides c) :=
  inferInstanceAs (Decidable (_ ∧ _))

/-- The search finds what the checks of each creative let pass. -/
def SearchExact (creatives : List CreativeInfo) (n : ClassifyCreativeType) (req : ComRequest)
    (imp : ComImpression) : Prop :=
  ∀ c, c ∈ adSelectorSearch n req imp [] ↔
    c ∈ creatives ∧ c.checkBySize imp = .success ∧ DeeplinkAllowed req c

section

variable {c : CreativeInfo} {imp : ComImpression}

/-- The size check of a banner. -/
theorem checkBySize_banner (h : imp.type = impBanner) :
    c.checkBySize imp = .success ↔
      c.type = imp.searchType ∧ c.w = imp.banner.w ∧ c.h = imp.banner.h := by
  rw [CreativeInfo.checkBySize, ComImpression.searchType, if_pos h, if_pos h]
  split_ifs with htype hsize
  · simp [htype]
  · simp only [false_iff]
    omega
  · simp only [true_iff]
    omega

/-- The size check of a native ad: the type alone. -/
theorem checkBySize_native (h : imp.type = impNative) :
    c.checkBySize imp = .success ↔ c.type = imp.searchType := by
  have hbanner : imp.type ≠ impBanner := by rw [h]; decide
  rw [CreativeInfo.checkBySize, ComImpression.searchType, if_neg hbanner, if_pos h, if_neg hbanner,
    if_pos h]
  split_ifs with htype
  · simp [htype]
  · simp only [true_iff]
    exact not_not.mp htype

/-- The size check of a video, whose size may be free. -/
theorem checkBySize_video (h : imp.type = impVideo) :
    c.checkBySize imp = .success ↔ c.type = imp.searchType ∧
      (imp.video.isLimitSize = true → c.w = imp.video.w ∧ c.h = imp.video.h) := by
  have hbanner : imp.type ≠ impBanner := by rw [h]; decide
  have hnative : imp.type ≠ impNative := by rw [h]; decide
  rw [CreativeInfo.checkBySize, ComImpression.searchType, if_neg hbanner, if_neg hnative, if_pos h,
    if_neg hbanner, if_neg hnative, if_pos h]
  split_ifs with htype hsize
  · simp [htype]
  · simp only [false_iff]
    rintro ⟨-, hwh⟩
    obtain ⟨hw, hh⟩ := hwh hsize.1
    exact hsize.2 ⟨hw.symm, hh.symm⟩
  · simp only [true_iff]
    refine ⟨not_not.mp htype, fun hlimit => ?_⟩
    by_contra hne
    exact hsize ⟨hlimit, fun hwh => hne ⟨hwh.1.symm, hwh.2.symm⟩⟩

end

section

variable {req : ComRequest} {imp : ComImpression} {c : CreativeInfo}

/-- Images and videos are kept under their own size. -/
theorem size_of_searchType (hc : c.type = imp.searchType)
    (h : imp.type = impBanner ∨ imp.type = impVideo) : c.size = ⟨c.w, c.h⟩ := by
  rw [CreativeInfo.size, hc, ComImpression.searchType]
  rcases h with h | h <;> rw [h] <;> rfl

/-- The search agrees with the size check of a banner just if the width decides. -/
theorem searched_iff_banner (h : imp.type = impBanner) :
    (Searched req imp c ↔ c.checkBySize imp = .success ∧ DeeplinkAllowed req c) ↔
      (DeeplinkAllowed req c → c.type = imp.searchType → imp.WidthDecides c) := by
  have hvideo : imp.type ≠ impVideo := by rw [h]; decide
  have hslot : imp.searchSize = ⟨imp.banner.w, imp.banner.h⟩ := if_pos h
  rw [checkBySize_banner h, Searched, ComImpression.WidthDecides, hslot]
  constructor
  · intro hiff hdl hc
    have hsize := size_of_searchType hc (.inl h)
    refine ⟨fun _ hw => ?_, fun hv => absurd hv hvideo⟩
    exact (hiff.mp ⟨hc, by rw [hsize]; exact hw, hdl⟩).1.2.2
  · intro hdec
    constructor
    · rintro ⟨hc, hw, hdl⟩
      rw [size_of_searchType hc (.inl h)] at hw
      exact ⟨⟨hc, hw, (hdec hdl hc).1 h hw⟩, hdl⟩
    · rintro ⟨⟨hc, hw, -⟩, hdl⟩
      refine ⟨hc, ?_, hdl⟩
      rw [size_of_searchType hc (.inl h)]
      exact hw

/-- The search agrees with the size check of a video just if the width decides. -/
theorem searched_iff_video (h : imp.type = impVideo) :
    (Searched req imp c ↔ c.checkBySize imp = .success ∧ DeeplinkAllowed req c) ↔
      (DeeplinkAllowed req c → c.type = imp.searchType → imp.WidthDecides c) := by
  have hbanner : imp.type ≠ impBanner := by rw [h]; decide
  have hslot : imp.searchSize = ⟨imp.video.w, imp.video.h⟩ := by
    rw [ComImpression.searchSize, if_neg hbanner, if_pos h]
  rw [checkBySize_video h, Searched, ComImpression.WidthDecides, hslot]
  constructor
  · intro hiff hdl hc
    have hsize := size_of_searchType hc (.inr h)
    refine ⟨fun hb => absurd hb hbanner, fun _ => ?_⟩
    split_ifs with hlimit
    · intro hw
      exact ((hiff.mp ⟨hc, by rw [hsize]; exact hw, hdl⟩).1.2 hlimit).2
    · have hfound := (hiff.mpr ⟨⟨hc, fun hl => absurd hl hlimit⟩, hdl⟩).2.1
      rwa [hsize] at hfound
  · intro hdec
    constructor
    · rintro ⟨hc, hw, hdl⟩
      rw [size_of_searchType hc (.inr h)] at hw
      have hheight := (hdec hdl hc).2 h
      refine ⟨⟨hc, fun hlimit => ⟨hw, ?_⟩⟩, hdl⟩
      rw [if_pos hlimit] at hheight
      exact hheight hw
    · rintro ⟨⟨hc, hwh⟩, hdl⟩
      refine ⟨hc, ?_, hdl⟩
      rw [size_of_searchType hc (.inr h)]
      have hwidth := (hdec hdl hc).2 h
      split_ifs at hwidth with hlimit
      · exact (hwh hlimit).1
      · exact hwidth

/-- The search agrees with the size check of a native ad just if the width decides. -/
theorem searched_iff_native (h : imp.type = impNative) :
    (Searched req imp c ↔ c.checkBySize imp = .success ∧ DeeplinkAllowed req c) ↔
      (DeeplinkAllowed req c → c.type = imp.searchType → imp.WidthDecides c) := by
  have hbanner : imp.type ≠ impBanner := by rw [h]; decide
  have hvideo : imp.type ≠ impVideo := by rw [h]; decide
  -- feeds are kept under the size 0 × 0, which native slots ask for
  have hsize : c.type = imp.searchType → c.size.w = imp.searchSize.w := by
    intro hc
    rw [CreativeInfo.size, hc, ComImpression.searchType, ComImpression.searchSize, h]
    rfl
  rw [checkBySize_native h, Searched]
  refine iff_of_true ⟨fun hs => ⟨hs.1, hs.2.2⟩, fun hs => ⟨hs.1, hsize hs.1, hs.2⟩⟩ ?_
  intro _ _
  exact ⟨fun hb => absurd hb hbanner, fun hv => absurd hv hvideo⟩

end

/-- The search is exact if and only if the width of the slot decides among the creatives of its
type that the request allows. -/
theorem search_exact_iff {creatives : List CreativeInfo} {n : ClassifyCreativeType}
    (hn : adSelectorCreater creatives = some n) (req : ComRequest) (imp : ComImpression)
    (htype : imp.type = impBanner ∨ imp.type = impVideo ∨ imp.type = impNative) :
    SearchExact creatives n req imp ↔
      ∀ c ∈ creatives, DeeplinkAllowed req c → c.type = imp.searchType → imp.WidthDecides c := by
  have hc : ∀ c, (c ∈ adSelectorSearch n req imp [] ↔
      c ∈ creatives ∧ c.checkBySize imp = .success ∧ DeeplinkAllowed req c) ↔
        (c ∈ creatives → DeeplinkAllowed req c → c.type = imp.searchType →
          imp.WidthDecides c) := by
    intro c
    rw [mem_search_iff hn, and_congr_right_iff]
    refine forall_congr' fun _ => ?_
    rcases htype with h | h | h
    · exact searched_iff_banner h
    · exact searched_iff_video h
    · exact searched_iff_native h
  exact forall_congr' hc

/-- Two banners of the size of the slot, and one of another width. -/
theorem search_exact_iff_sample :
    ∃ n, adSelectorCreater [sampleCreative 1 adtypeImage 320 50,
        sampleCreative 2 adtypeImage 640 100, sampleCreative 3 adtypeImage 320 50] = some n ∧
      SearchExact [sampleCreative 1 adtypeImage 320 50, sampleCreative 2 adtypeImage 640 100,
        sampleCreative 3 adtypeImage 320 50] n (sampleRequest (bytes "a")) sampleImpression := by
  refine ⟨_, rfl, (search_exact_iff rfl _ _ (.inl rfl)).mpr ?_⟩
  decide +kernel

/-- The search for a banner of 320 × 50 finds one of 320 × 480. -/
theorem search_finds_other_height :
    ∃ n, adSelectorCreater [sampleCreative 1 adtypeImage 320 480] = some n ∧
      ¬SearchExact [sampleCreative 1 adtypeImage 320 480] n (sampleRequest (bytes "a"))
        sampleImpression := by
  refine ⟨_, rfl, fun h => ?_⟩
  have hsize := ((h (sampleCreative 1 adtypeImage 320 480)).mp (List.mem_singleton.mpr rfl)).2.1
  exact absurd hsize (by decide +kernel)

end AdxDsp
