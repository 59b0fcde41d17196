import AdxDsp.Bid.Filter

/-!
# Apps that need no device id

`PolicyInfo::ParseAllowNoDeviceid` inserts pairs of an app and an imp type into a `std::set`, and
`PolicyInfo::CheckAllowNoDeviceid` looks for one (`ad_element.cpp`).  The operator `<` of the pairs
asks for both components to be less or equal, which is a partial order: a pair that is neither below
nor above another one counts as the same.

* `lt_strictOrder`: the operator is a strict partial order.
* `check_of_inserted`: a pair that was inserted is found, even if the set has dropped it.
* `check_iff_inserted`: when the answer is right.
* `other_pair_found`: one pair in the set, and another one that is found.
-/

namespace AdxDsp

open CText SetTree

/-! ## The pairs -/

/-- An element of the array `media`: the labels `mediaid` and `imptype`, where they are there. -/
structure NoDeviceidMedia where
  mediaid : Option Bytes
  imptype : Option (List ℤ)

/-- An element of the array `nodeviceid`: the labels `adxcode` and `media`. -/
structure NoDeviceidEntry where
  adxcode : Option ℤ
  media : Option (List NoDeviceidMedia)

/-- The pairs of one element of `media`. -/
def NoDeviceidMedia.pairs (mediaOne : NoDeviceidMedia) : List AllowNoDeviceid :=
  match mediaOne.mediaid, mediaOne.imptype with
  | some mediaid, some imptypes => imptypes.map fun imptype => ⟨imptype, mediaid⟩
  | _, _ => []

/-- `PolicyInfo::ParseAllowNoDeviceid`: the pairs that it inserts, one after the other. -/
def parseAllowNoDeviceid (adx : ℤ) (nodeviceid : List NoDeviceidEntry) : List AllowNoDeviceid :=
  nodeviceid.flatMap fun temp =>
    if temp.adxcode = some adx then (temp.media.getD []).flatMap NoDeviceidMedia.pairs else []

/-! ## The order -/

namespace AllowNoDeviceid

/-- The order, as the operator computes it. -/
theorem lt_iff {a b : AllowNoDeviceid} :
    lt a b = true ↔ a ≠ b ∧ a.imptype ≤ b.imptype ∧ a.mediaid ≤ b.mediaid := by
  rw [lt, Bool.and_eq_true, Bool.and_eq_true, Bool.not_eq_true', decide_eq_true_iff,
    decide_eq_true_iff, decide_eq_false_iff_not, List.not_lt, and_assoc]

/-- It is a strict order. -/
theorem lt_strictOrder : StrictOrder lt where
  irrefl a := eq_false_of_ne_true fun h => (lt_iff.mp h).1 rfl
  trans := by
    intro a b c hab hbc
    obtain ⟨hne, himp, hmedia⟩ := lt_iff.mp hab
    obtain ⟨-, himp', hmedia'⟩ := lt_iff.mp hbc
    refine lt_iff.mpr ⟨?_, himp.trans himp', List.le_trans hmedia hmedia'⟩
    rintro rfl
    -- both components are equal
    apply hne
    obtain ⟨imptype, mediaid⟩ := a
    obtain ⟨imptype', mediaid'⟩ := b
    rw [AllowNoDeviceid.mk.injEq]
    exact ⟨le_antisymm himp himp', List.le_antisymm hmedia hmedia'⟩

/-- Two pairs can be compared if they differ, and none has the greater imp type and the other one
the greater app. -/
theorem comparable_iff {a b : AllowNoDeviceid} :
    Comparable lt a b ↔ a ≠ b ∧ (a.imptype ≤ b.imptype ∧ a.mediaid ≤ b.mediaid ∨
      b.imptype ≤ a.imptype ∧ b.mediaid ≤ a.mediaid) := by
  rw [Comparable, lt_iff, lt_iff, ne_comm (a := b), ← and_or_left]

end AllowNoDeviceid

/-! ## What is found -/

section

variable {adx : ℤ} {nodeviceid : List NoDeviceidEntry} {p : PolicyInfo} {appid : Bytes}
  {imptype : ℕ}

/-- The set of a policy is what `ParseAllowNoDeviceid` has built. -/
def PolicyInfo.AllowsParsed (p : PolicyInfo) (adx : ℤ) (nodeviceid : List NoDeviceidEntry) : Prop :=
  Built AllowNoDeviceid.lt (parseAllowNoDeviceid adx nodeviceid) p.allowNoDeviceid

/-- A pair that was inserted is found. -/
theorem check_of_inserted (hp : p.AllowsParsed adx nodeviceid)
    (h : ⟨imptype, appid⟩ ∈ parseAllowNoDeviceid adx nodeviceid) :
    p.checkAllowNoDeviceid appid imptype = true :=
  (hp.contains_iff AllowNoDeviceid.lt_strictOrder).mpr
    (exists_not_comparable AllowNoDeviceid.lt_strictOrder h)

/-- The answer says whether the pair was inserted exactly if it was, or it can be compared with all
pairs that the set has kept. -/
theorem check_iff_inserted (hp : p.AllowsParsed adx nodeviceid) :
    (p.checkAllowNoDeviceid appid imptype = true ↔
        ⟨imptype, appid⟩ ∈ parseAllowNoDeviceid adx nodeviceid) ↔
      ⟨imptype, appid⟩ ∈ parseAllowNoDeviceid adx nodeviceid ∨
        ∀ k ∈ kept AllowNoDeviceid.lt (parseAllowNoDeviceid adx nodeviceid),
          Comparable AllowNoDeviceid.lt ⟨imptype, appid⟩ k := by
  by_cases h : (⟨imptype, appid⟩ : AllowNoDeviceid) ∈ parseAllowNoDeviceid adx nodeviceid
  · exact iff_of_true (iff_of_true (check_of_inserted hp h) h) (.inl h)
  · -- it is right to find nothing, and a kept pair that cannot be compared is found
    rw [iff_false_right h, or_iff_right h, PolicyInfo.checkAllowNoDeviceid,
      hp.contains_iff AllowNoDeviceid.lt_strictOrder]
    simp only [not_exists, not_and, not_not]

end

/-! ## One app -/

/-- The app `b` needs no device id for banners. -/
def sampleNoDeviceid : List NoDeviceidEntry :=
  [⟨some 1, some [⟨some (bytes "b"), some [impBanner]⟩]⟩]

/-- A policy with this app. -/
def sampleAllowing : PolicyInfo :=
  { samplePolicy with allowNoDeviceid := .node .leaf ⟨impBanner, bytes "b"⟩ .leaf }

/-- The parser allows the sample. -/
theorem sampleAllowing_parsed : sampleAllowing.AllowsParsed 1 sampleNoDeviceid := by
  have hins : Inserted AllowNoDeviceid.lt ⟨impBanner, bytes "b"⟩ .leaf
      sampleAllowing.allowNoDeviceid := by
    refine .new ?_ rfl
    intro j hj
    cases hj
  exact Built.insert _ .nil hins

/-- A video in the same app is not found. -/
theorem video_not_found :
    sampleAllowing.checkAllowNoDeviceid (bytes "b") impVideo = true ↔
      ⟨impVideo, bytes "b"⟩ ∈ parseAllowNoDeviceid 1 sampleNoDeviceid :=
  (check_iff_inserted sampleAllowing_parsed).mpr (.inr (by decide))

/-- A video in the app `a` is found, which was not inserted. -/
theorem other_pair_found :
    sampleAllowing.AllowsParsed 1 sampleNoDeviceid ∧
      sampleAllowing.checkAllowNoDeviceid (bytes "a") impVideo = true ∧
      ⟨impVideo, bytes "a"⟩ ∉ parseAllowNoDeviceid 1 sampleNoDeviceid :=
  ⟨sampleAllowing_parsed, by decide, by decide⟩

end AdxDsp
