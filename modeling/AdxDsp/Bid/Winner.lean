import AdxDsp.Bid.Bidding

/-!
# The winner of an imp

What `BidWork::FilterByCreativeBidding` leaves of each imp (`bidbase.cpp`), for prices of any sign.

* `bidding_won_iff`: when each imp is left with one dearest creative that the deep link rule allows.
* `pmp_without_price_crashed`: a private deal without a price, which leaves none.
-/

namespace AdxDsp

open CText Sieve

namespace BidWork

/-- `_candidates._creative_price[mapid]` -/
def priceOf (prices : List (ℤ × ℤ)) (c : CreativeInfo) : ℤ := (prices.lookup c.mapid).getD 0

/-- The creatives that the deep link rule allows: those with a deep link, if the request takes deep
links and some creative has one. -/
def survivors (deepLink : ℤ) (creatives : List CreativeInfo) : List CreativeInfo :=
  creatives.filter fun c =>
    deepLink = 0 ∨ c.deeplink ≠ [] ∨ ∀ other ∈ creatives, other.deeplink = []

/-- The imp is left with one creative of its own, which the deep link rule allows and which is the
dearest of those it allows. -/
def Won (deepLink : ℤ) (prices : List (ℤ × ℤ)) (creatives kept : List CreativeInfo) : Prop :=
  ∃ one, kept = [one] ∧ one ∈ survivors deepLink creatives ∧
    ∀ other ∈ survivors deepLink creatives, priceOf prices other ≤ priceOf prices one

/-- The deep link rule leaves a single creative, or one with a price. -/
def Worth (deepLink : ℤ) (prices : List (ℤ × ℤ)) (creatives : List CreativeInfo) : Prop :=
  (survivors deepLink creatives).length = 1 ∨
    ∃ c ∈ survivors deepLink creatives, 0 < priceOf prices c

instance (deepLink : ℤ) (prices : List (ℤ × ℤ)) (creatives : List CreativeInfo) :
    Decidable (Worth deepLink prices creatives) := inferInstanceAs (Decidable (_ ∨ _))

/-! ## The selections one by one -/

section

variable {creatives : List CreativeInfo} {prices : List (ℤ × ℤ)}

/-- The first choice keeps the survivors. -/
theorem selectByDeeplink_eq (deepLink : ℤ) (creatives : List CreativeInfo) :
    selectByDeeplink deepLink creatives = survivors deepLink creatives := by
  simp only [selectByDeeplink, survivors]
  split_ifs with hone hall
  · -- with one creative there is nothing to choose from
    symm
    rw [List.filter_eq_self]
    intro c hc
    rcases hone with hzero | hlength
    · simp [hzero]
    · obtain ⟨x, rfl⟩ := List.length_eq_one_iff.mp hlength
      obtain rfl := List.mem_singleton.mp hc
      simp [em']
  · symm
    rw [List.filter_eq_self]
    intro c hc
    rcases hall with hnone | hall
    · have h : ∀ other ∈ creatives, other.deeplink = [] := by
        simpa [List.filter_eq_nil_iff] using hnone
      simpa using .inr (.inr h)
    · have h := List.filter_eq_self.mp (List.filter_sublist.eq_of_length hall) c hc
      simpa using .inr (.inl (by simpa using h))
  · refine List.filter_congr fun c _ => ?_
    rw [not_or] at hone hall
    have hsome : ¬∀ other ∈ creatives, other.deeplink = [] := by
      intro h
      exact hall.1 (by simpa [List.filter_eq_nil_iff] using h)
    simp [hone.1, hsome]

/-- What the loop of `SelectByPrice` knows of the creatives it has seen. -/
structure Dearest (prices : List (ℤ × ℤ)) (seen : List CreativeInfo)
    (best : ℤ × List CreativeInfo) : Prop where
  nonneg : 0 ≤ best.1
  le : ∀ c ∈ seen, priceOf prices c ≤ best.1
  kept : ∀ c ∈ best.2, c ∈ seen ∧ priceOf prices c = best.1
  ne_nil : best.2 ≠ [] ↔ 0 < best.1
  priced : 0 < best.1 → ∃ c ∈ seen, 0 < priceOf prices c

/-- Without creatives none is the dearest. -/
theorem dearest_nil : Dearest prices [] (0, []) where
  nonneg := le_rfl
  le := by simp
  kept := by simp
  ne_nil := by simp
  priced := by simp

/-- One turn of the loop. -/
theorem Dearest.step {seen : List CreativeInfo} {best : ℤ × List CreativeInfo} {one : CreativeInfo}
    (h : Dearest prices seen best) :
    Dearest prices (seen ++ [one]) (selectPrice prices best one) := by
  obtain ⟨hnonneg, hle, hkept, hne, hpriced⟩ := h
  have hmem : ∀ c, c ∈ seen ++ [one] ↔ c ∈ seen ∨ c = one := by simp
  have hprice : (prices.lookup one.mapid).getD 0 = priceOf prices one := rfl
  simp only [selectPrice, hprice]
  split_ifs with hlow heq
  · -- a lower price, or none
    refine ⟨hnonneg, fun c hc => ?_, fun c hc => ?_, hne, fun hpos => ?_⟩
    · rcases (hmem c).mp hc with hc | rfl
      · exact hle c hc
      · omega
    · exact ⟨(hmem c).mpr (.inl (hkept c hc).1), (hkept c hc).2⟩
    · obtain ⟨c, hc, hpos⟩ := hpriced hpos
      exact ⟨c, (hmem c).mpr (.inl hc), hpos⟩
  · -- the same price
    refine ⟨hnonneg, fun c hc => ?_, fun c hc => ?_, ?_, fun hpos => ?_⟩
    · rcases (hmem c).mp hc with hc | rfl
      · exact hle c hc
      · omega
    · rcases (AddrSet.mem_insert _).mp hc with rfl | hc
      · exact ⟨(hmem c).mpr (.inr rfl), heq⟩
      · exact ⟨(hmem c).mpr (.inl (hkept c hc).1), (hkept c hc).2⟩
    · refine iff_of_true (List.ne_nil_of_mem ((AddrSet.mem_insert _).mpr (.inl rfl))) ?_
      show 0 < best.1
      omega
    · exact ⟨one, (hmem one).mpr (.inr rfl), by omega⟩
  · -- a higher price
    have hpos : 0 < priceOf prices one := by omega
    refine ⟨hpos.le, fun c hc => ?_, fun c hc => ?_, by simpa using hpos, fun _ => ?_⟩
    · rcases (hmem c).mp hc with hc | rfl
      · have := hle c hc
        show priceOf prices c ≤ priceOf prices one
        omega
      · exact le_rfl
    · obtain rfl := List.mem_singleton.mp hc
      exact ⟨(hmem c).mpr (.inr rfl), rfl⟩
    · exact ⟨one, (hmem one).mpr (.inr rfl), hpos⟩

/-- The whole loop: by induction over the creatives, from the last one. -/
theorem dearest_foldl (prices : List (ℤ × ℤ)) (creatives : List CreativeInfo) :
    Dearest prices creatives (creatives.foldl (selectPrice prices) (0, [])) := by
  induction creatives using List.reverseRecOn with
  | nil => exact dearest_nil
  | append_singleton creatives one ih =>
    rw [List.foldl_append]
    exact ih.step

/-- `SelectByPrice` leaves a dearest creative, if there is a single one or one with a price. -/
theorem selectByPrice_ne_nil_iff :
    selectByPrice prices creatives ≠ [] ↔
      creatives.length = 1 ∨ ∃ c ∈ creatives, 0 < priceOf prices c := by
  have h := dearest_foldl prices creatives
  unfold selectByPrice
  split_ifs with hone
  · refine iff_of_true (fun hnil => ?_) (.inl hone)
    rw [hnil] at hone
    exact absurd hone (by simp)
  · rw [h.ne_nil, or_iff_right hone]
    refine ⟨h.priced, ?_⟩
    rintro ⟨c, hc, hpos⟩
    exact hpos.trans_le (h.le c hc)

/-- None is dearer than the chosen ones. -/
theorem le_of_mem_selectByPrice {one other : CreativeInfo}
    (hone : one ∈ selectByPrice prices creatives) (hother : other ∈ creatives) :
    priceOf prices other ≤ priceOf prices one := by
  have h := dearest_foldl prices creatives
  unfold selectByPrice at hone
  split_ifs at hone with hlength
  · obtain ⟨x, rfl⟩ := List.length_eq_one_iff.mp hlength
    rw [List.mem_singleton.mp hone, List.mem_singleton.mp hother]
  · rw [(h.kept one hone).2]
    exact h.le other hother

/-- The categories that are selected are categories of creatives. -/
theorem mem_of_mem_selectAdvcat {advcat : List (Bytes × ℚ)} {user advcats : List ℤ} {a : ℤ}
    (h : a ∈ advcats.foldl (selectAdvcat advcat user) []) : a ∈ advcats := by
  induction advcats using List.reverseRecOn with
  | nil => exact h
  | append_singleton advcats one ih =>
    rw [List.foldl_append] at h
    simp only [List.foldl_cons, List.foldl_nil, selectAdvcat] at h
    rw [List.mem_append, List.mem_singleton]
    split_ifs at h
    · exact .inl (ih h)
    · exact .inr (List.mem_singleton.mp h)
    · exact (List.mem_append.mp h).imp ih List.mem_singleton.mp
    · exact .inl (ih h)

/-- `SelectByAdvcat` leaves nothing only of nothing. -/
theorem selectByAdvcat_ne_nil_iff {advcat : List (Bytes × ℚ)} {user : List ℤ} :
    selectByAdvcat advcat user creatives ≠ [] ↔ creatives ≠ [] := by
  constructor
  · rintro h rfl
    exact h rfl
  · intro h
    simp only [selectByAdvcat]
    split_ifs with hone hadvcat hsel
    · exact h
    · exact h
    · exact h
    · -- a category that is selected has a creative
      obtain ⟨a, ha⟩ := List.exists_mem_of_length_pos (Nat.pos_of_ne_zero hsel)
      have hmem := mem_of_mem_selectAdvcat ha
      rw [AddrSet.mem_insertAll, or_iff_left List.not_mem_nil, List.mem_map] at hmem
      obtain ⟨c, hc, rfl⟩ := hmem
      refine List.ne_nil_of_mem (a := c) ((AddrSet.mem_insertAll _).mpr (.inl ?_))
      exact List.mem_flatMap.mpr ⟨_, ha, List.mem_filter.mpr ⟨hc, by simp⟩⟩

/-- The last choice divides by zero just if there is nothing to choose from. -/
theorem selectByLast_eq_none_iff {rand : ℕ} :
    selectByLast rand creatives = none ↔ creatives = [] := by
  simp [selectByLast]

/-- The last choice keeps one creative. -/
theorem exists_of_selectByLast {rand : ℕ} {kept : List CreativeInfo}
    (h : selectByLast rand creatives = some kept) : ∃ one ∈ creatives, kept = [one] := by
  unfold selectByLast at h
  split_ifs at h with hlength
  obtain rfl := Option.some_inj.mp h
  have hlt := Nat.mod_lt rand (Nat.pos_of_ne_zero hlength)
  refine ⟨creatives[rand % creatives.length], List.getElem_mem hlt, ?_⟩
  rw [List.getElem?_eq_getElem hlt, Option.toList_some]

end

/-! ## All of them -/

section

variable {i : BidInput} {req : ComRequest} {prices : List (ℤ × ℤ)} {imp : ImpRef}
  {creatives kept : List CreativeInfo}

/-- `GetRandomIndex` is called with 0 exactly if the deep link rule leaves several creatives and
none of them has a price. -/
theorem bidOne_eq_none_iff :
    bidOne i req prices imp creatives = none ↔ ¬Worth req.supportDeepLink prices creatives := by
  rw [bidOne, selectByLast_eq_none_iff, ← not_ne_iff, selectByAdvcat_ne_nil_iff,
    selectByPrice_ne_nil_iff, selectByDeeplink_eq, Worth]

/-- What is kept for an impression has won. -/
theorem won_of_bidOne (h : bidOne i req prices imp creatives = some kept) :
    Won req.supportDeepLink prices creatives kept := by
  obtain ⟨one, hone, rfl⟩ := exists_of_selectByLast h
  have hprice := mem_of_mem_selectByAdvcat hone
  rw [selectByDeeplink_eq] at hprice
  exact ⟨one, rfl, mem_of_mem_selectByPrice hprice, fun other =>
    le_of_mem_selectByPrice hprice⟩

/-- The loop goes on after an imp that is left with something. -/
theorem bidEach_cons {m : List (ImpRef × List CreativeInfo)}
    (h : bidOne i req prices imp creatives = some kept) (hne : kept ≠ []) :
    bidEach i req prices ((imp, creatives) :: m) =
      (bidEach i req prices m).map fun m' => (imp, kept) :: m' := by
  rw [bidEach, h]
  cases hm : bidEach i req prices m with
  | none => rfl
  | some m' => simp [hne]

/-- Each imp is left with its winner, and there is no division by zero, if and only if the deep link
rule leaves of each imp a single creative or one with a price. -/
theorem bidding_won_iff (i : BidInput) (req : ComRequest) (prices : List (ℤ × ℤ))
    (m : List (ImpRef × List CreativeInfo)) :
    (∃ m', bidEach i req prices m = some m' ∧ List.Forall₂ (fun e e' =>
        e'.1 = e.1 ∧ Won req.supportDeepLink prices e.2 e'.2) m m') ↔
      ∀ e ∈ m, Worth req.supportDeepLink prices e.2 := by
  -- by induction over the imps; each is bid for on its own
  induction m with
  | nil => exact iff_of_true ⟨[], rfl, .nil⟩ (by simp)
  | cons e m ih =>
    obtain ⟨imp, creatives⟩ := e
    rw [List.forall_mem_cons, ← ih]
    cases hone : bidOne i req prices imp creatives with
    | none =>
      have hpriced := bidOne_eq_none_iff.mp hone
      refine iff_of_false ?_ fun h => hpriced h.1
      rintro ⟨m', hm', -⟩
      exact absurd hm' (by simp [bidEach, hone])
    | some kept =>
      -- there is a winner, so that the imp was worth it
      have hwon := won_of_bidOne hone
      have hpriced : Worth req.supportDeepLink prices creatives := by
        by_contra hnot
        rw [bidOne_eq_none_iff.mpr hnot] at hone
        exact absurd hone (by simp)
      have hne : kept ≠ [] := by
        obtain ⟨one, rfl, -⟩ := hwon
        simp
      rw [and_iff_right hpriced]
      rw [bidEach_cons hone hne]
      constructor
      · rintro ⟨m', hm', hall⟩
        obtain ⟨rest, hrest, rfl⟩ := Option.map_eq_some_iff.mp hm'
        exact ⟨rest, hrest, (List.forall₂_cons.mp hall).2⟩
      · rintro ⟨rest, hrest, hall⟩
        exact ⟨(imp, kept) :: rest, by rw [hrest]; rfl, .cons ⟨rfl, hwon⟩ hall⟩

end

end BidWork

/-! ## A private deal without a price -/

/-- `BID_PMP` -/
def bidPmp : ℕ := 1

/-- `AdviewBid::CheckPrice`, with the ratio of the template. -/
def adviewCheckPrice (ratio : ℚ) (at_ : ℕ) (bidfloor price : ℤ) : BidErr :=
  if at_ = bidPmp then .success
  else if -1 / 1000000 < ratio ∧ ratio < 1 / 1000000 then .creativePriceCallback
  else if (price - bidfloor) * ratio < 1 then .creativePriceCallback
  else .success

/-- The deal that `AdviewBid` gives every imp of a request for private deals. -/
def adviewDeal : Bytes := bytes "px111111"

/-- A policy with this deal without a price, which `PolicyInfo::Parse` keeps as the price 0. -/
def sampleUnpricedPolicy : PolicyInfo := { samplePolicy with atInfo := [(1, [(adviewDeal, 0)])] }

/-- Two banners of this policy. -/
def sampleUnpricedCreatives : List CreativeInfo :=
  [{ sampleCreative 1 adtypeImage 320 50 with policy := sampleUnpricedPolicy },
    { sampleCreative 2 adtypeImage 320 50 with mapid := 32, policy := sampleUnpricedPolicy }]

/-- An imp of a request for private deals, with the floor that `AdviewBid` sets. -/
def sampleUnpricedImpression : ComImpression :=
  { sampleImpression with dealprice := [(adviewDeal, 1500)] }

/-- A request for private deals. -/
def sampleUnpricedRequest : ComRequest :=
  { sampleRequest (bytes "a") with imp := [sampleUnpricedImpression], at_ := bidPmp }

/-- An exchange that accepts any price for them. -/
def sampleUnpricedWork : BidWork :=
  { sampleWork sampleUnpricedCreatives with
    adapter := { (sampleWork []).adapter with checkPrice := adviewCheckPrice 1 } }

/-- Both banners reach the bidding with the price 0, and `GetRandomIndex` divides by zero. -/
theorem pmp_without_price_crashed :
    ((sampleUnpricedWork.selectAd sampleUnpricedRequest).eval deafCluster ()).1 =
        .selected sampleUnpricedRequest ⟨[sampleUnpricedPolicy],
          [((sampleUnpricedImpression, 0), [sampleUnpricedPolicy])],
          [((sampleUnpricedImpression, 0), sampleUnpricedCreatives)], [(32, 0), (31, 0)]⟩ ∧
      BidWork.bidEach ⟨[], fun _ => 0⟩ sampleUnpricedRequest [(32, 0), (31, 0)]
        [((sampleUnpricedImpression, 0), sampleUnpricedCreatives)] = none ∧
      ((sampleUnpricedWork.selectAdBid sampleUnpricedRequest ⟨[], fun _ => 0⟩).eval deafCluster
        ()).1 = .crashed := by
  refine ⟨?_, ?_, ?_⟩
  · decide +kernel
  · decide +kernel
  · decide +kernel

end AdxDsp
