import AdxDsp.Lib.Bytes

/-!
# The billing id of Google

An ad slot has an entry for each of our configurations that it matches, with billing ids and a
price floor.  `GoogleAdapter::ToCom` keeps one id and one floor (`google_adapter.cpp`).

* **The entries** (`readEntries`): the vector of the ids is built again for each of them and is read
  at the number of the entry.
* `toCom_iff`: when the reads are inside, and the floor is the one of the entry with the id.
* `second_entry_outside`: two entries with one id each.
-/

namespace AdxDsp.GoogleBilling

open CText

/-! ## The entries -/

/-- `BidRequest_AdSlot_MatchingAdData::BuyerPricingRule` -/
structure BuyerPricingRule where
  blocked : Option Bool
  minimumCpmMicros : Option ℤ
  deriving DecidableEq

/-- `BidRequest_AdSlot_MatchingAdData`; of a deal its type, if it has one. -/
structure MatchingAdData where
  billingId : List ℤ
  minimumCpmMicros : Option ℤ
  pricingRule : List BuyerPricingRule
  directDeal : List (Option ℕ)
  deriving DecidableEq

/-- What the entries are read into: `_billing_id`, the floor of the imp and `BID_PMP`. -/
structure State where
  billingId : ℤ
  bidfloor : ℤ
  pmp : Bool
  deriving DecidableEq

/-- `_billing_id` is an `uint64_t`. -/
def toUInt64 (z : ℤ) : ℤ := z % 2 ^ 64

/-- A price in cents; `bidfloor` is an `int`. -/
def toCents (micros : ℤ) : ℤ := toInt32 (micros.tdiv 10000)

/-- A preferred deal or a private auction. -/
def isPmp (dealType : Option ℕ) : Bool := dealType = some 1 ∨ dealType = some 2

/-- The loop over the pricing rules; a blocked rule ends it if it is the first one. -/
def readRules (directDeal : List (Option ℕ)) : Bool → State → List BuyerPricingRule → State
  | _, s, [] => s
  | first, s, rule :: rules =>
    if rule.blocked = some true ∧ first then s
    else
      readRules directDeal false
        { s with
          bidfloor := rule.minimumCpmMicros.elim s.bidfloor toCents
          pmp := s.pmp || directDeal.any isPmp } rules

/-- `_billing_id` after an entry, `none` when `billing_vid[i]` is read outside. -/
def readBillingId (i : ℕ) (billingVid : List ℤ) (billingId : ℤ) : Option ℤ :=
  if 0 < billingVid.length then (billingVid[i]?).map toUInt64 else some billingId

/-- One turn of the loop over the entries. -/
def readEntry (i : ℕ) (s : State) (entry : MatchingAdData) : Option State :=
  (readBillingId i entry.billingId s.billingId).map fun billingId =>
    let s := { s with
      billingId := billingId, bidfloor := entry.minimumCpmMicros.elim s.bidfloor toCents }
    readRules entry.directDeal true s entry.pricingRule

/-- The loop over the entries from number `i` on. -/
def readEntries : ℕ → State → List MatchingAdData → Option State
  | _, s, [] => some s
  | i, s, entry :: entries => do
    let s ← readEntry i s entry
    readEntries (i + 1) s entries

/-- `GoogleAdapter::ToCom` for the entries of the first ad slot, after `Init`. -/
def toCom (matchingAdData : List MatchingAdData) : Option State :=
  readEntries 0 ⟨0, 0, false⟩ matchingAdData

/-! ## The floor -/

/-- The floor of the last rule with one, up to a blocked first rule. -/
def rulesFloor (rules : List BuyerPricingRule) : Option ℤ :=
  if rules.head?.bind BuyerPricingRule.blocked = some true then none
  else (rules.filterMap BuyerPricingRule.minimumCpmMicros).getLast?.map toCents

/-- The floor that an entry sets, if it does. -/
def MatchingAdData.floor (entry : MatchingAdData) : Option ℤ :=
  (rulesFloor entry.pricingRule).or (entry.minimumCpmMicros.map toCents)

/-- The floor of the last entry with one. -/
def lastFloor (entries : List MatchingAdData) : ℤ :=
  (entries.filterMap MatchingAdData.floor).getLast?.getD 0

section

variable {i : ℕ} {s s' : State} {entry : MatchingAdData} {entries : List MatchingAdData}

/-- The rules do not change the billing id. -/
theorem readRules_billingId (deals : List (Option ℕ)) (first : Bool)
    (rules : List BuyerPricingRule) :
    (readRules deals first s rules).billingId = s.billingId := by
  induction rules generalizing first s with
  | nil => rfl
  | cons rule rules ih =>
    rw [readRules]
    split_ifs
    · rfl
    · exact ih false

/-- Behind the first rule none is left out. -/
theorem readRules_false (deals : List (Option ℕ)) (rules : List BuyerPricingRule) :
    (readRules deals false s rules).bidfloor =
      ((rules.filterMap BuyerPricingRule.minimumCpmMicros).getLast?.map toCents).getD
        s.bidfloor := by
  induction rules generalizing s with
  | nil => rfl
  | cons rule rules ih =>
    rw [readRules, if_neg (by simp), ih]
    cases hmin : rule.minimumCpmMicros with
    | none => rw [List.filterMap_cons_none hmin]; rfl
    | some micros =>
      rw [List.filterMap_cons_some hmin, List.getLast?_cons]
      cases (rules.filterMap BuyerPricingRule.minimumCpmMicros).getLast? <;> rfl

/-- The rules of the first deal set the floor. -/
theorem readRules_bidfloor (deals : List (Option ℕ)) (rules : List BuyerPricingRule) :
    (readRules deals true s rules).bidfloor = (rulesFloor rules).getD s.bidfloor := by
  cases rules with
  | nil => rfl
  | cons rule rules =>
    unfold rulesFloor
    rw [readRules, List.head?_cons, Option.bind_some]
    by_cases hblocked : rule.blocked = some true
    · rw [if_pos ⟨hblocked, rfl⟩, if_pos hblocked]
      rfl
    · rw [if_neg fun h => hblocked h.1, if_neg hblocked, readRules_false]
      cases hmin : rule.minimumCpmMicros with
      | none => rw [List.filterMap_cons_none hmin]; rfl
      | some micros =>
        rw [List.filterMap_cons_some hmin, List.getLast?_cons]
        cases (rules.filterMap BuyerPricingRule.minimumCpmMicros).getLast? <;> rfl

/-- The vector is read inside exactly if it is empty or long enough. -/
theorem isSome_readEntry_iff :
    (readEntry i s entry).isSome ↔ (entry.billingId ≠ [] → i < entry.billingId.length) := by
  unfold readEntry readBillingId
  by_cases hnil : entry.billingId = []
  · rw [hnil]
    exact iff_of_true rfl fun hne => absurd rfl hne
  · rw [if_pos (List.length_pos_iff.mpr hnil)]
    by_cases hi : i < entry.billingId.length
    · rw [List.getElem?_eq_getElem hi]
      exact iff_of_true rfl fun _ => hi
    · rw [List.getElem?_eq_none (by omega)]
      exact iff_of_false nofun fun h => hi (h hnil)

/-- What one entry does. -/
theorem readEntry_spec (h : readEntry i s entry = some s') :
    s'.bidfloor = entry.floor.getD s.bidfloor ∧
      (entry.billingId = [] → s'.billingId = s.billingId) ∧
        (entry.billingId ≠ [] → s'.billingId ∈ entry.billingId.map toUInt64) := by
  obtain ⟨id, hid, rfl⟩ := Option.map_eq_some_iff.mp h
  unfold readBillingId at hid
  rw [readRules_bidfloor, readRules_billingId]
  refine ⟨?_, fun hnil => ?_, fun hne => ?_⟩
  · unfold MatchingAdData.floor
    cases rulesFloor entry.pricingRule <;> cases entry.minimumCpmMicros <;> rfl
  · rw [hnil] at hid
    exact (Option.some.inj hid).symm
  · rw [if_pos (List.length_pos_iff.mpr hne), Option.map_eq_some_iff] at hid
    obtain ⟨value, hvalue, rfl⟩ := hid
    exact List.mem_map_of_mem (List.mem_of_getElem? hvalue)

/-- All reads are inside exactly if each vector that is not empty is longer than the number of its
entry. -/
theorem isSome_readEntries_iff : (readEntries i s entries).isSome ↔
    ∀ (k : ℕ) (entry : MatchingAdData), entries[k]? = some entry → entry.billingId ≠ [] →
      i + k < entry.billingId.length := by
  induction entries generalizing i s with
  | nil => exact iff_of_true rfl fun k entry h => absurd h (by simp)
  | cons entry entries ih =>
    have hsplit : (∀ k e, (entry :: entries)[k]? = some e → e.billingId ≠ [] →
        i + k < e.billingId.length) ↔
      (entry.billingId ≠ [] → i < entry.billingId.length) ∧
        ∀ k e, entries[k]? = some e → e.billingId ≠ [] → i + 1 + k < e.billingId.length := by
      constructor
      · intro h
        refine ⟨h 0 entry rfl, fun k e hk hne => ?_⟩
        have := h (k + 1) e hk hne
        omega
      · rintro ⟨hfirst, hrest⟩ k e hk hne
        cases k with
        | zero =>
          obtain rfl := Option.some.inj hk
          exact hfirst hne
        | succ k =>
          have := hrest k e hk hne
          omega
    rw [hsplit, ← @isSome_readEntry_iff i s entry, readEntries]
    cases hread : readEntry i s entry with
    | none => exact iff_of_false nofun fun h => absurd h.1 nofun
    | some t => exact ih.trans (and_iff_right rfl).symm

/-- What the run leaves: the floor of the last entry with one, and an id of the last entry with
ids. -/
theorem readEntries_spec (h : readEntries i s entries = some s') :
    s'.bidfloor = (entries.filterMap MatchingAdData.floor).getLast?.getD s.bidfloor ∧
      ((∀ e ∈ entries, e.billingId = []) → s'.billingId = s.billingId) ∧
        ∀ pre entry post, entries = pre ++ entry :: post → entry.billingId ≠ [] →
          (∀ e ∈ post, e.billingId = []) → s'.billingId ∈ entry.billingId.map toUInt64 := by
  -- by induction over the entries, of which each may overwrite the floor and the id
  induction entries generalizing i s with
  | nil =>
    obtain rfl := Option.some.inj h
    exact ⟨rfl, fun _ => rfl, fun pre entry post h => absurd h.symm (by simp)⟩
  | cons first entries ih =>
    obtain ⟨t, ht, h⟩ := Option.bind_eq_some_iff.mp h
    obtain ⟨hfloor, hnone, hsome⟩ := readEntry_spec ht
    obtain ⟨ihfloor, ihnone, ihsome⟩ := ih h
    refine ⟨?_, fun hall => ?_, fun pre entry post heq hne hpost => ?_⟩
    · rw [ihfloor, hfloor]
      cases hfirst : first.floor with
      | none => rw [List.filterMap_cons_none hfirst]; rfl
      | some floor =>
        rw [List.filterMap_cons_some hfirst, List.getLast?_cons]
        cases (entries.filterMap MatchingAdData.floor).getLast? <;> rfl
    · obtain ⟨hfirst, hrest⟩ := List.forall_mem_cons.mp hall
      rw [ihnone hrest, hnone hfirst]
    -- the last entry with ids is the first one, or is in the rest
    · cases pre with
      | nil =>
        obtain ⟨rfl, rfl⟩ := List.cons.inj heq
        rw [ihnone hpost]
        exact hsome hne
      | cons _ pre =>
        obtain ⟨rfl, rfl⟩ := List.cons.inj heq
        exact ihsome pre entry post rfl hne hpost

end

/-! ## The ad slot -/

/-- The reads are inside; and where an entry has billing ids, the last such entry has given the id
and the floor. -/
def Meets (matchingAdData : List MatchingAdData) : Prop :=
  ∃ s, toCom matchingAdData = some s ∧
    ∀ pre entry post, matchingAdData = pre ++ entry :: post → entry.billingId ≠ [] →
      (∀ e ∈ post, e.billingId = []) →
        s.billingId ∈ entry.billingId.map toUInt64 ∧ s.bidfloor = entry.floor.getD 0

/-- Each entry with billing ids has more of them than there are entries before it, and the last
floor is the one of the last entry with ids. -/
theorem toCom_iff (matchingAdData : List MatchingAdData) :
    Meets matchingAdData ↔
      (∀ (i : ℕ) (entry : MatchingAdData), matchingAdData[i]? = some entry →
        entry.billingId ≠ [] → i < entry.billingId.length) ∧
      ∀ pre entry post, matchingAdData = pre ++ entry :: post → entry.billingId ≠ [] →
        (∀ e ∈ post, e.billingId = []) → lastFloor matchingAdData = entry.floor.getD 0 := by
  have hinside := @isSome_readEntries_iff 0 ⟨0, 0, false⟩ matchingAdData
  simp only [Nat.zero_add] at hinside
  rw [← hinside]
  constructor
  · rintro ⟨s, hs, hlast⟩
    refine ⟨Option.isSome_of_eq_some hs, fun pre entry post heq hne hpost => ?_⟩
    rw [← (hlast pre entry post heq hne hpost).2]
    exact (readEntries_spec hs).1.symm
  · rintro ⟨hsome, hfloor⟩
    obtain ⟨s, hs⟩ := Option.isSome_iff_exists.mp hsome
    obtain ⟨hlast, -, hid⟩ := readEntries_spec hs
    refine ⟨s, hs, fun pre entry post heq hne hpost => ⟨hid pre entry post heq hne hpost, ?_⟩⟩
    rw [← hfloor pre entry post heq hne hpost]
    exact hlast

/-- Two entries with a billing id and a floor each. -/
theorem second_entry_outside : ¬Meets [⟨[7], some 500000, [], []⟩, ⟨[8], some 600000, [], []⟩] := by
  rintro ⟨s, hs, -⟩
  cases hs

end AdxDsp.GoogleBilling
