import AdxDsp.Bid.Filter
import AdxDsp.Bid.Inventory

/-!
# The price of a creative

`CreativeInfo::GetPrice` (`ad_element.cpp`) looks for a price in a `std::map` whose keys have an
app, a region code and an exchange: first for the exchange and the app, then for all apps, then for
all exchanges, and each time with less and less of the region code.

* `lt_strictOrder`, `eq_of_not_lt`: the operator `<` of the keys is a strict total order, so that
  the map finds the entries that it has.
* `PriceMap.getPrice_mostSpecific`: the price is that of the most specific entry that matches.
* `PriceMap.getPrice_eq`: it is the price that the filters of the bidder work with.
-/

namespace AdxDsp

open CText Inventory

/-! ## The order of the keys -/

namespace Inventory.PriceFactor

/-- The order: the app, then the region, then the exchange. -/
theorem lt_iff {p q : PriceFactor} :
    lt p q = true ↔ p.app < q.app ∨ (p.app = q.app ∧
      (p.regcode < q.regcode ∨ (p.regcode = q.regcode ∧ p.adx < q.adx))) := by
  simp only [lt, Bool.or_eq_true, Bool.and_eq_true, decide_eq_true_iff]
  tauto

/-- It is a strict order. -/
theorem lt_strictOrder : SetTree.StrictOrder lt where
  irrefl p := by
    refine eq_false_of_ne_true fun h => ?_
    rcases lt_iff.mp h with h | ⟨-, h | ⟨-, h⟩⟩
    · exact List.lt_irrefl _ h
    · exact lt_irrefl _ h
    · exact lt_irrefl _ h
  trans := by
    intro p q r hpq hqr
    rw [lt_iff] at hpq hqr ⊢
    rcases hpq with hpq | ⟨happ, hpq⟩
    · left
      rcases hqr with hqr | ⟨happ, -⟩
      · exact List.lt_trans hpq hqr
      · exact happ ▸ hpq
    · rcases hqr with hqr | ⟨happ', hqr⟩
      · exact .inl (happ ▸ hqr)
      · refine .inr ⟨happ.trans happ', ?_⟩
        omega

/-- Keys of which none comes before the other are equal. -/
theorem eq_of_not_lt (p q : PriceFactor) (hpq : lt p q = false) (hqp : lt q p = false) : p = q := by
  have hpq := mt lt_iff.mpr (Bool.eq_false_iff.mp hpq)
  have hqp := mt lt_iff.mpr (Bool.eq_false_iff.mp hqp)
  rw [not_or] at hpq hqp
  have happ : p.app = q.app :=
    List.le_antisymm (List.not_lt.mp hqp.1) (List.not_lt.mp hpq.1)
  have hpq := not_and.mp hpq.2 happ
  have hqp := not_and.mp hqp.2 happ.symm
  obtain ⟨app, regcode, adx⟩ := p
  obtain ⟨app', regcode', adx'⟩ := q
  dsimp only at happ hpq hqp
  rw [PriceFactor.mk.injEq]
  refine ⟨happ, ?_⟩
  omega

end Inventory.PriceFactor

/-! ## The table -/

/-- A price table in memory: a search tree whose keys are in their order. -/
structure PriceMap where
  tree : SetTree (PriceFactor × ℤ)
  sorted : tree.toList.Pairwise fun a b => PriceFactor.lt a.1 b.1 = true

/-- The tables that are read from redis are in order. -/
theorem pairwise_addPrices (reply : List Bytes) {price : List (PriceFactor × ℤ)}
    (h : price.Pairwise fun a b => PriceFactor.lt a.1 b.1 = true) :
    (addPrices reply price).Pairwise fun a b => PriceFactor.lt a.1 b.1 = true := by
  induction reply, price using addPrices.induct with
  | case1 factor val rest price hparse ih =>
    rw [addPrices, hparse]
    exact ih h
  | case2 factor val rest price f hparse ih =>
    rw [addPrices, hparse]
    have htrans : ∀ a b c, PriceFactor.lt a b = true → PriceFactor.lt b c = true →
        PriceFactor.lt a c = true := fun _ _ _ => PriceFactor.lt_strictOrder.trans
    exact ih (CmpMap.pairwise_assign htrans h)
  | case3 reply price hreply =>
    rw [addPrices]
    · exact h
    · exact hreply

namespace PriceMap

variable (price : PriceMap) (adx : ℤ) (app : Bytes) (regcode : ℤ)

/-- `price.find` -/
def find (factor : PriceFactor) : Option ℤ := price.tree.findValue PriceFactor.lt factor

/-- `CreativeInfo::GetPriceAdjustRegcode`; a code with less precision that is the whole code is not
looked for again. -/
def getPriceAdjustRegcode : Option ℤ :=
  (CreativeInfo.adjustedRegcodes regcode).findSome? fun code => price.find ⟨cstr app, code, adx⟩

/-- `CreativeInfo::GetPrice`. -/
def getPrice : ℤ :=
  ((price.getPriceAdjustRegcode adx app regcode).or
    ((price.getPriceAdjustRegcode adx (bytes "all") regcode).or
      ((price.getPriceAdjustRegcode 0 app regcode).or
        (price.getPriceAdjustRegcode 0 (bytes "all") regcode)))).getD 0

variable {price adx app regcode}

/-- A price is found just if the table has it. -/
theorem find_eq_some_iff {factor : PriceFactor} {val : ℤ} :
    price.find factor = some val ↔ (factor, val) ∈ price.tree.toList :=
  SetTree.findValue_eq_some_iff PriceFactor.lt_strictOrder PriceFactor.eq_of_not_lt price.sorted

/-- No price is found just if the table has none. -/
theorem find_eq_none_iff {factor : PriceFactor} :
    price.find factor = none ↔ ∀ val, (factor, val) ∉ price.tree.toList := by
  simp only [← find_eq_some_iff, Option.eq_none_iff_forall_ne_some, ne_eq]

/-- In a table that is a list of entries in order, the filters find what the search tree finds. -/
theorem lookup_eq_find (factor : PriceFactor) :
    price.tree.toList.lookup factor = price.find factor := by
  -- a key has one entry
  have hone : ∀ {l : List (PriceFactor × ℤ)},
      (l.Pairwise fun a b => PriceFactor.lt a.1 b.1 = true) → ∀ val,
        l.lookup factor = some val ↔ (factor, val) ∈ l := by
    intro l hl val
    induction l with
    | nil => simp
    | cons e l ih =>
      obtain ⟨k, v⟩ := e
      obtain ⟨hfirst, hl'⟩ := List.pairwise_cons.mp hl
      rw [List.mem_cons, ← ih hl', Prod.mk.injEq, List.lookup_cons]
      by_cases hk : factor = k
      · subst hk
        have hnone : (factor, val) ∉ l := fun hmem => Bool.false_ne_true
          ((PriceFactor.lt_strictOrder.irrefl factor).symm.trans (hfirst (factor, val) hmem))
        rw [ih hl', or_iff_left hnone]
        simp [eq_comm]
      · have hbeq : (factor == k) = false := beq_false_of_ne hk
        rw [hbeq]
        simp [hk]
  apply Option.ext
  intro val
  rw [hone price.sorted, find_eq_some_iff]

/-- It is the price that the filters of the bidder work with. -/
theorem getPrice_eq {c : CreativeInfo} (hc : c.price = price.tree.toList) :
    c.getPrice adx app regcode = price.getPrice adx app regcode := by
  have hadjust : ∀ adx app,
      c.getPriceAdjustRegcode adx app regcode = price.getPriceAdjustRegcode adx app regcode := by
    intro adx app
    unfold CreativeInfo.getPriceAdjustRegcode getPriceAdjustRegcode
    simp only [hc, lookup_eq_find]
  unfold CreativeInfo.getPrice getPrice
  rw [hadjust, hadjust, hadjust, hadjust]

/-! ## The most specific entry -/

/-- A region code with its last decimal digits zeroed. -/
def zeroed (regcode : ℤ) (digits : ℕ) : ℤ := regcode - regcode.tmod (10 ^ digits)

/-- The region codes that cover a region, the most specific one first. -/
def precisions (regcode : ℤ) : Fin 5 → ℤ :=
  ![regcode, zeroed regcode 2, zeroed regcode 4, zeroed regcode 6, 0]

/-- The exchanges and apps that an entry may be for, the most specific ones first. -/
def origins (adx : ℤ) (app : Bytes) : Fin 4 → ℤ × Bytes :=
  ![(adx, app), (adx, bytes "all"), (0, app), (0, bytes "all")]

/-- An entry is for an exchange and an app, and for a region of a precision. -/
def MatchesAt (adx : ℤ) (app : Bytes) (regcode : ℤ) (i : Fin 4) (j : Fin 5)
    (factor : PriceFactor) : Prop :=
  factor = ⟨(origins adx app i).2, precisions regcode j, (origins adx app i).1⟩

/-- The price of the most specific entry that matches, 0 if there is none. -/
def MostSpecific (price : PriceMap) (adx : ℤ) (app : Bytes) (regcode val : ℤ) : Prop :=
  (∃ i j factor, (factor, val) ∈ price.tree.toList ∧ MatchesAt adx app regcode i j factor ∧
      ∀ i' j', ∀ e ∈ price.tree.toList, MatchesAt adx app regcode i' j' e.1 →
        i < i' ∨ (i = i' ∧ j ≤ j')) ∨
    ((∀ i j, ∀ e ∈ price.tree.toList, ¬MatchesAt adx app regcode i j e.1) ∧ val = 0)

/-- The last digits of a region are zeroed. -/
theorem zeroed_eq (regcode : ℤ) (digits : ℕ) :
    zeroed regcode digits = regcode.tdiv (10 ^ digits) * 10 ^ digits := by
  have h := Int.mul_tdiv_add_tmod regcode (10 ^ digits)
  unfold zeroed
  rw [mul_comm]
  omega

/-- The codes are looked for in the order of their precision. -/
theorem getPriceAdjustRegcode_eq :
    price.getPriceAdjustRegcode adx app regcode =
      Fin.findSome? fun j => price.find ⟨cstr app, precisions regcode j, adx⟩ := by
  -- what is left out is the whole code, which was not found
  have hfilter : ∀ {f : ℤ → Option ℤ} {codes : List ℤ}, f regcode = none →
      (codes.filter (· ≠ regcode)).findSome? f = codes.findSome? f := by
    intro f codes hnone
    induction codes with
    | nil => rfl
    | cons code codes ih =>
      rw [List.findSome?_cons]
      by_cases hcode : code = regcode
      · subst hcode
        rw [hnone, List.filter_cons_of_neg (by simp), ih]
      · rw [List.filter_cons_of_pos (by simpa using hcode), List.findSome?_cons, ih]
  have hcodes : ∀ f : ℤ → Option ℤ, (CreativeInfo.adjustedRegcodes regcode).findSome? f =
      [regcode, zeroed regcode 2, zeroed regcode 4, zeroed regcode 6, 0].findSome? f := by
    intro f
    rw [CreativeInfo.adjustedRegcodes, List.findSome?_cons, List.findSome?_cons,
      zeroed_eq, zeroed_eq, zeroed_eq]
    cases hf : f regcode with
    | none => exact hfilter hf
    | some val => rfl
  unfold getPriceAdjustRegcode
  rw [hcodes]
  have hor : ∀ (f : ℤ → Option ℤ) code codes,
      (code :: codes).findSome? f = (f code).or (codes.findSome? f) := by
    intro f code codes
    rw [List.findSome?_cons]
    cases f code <;> rfl
  rw [hor, hor, hor, hor, hor, Fin.findSome?_succ, Fin.findSome?_succ, Fin.findSome?_succ,
    Fin.findSome?_succ, Fin.findSome?_succ]
  rfl

/-- So are the exchanges and apps. -/
theorem getPrice_eq_findSome :
    price.getPrice adx app regcode = ((Fin.findSome? fun i => Fin.findSome? fun j =>
      price.find ⟨(origins adx (cstr app) i).2, precisions regcode j,
        (origins adx (cstr app) i).1⟩).getD 0) := by
  have hall : cstr (bytes "all") = bytes "all" := by decide
  have hfour : ∀ f : Fin 4 → Option ℤ,
      Fin.findSome? f = (f 0).or ((f 1).or ((f 2).or (f 3))) := by
    intro f
    rw [Fin.findSome?_succ, Fin.findSome?_succ, Fin.findSome?_succ, Fin.findSome?_succ,
      Fin.findSome?_zero, Option.or_none]
    rfl
  unfold getPrice
  rw [getPriceAdjustRegcode_eq, getPriceAdjustRegcode_eq, getPriceAdjustRegcode_eq,
    getPriceAdjustRegcode_eq, hall, hfour]
  rfl

variable (price adx app regcode)

/-- The price is that of the most specific entry that matches; the name of the app ends at its first
NUL. -/
theorem getPrice_mostSpecific :
    MostSpecific price adx (cstr app) regcode (price.getPrice adx app regcode) := by
  rw [getPrice_eq_findSome]
  cases hfind : Fin.findSome? fun i => Fin.findSome? fun j => price.find
      ⟨(origins adx (cstr app) i).2, precisions regcode j, (origins adx (cstr app) i).1⟩ with
  | none =>
    right
    refine ⟨fun i j e he hmatch => ?_, rfl⟩
    have hnone := Fin.findSome?_eq_none_iff.mp (Fin.findSome?_eq_none_iff.mp hfind i) j
    obtain ⟨factor, val⟩ := e
    obtain rfl := hmatch
    exact find_eq_none_iff.mp hnone val he
  | some val =>
    left
    obtain ⟨i, hi, hbefore⟩ := Fin.findSome?_eq_some_iff.mp hfind
    obtain ⟨j, hj, hbefore'⟩ := Fin.findSome?_eq_some_iff.mp hi
    refine ⟨i, j, _, find_eq_some_iff.mp hj, rfl, ?_⟩
    rintro i' j' ⟨factor, val'⟩ he hmatch
    obtain rfl := hmatch
    -- an earlier place has no entry
    rcases lt_trichotomy i i' with hlt | rfl | hlt
    · exact .inl hlt
    · refine .inr ⟨rfl, not_lt.mp fun hlt => ?_⟩
      exact find_eq_none_iff.mp (hbefore' j' hlt) val' he
    · have hnone := Fin.findSome?_eq_none_iff.mp (hbefore i' hlt) j'
      exact absurd he (find_eq_none_iff.mp hnone val')

end PriceMap

end AdxDsp
