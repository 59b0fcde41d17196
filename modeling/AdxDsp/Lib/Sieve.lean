import Mathlib

/-!
# Erasing while iterating

A map from keys to sets is a list of its entries, and a loop erases the elements of the sets that a
step refuses, and the entries whose sets get empty.  The step may remember what it has found, as
long as that never changes its answers.

* `mem_sieve`: what one set keeps.
* `pairs_sieveEach`: what a map keeps.
* `visitsEach`: in which states the step is applied, whether or not its answers change.
-/

namespace Sieve

variable {κ α σ : Type}

/-! ## Sets -/

/-- Erase what the step refuses; the step changes its state. -/
def sieve (step : σ → α → Bool × σ) : List α → σ → List α × σ
  | [], s => ([], s)
  | x :: xs, s =>
    let rest := sieve step xs (step s x).2
    (if (step s x).1 then x :: rest.1 else rest.1, rest.2)

/-- The step answers with `P`, and keeps the invariant. -/
def Answers (I : σ → Prop) (P : α → Prop) (step : σ → α → Bool × σ) (x : α) : Prop :=
  ∀ s, I s → ((step s x).1 = true ↔ P x) ∧ I (step s x).2

/-- A sieve whose step answers with `P` keeps the elements with `P`. -/
theorem mem_sieve {I : σ → Prop} {P : α → Prop} {step : σ → α → Bool × σ} {xs : List α}
    (hstep : ∀ x ∈ xs, Answers I P step x) {s : σ} (hs : I s) :
    (∀ y, y ∈ (sieve step xs s).1 ↔ y ∈ xs ∧ P y) ∧ I (sieve step xs s).2 := by
  induction xs generalizing s with
  | nil => exact ⟨by simp [sieve], hs⟩
  | cons x xs ih =>
    obtain ⟨hx, hxs⟩ := List.forall_mem_cons.mp hstep
    obtain ⟨hanswer, hI⟩ := hx s hs
    obtain ⟨hmem, hrest⟩ := ih hxs hI
    refine ⟨fun y => ?_, hrest⟩
    show y ∈ (if (step s x).1 then x :: (sieve step xs (step s x).2).1
      else (sieve step xs (step s x).2).1) ↔ y ∈ x :: xs ∧ P y
    split_ifs with h
    · have hP := hanswer.mp h
      rw [List.mem_cons, hmem, List.mem_cons, or_and_right]
      refine or_congr_left ⟨?_, And.left⟩
      rintro rfl
      exact ⟨rfl, hP⟩
    · have hP : ¬P x := fun hP => h (hanswer.mpr hP)
      rw [hmem, List.mem_cons, or_and_right, iff_or_self]
      rintro ⟨rfl, hy⟩
      exact absurd hy hP

/-! ## Maps of sets -/

/-- The element is in the set of the key. -/
def Pairs (m : List (κ × List α)) (k : κ) (x : α) : Prop := ∃ xs, (k, xs) ∈ m ∧ x ∈ xs

/-- A map without keys has no pairs. -/
@[simp] theorem pairs_nil (k : κ) (x : α) : ¬Pairs [] k x := by
  rintro ⟨xs, h, -⟩
  exact absurd h List.not_mem_nil

/-- The pairs of a map, by its first key. -/
@[simp] theorem pairs_cons (k₀ : κ) (xs : List α) (m : List (κ × List α)) (k : κ) (x : α) :
    Pairs ((k₀, xs) :: m) k x ↔ k = k₀ ∧ x ∈ xs ∨ Pairs m k x := by
  simp only [Pairs, List.mem_cons, Prod.mk.injEq, or_and_right, exists_or]
  refine or_congr_left ⟨?_, ?_⟩
  · rintro ⟨_, ⟨hk, rfl⟩, hx⟩
    exact ⟨hk, hx⟩
  · rintro ⟨hk, hx⟩
    exact ⟨xs, ⟨hk, rfl⟩, hx⟩

/-- Every entry has an element. -/
def NoEmpty (m : List (κ × List α)) : Prop := ∀ e ∈ m, e.2 ≠ []

/-- A map whose entries have elements is empty if it has no pairs. -/
theorem NoEmpty.eq_nil_iff {m : List (κ × List α)} (h : NoEmpty m) :
    m = [] ↔ ∀ k x, ¬Pairs m k x := by
  constructor
  · rintro rfl k x
    exact pairs_nil k x
  · intro hno
    rw [List.eq_nil_iff_forall_not_mem]
    rintro ⟨k, xs⟩ he
    obtain ⟨x, hx⟩ := List.exists_mem_of_ne_nil xs (h _ he)
    exact hno k x ⟨xs, he, hx⟩

/-- Sieve the sets of a map one after the other, and erase the entries that get empty. -/
def sieveEach (step : κ → σ → α → Bool × σ) : List (κ × List α) → σ → List (κ × List α) × σ
  | [], s => ([], s)
  | (k, xs) :: m, s =>
    let kept := sieve (step k) xs s
    let rest := sieveEach step m kept.2
    (if kept.1 = [] then rest.1 else (k, kept.1) :: rest.1, rest.2)

/-- A map keeps the pairs with `P`, and no empty entries. -/
theorem pairs_sieveEach {I : σ → Prop} {P : κ → α → Prop} {step : κ → σ → α → Bool × σ}
    {m : List (κ × List α)} (hstep : ∀ k x, Pairs m k x → Answers I (P k) (step k) x) {s : σ}
    (hs : I s) :
    (∀ k x, Pairs (sieveEach step m s).1 k x ↔ Pairs m k x ∧ P k x) ∧
      NoEmpty (sieveEach step m s).1 := by
  induction m generalizing s with
  | nil => exact ⟨by simp [sieveEach], by simp [sieveEach, NoEmpty]⟩
  | cons e m ih =>
    obtain ⟨k₀, xs⟩ := e
    obtain ⟨hmem, hI⟩ := mem_sieve (fun x hx => hstep k₀ x ⟨xs, List.mem_cons_self, hx⟩) hs
    have hrest : ∀ k x, Pairs m k x → Answers I (P k) (step k) x := fun k x h =>
      hstep k x ((pairs_cons k₀ xs m k x).mpr (.inr h))
    obtain ⟨hpairs, hfull⟩ := ih hrest hI
    rw [sieveEach]
    split_ifs with hempty
    · refine ⟨fun k x => ?_, hfull⟩
      -- what is erased had no element with `P`
      have hnone : ∀ y, ¬(y ∈ xs ∧ P k₀ y) := by
        intro y hy
        rw [← hmem, hempty] at hy
        exact absurd hy List.not_mem_nil
      rw [hpairs, pairs_cons, or_and_right, iff_or_self]
      rintro ⟨⟨rfl, hx⟩, hP⟩
      exact absurd ⟨hx, hP⟩ (hnone x)
    · refine ⟨fun k x => ?_, List.forall_mem_cons.mpr ⟨hempty, hfull⟩⟩
      rw [pairs_cons, hpairs, pairs_cons, hmem, or_and_right, and_assoc]
      refine or_congr_left (and_congr_right ?_)
      rintro rfl
      exact Iff.rfl

/-! ## Visits -/

/-- The elements with the states in which the step is applied to them. -/
def visits (step : σ → α → Bool × σ) : List α → σ → List (α × σ)
  | [], _ => []
  | x :: xs, s => (x, s) :: visits step xs (step s x).2

/-- The pairs of a map with the states in which the step is applied to them. -/
def visitsEach (step : κ → σ → α → Bool × σ) : List (κ × List α) → σ → List (κ × α × σ)
  | [], _ => []
  | (k, xs) :: m, s =>
    (visits (step k) xs s).map (fun v => (k, v)) ++ visitsEach step m (sieve (step k) xs s).2

/-- A sieve keeps the elements that the step lets pass when it visits them. -/
theorem sieve_eq_visits (step : σ → α → Bool × σ) (xs : List α) (s : σ) :
    (sieve step xs s).1 = ((visits step xs s).filter fun v => (step v.2 v.1).1).map Prod.fst := by
  induction xs generalizing s with
  | nil => rfl
  | cons x xs ih =>
    rw [sieve, visits, List.filter_cons, ih]
    split_ifs <;> simp

/-- Every element is visited once, in its order. -/
theorem map_visits (step : σ → α → Bool × σ) (xs : List α) (s : σ) :
    (visits step xs s).map Prod.fst = xs := by
  induction xs generalizing s with
  | nil => rfl
  | cons x xs ih => rw [visits, List.map_cons, ih]

/-- Every pair is visited, and nothing else. -/
theorem pairs_iff_visited {step : κ → σ → α → Bool × σ} {m : List (κ × List α)} {s : σ} {k : κ}
    {x : α} : Pairs m k x ↔ ∃ t, (k, x, t) ∈ visitsEach step m s := by
  induction m generalizing s with
  | nil => simp [visitsEach]
  | cons e m ih =>
    obtain ⟨k₀, xs⟩ := e
    have hxs : x ∈ xs ↔ ∃ t, (x, t) ∈ visits (step k₀) xs s := by
      conv_lhs => rw [← map_visits (step k₀) xs s]
      simp
    rw [pairs_cons, hxs, ih, visitsEach]
    simp only [List.mem_append, List.mem_map, Prod.mk.injEq, exists_or]
    refine or_congr_left ⟨?_, ?_⟩
    · rintro ⟨rfl, t, ht⟩
      exact ⟨t, (x, t), ht, rfl, rfl⟩
    · rintro ⟨t, v, hv, rfl, rfl⟩
      exact ⟨rfl, t, hv⟩

/-- A map keeps the pairs that the step lets pass at a visit. -/
theorem pairs_sieveEach_iff_visited {step : κ → σ → α → Bool × σ} {m : List (κ × List α)} {s : σ}
    {k : κ} {x : α} : Pairs (sieveEach step m s).1 k x ↔
      ∃ t, (k, x, t) ∈ visitsEach step m s ∧ (step k t x).1 = true := by
  induction m generalizing s with
  | nil => simp [visitsEach, sieveEach]
  | cons e m ih =>
    obtain ⟨k₀, xs⟩ := e
    have hkept : Pairs (sieveEach step ((k₀, xs) :: m) s).1 k x ↔
        k = k₀ ∧ x ∈ (sieve (step k₀) xs s).1 ∨
          Pairs (sieveEach step m (sieve (step k₀) xs s).2).1 k x := by
      rw [sieveEach]
      split_ifs with hempty
      · -- an entry that gets empty is erased
        simp [hempty]
      · exact pairs_cons ..
    rw [hkept, ih, visitsEach, sieve_eq_visits]
    simp only [List.mem_append, List.mem_map, List.mem_filter, or_and_right, exists_or]
    refine or_congr_left ⟨?_, ?_⟩
    · rintro ⟨rfl, v, ⟨hv, hpass⟩, rfl⟩
      exact ⟨v.2, ⟨v, hv, rfl⟩, hpass⟩
    · rintro ⟨t, ⟨v, hv, heq⟩, hpass⟩
      cases heq
      exact ⟨rfl, (x, t), ⟨hv, hpass⟩, rfl⟩

/-- What the steps keep holds at every visit and at the end. -/
theorem visits_keep {I : σ → Prop} {step : σ → α → Bool × σ} {xs : List α}
    (hstep : ∀ x ∈ xs, ∀ s, I s → I (step s x).2) {s : σ} (hs : I s) :
    (∀ v ∈ visits step xs s, I v.2) ∧ I (sieve step xs s).2 := by
  induction xs generalizing s with
  | nil => exact ⟨by simp [visits], hs⟩
  | cons x xs ih =>
    obtain ⟨hx, hxs⟩ := List.forall_mem_cons.mp hstep
    obtain ⟨hrest, hend⟩ := ih hxs (hx s hs)
    exact ⟨List.forall_mem_cons.mpr ⟨hs, hrest⟩, hend⟩

/-- An invariant that every visit keeps holds at each visit and at the end. -/
theorem visitsEach_keep {I : σ → Prop} {step : κ → σ → α → Bool × σ} {m : List (κ × List α)}
    (hstep : ∀ k x, Pairs m k x → ∀ s, I s → I (step k s x).2) {s : σ} (hs : I s) :
    (∀ v ∈ visitsEach step m s, I v.2.2) ∧ I (sieveEach step m s).2 := by
  induction m generalizing s with
  | nil => exact ⟨by simp [visitsEach], hs⟩
  | cons e m ih =>
    obtain ⟨k₀, xs⟩ := e
    have hset₀ : ∀ x ∈ xs, ∀ s, I s → I (step k₀ s x).2 := fun x hx =>
      hstep k₀ x ((pairs_cons ..).mpr (.inl ⟨rfl, hx⟩))
    obtain ⟨hset, hI⟩ := visits_keep hset₀ hs
    obtain ⟨hrest, hend⟩ := ih (fun k x h => hstep k x ((pairs_cons ..).mpr (.inr h))) hI
    refine ⟨?_, hend⟩
    intro v hv
    rcases List.mem_append.mp hv with h | h
    · obtain ⟨u, hu, rfl⟩ := List.mem_map.mp h
      exact hset u hu
    · exact hrest v h

/-- What every step keeps, and holds after a visit, holds at the end. -/
theorem visits_stay {Q : σ → Prop} {step : σ → α → Bool × σ} {xs : List α}
    (hstep : ∀ x s, Q s → Q (step s x).2) {s : σ} {v : α × σ} (hv : v ∈ visits step xs s)
    (h : Q (step v.2 v.1).2) : Q (sieve step xs s).2 := by
  induction xs generalizing s with
  | nil => cases hv
  | cons x xs ih =>
    rcases List.mem_cons.mp hv with rfl | hv
    · -- the later steps keep it
      exact (visits_keep (fun x _ => hstep x) h).2
    · exact ih hv

/-- What holds after one visit and is kept by all holds at the end. -/
theorem visitsEach_stay {Q : σ → Prop} {step : κ → σ → α → Bool × σ} {m : List (κ × List α)}
    (hstep : ∀ k x s, Q s → Q (step k s x).2) {s t : σ} {k : κ} {x : α}
    (hv : (k, x, t) ∈ visitsEach step m s) (h : Q (step k t x).2) : Q (sieveEach step m s).2 := by
  induction m generalizing s with
  | nil => cases hv
  | cons e m ih =>
    obtain ⟨k₀, xs⟩ := e
    rcases List.mem_append.mp hv with hv | hv
    · obtain ⟨v, hv, heq⟩ := List.mem_map.mp hv
      cases heq
      exact (visitsEach_keep (fun k x _ => hstep k x) (visits_stay (hstep k) hv h)).2
    · exact ih hv

/-! ## Filters -/

/-- Filter the sets of a map, and erase the entries that get empty. -/
def filterEach (p : κ → α → Bool) (m : List (κ × List α)) : List (κ × List α) :=
  (m.map fun e => (e.1, e.2.filter (p e.1))).filter fun e => e.2 ≠ []

/-- The pairs that a filter keeps. -/
theorem pairs_filterEach {p : κ → α → Bool} {m : List (κ × List α)} {k : κ} {x : α} :
    Pairs (filterEach p m) k x ↔ Pairs m k x ∧ p k x = true := by
  constructor
  · rintro ⟨xs, he, hx⟩
    obtain ⟨⟨k₀, ys⟩, hm, heq⟩ := List.mem_map.mp (List.mem_filter.mp he).1
    obtain ⟨rfl, rfl⟩ := Prod.mk.inj heq
    obtain ⟨hxy, hp⟩ := List.mem_filter.mp hx
    exact ⟨⟨ys, hm, hxy⟩, hp⟩
  · rintro ⟨⟨xs, he, hx⟩, hp⟩
    have hx' : x ∈ xs.filter (p k) := List.mem_filter.mpr ⟨hx, hp⟩
    refine ⟨xs.filter (p k), List.mem_filter.mpr ⟨List.mem_map.mpr ⟨(k, xs), he, rfl⟩, ?_⟩, hx'⟩
    exact decide_eq_true (List.ne_nil_of_mem hx')

/-! ## Keys -/

/-- A filter keeps the keys distinct. -/
theorem nodup_keys_filterEach {p : κ → α → Bool} {m : List (κ × List α)}
    (h : (m.map Prod.fst).Nodup) : ((filterEach p m).map Prod.fst).Nodup := by
  refine List.Nodup.sublist (List.filter_sublist.map Prod.fst) ?_
  rw [List.map_map]
  exact h

variable [BEq κ] [LawfulBEq κ]

/-- With one entry for each key, looking up a key finds its entry. -/
theorem lookup_eq_some_iff {m : List (κ × List α)} (h : (m.map Prod.fst).Nodup) {k : κ}
    {xs : List α} : m.lookup k = some xs ↔ (k, xs) ∈ m := by
  induction m with
  | nil => simp
  | cons e m ih =>
    obtain ⟨k₀, ys⟩ := e
    obtain ⟨hnot, hm⟩ := List.nodup_cons.mp h
    rw [List.lookup_cons, List.mem_cons, Prod.mk.injEq]
    by_cases hk : k = k₀
    · subst hk
      have hno : (k, xs) ∉ m := fun hmem => hnot (List.mem_map.mpr ⟨(k, xs), hmem, rfl⟩)
      simp [hno, eq_comm]
    · rw [beq_eq_false_iff_ne.mpr hk]
      simp [hk, ih hm]

end Sieve
