import Mathlib

/-!
# Ordered sets and maps of C++

`std::set` and `std::map` with a comparison of its own.

* `AddrSet.insert`: a set of objects, in the order of a key, such as where they lie in memory.
  New objects are added once each (`AddrSet.insertAll_perm`).
* `CmpMap.update`, `CmpMap.find`: a map in which keys count as equal when neither comes before the
  other, with a step that may fail at the value of a key.
-/

/-! ## Sets -/

namespace AddrSet

variable {α ι : Type} [DecidableEq α] [LT ι] [DecidableLT ι] (addr : α → ι)

/-- `std::set::insert`. -/
def insert (x : α) : List α → List α
  | [] => [x]
  | y :: ys =>
    if x = y then y :: ys
    else if addr x < addr y then x :: y :: ys
    else y :: insert x ys

/-- A set has what is inserted and what it had. -/
@[simp] theorem mem_insert {x y : α} {s : List α} : y ∈ insert addr x s ↔ y = x ∨ y ∈ s := by
  induction s with
  | nil => simp [insert]
  | cons z s ih =>
    rw [insert]
    split_ifs with heq hlt
    · subst heq
      simp
    · simp
    · rw [List.mem_cons, ih, List.mem_cons]
      tauto

/-- Insert objects one after the other. -/
def insertAll (xs s : List α) : List α := xs.foldl (fun s x => insert addr x s) s

/-- A set has all that is inserted and what it had. -/
@[simp] theorem mem_insertAll {xs s : List α} {y : α} :
    y ∈ insertAll addr xs s ↔ y ∈ xs ∨ y ∈ s := by
  induction xs generalizing s with
  | nil => simp [insertAll]
  | cons x xs ih =>
    rw [insertAll, List.foldl_cons, ← insertAll, ih, mem_insert, List.mem_cons]
    tauto

/-- Inserting what is not there adds it, at some place. -/
theorem insert_perm {x : α} {s : List α} (hx : x ∉ s) : (insert addr x s).Perm (x :: s) := by
  induction s with
  | nil => exact .refl _
  | cons z s ih =>
    rw [List.mem_cons, not_or] at hx
    rw [insert, if_neg hx.1]
    split_ifs
    · exact .refl _
    · exact ((ih hx.2).cons z).trans (.swap _ _ _)

/-- Objects that are new to the set and differ from each other are added once each. -/
theorem insertAll_perm {xs s : List α} (hxs : xs.Nodup) (hs : ∀ x ∈ xs, x ∉ s) :
    (insertAll addr xs s).Perm (xs ++ s) := by
  induction xs generalizing s with
  | nil => exact .refl _
  | cons x xs ih =>
    obtain ⟨hx, hxs⟩ := List.nodup_cons.mp hxs
    obtain ⟨hxs', hs⟩ := List.forall_mem_cons.mp hs
    rw [insertAll, List.foldl_cons, ← insertAll]
    refine (ih hxs fun y hy => ?_).trans
      (((insert_perm addr hxs').append_left xs).trans List.perm_middle)
    rw [mem_insert, not_or]
    exact ⟨fun h => hx (h ▸ hy), hs y hy⟩

/-- Objects with different keys stay in the order of their keys. -/
theorem pairwise_insert {α ι : Type} [DecidableEq α] [LinearOrder ι] {addr : α → ι}
    (hinj : Function.Injective addr) {x : α} {s : List α}
    (hs : s.Pairwise fun y z => addr y < addr z) :
    (insert addr x s).Pairwise fun y z => addr y < addr z := by
  induction s with
  | nil => exact List.pairwise_singleton _ _
  | cons y s ih =>
    obtain ⟨hy, hs'⟩ := List.pairwise_cons.mp hs
    rw [insert]
    split_ifs with heq hlt
    · exact hs
    · refine List.pairwise_cons.mpr ⟨?_, hs⟩
      rintro z (_ | ⟨_, hz⟩)
      · exact hlt
      · exact hlt.trans (hy z hz)
    · refine List.pairwise_cons.mpr ⟨?_, ih hs'⟩
      intro z hz
      rcases (mem_insert addr).mp hz with rfl | hz
      · exact lt_of_le_of_ne (not_lt.mp hlt) fun h => heq (hinj h).symm
      · exact hy z hz

/-- A set stays ordered by the addresses. -/
theorem pairwise_insertAll {α ι : Type} [DecidableEq α] [LinearOrder ι] {addr : α → ι}
    (hinj : Function.Injective addr) {xs s : List α}
    (hs : s.Pairwise fun y z => addr y < addr z) :
    (insertAll addr xs s).Pairwise fun y z => addr y < addr z := by
  induction xs generalizing s with
  | nil => exact hs
  | cons x xs ih => exact ih (pairwise_insert hinj hs)

end AddrSet

/-! ## Maps with a comparison -/

namespace CmpMap

variable {κ ν : Type} (lt : κ → κ → Bool)

/-- Neither key comes before the other. -/
def Same (a b : κ) : Prop := lt a b = false ∧ lt b a = false

instance (a b : κ) : Decidable (Same lt a b) := inferInstanceAs (Decidable (_ ∧ _))

/-- `std::map::find`. -/
def find (k : κ) : List (κ × ν) → Option ν
  | [] => none
  | (k', v) :: rest => if Same lt k' k then some v else find k rest

/-- `m[k] = v`, in the order of the keys. -/
def assign (k : κ) (v : ν) : List (κ × ν) → List (κ × ν)
  | [] => [(k, v)]
  | (k', v') :: rest =>
    if lt k' k then (k', v') :: assign k v rest
    else if lt k k' then (k, v) :: (k', v') :: rest
    else (k', v) :: rest

/-- Take the value of a key, a new one if there is none, and replace it by what the step gives. -/
def update (k : κ) (new : ν) (step : ν → Option ν) : List (κ × ν) → Option (List (κ × ν))
  | [] => (step new).map fun v => [(k, v)]
  | (k', v) :: rest =>
    if Same lt k' k then (step v).map fun v' => (k', v') :: rest
    else (update k new step rest).map fun rest' => (k', v) :: rest'

variable {lt}

/-- An assignment keeps the keys, and adds at most its own. -/
theorem mem_assign {k : κ} {v : ν} {m : List (κ × ν)} {p : κ × ν} (hp : p ∈ assign lt k v m) :
    p.1 = k ∨ ∃ e ∈ m, e.1 = p.1 := by
  induction m with
  | nil => exact .inl (congrArg Prod.fst (List.mem_singleton.mp hp))
  | cons e m ih =>
    obtain ⟨k', v'⟩ := e
    rw [List.exists_mem_cons_iff]
    rw [assign] at hp
    split_ifs at hp
    · rcases List.mem_cons.mp hp with rfl | hp
      · exact .inr (.inl rfl)
      · exact (ih hp).imp_right .inr
    · rcases List.mem_cons.mp hp with rfl | hp
      · exact .inl rfl
      · rcases List.mem_cons.mp hp with rfl | hp
        · exact .inr (.inl rfl)
        · exact .inr (.inr ⟨p, hp, rfl⟩)
    · rcases List.mem_cons.mp hp with rfl | hp
      · exact .inr (.inl rfl)
      · exact .inr (.inr ⟨p, hp, rfl⟩)

/-- An assignment keeps the order of the keys. -/
theorem pairwise_assign (htrans : ∀ a b c, lt a b = true → lt b c = true → lt a c = true)
    {k : κ} {v : ν} {m : List (κ × ν)} (hm : m.Pairwise fun a b => lt a.1 b.1 = true) :
    (assign lt k v m).Pairwise fun a b => lt a.1 b.1 = true := by
  induction m with
  | nil => exact List.pairwise_singleton _ _
  | cons e m ih =>
    obtain ⟨k', v'⟩ := e
    obtain ⟨hfirst, hm'⟩ := List.pairwise_cons.mp hm
    rw [assign]
    split_ifs with hafter hbefore
    · refine List.pairwise_cons.mpr ⟨fun p hp => ?_, ih hm'⟩
      rcases mem_assign hp with hk | ⟨e, he, hk⟩
      · rw [hk]
        exact hafter
      · rw [← hk]
        exact hfirst e he
    · refine List.pairwise_cons.mpr ⟨fun p hp => ?_, hm⟩
      rcases List.mem_cons.mp hp with rfl | hp
      · exact hbefore
      · exact htrans _ _ _ hbefore (hfirst p hp)
    · exact List.pairwise_cons.mpr ⟨hfirst, hm'⟩

/-- Among other keys, the entry is a new one. -/
theorem assign_perm (htri : ∀ a b, lt a b = false → lt b a = false → a = b) {k : κ} {v : ν}
    {m : List (κ × ν)} (hk : ∀ p ∈ m, p.1 ≠ k) : (assign lt k v m).Perm ((k, v) :: m) := by
  induction m with
  | nil => exact .refl _
  | cons e m ih =>
    obtain ⟨k', v'⟩ := e
    rw [assign]
    split_ifs with hafter hbefore
    · have ih := ih fun p hp => hk p (List.mem_cons_of_mem _ hp)
      exact (ih.cons _).trans (.swap _ _ _)
    · exact .refl _
    · -- neither key comes first
      have heq := htri k' k (eq_false_of_ne_true hafter) (eq_false_of_ne_true hbefore)
      exact absurd heq (hk (k', v') List.mem_cons_self)

/-- Entries with different keys that are put one after the other. -/
theorem foldl_assign_perm (htri : ∀ a b, lt a b = false → lt b a = false → a = b)
    {entries m : List (κ × ν)} (hkeys : (entries.map Prod.fst).Nodup)
    (hm : ∀ p ∈ m, p.1 ∉ entries.map Prod.fst) :
    (entries.foldl (fun m p => assign lt p.1 p.2 m) m).Perm (entries ++ m) := by
  induction entries generalizing m with
  | nil => exact .refl _
  | cons e entries ih =>
    obtain ⟨hnew, hkeys⟩ := List.nodup_cons.mp hkeys
    have hperm : (assign lt e.1 e.2 m).Perm (e :: m) :=
      assign_perm htri fun p hp heq => hm p hp (heq ▸ List.mem_cons_self)
    refine (ih hkeys fun p hp hmem => ?_).trans
      ((hperm.append_left entries).trans List.perm_middle)
    rcases List.mem_cons.mp (hperm.mem_iff.mp hp) with rfl | hp
    · exact hnew hmem
    · exact hm p hp (List.mem_cons_of_mem _ hmem)

/-- Keys that count as equal have one value. -/
theorem find_congr (hsame : Equivalence (Same lt)) {k k' : κ} (hk : Same lt k k')
    (m : List (κ × ν)) : find lt k m = find lt k' m := by
  induction m with
  | nil => rfl
  | cons e rest ih =>
    have hiff : Same lt e.1 k ↔ Same lt e.1 k' :=
      ⟨fun h => hsame.trans h hk, fun h => hsame.trans h (hsame.symm hk)⟩
    simp only [find, hiff, ih]

/-- The step was taken at the key, and no other key has changed. -/
theorem find_update (hsame : Equivalence (Same lt)) {k : κ} {new : ν} {step : ν → Option ν}
    {m m' : List (κ × ν)} (h : update lt k new step m = some m') :
    ∃ v, step ((find lt k m).getD new) = some v ∧
      ∀ k', find lt k' m' = if Same lt k k' then some v else find lt k' m := by
  -- by induction over the map, up to the entry of the key
  induction m generalizing m' with
  | nil =>
    obtain ⟨v, hv, rfl⟩ := Option.map_eq_some_iff.mp h
    exact ⟨v, hv, fun k' => rfl⟩
  | cons e rest ih =>
    obtain ⟨k₀, v₀⟩ := e
    rw [update] at h
    by_cases hk : Same lt k₀ k
    · rw [if_pos hk] at h
      obtain ⟨v, hv, rfl⟩ := Option.map_eq_some_iff.mp h
      refine ⟨v, by rw [find, if_pos hk]; exact hv, fun k' => ?_⟩
      by_cases hk' : Same lt k k'
      · rw [find, if_pos (hsame.trans hk hk'), if_pos hk']
      · have hne : ¬Same lt k₀ k' := fun h0 => hk' (hsame.trans (hsame.symm hk) h0)
        rw [find, if_neg hne, if_neg hk', find, if_neg hne]
    -- another key, which cannot be the same as one behind it
    · rw [if_neg hk] at h
      obtain ⟨rest', hrest, rfl⟩ := Option.map_eq_some_iff.mp h
      obtain ⟨v, hv, hfind⟩ := ih hrest
      refine ⟨v, by rw [find, if_neg hk]; exact hv, fun k' => ?_⟩
      rw [find, hfind k', find]
      by_cases h0 : Same lt k₀ k'
      · have hne : ¬Same lt k k' := fun hk' => hk (hsame.trans h0 (hsame.symm hk'))
        rw [if_pos h0, if_neg hne, if_pos h0]
      · rw [if_neg h0, if_neg h0]

/-- The map can be updated if the step can be taken at the key. -/
theorem isSome_update {k : κ} {new : ν} {step : ν → Option ν} {m : List (κ × ν)} :
    (update lt k new step m).isSome = (step ((find lt k m).getD new)).isSome := by
  induction m with
  | nil => simp [update, find]
  | cons e rest ih =>
    obtain ⟨k₀, v₀⟩ := e
    rw [update, find]
    split_ifs
    · simp
    · simpa using ih

/-- A map with other values for the same keys, on which another step does the same. -/
theorem update_map {μ : Type} {f : ν → μ} {k : κ} {new : ν} {step : ν → Option ν}
    {step' : μ → Option μ} {m : List (κ × ν)} (hnew : (step new).map f = step' (f new))
    (hm : ∀ e ∈ m, (step e.2).map f = step' (f e.2)) :
    (update lt k new step m).map (List.map fun e => (e.1, f e.2)) =
      update lt k (f new) step' (m.map fun e => (e.1, f e.2)) := by
  induction m with
  | nil => simp [update, ← hnew, Function.comp_def]
  | cons e rest ih =>
    obtain ⟨he, hrest⟩ := List.forall_mem_cons.mp hm
    rw [List.map_cons, update, update]
    split_ifs
    · simp [← he, Function.comp_def]
    · simp [← ih hrest, Function.comp_def]

/-- Mapping the values of a map leaves the search alone. -/
theorem find_map {μ : Type} {f : ν → μ} {k : κ} {m : List (κ × ν)} :
    find lt k (m.map fun e => (e.1, f e.2)) = (find lt k m).map f := by
  induction m with
  | nil => rfl
  | cons e rest ih =>
    rw [List.map_cons, find, find]
    split_ifs
    · rfl
    · exact ih

/-- What holds of the values, and is kept by the step, holds of the values afterwards. -/
theorem forall_update {P : ν → Prop} {k : κ} {new : ν} {step : ν → Option ν}
    {m m' : List (κ × ν)} (h : update lt k new step m = some m') (hm : ∀ e ∈ m, P e.2)
    (hnew : P new) (hstep : ∀ v v', P v → step v = some v' → P v') : ∀ e ∈ m', P e.2 := by
  induction m generalizing m' with
  | nil =>
    obtain ⟨v, hv, rfl⟩ := Option.map_eq_some_iff.mp h
    exact List.forall_mem_singleton.mpr (hstep new v hnew hv)
  | cons e rest ih =>
    obtain ⟨k₀, v₀⟩ := e
    obtain ⟨he, hrest⟩ := List.forall_mem_cons.mp hm
    rw [update] at h
    split_ifs at h
    · obtain ⟨v, hv, rfl⟩ := Option.map_eq_some_iff.mp h
      exact List.forall_mem_cons.mpr ⟨hstep v₀ v he hv, hrest⟩
    · obtain ⟨rest', hrest', rfl⟩ := Option.map_eq_some_iff.mp h
      exact List.forall_mem_cons.mpr ⟨he, ih hrest' hrest⟩

/-- A step that adds one object to what a value holds adds it to what the map holds. -/
theorem flatMap_update_perm {α : Type} {P : ν → Prop} {g : ν → List α} {x : α} {k : κ} {new : ν}
    {step : ν → Option ν} {m m' : List (κ × ν)} (h : update lt k new step m = some m')
    (hm : ∀ e ∈ m, P e.2) (hnew : P new) (hg : g new = [])
    (hstep : ∀ v v', P v → step v = some v' → (g v').Perm (x :: g v)) :
    (m'.flatMap fun e => g e.2).Perm (x :: m.flatMap fun e => g e.2) := by
  induction m generalizing m' with
  | nil =>
    obtain ⟨v, hv, rfl⟩ := Option.map_eq_some_iff.mp h
    simpa [hg] using hstep new v hnew hv
  | cons e rest ih =>
    obtain ⟨k₀, v₀⟩ := e
    obtain ⟨he, hrest⟩ := List.forall_mem_cons.mp hm
    rw [update] at h
    split_ifs at h
    · obtain ⟨v, hv, rfl⟩ := Option.map_eq_some_iff.mp h
      exact (hstep v₀ v he hv).append_right _
    · obtain ⟨rest', hrest', rfl⟩ := Option.map_eq_some_iff.mp h
      rw [List.flatMap_cons, List.flatMap_cons]
      exact ((ih hrest' hrest).append_left _).trans List.perm_middle

/-- The entry that is found, and the others. -/
theorem find_eraseP_perm {k : κ} {v : ν} {m : List (κ × ν)} (h : find lt k m = some v) :
    ∃ k', Same lt k' k ∧ m.Perm ((k', v) :: m.eraseP fun e => Same lt e.1 k) := by
  induction m with
  | nil => exact absurd h (by simp [find])
  | cons e rest ih =>
    obtain ⟨k₀, v₀⟩ := e
    rw [find] at h
    by_cases hk : Same lt k₀ k
    · rw [if_pos hk] at h
      obtain rfl := Option.some_inj.mp h
      refine ⟨k₀, hk, ?_⟩
      rw [List.eraseP_cons_of_pos (by simpa using hk)]
    · rw [if_neg hk] at h
      obtain ⟨k', hk', hperm⟩ := ih h
      refine ⟨k', hk', ?_⟩
      rw [List.eraseP_cons_of_neg (by simpa using hk)]
      exact (hperm.cons _).trans (.swap _ _ _)

end CmpMap
