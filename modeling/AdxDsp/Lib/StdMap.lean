import Mathlib.Data.List.Induction
import Mathlib.Logic.Function.Basic
import Mathlib.Tactic.Common

/-!
# The subscript of `std::map`

`m[k]` gives the value of the key `k`; where the map has no such key, it puts the default value
there first.  A lookup can therefore change the map.

* **One lookup** (`index_of_has`, `has_index`): it leaves the map alone if the key is there, and
  puts the key there otherwise.
* **A list of lookups** (`indexAll_keeps_iff`): they leave the map alone exactly when all the keys
  are there.
* **A server with a state** (`eachKeeps_iff`): every request leaves the state alone exactly when
  each of them leaves the first state alone.
-/

/-- A map, as the function that finds the value of a key. -/
structure StdMap (κ ν : Type*) where
  find : κ → Option ν

namespace StdMap

variable {κ ν : Type*} [DecidableEq κ]

/-- The map with these entries; the first one of a key counts. -/
def ofList (entries : List (κ × ν)) : StdMap κ ν := ⟨fun k => entries.lookup k⟩

/-- `m[k] = v`. -/
def set (m : StdMap κ ν) (k : κ) (v : ν) : StdMap κ ν := ⟨Function.update m.find k (some v)⟩

/-- Setting a key changes no other one. -/
theorem find_set (m : StdMap κ ν) (k l : κ) (v : ν) :
    (m.set k v).find l = if l = k then some v else m.find l := by
  by_cases h : l = k
  · subst h
    simp [set]
  · simp [set, h]

omit [DecidableEq κ] in
/-- The map has a value for the key. -/
def Has (m : StdMap κ ν) (k : κ) : Prop := (m.find k).isSome = true

instance (m : StdMap κ ν) (k : κ) : Decidable (m.Has k) :=
  inferInstanceAs (Decidable ((m.find k).isSome = true))

variable [Inhabited ν]

/-- `m[k]`: the value it refers to, and the map afterwards. -/
def index (m : StdMap κ ν) (k : κ) : ν × StdMap κ ν :=
  match m.find k with
  | some v => (v, m)
  | none => (default, m.set k default)

/-- The lookups of some keys, one after the other. -/
def indexAll (m : StdMap κ ν) : List κ → List ν × StdMap κ ν
  | [] => ([], m)
  | k :: ks =>
    let (v, m) := m.index k
    let (vs, m) := indexAll m ks
    (v :: vs, m)

variable {m : StdMap κ ν} {k l : κ} {ks : List κ}

/-- `operator[]` changes nothing where the key is there. -/
theorem index_of_has (h : m.Has k) : (m.index k).2 = m := by
  obtain ⟨v, hv⟩ := Option.isSome_iff_exists.mp h
  simp [index, hv]

/-- `operator[]` leaves its own key behind. -/
theorem has_index : (m.index k).2.Has l ↔ l = k ∨ m.Has l := by
  by_cases hk : m.Has k
  · rw [index_of_has hk]
    constructor
    · exact .inr
    · rintro (rfl | hl)
      · exact hk
      · exact hl
  · have hnone : m.find k = none := Option.not_isSome_iff_eq_none.mp hk
    simp only [index, hnone, Has, find_set]
    split <;> simp_all

/-- `operator[]` yields the value, or the default one. -/
theorem fst_index : (m.index k).1 = (m.find k).getD default := by
  unfold index
  cases m.find k <;> rfl

/-- `operator[]` changes no value, a missing one taken as the default one. -/
theorem getD_find_index :
    ((m.index k).2.find l).getD default = (m.find l).getD default := by
  unfold index
  cases hk : m.find k with
  | some v => rfl
  | none =>
    simp only [find_set]
    split_ifs with h
    · rw [h, hk]
      rfl
    · rfl

/-- Lookups that insert give what lookups that do not insert would give. -/
theorem fst_indexAll : (m.indexAll ks).1 = ks.map fun k => (m.find k).getD default := by
  induction ks generalizing m with
  | nil => rfl
  | cons k ks ih =>
    show (m.index k).1 :: ((m.index k).2.indexAll ks).1 = _
    rw [ih, fst_index, List.map_cons]
    simp only [getD_find_index]

/-- Reads of keys in two parts. -/
theorem indexAll_append {ls : List κ} :
    (m.indexAll (ks ++ ls)).2 = ((m.indexAll ks).2.indexAll ls).2 := by
  induction ks generalizing m with
  | nil => rfl
  | cons k ks ih => exact ih

/-- Reads of keys leave all of them behind. -/
theorem has_indexAll : (m.indexAll ks).2.Has l ↔ l ∈ ks ∨ m.Has l := by
  induction ks generalizing m with
  | nil => simp [indexAll]
  | cons k ks ih =>
    show ((m.index k).2.indexAll ks).2.Has l ↔ _
    rw [ih, has_index, List.mem_cons]
    tauto

/-- The lookups leave the map alone exactly when all the keys are there. -/
theorem indexAll_keeps_iff : (m.indexAll ks).2 = m ↔ ∀ k ∈ ks, m.Has k := by
  constructor
  · intro h k hk
    rw [← h]
    exact has_indexAll.mpr (.inl hk)
  · intro h
    induction ks with
    | nil => rfl
    | cons k ks ih =>
      show ((m.index k).2.indexAll ks).2 = m
      rw [index_of_has (h k (by simp))]
      exact ih fun l hl => h l (List.mem_cons_of_mem k hl)

end StdMap

/-! ## Requests to a server with a state -/

section Server

variable {σ ρ : Type*} (serve : σ → ρ → σ)

/-- Each of the requests, made one after the other, leaves the state as it found it. -/
def EachKeeps (s : σ) (rs : List ρ) : Prop :=
  ∀ pre r post, rs = pre ++ r :: post → serve (pre.foldl serve s) r = pre.foldl serve s

/-- Each request keeps the state just if each of them alone does. -/
theorem eachKeeps_iff {s : σ} {rs : List ρ} : EachKeeps serve s rs ↔ ∀ r ∈ rs, serve s r = s := by
  constructor
  · intro h
    -- the state in front of each request is still the first one
    have hpre : ∀ pre post, rs = pre ++ post → pre.foldl serve s = s := by
      intro pre
      induction pre using List.reverseRecOn with
      | nil => exact fun _ _ => rfl
      | append_singleton pre r ih =>
        intro post hrs
        rw [List.append_assoc, List.singleton_append] at hrs
        rw [List.foldl_append]
        show serve (pre.foldl serve s) r = s
        rw [h pre r post hrs, ih _ hrs]
    intro r hr
    obtain ⟨pre, post, hrs⟩ := List.append_of_mem hr
    have := h pre r post hrs
    rwa [hpre pre _ hrs] at this
  · rintro h pre r post rfl
    have hpre : ∀ pre : List ρ, (∀ r ∈ pre, serve s r = s) → pre.foldl serve s = s := by
      intro pre hall
      induction pre with
      | nil => rfl
      | cons r pre ih =>
        rw [List.foldl_cons, hall r (by simp)]
        exact ih fun r' hr' => hall r' (List.mem_cons_of_mem r hr')
    rw [hpre pre fun r' hr' => h r' (List.mem_append_left _ hr')]
    exact h r (by simp)

end Server
