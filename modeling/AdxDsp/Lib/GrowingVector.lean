import AdxDsp.Lib.StdMap
import Mathlib.Order.Monotone.Basic
import Mathlib.Order.Lattice

/-!
# Addresses in a growing vector

A vector moves all its elements to a new buffer when an element is pushed that does not fit.  Here
a vector remembers how many buffers it has had, and the place of an element is the buffer with the
index.  A map can be keyed by the addresses of elements while the vector is still growing.

* **Growth**: `growths`, the number of new buffers for some pushes (`buffer_storeAll`).
* **Kept keys** (`find_storeAll_of_settled`): the key of an element is still right if no later push
  has moved the vector.
* **Only these** (`exists_of_find_storeAll`): where no address is used twice, no other key is found.
-/

/-- The capacity that follows a capacity which is used up. -/
structure Growth where
  next : ℕ → ℕ
  lt : ∀ n, n < next n

/-- Twice the capacity. -/
def Growth.double : Growth where
  next n := n + max n 1
  lt n := by omega

/-- A vector; `buffer` counts its buffers. -/
structure GrowingVector (ε : Type*) where
  buffer : ℕ
  capacity : ℕ
  elems : List ε
  le : elems.length ≤ capacity

namespace GrowingVector

variable {ε : Type*} (v : GrowingVector ε)

/-- `push_back` -/
def push (g : Growth) (x : ε) : GrowingVector ε :=
  if h : v.elems.length < v.capacity then
    ⟨v.buffer, v.capacity, v.elems ++ [x], by
      rw [List.length_append, List.length_singleton]
      omega⟩
  else
    ⟨v.buffer + 1, g.next v.capacity, v.elems ++ [x], by
      have hlt := g.lt v.capacity
      have hle := v.le
      rw [List.length_append, List.length_singleton]
      omega⟩

/-- `clear` -/
def clear : GrowingVector ε := ⟨v.buffer, v.capacity, [], Nat.zero_le _⟩

/-- The elements that `f` drops are erased, the others are changed as it says. -/
def sweep (f : ε → Option ε) : GrowingVector ε :=
  ⟨v.buffer, v.capacity, v.elems.filterMap f, (List.length_filterMap_le f v.elems).trans v.le⟩

@[simp] theorem clear_buffer : v.clear.buffer = v.buffer := rfl

@[simp] theorem clear_capacity : v.clear.capacity = v.capacity := rfl

@[simp] theorem clear_elems : v.clear.elems = [] := rfl

@[simp] theorem sweep_buffer (f : ε → Option ε) : (v.sweep f).buffer = v.buffer := rfl

@[simp] theorem sweep_elems (f : ε → Option ε) : (v.sweep f).elems = v.elems.filterMap f := rfl

/-- A push adds the element at the end. -/
@[simp] theorem push_elems (g : Growth) (x : ε) : (v.push g x).elems = v.elems ++ [x] := by
  unfold push
  split <;> rfl

/-- A push grows the capacity just where the vector is full. -/
theorem push_capacity (g : Growth) (x : ε) : (v.push g x).capacity =
    if v.elems.length < v.capacity then v.capacity else g.next v.capacity := by
  unfold push
  split <;> rfl

/-- A push moves to a new buffer just where the vector is full. -/
theorem push_buffer (g : Growth) (x : ε) : (v.push g x).buffer =
    if v.elems.length < v.capacity then v.buffer else v.buffer + 1 := by
  unfold push
  split <;> rfl

end GrowingVector

/-! ## Where the swept elements come from -/

section

variable {ε : Type*} (f : ε → Option ε)

/-- The old places of the elements that are left. -/
def origins (xs : List ε) : List ℕ :=
  (List.range xs.length).filter fun i => (xs[i]?.bind f).isSome

/-- The origin of one more element. -/
theorem origins_append (xs : List ε) (x : ε) :
    origins f (xs ++ [x]) = origins f xs ++ if (f x).isSome then [xs.length] else [] := by
  have hfront : (List.range xs.length).filter (fun i => ((xs ++ [x])[i]?.bind f).isSome) =
      origins f xs := by
    refine List.filter_congr fun i hi => ?_
    rw [List.getElem?_append_left (List.mem_range.mp hi)]
  unfold origins at hfront ⊢
  rw [List.length_append, List.length_singleton, List.range_succ, List.filter_append, hfront]
  simp [List.filter_cons]

/-- One origin for each element that was stored. -/
theorem length_origins (xs : List ε) : (origins f xs).length = (xs.filterMap f).length := by
  induction xs using List.reverseRecOn with
  | nil => rfl
  | append_singleton xs x ih =>
    rw [origins_append, List.filterMap_append, List.length_append, List.length_append, ih]
    cases hx : f x <;> simp [hx]

/-- An element that is left comes from its old place. -/
theorem getElem?_filterMap (xs : List ε) (p : ℕ) :
    (xs.filterMap f)[p]? = (origins f xs)[p]?.bind fun i => xs[i]?.bind f := by
  induction xs using List.reverseRecOn with
  | nil => rfl
  | append_singleton xs x ih =>
    rw [origins_append, List.filterMap_append]
    rcases Nat.lt_or_ge p (origins f xs).length with hlt | hge
    · rw [List.getElem?_append_left hlt, List.getElem?_append_left (by rwa [← length_origins]), ih]
      -- the old place is one of the old list
      obtain ⟨i, hi⟩ : ∃ i, (origins f xs)[p]? = some i := ⟨_, List.getElem?_eq_getElem hlt⟩
      have hmem := (List.mem_filter.mp (List.mem_of_getElem? hi)).1
      rw [hi, Option.bind_some, Option.bind_some,
        List.getElem?_append_left (List.mem_range.mp hmem)]
    · rw [List.getElem?_append_right hge, List.getElem?_append_right (by rwa [← length_origins]),
        length_origins]
      cases hx : f x with
      | none => simp [hx]
      | some y =>
        cases hp : p - (xs.filterMap f).length with
        | zero => simp [hx]
        | succ k => simp [hx]

end

/-! ## Counting the growths -/

/-- The capacity of an empty vector of capacity `c` after `k` pushes. -/
def roomAfter (g : Growth) (c : ℕ) : ℕ → ℕ
  | 0 => c
  | k + 1 => if k < roomAfter g c k then roomAfter g c k else g.next (roomAfter g c k)

/-- How often an empty vector of capacity `c` grows in `k` pushes. -/
def growths (g : Growth) (c : ℕ) : ℕ → ℕ
  | 0 => 0
  | k + 1 => if k < roomAfter g c k then growths g c k else growths g c k + 1

/-- Of `n` pushes none after push `j` moves the vector. -/
def Settled (g : Growth) (c n j : ℕ) : Prop := growths g c (j + 1) = growths g c n

instance (g : Growth) (c n j : ℕ) : Decidable (Settled g c n j) :=
  inferInstanceAs (Decidable (_ = _))

/-- One more element needs no fewer buffers. -/
theorem growths_le_succ (g : Growth) (c k : ℕ) : growths g c k ≤ growths g c (k + 1) := by
  rw [growths]
  split_ifs <;> omega

/-- The number of buffers grows with that of the elements. -/
theorem growths_mono (g : Growth) (c : ℕ) : Monotone (growths g c) :=
  monotone_nat_of_le_succ (growths_le_succ g c)

/-! ## A vector with a map of its addresses -/

/-- A vector, and a map from addresses to data. -/
structure Addressed (ε δ α : Type*) where
  vec : GrowingVector ε
  data : StdMap α δ

namespace Addressed

variable {ε δ α : Type*} [DecidableEq α] (g : Growth) (address : ℕ → ℕ → α)

/-- An element is pushed, and its data, if it has any, are stored at its address. -/
def store (s : Addressed ε δ α) (item : ε × Option δ) : Addressed ε δ α :=
  let vec := s.vec.push g item.1
  ⟨vec, match item.2 with
    | some d => s.data.set (address vec.buffer (vec.elems.length - 1)) d
    | none => s.data⟩

/-- Elements are pushed one after the other. -/
def storeAll (s : Addressed ε δ α) (items : List (ε × Option δ)) : Addressed ε δ α :=
  items.foldl (store g address) s

variable {g address} {s : Addressed ε δ α} {items : List (ε × Option δ)}

/-- Storing one more item. -/
theorem storeAll_append (item : ε × Option δ) :
    storeAll g address s (items ++ [item]) =
      store g address (storeAll g address s items) item := by
  simp [storeAll]

/-- What is found was there before, or belongs to an element. -/
theorem mem_of_find_storeAll {a : α} {d : δ}
    (h : (storeAll g address s items).data.find a = some d) :
    s.data.find a = some d ∨ ∃ item ∈ items, item.2 = some d := by
  induction items using List.reverseRecOn with
  | nil => exact .inl h
  | append_singleton items item ih =>
    have hold : (storeAll g address s items).data.find a = some d →
        s.data.find a = some d ∨ ∃ x ∈ items ++ [item], x.2 = some d := by
      intro h
      rcases ih h with hs | ⟨x, hx, heq⟩
      · exact .inl hs
      · exact .inr ⟨x, List.mem_append_left _ hx, heq⟩
    rw [storeAll_append, store] at h
    obtain ⟨x, o⟩ := item
    cases o with
    | none => exact hold h
    | some d' =>
      simp only [StdMap.find_set] at h
      split_ifs at h with hkey
      · exact .inr ⟨(x, some d'), by simp, h⟩
      · exact hold h

section

variable (hempty : s.vec.elems = [])

include hempty

/-- The stored elements, in their order. -/
theorem elems_storeAll : (storeAll g address s items).vec.elems = items.map Prod.fst := by
  induction items using List.reverseRecOn with
  | nil => exact hempty
  | append_singleton items item ih =>
    rw [storeAll_append, List.map_append, ← ih]
    exact GrowingVector.push_elems _ g item.1

/-- The room and the buffer after any number of pushes. -/
theorem room_storeAll :
    (storeAll g address s items).vec.capacity = roomAfter g s.vec.capacity items.length ∧
      (storeAll g address s items).vec.buffer =
        s.vec.buffer + growths g s.vec.capacity items.length := by
  induction items using List.reverseRecOn with
  | nil => exact ⟨rfl, rfl⟩
  | append_singleton items item ih =>
    obtain ⟨hcap, hbuf⟩ := ih
    have helems : (storeAll g address s items).vec.elems = items.map Prod.fst :=
      elems_storeAll hempty
    have hlen : (storeAll g address s items).vec.elems.length = items.length := by
      rw [helems, List.length_map]
    rw [storeAll_append, List.length_append, List.length_singleton, roomAfter, growths, ← hcap,
      ← hlen]
    refine ⟨GrowingVector.push_capacity _ g item.1, (GrowingVector.push_buffer _ g item.1).trans ?_⟩
    split_ifs
    · rw [hbuf, hlen]
    · rw [hbuf, hlen, Nat.add_assoc]

/-- The buffer after any number of pushes. -/
theorem buffer_storeAll : (storeAll g address s items).vec.buffer =
    s.vec.buffer + growths g s.vec.capacity items.length :=
  (room_storeAll hempty).2

/-- The address under which the next element is stored. -/
theorem data_storeAll_append (item : ε × Option δ) :
    (storeAll g address s (items ++ [item])).data = match item.2 with
      | some d => (storeAll g address s items).data.set
          (address (s.vec.buffer + growths g s.vec.capacity (items.length + 1)) items.length) d
      | none => (storeAll g address s items).data := by
  have hbuf : (storeAll g address s (items ++ [item])).vec.buffer =
      s.vec.buffer + growths g s.vec.capacity (items ++ [item]).length := buffer_storeAll hempty
  have helems : (storeAll g address s (items ++ [item])).vec.elems =
      (items ++ [item]).map Prod.fst := elems_storeAll hempty
  rw [List.length_append, List.length_singleton] at hbuf
  rw [storeAll_append] at hbuf helems ⊢
  rw [← hbuf, show items.length = (store g address (storeAll g address s items)
    item).vec.elems.length - 1 by rw [helems]; simp]
  rfl

/-- The data of an element are found at its address if the vector has not moved since. -/
theorem find_storeAll_of_settled (hinj : ∀ b, Function.Injective (address b)) {j : ℕ} {x : ε}
    {d : δ} (hj : items[j]? = some (x, some d))
    (hsettled : Settled g s.vec.capacity items.length j) :
    (storeAll g address s items).data.find
      (address (s.vec.buffer + growths g s.vec.capacity items.length) j) = some d := by
  -- by induction on the pushes, of which the last one is told apart
  induction items using List.reverseRecOn with
  | nil => cases hj
  | append_singleton items item ih =>
    rw [List.length_append, List.length_singleton] at hsettled ⊢
    rw [data_storeAll_append hempty]
    rcases Nat.lt_trichotomy j items.length with hlt | rfl | hgt
    · -- an earlier element: this push has not moved the vector, and has another address
      rw [List.getElem?_append_left hlt] at hj
      have hle := growths_mono g s.vec.capacity (show j + 1 ≤ items.length by omega)
      have hle' := growths_le_succ g s.vec.capacity items.length
      unfold Settled at hsettled
      have hlast : growths g s.vec.capacity (items.length + 1) =
          growths g s.vec.capacity items.length := by omega
      have hfind := ih hj (by unfold Settled; omega)
      rw [hlast]
      cases item.2 with
      | none => exact hfind
      | some d' =>
        simp only [StdMap.find_set]
        rw [if_neg fun h => absurd (hinj _ h) (by omega), hfind]
    · rw [List.getElem?_append_right le_rfl, Nat.sub_self] at hj
      obtain rfl := Option.some.inj hj
      simp [StdMap.find_set]
    · rw [List.getElem?_eq_none (by simp; omega)] at hj
      cases hj

/-- If no address is used twice, what is found at an address was there before, or belongs to an
element that was pushed there. -/
theorem exists_of_find_storeAll (hinj : ∀ b b' i i', address b i = address b' i' → b = b' ∧ i = i')
    {b i : ℕ} {d : δ} (h : (storeAll g address s items).data.find (address b i) = some d) :
    s.data.find (address b i) = some d ∨
      (∃ x, items[i]? = some (x, some d)) ∧
        b = s.vec.buffer + growths g s.vec.capacity (i + 1) := by
  induction items using List.reverseRecOn with
  | nil => exact .inl h
  | append_singleton items item ih =>
    rw [data_storeAll_append hempty] at h
    -- an element pushed before is still in its place
    have hold : (storeAll g address s items).data.find (address b i) = some d →
        s.data.find (address b i) = some d ∨
          (∃ x, (items ++ [item])[i]? = some (x, some d)) ∧
            b = s.vec.buffer + growths g s.vec.capacity (i + 1) := by
      intro h
      rcases ih h with hs | ⟨⟨x, hx⟩, hb⟩
      · exact .inl hs
      · refine .inr ⟨⟨x, ?_⟩, hb⟩
        rw [List.getElem?_append_left (List.getElem?_eq_some_iff.mp hx).1, hx]
    obtain ⟨y, o⟩ := item
    cases o with
    | none => exact hold h
    | some d' =>
      simp only [StdMap.find_set] at h
      split_ifs at h with hkey
      · obtain ⟨rfl, rfl⟩ := hinj _ _ _ _ hkey
        obtain rfl := Option.some.inj h
        exact .inr ⟨⟨y, by simp⟩, rfl⟩
      · exact hold h

end

end Addressed
