import AdxDsp.Cache.Nodes
import AdxDsp.Lib.RedBlack

/-!
# Taking the children in turn

`adx_cache_find_array_loop` is called with a growing index and is to start again behind the last
child.  The children are found in a search tree over the numbers that `child_total` had when they
were added.

* `adxCacheFind_array`: what the tree finds is the first child with a number.
* `rotates_iff`: the indices that give the right child.
-/

namespace AdxDsp

open CText

namespace Cache

/-- `child_tree_array` of a node with `n` children, as it was built; in it, a child is named by its
place. -/
def childTreeArray (n : ℕ) : Option (RbTree (ℤ × ℕ)) :=
  RbTree.addAll Prod.fst ((List.range n).map fun (place : ℕ) => (toInt32 (place : ℤ), place))

/-- `adx_rbtree_number_find` in that tree. -/
def findNumber (n : ℕ) (number : ℤ) : Option ℕ :=
  (childTreeArray n).bind fun tree => (tree.find Prod.fst number).map Prod.snd

/-- `adx_cache_find_array_loop`: the place of the child. -/
def adxCacheFindArrayLoop (cache : CacheList) (index : ℤ) : Option ℕ :=
  if cache.childTotal ≤ 0 then none
  else
    let index := if index > cache.childTotal then index.tmod cache.childTotal else index
    findNumber cache.length index

section

variable {cache : CacheList} {n i : ℕ}

/-- The search for a number is one for the place with this `int`. -/
theorem findNumber_eq (number : ℤ) :
    findNumber n number = (List.range n).find? fun (place : ℕ) => toInt32 (place : ℤ) = number := by
  obtain ⟨tree, htree, -, hfind⟩ := RbTree.find_addAll Prod.fst
    ((List.range n).map fun (place : ℕ) => (toInt32 (place : ℤ), place))
  rw [findNumber, childTreeArray, htree, Option.bind_some, hfind, List.find?_map, Option.map_map]
  exact Option.map_id'

/-- The children of a list from a place on, with the first one that has a number. -/
theorem findPlace_eq_find? (index : ℤ) (place : ℕ) (cache : CacheList) :
    cache.findPlace index place =
      ((List.range cache.length).find? fun (k : ℕ) => toInt32 ((place + k : ℕ) : ℤ) = index).bind
        cache.nth := by
  induction cache generalizing place with
  | nil => rfl
  | cons key val child next _ ih =>
    rw [CacheList.findPlace, CacheList.length, List.range_succ_eq_map, List.find?_cons]
    dsimp only [Nat.add_zero]
    by_cases hplace : toInt32 (place : ℤ) = index
    · rw [if_pos hplace, decide_eq_true hplace]
      rfl
    · -- the rest of the numbers belongs to the rest of the children
      have hshift : (fun k : ℕ => decide (toInt32 ((place + k : ℕ) : ℤ) = index)) ∘ Nat.succ =
          fun k => decide (toInt32 ((place + 1 + k : ℕ) : ℤ) = index) := by
        funext k
        rw [Function.comp_apply, Nat.succ_eq_add_one, Nat.add_right_comm, Nat.add_assoc]
      rw [if_neg hplace, decide_eq_false hplace, ih]
      dsimp only
      rw [List.find?_map, Option.bind_map, hshift]
      rfl

/-- The lookup by a number in the model of the nodes is that of the tree. -/
theorem adxCacheFind_array (node : CacheNode) (index : ℤ) :
    adxCacheFind node (.array index) =
      (findNumber node.child.length index).bind node.child.nth := by
  rw [findNumber_eq, adxCacheFind, findPlace_eq_find?]
  simp

/-- The first number that is an index is the index itself. -/
theorem findNumber_of_lt (h : i < 2 ^ 31) : findNumber n i = if i < n then some i else none := by
  have hint : ∀ k ≤ i, toInt32 (k : ℤ) = k := fun k hk => toInt32_of_bounds (by omega) (by omega)
  rw [findNumber_eq]
  split_ifs with hlt
  · -- up to the index, each place is its own number
    rw [List.find?_range_eq_some]
    refine ⟨decide_eq_true (hint i le_rfl), List.mem_range.mpr hlt, fun k hk => ?_⟩
    rw [hint k hk.le]
    simp
    omega
  · rw [List.find?_eq_none]
    intro k hk
    rw [List.mem_range] at hk
    rw [hint k (by omega)]
    simp
    omega

/-- The index gives the child in its turn. -/
def Rotates (cache : CacheList) (i : ℕ) : Prop :=
  adxCacheFindArrayLoop cache i = some (i % cache.length)

/-- The index that is the number of the children gives none; beyond 2^31 children, the counter is
wrong. -/
theorem rotates_iff (hpos : 0 < cache.length) (hi : i < 2 ^ 31) :
    Rotates cache i ↔ 0 < cache.childTotal ∧
      if cache.childTotal = cache.length then i ≠ cache.length else i ≤ cache.childTotal := by
  have hwrap : cache.childTotal < 2 ^ 31 ∧
      (cache.childTotal = cache.length ∨ cache.childTotal < cache.length ∧
        2 ^ 31 ≤ cache.length) := by
    rw [CacheList.childTotal, toInt32_eq]
    omega
  unfold Rotates adxCacheFindArrayLoop
  by_cases htotal : cache.childTotal ≤ 0
  · -- the counter has become negative, and no child is found
    rw [if_pos htotal]
    exact iff_of_false nofun fun h => absurd h.1 (not_lt.mpr htotal)
  · obtain ⟨total, htot⟩ := Int.eq_ofNat_of_zero_le (not_le.mp htotal).le
    rw [htot] at hwrap htotal ⊢
    -- both numbers are positive, so that the remainder is that of natural numbers
    have hreduce : (if (i : ℤ) > total then (i : ℤ).tmod total else i) =
        (if i > total then i % total else i : ℕ) := by
      split_ifs <;> first | omega | rfl
    have hmod : i % total < total := Nat.mod_lt _ (by omega)
    rw [if_neg htotal, and_iff_right (not_le.mp htotal)]
    dsimp only
    rw [hreduce, findNumber_of_lt (by split_ifs <;> omega)]
    rcases hwrap.2 with hsame | ⟨hless, hmany⟩
    · -- the counter is right, and the reduction misses only the number itself
      have hlen : cache.length = total := by omega
      rw [hlen, if_pos rfl]
      by_cases hmore : i > total
      · rw [if_pos hmore, if_pos hmod]
        exact iff_of_true rfl (by omega)
      · rw [if_neg hmore]
        by_cases hlt : i < total
        · rw [if_pos hlt, Nat.mod_eq_of_lt hlt]
          exact iff_of_true rfl (by omega)
        · rw [if_neg hlt]
          exact iff_of_false nofun (by omega)
    · -- the counter is too small: a reduced index is another child
      rw [Nat.mod_eq_of_lt (by omega : i < cache.length), if_neg hless.ne]
      by_cases hmore : i > total
      · rw [if_pos hmore, if_pos (by omega), Option.some.injEq]
        omega
      · rw [if_neg hmore, if_pos (by omega)]
        exact iff_of_true rfl (by omega)

end

/-- The children of an array to which some numbers were added. -/
def sampleArray (numbers : List ℤ) : CacheList :=
  numbers.foldl (fun cache number => adxCacheArrayAdd (.number number) id cache) .nil

/-- Of two children, the second is found with 1 and again with 3. -/
theorem rotates_two : 0 < (sampleArray [7, 8]).length ∧
    (Rotates (sampleArray [7, 8]) 3 ↔ 0 < (sampleArray [7, 8]).childTotal ∧
      if (sampleArray [7, 8]).childTotal = (sampleArray [7, 8]).length
        then 3 ≠ (sampleArray [7, 8]).length
        else ((3 : ℕ) : ℤ) ≤ (sampleArray [7, 8]).childTotal) :=
  ⟨by decide, rotates_iff (by decide) (by decide)⟩

/-- An only child is not found with 1. -/
theorem not_rotates_one : ¬∀ (cache : CacheList) (i : ℕ), 0 < cache.length → i < 2 ^ 31 →
    Rotates cache i := fun h =>
  (@rotates_iff (sampleArray [7]) 1 (by decide) (by decide)).not.mpr (by decide)
    (h _ 1 (by decide) (by decide))

end Cache

end AdxDsp
