import AdxDsp.Json.Parse

/-!
# The cache

The tree of `adx_cache.c`: each node has its children in the order in which they were added, with a
search tree over their string keys and one over their numbers, which count from 0.

* **Values**: `CacheValue`, keys and values of nodes.
* **Lookups**: `adxCacheFind`, `adxCacheFindArray`; `CacheList.nth`, the child at a place.
* **Changes**: `adxCacheAdd`, with what the caller does to the node that it returns.
-/

namespace AdxDsp

open CText Json

namespace Cache

/-! ## Values -/

/-- `adx_cache_value_t`; `unset` is the type 0 of a new node. -/
inductive CacheValue where
  | unset
  | string (string : Bytes)
  | number (number : ℤ)
  | array (index : ℤ)
  | null
  | error
  deriving DecidableEq

/-- `adx_cache_value_string` -/
def adxCacheValueString (key : Option Bytes) : CacheValue := key.elim .error .string

/-- `adx_cache_value_copy`.  The length of a text is an `int`, and so is that of its block. -/
def adxCacheValueCopy (src : CacheValue) : CacheValue :=
  match src with
  | .string string =>
    let len := toInt32 string.length
    if allocates (toInt32 (len + 1)) then .string (string.take len.toNat) else .error
  | src => src

/-- The value and all shorter ones can be copied. -/
def CacheValue.Copies (value : CacheValue) : Prop := adxCacheValueCopy value = value

/-- A string whose length is an `int`, with its end, can be copied. -/
theorem copies_string {string : Bytes} (h : string.length < 2 ^ 31 - 1) :
    (CacheValue.string string).Copies := by
  have hlen : toInt32 (string.length : ℤ) = string.length :=
    toInt32_of_bounds (by omega) (by omega)
  have hnext : toInt32 ((string.length : ℤ) + 1) = string.length + 1 :=
    toInt32_of_bounds (by omega) (by omega)
  have halloc : allocates ((string.length : ℤ) + 1) = true := by
    unfold allocates
    rw [decide_eq_true_iff]
    omega
  unfold CacheValue.Copies adxCacheValueCopy
  dsimp only
  rw [hlen, hnext, if_pos halloc, Int.toNat_natCast, List.take_length]

/-! ## Nodes -/

/-- The children of a node, in the order in which they were added. -/
inductive CacheList where
  | nil
  | cons (key val : CacheValue) (child next : CacheList)
  deriving DecidableEq

/-- `adx_cache_t` -/
structure CacheNode where
  key : CacheValue
  val : CacheValue
  child : CacheList
  deriving DecidableEq

/-- `adx_cache_create` -/
def adxCacheCreate : CacheNode := ⟨.unset, .unset, .nil⟩

namespace CacheList

/-- The number of children. -/
def length : CacheList → ℕ
  | .nil => 0
  | .cons _ _ _ next => next.length + 1

/-- A child behind the others. -/
def snoc (node : CacheNode) : CacheList → CacheList
  | .nil => .cons node.key node.val node.child .nil
  | .cons key val child next => .cons key val child (next.snoc node)

/-- The child at a place. -/
def nth : CacheList → ℕ → Option CacheNode
  | .nil, _ => none
  | .cons key val child _, 0 => some ⟨key, val, child⟩
  | .cons _ _ _ next, n + 1 => next.nth n

/-- The first child with this key: a second one is refused by the search tree. -/
def findKey (key : CacheValue) : CacheList → Option CacheNode
  | .nil => none
  | .cons key' val child next => if key' = key then some ⟨key', val, child⟩ else next.findKey key

/-- The first child with this number, from a place on; a second one is refused by the search
tree. -/
def findPlace (index : ℤ) : ℕ → CacheList → Option CacheNode
  | _, .nil => none
  | place, .cons key val child next =>
    if toInt32 place = index then some ⟨key, val, child⟩ else next.findPlace index (place + 1)

/-- The children of the first child with this key are changed. -/
def modify (key : CacheValue) (f : CacheList → CacheList) : CacheList → CacheList
  | .nil => .nil
  | .cons key' val child next =>
    if key' = key then .cons key' val (f child) next else .cons key' val child (next.modify key f)

/-- `child_total` -/
def childTotal (cache : CacheList) : ℤ := toInt32 cache.length

end CacheList

/-- `adx_cache_find` -/
def adxCacheFind (cache : CacheNode) (key : CacheValue) : Option CacheNode :=
  match key with
  | .string _ => cache.child.findKey key
  | .number _ => cache.child.findKey key
  | .array index => cache.child.findPlace index 0
  | _ => none

/-- `adx_cache_find_array` -/
def adxCacheFindArray (cache : CacheNode) (index : ℤ) : Option CacheNode :=
  if cache.child.childTotal ≤ 0 then none else adxCacheFind cache (.array index)

/-- What `adx_cache_add` does behind its lookup: a new node is linked, unless its value or a copy is
refused. -/
def insertNode (key val : CacheValue) (f : CacheList → CacheList) (cache : CacheList) : CacheList :=
  match val with
  | .string _ | .number _ | .null =>
    if adxCacheValueCopy key = .error ∨ adxCacheValueCopy val = .error then cache
    else cache.snoc ⟨adxCacheValueCopy key, adxCacheValueCopy val, f .nil⟩
  | _ => cache

/-- The children of a node after `adx_cache_add`, and after what its caller does to the children of
the node that it returns.  Without such a node nothing is changed. -/
def adxCacheAdd (key val : CacheValue) (f : CacheList → CacheList) (cache : CacheList) :
    CacheList :=
  if key = .error ∨ val = .error then cache
  else match key with
    | .string _ | .number _ =>
      if (cache.findKey key).isSome then cache.modify key f else insertNode key val f cache
    | .array _ => insertNode key val f cache
    | _ => cache

/-- `adx_cache_array_add` -/
def adxCacheArrayAdd (val : CacheValue) (f : CacheList → CacheList) (cache : CacheList) :
    CacheList :=
  adxCacheAdd (.array 0) val f cache

/-! ## Places -/

namespace CacheList

variable {cache : CacheList} {node : CacheNode} {key : CacheValue} {f : CacheList → CacheList}
  {n : ℕ}

/-- One more node. -/
@[simp] theorem length_snoc : (cache.snoc node).length = cache.length + 1 := by
  induction cache with
  | nil => rfl
  | cons _ _ _ next _ ih => rw [snoc, length, ih, length]

/-- Changing a node adds none. -/
theorem length_modify : (cache.modify key f).length = cache.length := by
  induction cache with
  | nil => rfl
  | cons key' val child next _ ih =>
    rw [modify]
    split_ifs
    · rfl
    · rw [length, ih, length]

/-- A place with a node is below the length. -/
theorem lt_length_of_nth (h : cache.nth n = some node) : n < cache.length := by
  induction cache generalizing n with
  | nil => cases h
  | cons key val child next _ ih =>
    rw [length]
    cases n with
    | zero => omega
    | succ n =>
      have := ih h
      omega

/-- The new node is the last one. -/
theorem nth_snoc_length : (cache.snoc node).nth cache.length = some node := by
  induction cache with
  | nil => rfl
  | cons _ _ _ next _ ih => exact ih

/-- The other nodes keep their places. -/
theorem nth_snoc {node' : CacheNode} (h : cache.nth n = some node') :
    (cache.snoc node).nth n = some node' := by
  induction cache generalizing n with
  | nil => cases h
  | cons key val child next _ ih =>
    cases n with
    | zero => exact h
    | succ n => exact ih h

/-- The other children stay as they are. -/
theorem nth_modify (h : cache.nth n = some node) (hkey : node.key ≠ key) :
    (cache.modify key f).nth n = some node := by
  induction cache generalizing n with
  | nil => cases h
  | cons key' val child next _ ih =>
    rw [modify]
    cases n with
    | zero =>
      obtain rfl := Option.some.inj h
      rw [if_neg hkey]
      rfl
    | succ n =>
      split_ifs
      · exact h
      · exact ih h

/-- As long as the numbers are places, they are unique. -/
theorem findPlace_eq_nth {place : ℕ} (h : place + cache.length ≤ 2 ^ 31) :
    cache.findPlace (place + n : ℕ) place = cache.nth n := by
  induction cache generalizing place n with
  | nil => rfl
  | cons key val child next _ ih =>
    rw [length] at h
    have hplace : toInt32 (place : ℤ) = place := toInt32_of_bounds (by omega) (by omega)
    rw [findPlace, hplace]
    cases n with
    | zero =>
      rw [if_pos (by omega)]
      rfl
    | succ n =>
      rw [if_neg (by omega), nth, ← ih (show place + 1 + next.length ≤ 2 ^ 31 by omega)]
      congr 1
      omega

end CacheList

/-! ## Adding a node -/

section

variable {cache : CacheList} {node : CacheNode} {key val : CacheValue} {f : CacheList → CacheList}
  {n : ℕ}

/-- A value that a node may have, and that can be copied. -/
def CacheValue.IsNodeValue (val : CacheValue) : Prop :=
  val.Copies ∧ match val with
    | .string _ | .number _ | .null => True
    | _ => False

/-- A node with a key and a value that can be copied is put at the end. -/
theorem insertNode_eq (hkey : key.Copies) (hne : key ≠ .error) (hval : val.IsNodeValue) :
    insertNode key val f cache = cache.snoc ⟨key, val, f .nil⟩ := by
  obtain ⟨hcopies, hval⟩ := hval
  unfold CacheValue.Copies at hkey hcopies
  have hinsert : (if adxCacheValueCopy key = .error ∨ adxCacheValueCopy val = .error then cache
      else cache.snoc ⟨adxCacheValueCopy key, adxCacheValueCopy val, f .nil⟩) =
        cache.snoc ⟨key, val, f .nil⟩ := by
    rw [hkey, hcopies, if_neg]
    rintro (h | h)
    · exact hne h
    · rw [h] at hval
      exact hval
  cases val with
  | unset => exact hval.elim
  | string => exact hinsert
  | number => exact hinsert
  | array => exact hval.elim
  | null => exact hinsert
  | error => exact hval.elim

/-- The value of a node is no error. -/
theorem CacheValue.IsNodeValue.ne_error (h : val.IsNodeValue) : val ≠ .error := by
  rintro rfl
  exact h.2

/-- An array gets a new child. -/
theorem adxCacheArrayAdd_eq (hval : val.IsNodeValue) :
    adxCacheArrayAdd val f cache = cache.snoc ⟨.array 0, val, f .nil⟩ := by
  have hne : ¬(CacheValue.array 0 = .error ∨ val = .error) :=
    not_or.mpr ⟨nofun, hval.ne_error⟩
  unfold adxCacheArrayAdd adxCacheAdd
  rw [if_neg hne]
  exact insertNode_eq rfl nofun hval

/-- A new key gets a new child. -/
theorem adxCacheAdd_of_findKey {string : Bytes} (hkey : (CacheValue.string string).Copies)
    (hval : val.IsNodeValue) (hnone : cache.findKey (.string string) = none) :
    adxCacheAdd (.string string) val f cache = cache.snoc ⟨.string string, val, f .nil⟩ := by
  have hne : ¬(CacheValue.string string = .error ∨ val = .error) :=
    not_or.mpr ⟨nofun, hval.ne_error⟩
  unfold adxCacheAdd
  rw [if_neg hne]
  dsimp only
  rw [hnone, if_neg (by simp)]
  exact insertNode_eq hkey nofun hval

/-- A node is linked, or the children of a node with a key are changed, or nothing is. -/
theorem adxCacheAdd_cases :
    adxCacheAdd key val f cache = cache ∨ (∃ node, adxCacheAdd key val f cache = cache.snoc node) ∨
      adxCacheAdd key val f cache = cache.modify key f ∧ ∀ index, key ≠ .array index := by
  -- a node that is not found is put behind the others, if it can be copied
  have hinsert : insertNode key val f cache = cache ∨
      ∃ node, insertNode key val f cache = cache.snoc node := by
    have hcopy : ∀ {p : Prop} [Decidable p] {node : CacheNode},
        (if p then cache else cache.snoc node) = cache ∨
          ∃ node', (if p then cache else cache.snoc node) = cache.snoc node' := by
      intro p _ node
      split_ifs
      · exact .inl rfl
      · exact .inr ⟨node, rfl⟩
    cases val with
    | unset => exact .inl rfl
    | string => exact hcopy
    | number => exact hcopy
    | array => exact .inl rfl
    | null => exact hcopy
    | error => exact .inl rfl
  -- only strings and numbers are looked for
  have hfind : (∀ index, key ≠ .array index) →
      (if (cache.findKey key).isSome then cache.modify key f else insertNode key val f cache) =
        cache ∨
      (∃ node, (if (cache.findKey key).isSome then cache.modify key f
        else insertNode key val f cache) = cache.snoc node) ∨
      (if (cache.findKey key).isSome then cache.modify key f else insertNode key val f cache) =
        cache.modify key f ∧ ∀ index, key ≠ .array index := by
    intro hkey
    split_ifs
    · exact .inr (.inr ⟨rfl, hkey⟩)
    · exact hinsert.imp_right .inl
  unfold adxCacheAdd
  by_cases herror : key = .error ∨ val = .error
  · rw [if_pos herror]
    exact .inl rfl
  · rw [if_neg herror]
    cases key with
    | unset => exact .inl rfl
    | string string => exact hfind fun index => nofun
    | number number => exact hfind fun index => nofun
    | array index => exact hinsert.imp_right .inl
    | null => exact .inl rfl
    | error => exact .inl rfl

/-- Adding a node makes the list at most one longer. -/
theorem length_adxCacheAdd_le : (adxCacheAdd key val f cache).length ≤ cache.length + 1 := by
  rcases @adxCacheAdd_cases cache key val f with
    h | ⟨node, h⟩ | ⟨h, -⟩
  · rw [h]
    omega
  · rw [h, CacheList.length_snoc]
  · rw [h, CacheList.length_modify]
    omega

/-- The elements that an array has stay as they are. -/
theorem nth_adxCacheAdd {index : ℤ} (h : cache.nth n = some node) (hkey : node.key = .array index) :
    (adxCacheAdd key val f cache).nth n = some node := by
  rcases @adxCacheAdd_cases cache key val f with
    heq | ⟨node', heq⟩ | ⟨heq, hne⟩
  · rwa [heq]
  · rw [heq]
    exact CacheList.nth_snoc h
  · rw [heq]
    exact CacheList.nth_modify h fun hsame => hne index (hsame.symm.trans hkey)

end

end Cache

end AdxDsp
