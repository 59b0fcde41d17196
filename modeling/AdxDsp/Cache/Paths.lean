import AdxDsp.Cache.FromJson
import AdxDsp.Cache.Splice
import AdxDsp.Lib.RunSort

/-!
# Paths in a cache

A path is a list of keys, from the children of a node downwards.  Some functions only add paths,
and each of them works below the node that another one has added.

* **Keys and numbers**: `str`, `getCacheFindNum`.
* **Children as a list**: `CacheList.toList`, and `adxListSort`, which sorts them.
* **Paths**: `CacheList.descend`, `CacheList.Occurs`.
* `Adds`, `KeepsEnds`: which paths a function adds, and what it keeps at the ends of paths.
-/

namespace AdxDsp

open CText

namespace Cache

open CacheHeap

/-! ## Keys and numbers -/

/-- A key of the source. -/
def str (s : String) : CacheValue := .string (bytes s)

/-- `adx_cache_value_to_number` -/
def valueToNumber : CacheValue → ℤ
  | .number number => number
  | _ => 0

/-- `GET_CACHE_FIND_NUM` -/
def getCacheFindNum (cache : CacheNode) (key : String) : ℤ :=
  (Cache.adxCacheFind cache (str key)).elim 0 fun node => valueToNumber node.val

/-- A short text is a key. -/
theorem isNodeKey_str {s : String} (h : (bytes s).length < 2 ^ 31 - 1) : IsNodeKey (str s) :=
  ⟨copies_string h, trivial⟩

/-- A number is a key. -/
theorem isNodeKey_number (number : ℤ) : IsNodeKey (.number number) := ⟨rfl, trivial⟩

/-- A number is a value of a node. -/
theorem isNodeValue_number (number : ℤ) : (CacheValue.number number).IsNodeValue := ⟨rfl, trivial⟩

/-! ## Children as a list -/

namespace CacheList

/-- The children in their order. -/
def toList : CacheList → List CacheNode
  | .nil => []
  | .cons key val child next => ⟨key, val, child⟩ :: next.toList

/-- The children of a list. -/
def ofList : List CacheNode → CacheList
  | [] => .nil
  | node :: nodes => .cons node.key node.val node.child (ofList nodes)

/-- The keys of the children. -/
def keys (cache : CacheList) : List CacheValue := cache.toList.map CacheNode.key

/-- The children of the child with a key. -/
def childrenOf (key : CacheValue) (cache : CacheList) : CacheList :=
  (cache.findKey key).elim .nil CacheNode.child

variable {cache : CacheList} {node : CacheNode} {key : CacheValue}

/-- A list of nodes as a cache and back. -/
@[simp] theorem toList_ofList (nodes : List CacheNode) : (ofList nodes).toList = nodes := by
  induction nodes with
  | nil => rfl
  | cons node nodes ih => rw [ofList, toList, ih]

/-- One more node at the end. -/
@[simp] theorem toList_snoc : (cache.snoc node).toList = cache.toList ++ [node] := by
  induction cache with
  | nil => rfl
  | cons _ _ _ next _ ih => rw [snoc, toList, toList, ih, List.cons_append]

/-- Changing a node keeps the keys. -/
@[simp] theorem keys_modify {f : CacheList → CacheList} :
    (cache.modify key f).keys = cache.keys := by
  induction cache with
  | nil => rfl
  | cons key' val child next _ ih =>
    rw [modify]
    split_ifs
    · rfl
    · rw [keys, toList, List.map_cons, keys, toList, List.map_cons]
      exact congrArg _ ih

/-- The search by key is one through the list. -/
theorem findKey_eq_find : cache.findKey key = cache.toList.find? fun node => node.key = key := by
  induction cache with
  | nil => rfl
  | cons key' val child next _ ih =>
    rw [findKey, toList, List.find?_cons]
    by_cases hkey : key' = key <;> simp [hkey, ih]

/-- A key is found just if it is there. -/
theorem isSome_findKey_iff : (cache.findKey key).isSome ↔ key ∈ cache.keys := by
  rw [findKey_eq_find, List.find?_isSome, keys, List.mem_map]
  simp

/-- What is found has the key. -/
theorem key_of_findKey (h : cache.findKey key = some node) : node.key = key := by
  rw [findKey_eq_find] at h
  simpa using List.find?_some h

end CacheList

/-- A node with other children. -/
def CacheNode.withChild (f : CacheList → CacheList) (node : CacheNode) : CacheNode :=
  ⟨node.key, node.val, f node.child⟩

/-- The children with a key are changed. -/
def CacheNode.changeAt (key : CacheValue) (f : CacheList → CacheList) (node : CacheNode) :
    CacheNode :=
  if node.key = key then node.withChild f else node

section

variable {key : CacheValue} {f : CacheList → CacheList} {cache : CacheList} {node : CacheNode}
  {nodes : List CacheNode}

/-- A changed node keeps its key. -/
@[simp] theorem CacheNode.key_changeAt : (node.changeAt key f).key = node.key := by
  rw [changeAt]
  split_ifs <;> rfl

/-- A changed node keeps its value. -/
@[simp] theorem CacheNode.val_changeAt : (node.changeAt key f).val = node.val := by
  rw [changeAt]
  split_ifs <;> rfl

/-- Without the key no node is changed. -/
theorem map_changeAt_of_notMem (h : ∀ node ∈ nodes, node.key ≠ key) :
    nodes.map (CacheNode.changeAt key f) = nodes := by
  refine (List.map_congr_left fun node hnode => ?_).trans (List.map_id nodes)
  rw [CacheNode.changeAt, if_neg (h node hnode)]
  rfl

/-- With each key once, there is no other child with the key. -/
theorem toList_modify (h : cache.keys.Nodup) :
    (cache.modify key f).toList = cache.toList.map (CacheNode.changeAt key f) := by
  induction cache with
  | nil => rfl
  | cons key' val child next _ ih =>
    obtain ⟨hnew, hnext⟩ := List.nodup_cons.mp h
    rw [CacheList.modify, CacheList.toList, List.map_cons, CacheNode.changeAt]
    by_cases hkey : key' = key
    · rw [if_pos hkey, if_pos hkey, map_changeAt_of_notMem]
      · rfl
      · intro node hnode hsame
        have hmem : node.key ∈ next.keys := List.mem_map_of_mem hnode
        rw [hsame, ← hkey] at hmem
        exact hnew hmem
    · rw [if_neg hkey, if_neg hkey, CacheList.toList, ih hnext]

end

/-- `adx_list_sort` of the children of a node, with a comparison; `size` is the number of its
partial lists. -/
def adxListSort (size : ℕ) (cmp : CacheNode → CacheNode → ℤ) (cache : CacheList) : CacheList :=
  .ofList (RunSort.sort (fun a b => cmp a b ≤ 0) (size - 2) cache.toList)

/-- Sorting loses no node. -/
theorem toList_adxListSort_perm (size : ℕ) (cmp : CacheNode → CacheNode → ℤ) (cache : CacheList) :
    (adxListSort size cmp cache).toList.Perm cache.toList := by
  rw [adxListSort, CacheList.toList_ofList]
  exact RunSort.sort_perm _

/-- The comparison of two prices, the higher one first. -/
def priceCmp (price : CacheNode → ℤ) (a b : CacheNode) : ℤ := if price a < price b then 1 else -1

/-- Sorting by price puts the dearest first. -/
theorem pairwise_adxListSort (size : ℕ) (price : CacheNode → ℤ) (cache : CacheList) :
    (adxListSort size (priceCmp price) cache).toList.Pairwise fun a b => price b ≤ price a := by
  have hle : ∀ a b, decide (priceCmp price a b ≤ 0) = true ↔ price b ≤ price a := by
    intro a b
    rw [decide_eq_true_iff, priceCmp]
    split_ifs with hlt
    · exact iff_of_false (by decide) (not_le.mpr hlt)
    · exact iff_of_true (by decide) (not_lt.mp hlt)
  rw [adxListSort, CacheList.toList_ofList]
  refine (RunSort.pairwise_sort ?_ ?_ _).imp fun h => (hle _ _).mp h
  · intro a b c hab hbc
    rw [hle] at hab hbc ⊢
    exact hbc.trans hab
  · intro a b
    rw [Bool.or_eq_true, hle, hle]
    exact le_total (price b) (price a)

/-! ## Adding a child by its key -/

section

variable {key key' val : CacheValue} {f : CacheList → CacheList} {cache : CacheList}
  {node : CacheNode}

/-- Changing a node leaves the others alone. -/
theorem findKey_modify_of_ne (h : key' ≠ key) :
    (cache.modify key f).findKey key' = cache.findKey key' := by
  induction cache with
  | nil => rfl
  | cons key₀ val child next _ ih =>
    rw [CacheList.modify]
    by_cases h₀ : key₀ = key
    · rw [if_pos h₀, CacheList.findKey, CacheList.findKey, if_neg (h₀ ▸ h.symm)]
      exact (if_neg (h₀ ▸ h.symm)).symm
    · rw [if_neg h₀, CacheList.findKey, CacheList.findKey, ih]

/-- The changed node has its new children. -/
theorem findKey_modify_self :
    (cache.modify key f).findKey key =
      (cache.findKey key).map fun node => ⟨node.key, node.val, f node.child⟩ := by
  induction cache with
  | nil => rfl
  | cons key₀ val child next _ ih =>
    rw [CacheList.modify]
    by_cases h₀ : key₀ = key
    · rw [if_pos h₀, CacheList.findKey, CacheList.findKey, if_pos h₀, if_pos h₀, Option.map_some]
    · rw [if_neg h₀, CacheList.findKey, CacheList.findKey, if_neg h₀, if_neg h₀, ih]

/-- With a key that is looked up, `adx_cache_add` changes the child with the key or adds one. -/
theorem adxCacheAdd_eq_ite (hkey : IsNodeKey key) (hval : val.IsNodeValue) :
    Cache.adxCacheAdd key val f cache =
      if key ∈ cache.keys then cache.modify key f else cache.snoc ⟨key, val, f .nil⟩ := by
  have hfind : (if (cache.findKey key).isSome then cache.modify key f
      else insertNode key val f cache) =
        if key ∈ cache.keys then cache.modify key f else cache.snoc ⟨key, val, f .nil⟩ := by
    rw [insertNode_eq hkey.1 hkey.ne_error hval]
    exact if_congr CacheList.isSome_findKey_iff rfl rfl
  unfold Cache.adxCacheAdd
  rw [if_neg (not_or.mpr ⟨hkey.ne_error, hval.ne_error⟩)]
  cases key with
  | string => exact hfind
  | number => exact hfind
  | unset => exact hkey.2.elim
  | array => exact hkey.2.elim
  | null => exact hkey.2.elim
  | error => exact hkey.2.elim

/-- The keys with the new one behind them. -/
theorem keys_adxCacheAdd (hkey : IsNodeKey key) (hval : val.IsNodeValue) :
    (Cache.adxCacheAdd key val f cache).keys =
      if key ∈ cache.keys then cache.keys else cache.keys ++ [key] := by
  rw [adxCacheAdd_eq_ite hkey hval]
  split_ifs
  · exact CacheList.keys_modify
  · rw [CacheList.keys, CacheList.toList_snoc, List.map_append]
    rfl

/-- Adding a node keeps the keys distinct. -/
theorem nodup_keys_adxCacheAdd (hkey : IsNodeKey key) (hval : val.IsNodeValue)
    (h : cache.keys.Nodup) : (Cache.adxCacheAdd key val f cache).keys.Nodup := by
  rw [keys_adxCacheAdd hkey hval]
  split_ifs with hmem
  · exact h
  · exact List.Nodup.append h (List.nodup_singleton key) (by simpa using hmem)

/-- Under a missing key there is nothing. -/
theorem childrenOf_of_notMem (h : key ∉ cache.keys) : cache.childrenOf key = .nil := by
  have hnone : cache.findKey key = none :=
    Option.not_isSome_iff_eq_none.mp (mt CacheList.isSome_findKey_iff.mp h)
  rw [CacheList.childrenOf, hnone]
  rfl

/-- The child with the key is there, with what the caller does to its children. -/
theorem findKey_adxCacheAdd (hkey : IsNodeKey key) (hval : val.IsNodeValue) :
    ((Cache.adxCacheAdd key val f cache).findKey key).map CacheNode.child =
      some (f (cache.childrenOf key)) := by
  rw [adxCacheAdd_eq_ite hkey hval]
  split_ifs with hmem
  · obtain ⟨node, hnode⟩ := Option.isSome_iff_exists.mp (CacheList.isSome_findKey_iff.mpr hmem)
    rw [findKey_modify_self, CacheList.childrenOf, hnode]
    rfl
  · have hnone : cache.findKey key = none :=
      Option.not_isSome_iff_eq_none.mp (mt CacheList.isSome_findKey_iff.mp hmem)
    rw [findKey_snoc, hnone, childrenOf_of_notMem hmem, if_pos rfl]
    rfl

/-- The other children are as before. -/
theorem findKey_adxCacheAdd_of_ne (hkey : IsNodeKey key) (hval : val.IsNodeValue)
    (h : key' ≠ key) :
    (Cache.adxCacheAdd key val f cache).findKey key' = cache.findKey key' := by
  rw [adxCacheAdd_eq_ite hkey hval]
  split_ifs
  · exact findKey_modify_of_ne h
  · rw [findKey_snoc, if_neg h.symm, Option.or_none]

end

/-! ## Paths -/

namespace CacheList

/-- The children of the node at the end of a path. -/
def descend : List CacheValue → CacheList → Option CacheList
  | [], cache => some cache
  | key :: path, cache => ((cache.findKey key).map CacheNode.child).bind (descend path)

/-- There is a node at the end of the path. -/
def Occurs (path : List CacheValue) (cache : CacheList) : Prop := (descend path cache).isSome

instance (path : List CacheValue) (cache : CacheList) : Decidable (Occurs path cache) :=
  inferInstanceAs (Decidable ((descend path cache).isSome = true))

variable {cache : CacheList} {key : CacheValue} {path path' : List CacheValue}

@[simp] theorem occurs_nil : Occurs [] cache := rfl

/-- Going down a path in two parts. -/
theorem descend_append :
    descend (path ++ path') cache = (descend path cache).bind (descend path') := by
  induction path generalizing cache with
  | nil => rfl
  | cons key path ih =>
    rw [List.cons_append, descend, descend, Option.bind_assoc]
    exact Option.bind_congr fun child _ => ih

/-- A path in two parts occurs if the second one does below the first. -/
theorem occurs_append_iff :
    Occurs (path ++ path') cache ↔
      ∃ child, descend path cache = some child ∧ Occurs path' child := by
  rw [Occurs, descend_append]
  cases descend path cache <;> simp [Occurs]

/-- A path of one key. -/
theorem occurs_singleton_iff : Occurs [key] cache ↔ key ∈ cache.keys := by
  rw [← isSome_findKey_iff, Occurs, descend]
  cases cache.findKey key <;> simp [descend]

/-- A path by its first key. -/
theorem occurs_cons_iff :
    Occurs (key :: path) cache ↔ key ∈ cache.keys ∧ Occurs path (cache.childrenOf key) := by
  rw [← isSome_findKey_iff, Occurs, descend, childrenOf]
  cases cache.findKey key <;> simp [Occurs]

/-- An empty cache has no paths. -/
theorem descend_nil_eq : descend (key :: path) .nil = none := rfl

end CacheList

open CacheList

/-! ## Functions that add paths -/

/-- The function adds the paths of `T` and what they start with; only paths up to a length
matter. -/
def Adds (n : ℕ) (T : Set (List CacheValue)) (f : CacheList → CacheList) : Prop :=
  ∀ cache path, path.length ≤ n → (Occurs path (f cache) ↔ Occurs path cache ∨ ∃ t ∈ T, path <+: t)

/-- What holds at the ends of all paths of a length still holds there. -/
def KeepsEnds (d : ℕ) (P : CacheList → Prop) (f : CacheList → CacheList) : Prop :=
  ∀ cache, (∀ path, path.length = d → ∀ leaf ∈ descend path cache, P leaf) →
    ∀ path, path.length = d → ∀ leaf ∈ descend path (f cache), P leaf

section

variable {n d : ℕ} {T : Set (List CacheValue)} {P : CacheList → Prop} {f : CacheList → CacheList}
  {key : CacheValue} {ι : Type} {F : ι → CacheList → CacheList} {l : List ι}

/-- Below a node that is added, the paths get its key. -/
theorem Adds.add (h : Adds n T f) (hkey : IsNodeKey key) (hT : T.Nonempty) :
    Adds (n + 1) ((key :: ·) '' T) (Cache.adxCacheAdd key .null f) := by
  intro cache path hlen
  obtain ⟨t, ht⟩ := hT
  -- a path through the new node is one through its children
  cases path with
  | nil => exact iff_of_true rfl (.inl rfl)
  | cons key' path =>
    by_cases hkey' : key' = key
    · subst hkey'
      have hnew : Occurs (key' :: path) (Cache.adxCacheAdd key' .null f cache) ↔
          Occurs path (f (cache.childrenOf key')) := by
        rw [Occurs, descend, findKey_adxCacheAdd hkey isNodeValue_null]
        rfl
      rw [hnew, h _ path (by simpa using hlen), occurs_cons_iff]
      have himage : (∃ t ∈ (key' :: ·) '' T, key' :: path <+: t) ↔ ∃ t ∈ T, path <+: t := by
        simp
      rw [himage]
      by_cases hmem : key' ∈ cache.keys
      · simp [hmem]
      · rw [childrenOf_of_notMem hmem]
        cases path with
        | nil => simp [hmem, show ∃ t, t ∈ T from ⟨t, ht⟩]
        | cons => simp [hmem, Occurs, descend_nil_eq]
    -- another key is where it was
    · have hold : Occurs (key' :: path) (Cache.adxCacheAdd key .null f cache) ↔
          Occurs (key' :: path) cache := by
        rw [Occurs, descend, findKey_adxCacheAdd_of_ne hkey isNodeValue_null hkey']
        rfl
      rw [hold]
      simp [hkey']

/-- A loop adds what its turns add. -/
theorem Adds.foldl {T : ι → Set (List CacheValue)} (h : ∀ a ∈ l, Adds n (T a) (F a)) :
    Adds n (⋃ a ∈ l, T a) fun cache => l.foldl (fun cache a => F a cache) cache := by
  induction l with
  | nil => simp [Adds]
  | cons a l ih =>
    obtain ⟨ha, hl⟩ := List.forall_mem_cons.mp h
    intro cache path hlen
    refine (ih hl (F a cache) path hlen).trans ?_
    rw [ha cache path hlen, or_assoc]
    refine or_congr_right ?_
    simp only [Set.mem_iUnion, List.mem_cons, exists_prop]
    constructor
    · rintro (⟨t, ht, hpath⟩ | ⟨t, ⟨b, hb, ht⟩, hpath⟩)
      · exact ⟨t, ⟨a, .inl rfl, ht⟩, hpath⟩
      · exact ⟨t, ⟨b, .inr hb, ht⟩, hpath⟩
    · rintro ⟨t, ⟨b, rfl | hb, ht⟩, hpath⟩
      · exact .inl ⟨t, ht, hpath⟩
      · exact .inr ⟨t, ⟨b, hb, ht⟩, hpath⟩

/-- Adding a node keeps the ends that are one level further up. -/
theorem KeepsEnds.add (h : KeepsEnds d P f) (hkey : IsNodeKey key) (hnil : P .nil) :
    KeepsEnds (d + 1) P (Cache.adxCacheAdd key .null f) := by
  intro cache hcache path hlen leaf hleaf
  cases path with
  | nil => cases hlen
  | cons key' path =>
    by_cases hkey' : key' = key
    · subst hkey'
      rw [descend, findKey_adxCacheAdd hkey isNodeValue_null, Option.bind_some] at hleaf
      refine h _ (fun path' hlen' leaf' hleaf' => ?_) path (by simpa using hlen) leaf hleaf
      by_cases hmem : key' ∈ cache.keys
      · obtain ⟨node, hnode⟩ :=
          Option.isSome_iff_exists.mp (CacheList.isSome_findKey_iff.mpr hmem)
        refine hcache (key' :: path') (by simp [hlen']) leaf' ?_
        rw [childrenOf, hnode] at hleaf'
        rw [descend, hnode]
        exact hleaf'
      · rw [childrenOf_of_notMem hmem] at hleaf'
        cases path' with
        | nil =>
          cases hleaf'
          exact hnil
        | cons => cases hleaf'
    · rw [descend, findKey_adxCacheAdd_of_ne hkey isNodeValue_null hkey'] at hleaf
      exact hcache (key' :: path) hlen leaf hleaf

/-- A loop keeps the ends that its turns keep. -/
theorem KeepsEnds.foldl (h : ∀ a ∈ l, KeepsEnds d P (F a)) :
    KeepsEnds d P fun cache => l.foldl (fun cache a => F a cache) cache := by
  induction l with
  | nil => exact fun cache hcache => hcache
  | cons a l ih =>
    obtain ⟨ha, hl⟩ := List.forall_mem_cons.mp h
    exact fun cache hcache => ih hl (F a cache) (ha cache hcache)

end

end Cache

end AdxDsp
