import AdxDsp.Lib.Bytes
import AdxDsp.Lib.RedBlack

/-!
# The children of a node of the tracker's cache

`adx_cache_add` links a child into a list, and into one of two red-black trees of `adx_rbtree.c`.
The tree of the numbers compares them as `int`, and a key is a `long`.

* `adxCacheFind_eq`: a lookup finds the first child whose key looks the same to the trees.
* `correct_iff`: the keys that are not confused.
-/

namespace AdxDsp

open CText

namespace TrackerCache

/-- The keys of children. -/
inductive CacheKey where
  | string (string : Bytes)
  | number (number : ℤ)
  deriving DecidableEq

/-- `adx_cache_value_t`, as the value of a child. -/
inductive CacheValue where
  | string (string : Bytes)
  | number (number : ℤ)
  | null
  | error
  deriving DecidableEq

/-- A child, as its own fields. -/
structure CacheNode where
  key : CacheKey
  value : CacheValue
  deriving DecidableEq

/-- The fields of `adx_cache_t` that hold the children.  In the trees, a child is named by its place
in the list. -/
structure CacheChildren where
  childTotal : ℤ
  childList : List CacheNode
  childTreeString : RbTree (Bytes × ℕ)
  childTreeNumber : RbTree (ℤ × ℕ)
  deriving DecidableEq

/-- `adx_cache_create` -/
def adxCacheCreate : CacheChildren := ⟨0, [], .leaf, .leaf⟩

/-- `adx_rbtree_string_find` -/
def adxRbtreeStringFind (head : RbTree (Bytes × ℕ)) (key : Bytes) : Option ℕ :=
  (head.find Prod.fst key).map Prod.snd

/-- `adx_rbtree_number_find` -/
def adxRbtreeNumberFind (head : RbTree (ℤ × ℕ)) (key : ℤ) : Option ℕ :=
  (head.find Prod.fst key).map Prod.snd

/-- `adx_rbtree_string_add`, whose result is not used. -/
def adxRbtreeStringAdd (head : RbTree (Bytes × ℕ)) (string : Bytes) (node : ℕ) :
    Option (RbTree (Bytes × ℕ)) :=
  head.add Prod.fst (string, node)

/-- `adx_rbtree_number_add` -/
def adxRbtreeNumberAdd (head : RbTree (ℤ × ℕ)) (number : ℤ) (node : ℕ) :
    Option (RbTree (ℤ × ℕ)) :=
  head.add Prod.fst (number, node)

/-- `adx_cache_find`; the number of the key becomes an `int`. -/
def adxCacheFind (cache : CacheChildren) : CacheKey → Option ℕ
  | .string string => adxRbtreeStringFind cache.childTreeString string
  | .number number => adxRbtreeNumberFind cache.childTreeNumber (toInt32 number)

/-- `adx_cache_buf_copy`: there is no copy of a text whose length and its successor are no positive
`int`. -/
def adxCacheBufCopy (src : Bytes) : Option Bytes :=
  let len := toInt32 src.length
  if 0 ≤ len ∧ len < 2 ^ 31 - 1 then some (src.take len.toNat) else none

/-- The copy of a key. -/
def copyKey : CacheKey → Option CacheKey
  | .string string => (adxCacheBufCopy string).map .string
  | .number number => some (.number number)

/-- The copy of a value; an error is passed on. -/
def copyValue : CacheValue → Option CacheValue
  | .string string => (adxCacheBufCopy string).map .string
  | value => some value

/-- The end of `adx_cache_add`: a child is put into the list and into its tree. -/
def linkNode (cache : CacheChildren) (node : CacheNode) : Option CacheChildren :=
  let place := cache.childList.length
  let childTotal := toInt32 (cache.childTotal + 1)
  let childList := cache.childList ++ [node]
  match node.key with
  | .string string =>
    (adxRbtreeStringAdd cache.childTreeString string place).map fun tree =>
      { cache with childTotal, childList, childTreeString := tree }
  | .number number =>
    (adxRbtreeNumberAdd cache.childTreeNumber (toInt32 number) place).map fun tree =>
      { cache with childTotal, childList, childTreeNumber := tree }

/-- `adx_cache_add`: the children afterwards and the child that is returned; nothing if a copy fails
or a pointer that is `NULL` is followed. -/
def adxCacheAdd (cache : CacheChildren) (key : CacheKey) (value : CacheValue) :
    Option (CacheChildren × Option ℕ) :=
  match adxCacheFind cache key with
  | some node => some (cache, some node)
  | none => do
    let key ← copyKey key
    let value ← copyValue value
    if value = .error then return (cache, none)
    else
      let place := cache.childList.length
      let cache ← linkNode cache ⟨key, value⟩
      return (cache, some place)

/-- A sequence of calls on a new node. -/
def adxCacheAdds (adds : List (CacheKey × CacheValue)) : Option CacheChildren :=
  adds.foldlM (fun cache add => (adxCacheAdd cache add.1 add.2).map Prod.fst) adxCacheCreate

/-! ## What the trees hold -/

/-- A key as the trees compare it. -/
def CacheKey.tag : CacheKey → CacheKey
  | .string s => .string s
  | .number n => .number (toInt32 n)

/-- The children of a list that have a key of some kind, with their places. -/
def entries {β : Type} (p : CacheKey → Option β) (l : List CacheNode) : List (β × ℕ) :=
  l.zipIdx.filterMap fun node => (p node.1.key).map fun b => (b, node.2)

/-- The text of a key. -/
def CacheKey.text : CacheKey → Option Bytes
  | .string s => some s
  | .number _ => none

/-- The number of a key, as an `int`. -/
def CacheKey.low : CacheKey → Option ℤ
  | .string _ => none
  | .number n => some (toInt32 n)

section

variable {β : Type} {p : CacheKey → Option β} {l : List CacheNode} {node : CacheNode}
  {cache cache' : CacheChildren} {key k : CacheKey} {value : CacheValue}

/-- The entries of the index after one more node. -/
theorem entries_concat : entries p (l ++ [node]) =
    entries p l ++ ((p node.key).map fun b => (b, l.length)).toList := by
  rw [entries, List.zipIdx_append, List.filterMap_append, ← entries]
  cases h : p node.key <;> simp [h]

/-- The first entry with a key is that of the first child with it. -/
theorem find?_entries [DecidableEq β] (b : β) :
    ((entries p l).find? fun e => e.1 = b).map Prod.snd =
      l.findIdx? fun node => p node.key = some b := by
  induction l using List.reverseRecOn with
  | nil => rfl
  | append_singleton l node ih =>
    -- the new node has the last place, so that it is found only if no other is
    rw [entries_concat, List.find?_append, List.findIdx?_append, ← ih, List.findIdx?_singleton]
    cases hold : (entries p l).find? fun e => e.1 = b with
    | some e => rfl
    | none =>
      rw [Option.none_or, Option.map_none, Option.none_or]
      cases hp : p node.key with
      | none => simp
      | some c => by_cases hc : c = b <;> simp [hc]

/-- The trees hold the children of the list. -/
structure Linked (cache : CacheChildren) : Prop where
  childTotal : cache.childTotal = toInt32 cache.childList.length
  string : RbTree.addAll Prod.fst (entries CacheKey.text cache.childList) =
    some cache.childTreeString
  number : RbTree.addAll Prod.fst (entries CacheKey.low cache.childList) =
    some cache.childTreeNumber

/-- A new cache is linked. -/
theorem linked_adxCacheCreate : Linked adxCacheCreate := ⟨rfl, rfl, rfl⟩

/-- A lookup finds the first child whose key looks the same to the trees. -/
theorem Linked.adxCacheFind_eq (h : Linked cache) (k : CacheKey) :
    adxCacheFind cache k = cache.childList.findIdx? fun node => node.key.tag = k.tag := by
  cases k with
  | string s =>
    obtain ⟨t, ht, -, hfind⟩ := RbTree.find_addAll Prod.fst
      (entries CacheKey.text cache.childList)
    obtain rfl := Option.some.inj (h.string.symm.trans ht)
    rw [adxCacheFind, adxRbtreeStringFind, hfind, find?_entries]
    -- a child is found by its text exactly if it is by its tag
    congr 1
    funext node
    cases hk : node.key <;> simp [CacheKey.text, CacheKey.tag]
  | number n =>
    obtain ⟨t, ht, -, hfind⟩ := RbTree.find_addAll Prod.fst
      (entries CacheKey.low cache.childList)
    obtain rfl := Option.some.inj (h.number.symm.trans ht)
    rw [adxCacheFind, adxRbtreeNumberFind, hfind, find?_entries]
    congr 1
    funext node
    cases hk : node.key <;> simp [CacheKey.low, CacheKey.tag]

/-- Building the index of one more node. -/
theorem addAll_entries_concat [Ord β] (node : CacheNode) {t : RbTree (β × ℕ)}
    (h : RbTree.addAll Prod.fst (entries p l) = some t) :
    RbTree.addAll Prod.fst (entries p (l ++ [node])) =
      match p node.key with
      | some b => t.add Prod.fst (b, l.length)
      | none => some t := by
  rw [entries_concat, RbTree.addAll, List.foldlM_append, ← RbTree.addAll, h]
  cases p node.key <;> simp

/-- Linking a node at the end of the list and in its index. -/
theorem Linked.linkNode (h : Linked cache) (node : CacheNode) :
    ∃ cache', linkNode cache node = some cache' ∧ Linked cache' ∧
      cache'.childList = cache.childList ++ [node] := by
  -- the counter goes on as an `int`, also behind the greatest one
  have htotal : toInt32 (cache.childTotal + 1) = toInt32 (cache.childList ++ [node]).length := by
    rw [h.childTotal, List.length_append, List.length_singleton, Nat.cast_add, Nat.cast_one,
      toInt32_eq, toInt32_eq, toInt32_eq]
    split_ifs <;> omega
  have hstring := addAll_entries_concat node h.string
  have hnumber := addAll_entries_concat node h.number
  obtain ⟨key, value⟩ := node
  cases key with
  | string s =>
    obtain ⟨t, ht, -⟩ := RbTree.find_addAll Prod.fst
      (entries CacheKey.text (cache.childList ++ [⟨.string s, value⟩]))
    have hadd : adxRbtreeStringAdd cache.childTreeString s cache.childList.length = some t :=
      hstring.symm.trans ht
    exact ⟨_, congrArg (Option.map _) hadd, ⟨htotal, ht, hnumber⟩, rfl⟩
  | number n =>
    obtain ⟨t, ht, -⟩ := RbTree.find_addAll Prod.fst
      (entries CacheKey.low (cache.childList ++ [⟨.number n, value⟩]))
    have hadd : adxRbtreeNumberAdd cache.childTreeNumber (toInt32 n) cache.childList.length =
        some t := hnumber.symm.trans ht
    exact ⟨_, congrArg (Option.map _) hadd, ⟨htotal, hstring, ht⟩, rfl⟩

/-! ## A call -/

/-- A text that was copied has a length that is an `int`. -/
theorem adxCacheBufCopy_eq_some {src buf : Bytes} (h : adxCacheBufCopy src = some buf) :
    buf.length < 2 ^ 31 - 1 := by
  rw [adxCacheBufCopy] at h
  split_ifs at h with hlen
  obtain rfl := Option.some.inj h
  have := List.length_take_le (toInt32 src.length).toNat src
  omega

/-- A text whose length is an `int`, with its end, is copied. -/
theorem adxCacheBufCopy_of_lt {src : Bytes} (h : src.length < 2 ^ 31 - 1) :
    adxCacheBufCopy src = some src := by
  have hint : toInt32 (src.length : ℤ) = src.length := toInt32_of_bounds (by omega) (by omega)
  rw [adxCacheBufCopy, hint, if_pos ⟨by omega, by omega⟩, Int.toNat_natCast, List.take_length]

/-- Copying makes no errors. -/
theorem copyValue_eq_error (h : copyValue value = some .error) : value = .error := by
  cases value with
  | string s =>
    obtain ⟨_, -, hcopy⟩ := Option.map_eq_some_iff.mp h
    cases hcopy
  | number n => cases h
  | null => cases h
  | error => rfl

/-- A key looks to the trees like that of some child. -/
def Confused (cache : CacheChildren) (key : CacheKey) : Prop :=
  ∃ node ∈ cache.childList, node.key.tag = key.tag

/-- What a call does: a key that looks like one that is there changes nothing, and neither does an
error; every other key is linked. -/
theorem Linked.adxCacheAdd_cases (h : Linked cache) {r : CacheChildren × Option ℕ}
    (hadd : adxCacheAdd cache key value = some r) :
    Linked r.1 ∧ ((Confused cache key ∨ value = .error) ∧ r.1 = cache ∨
      ¬Confused cache key ∧ value ≠ .error ∧ ∃ key' value', copyKey key = some key' ∧
        r.1.childList = cache.childList ++ [⟨key', value'⟩]) := by
  rw [adxCacheAdd, h.adxCacheFind_eq] at hadd
  split at hadd
  -- a child looks the same, and the call returns it
  · rename_i place hplace
    obtain rfl := Option.some.inj hadd
    have hsome : (cache.childList.findIdx? fun node => node.key.tag = key.tag).isSome := by
      rw [hplace]
      rfl
    rw [List.findIdx?_isSome, List.any_eq_true] at hsome
    obtain ⟨node, hnode, htag⟩ := hsome
    exact ⟨h, .inl ⟨.inl ⟨node, hnode, of_decide_eq_true htag⟩, rfl⟩⟩
  -- no child does, and the copies are linked
  · rename_i hnone
    rw [List.findIdx?_eq_none_iff] at hnone
    have hnot : ¬Confused cache key := by
      rintro ⟨node, hnode, htag⟩
      exact of_decide_eq_false (hnone node hnode) htag
    obtain ⟨key', hkey, hadd⟩ := Option.bind_eq_some_iff.mp hadd
    obtain ⟨value', hvalue, hadd⟩ := Option.bind_eq_some_iff.mp hadd
    split_ifs at hadd with herror
    · obtain rfl := Option.some.inj hadd
      rw [herror] at hvalue
      exact ⟨h, .inl ⟨.inr (copyValue_eq_error hvalue), rfl⟩⟩
    · obtain ⟨cache', hlink, hlinked, hlist⟩ := h.linkNode ⟨key', value'⟩
      rw [hlink] at hadd
      obtain rfl := Option.some.inj hadd
      refine ⟨hlinked, .inr ⟨hnot, ?_, key', value', hkey, hlist⟩⟩
      rintro rfl
      exact herror (Option.some.inj hvalue).symm

/-! ## A sequence of calls -/

/-- Two numbers that the trees tell apart. -/
def Apart (a b : CacheKey) : Prop :=
  ∀ m n, a = .number m → b = .number n → toInt32 m ≠ toInt32 n

instance : Std.Symm Apart := ⟨fun _ _ h m n hm hn heq => h n m hn hm heq.symm⟩

/-- The children after a sequence of calls. -/
structure Reached (cache : CacheChildren) : Prop where
  linked : Linked cache
  short : ∀ node ∈ cache.childList, ∀ s, node.key = .string s → s.length < 2 ^ 31 - 1
  apart : (cache.childList.map (·.key)).Pairwise Apart

/-- The new cache is reached. -/
theorem reached_adxCacheCreate : Reached adxCacheCreate :=
  ⟨linked_adxCacheCreate, by simp [adxCacheCreate], .nil⟩

/-- What is added to a reached cache is reached. -/
theorem Reached.adxCacheAdd (h : Reached cache) {r : CacheChildren × Option ℕ}
    (hadd : adxCacheAdd cache key value = some r) : Reached r.1 := by
  obtain ⟨hlinked, ⟨-, heq⟩ | ⟨hnot, -, key', value', hcopy, hlist⟩⟩ :=
    h.linked.adxCacheAdd_cases hadd
  · rwa [heq]
  · refine ⟨hlinked, fun node hnode s hs => ?_, ?_⟩
    · rw [hlist] at hnode
      rcases List.mem_append.mp hnode with hnode | hnode
      · exact h.short node hnode s hs
      · obtain rfl := List.mem_singleton.mp hnode
        cases key with
        | string t =>
          obtain ⟨buf, hbuf, rfl⟩ := Option.map_eq_some_iff.mp hcopy
          cases hs
          exact adxCacheBufCopy_eq_some hbuf
        | number n =>
          obtain rfl := Option.some.inj hcopy
          cases hs
    · rw [hlist, List.map_append, List.pairwise_append]
      refine ⟨h.apart, List.pairwise_singleton _ _, ?_⟩
      rintro a ha b hb m n rfl rfl heq
      obtain ⟨node, hnode, hkey⟩ := List.mem_map.mp ha
      -- only a number is copied as this number
      have hkey' : key = .number n := by
        obtain rfl := List.mem_singleton.mp hb
        cases key with
        | string t =>
          obtain ⟨buf, -, hbuf⟩ := Option.map_eq_some_iff.mp hcopy
          cases hbuf
        | number n' => exact Option.some.inj hcopy
      refine hnot ⟨node, hnode, ?_⟩
      rw [hkey, hkey', CacheKey.tag, CacheKey.tag, heq]

/-- One more addition. -/
theorem adxCacheAdds_concat {adds : List (CacheKey × CacheValue)} {add : CacheKey × CacheValue} :
    adxCacheAdds (adds ++ [add]) = (adxCacheAdds adds).bind fun cache =>
      (TrackerCache.adxCacheAdd cache add.1 add.2).map Prod.fst := by
  rw [adxCacheAdds, List.foldlM_append]
  simp [adxCacheAdds]

/-- The call that is the last of a sequence. -/
theorem exists_of_adxCacheAdds_concat {adds : List (CacheKey × CacheValue)}
    {add : CacheKey × CacheValue} (h : adxCacheAdds (adds ++ [add]) = some cache') :
    ∃ cache r, adxCacheAdds adds = some cache ∧
      TrackerCache.adxCacheAdd cache add.1 add.2 = some r ∧ cache' = r.1 := by
  rw [adxCacheAdds_concat] at h
  obtain ⟨cache, hcache, hadd⟩ := Option.bind_eq_some_iff.mp h
  obtain ⟨r, hr, rfl⟩ := Option.map_eq_some_iff.mp hadd
  exact ⟨cache, r, hcache, hr, rfl⟩

/-- The additions reach what they make. -/
theorem reached_adxCacheAdds {adds : List (CacheKey × CacheValue)}
    (h : adxCacheAdds adds = some cache) : Reached cache := by
  induction adds using List.reverseRecOn generalizing cache with
  | nil =>
    obtain rfl := Option.some.inj h
    exact reached_adxCacheCreate
  | append_singleton adds add ih =>
    obtain ⟨cache, r, hcache, hr, rfl⟩ := exists_of_adxCacheAdds_concat h
    exact (ih hcache).adxCacheAdd hr

end

/-! ## The keys that are found -/

section

variable (cache : CacheChildren) (adds : List (CacheKey × CacheValue)) (k : CacheKey)

/-- The keys that children have been created with; a call with an error as its value creates
none. -/
def addedKeys : List CacheKey := (adds.filter fun add => add.2 ≠ .error).map Prod.fst

/-- The list has a child for each key, in the order in which they came first, and a lookup gives the
child of its key. -/
structure Correct : Prop where
  find : adxCacheFind cache k = (addedKeys adds).eraseDups.idxOf? k
  childList : cache.childList.map (·.key) = (addedKeys adds).eraseDups
  childTotal : cache.childTotal = (addedKeys adds).eraseDups.length

/-- No two numbers, among those that have been added and the one that is looked up, agree in their
low 32 bits, and all texts and the number of keys are short enough for an `int`. -/
structure Distinguished : Prop where
  number : ∀ m n, (.number m ∈ addedKeys adds ∨ k = .number m) → .number n ∈ addedKeys adds →
    toInt32 m = toInt32 n → m = n
  string : ∀ s, .string s ∈ addedKeys adds → s.length < 2 ^ 31 - 1
  total : (addedKeys adds).eraseDups.length < 2 ^ 31

end

section

variable {cache : CacheChildren} {adds : List (CacheKey × CacheValue)} {k : CacheKey}

/-- A list of children that is right has no two numbers that the trees confuse. -/
theorem Reached.number_eq (h : Reached cache)
    (hlist : cache.childList.map (·.key) = (addedKeys adds).eraseDups) {m n : ℤ}
    (hm : .number m ∈ addedKeys adds) (hn : .number n ∈ addedKeys adds)
    (heq : toInt32 m = toInt32 n) : m = n := by
  have hapart := h.apart
  rw [hlist] at hapart
  by_contra hne
  have hkeys : CacheKey.number m ≠ .number n := fun h => hne (CacheKey.number.inj h)
  exact hapart.forall (List.mem_eraseDups.mpr hm) (List.mem_eraseDups.mpr hn) hkeys m n rfl rfl heq

/-- If the cache is correct for a key, no other added key looks like it. -/
theorem distinguished_of_correct (h : adxCacheAdds adds = some cache)
    (hc : Correct cache adds k) : Distinguished adds k := by
  have hreached := reached_adxCacheAdds h
  refine ⟨fun m n hm hn heq => ?_, fun s hs => ?_, ?_⟩
  · rcases hm with hm | rfl
    · exact hreached.number_eq hc.childList hm hn heq
    · -- the lookup finds the child of `n`, and so `m` has been added
      have hfind := hc.find
      rw [hreached.linked.adxCacheFind_eq] at hfind
      obtain ⟨node, hnode, hkey⟩ := List.mem_map.mp (hc.childList ▸ List.mem_eraseDups.mpr hn)
      have hsome : ((addedKeys adds).eraseDups.idxOf? (.number m)).isSome := by
        rw [← hfind, List.findIdx?_isSome, List.any_eq_true]
        exact ⟨node, hnode, decide_eq_true (by rw [hkey, CacheKey.tag, CacheKey.tag, heq])⟩
      rw [List.isSome_idxOf?, List.mem_eraseDups] at hsome
      exact hreached.number_eq hc.childList hsome hn heq
  · rw [← List.mem_eraseDups, ← hc.childList] at hs
    obtain ⟨node, hnode, hkey⟩ := List.mem_map.mp hs
    exact hreached.short node hnode s hkey
  · have htotal := hreached.linked.childTotal
    rw [hc.childTotal, ← hc.childList, List.length_map, toInt32_eq] at htotal
    rw [← hc.childList, List.length_map]
    split_ifs at htotal <;> omega

/-- The added keys after one more addition; an error adds none. -/
theorem addedKeys_concat {add : CacheKey × CacheValue} :
    addedKeys (adds ++ [add]) = addedKeys adds ++ if add.2 = .error then [] else [add.1] := by
  rw [addedKeys, List.filter_append, List.map_append, ← addedKeys]
  congr 1
  split_ifs with h <;> simp [h]

/-- The distinct ones of a list with one more. -/
theorem eraseDups_concat {l : List CacheKey} {key : CacheKey} :
    (l ++ [key]).eraseDups = l.eraseDups ++ if key ∈ l then [] else [key] := by
  rw [List.eraseDups_append]
  congr 1
  split_ifs with h
  · simp [List.removeAll, h]
  · simp [List.removeAll, h, List.eraseDups_cons]

/-- Keys that look the same are the same, if the numbers are. -/
theorem eq_of_tag_eq {a b : CacheKey} (h : a.tag = b.tag)
    (hnumber : ∀ m n, a = .number m → b = .number n → toInt32 m = toInt32 n → m = n) : a = b := by
  cases a with
  | string s =>
    cases b with
    | string t => exact h
    | number n => cases h
  | number m =>
    cases b with
    | string t => cases h
    | number n => rw [hnumber m n rfl rfl (CacheKey.number.inj h)]

/-- If no two keys look alike, the list has each added key once. -/
theorem childList_of_distinguished (h : adxCacheAdds adds = some cache)
    (hnumber : ∀ m n, .number m ∈ addedKeys adds → .number n ∈ addedKeys adds →
      toInt32 m = toInt32 n → m = n)
    (hstring : ∀ s, .string s ∈ addedKeys adds → s.length < 2 ^ 31 - 1) :
    cache.childList.map (·.key) = (addedKeys adds).eraseDups := by
  induction adds using List.reverseRecOn generalizing cache with
  | nil =>
    obtain rfl := Option.some.inj h
    rfl
  | append_singleton adds add ih =>
    obtain ⟨cache, r, hcache, hadd, rfl⟩ := exists_of_adxCacheAdds_concat h
    have hsub : ∀ key ∈ addedKeys adds, key ∈ addedKeys (adds ++ [add]) := by
      intro key hkey
      rw [addedKeys_concat]
      exact List.mem_append_left _ hkey
    have hlist := ih hcache
      (fun m n hm hn => hnumber m n (hsub _ hm) (hsub _ hn)) fun s hs => hstring s (hsub _ hs)
    obtain ⟨-, ⟨hsame, hr⟩ | ⟨hnot, hvalue, key', value', hcopy, hr⟩⟩ :=
      (reached_adxCacheAdds hcache).linked.adxCacheAdd_cases hadd
    · rw [hr, hlist, addedKeys_concat]
      split_ifs with herror
      · rw [List.append_nil]
      · -- the child with which the key is confused has that key
        obtain ⟨node, hnode, htag⟩ := hsame.resolve_right herror
        have hold : node.key ∈ addedKeys adds := by
          rw [← List.mem_eraseDups, ← hlist]
          exact List.mem_map_of_mem hnode
        have hnew : add.1 ∈ addedKeys (adds ++ [add]) := by
          rw [addedKeys_concat, if_neg herror]
          exact List.mem_append_right _ (List.mem_singleton_self _)
        have heq := eq_of_tag_eq htag fun m n hm hn =>
          hnumber m n (hm ▸ hsub _ hold) (hn ▸ hnew)
        rw [eraseDups_concat, if_pos (heq ▸ hold), List.append_nil]
    -- the key is that of no child, so that it is new, and its copy is the key
    · have hnew : add.1 ∉ addedKeys adds := by
        intro hmem
        rw [← List.mem_eraseDups, ← hlist] at hmem
        obtain ⟨node, hnode, hkey⟩ := List.mem_map.mp hmem
        exact hnot ⟨node, hnode, congrArg CacheKey.tag hkey⟩
      have hkey : key' = add.1 := by
        have hmem : add.1 ∈ addedKeys (adds ++ [add]) := by
          rw [addedKeys_concat, if_neg hvalue]
          exact List.mem_append_right _ (List.mem_singleton_self _)
        obtain ⟨key, value⟩ := add
        cases key with
        | string s =>
          rw [copyKey, adxCacheBufCopy_of_lt (hstring s hmem)] at hcopy
          exact (Option.some.inj hcopy).symm
        | number n => exact (Option.some.inj hcopy).symm
      rw [hr, List.map_append, hlist, addedKeys_concat, if_neg hvalue, eraseDups_concat,
        if_neg hnew, hkey]
      rfl

/-- The place depends on the test at the elements only. -/
theorem findIdx?_congr {l : List CacheNode} {p q : CacheNode → Bool}
    (h : ∀ node ∈ l, p node = q node) : l.findIdx? p = l.findIdx? q := by
  induction l with
  | nil => rfl
  | cons node l ih =>
    rw [List.findIdx?_cons, List.findIdx?_cons, h node List.mem_cons_self,
      ih fun node' hnode => h node' (List.mem_cons_of_mem _ hnode)]

/-- If no other added key looks like it, the cache is correct for a key. -/
theorem correct_of_distinguished (h : adxCacheAdds adds = some cache)
    (hd : Distinguished adds k) : Correct cache adds k := by
  have hlist := childList_of_distinguished h (fun m n hm => hd.number m n (.inl hm)) hd.string
  have hlinked := (reached_adxCacheAdds h).linked
  refine ⟨?_, hlist, ?_⟩
  · rw [hlinked.adxCacheFind_eq, ← hlist, List.idxOf?, List.findIdx?_map]
    refine findIdx?_congr fun node hnode => ?_
    have hmem : node.key ∈ addedKeys adds := by
      rw [← List.mem_eraseDups, ← hlist]
      exact List.mem_map_of_mem hnode
    rw [Function.comp_apply, Bool.eq_iff_iff, decide_eq_true_eq, beq_iff_eq]
    refine ⟨fun htag => (eq_of_tag_eq htag.symm fun m n hm hn => ?_).symm, fun h => by rw [h]⟩
    exact hd.number m n (.inr hm) (hn ▸ hmem)
  · rw [hlinked.childTotal, ← List.length_map (f := (·.key)), hlist]
    have := hd.total
    exact toInt32_of_bounds (by omega) (by omega)

/-- The children are right exactly if the trees can tell the keys apart. -/
theorem correct_iff (h : adxCacheAdds adds = some cache) :
    Correct cache adds k ↔ Distinguished adds k :=
  ⟨distinguished_of_correct h, correct_of_distinguished h⟩

/-- Numbers of which one is negative, and a text. -/
theorem correct_sample : ∃ cache,
    adxCacheAdds [(.number 7, .null), (.string [97], .number 1), (.number (-7), .null)] =
        some cache ∧
      (Correct cache [(.number 7, .null), (.string [97], .number 1), (.number (-7), .null)]
          (.number (-7)) ↔
        Distinguished [(.number 7, .null), (.string [97], .number 1), (.number (-7), .null)]
          (.number (-7))) :=
  ⟨_, rfl, correct_iff rfl⟩

/-- After the number 0, the number 2^32 is not added, and finds the child of 0. -/
theorem not_correct_confused : ¬∀ adds cache k, adxCacheAdds adds = some cache →
    Correct cache adds k := by
  intro h
  have hc := h [(.number 0, .null), (.number 4294967296, .null)] _ (.number 4294967296) rfl
  have hd := distinguished_of_correct rfl hc
  have heq := hd.number 4294967296 0 (.inr rfl) List.mem_cons_self (by decide)
  exact absurd heq (by decide)

end

end TrackerCache

end AdxDsp
