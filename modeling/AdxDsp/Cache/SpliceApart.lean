import AdxDsp.Cache.Paths

/-!
# Merging a tree that is apart

`adx_cache_splice` of a tree that has no node in common with the cache it is added to: a function on
the children of a node.  Children with a key are merged, elements of arrays are added once more.

* **The function**: `spliceApart`.
* **Trees that were built by `adx_cache_add`**: `Built`.
* `childrenOf_spliceApart`, `spliceApart_nil`: what is found below a key.
-/

namespace AdxDsp

open CText

namespace Cache

open CacheHeap CacheList

/-! ## The function -/

/-- `adx_cache_add` links a node behind its lookup. -/
def linksNode (key val : CacheValue) : Bool :=
  match val with
  | .string _ | .number _ | .null =>
    adxCacheValueCopy key ≠ .error ∧ adxCacheValueCopy val ≠ .error
  | _ => false

/-- `adx_cache_add` returns a node. -/
def returnsNode (key val : CacheValue) (cache : CacheList) : Bool :=
  if key = .error ∨ val = .error then false
  else match key with
    | .string _ | .number _ => (cache.findKey key).isSome || linksNode key val
    | .array _ => linksNode key val
    | _ => false

/-- `adx_cache_splice_r` for the children of a node in another tree; it ends where no node is
returned. -/
def spliceApart : CacheList → CacheList → CacheList
  | .nil, dest => dest
  | .cons key val child next, dest =>
    if returnsNode key val dest then
      spliceApart next (Cache.adxCacheAdd key val (spliceApart child) dest)
    else dest

/-- `adx_cache_splice`; the source may be `NULL`. -/
def spliceOption (src : Option CacheList) (dest : CacheList) : CacheList :=
  src.elim dest fun src => spliceApart src dest

/-! ## Lookups behind `adx_cache_add` -/

section

variable {key key' val : CacheValue} {f : CacheList → CacheList} {cache : CacheList}

/-- Under an added key the function has worked on its children. -/
theorem childrenOf_adxCacheAdd (hkey : IsNodeKey key) (hval : val.IsNodeValue) :
    childrenOf key (Cache.adxCacheAdd key val f cache) = f (childrenOf key cache) := by
  have hfound : ((Cache.adxCacheAdd key val f cache).findKey key).map CacheNode.child =
      some (f (childrenOf key cache)) := findKey_adxCacheAdd hkey hval
  obtain ⟨node, hnode, hchild⟩ := Option.map_eq_some_iff.mp hfound
  rw [childrenOf, hnode]
  exact hchild

/-- The copy of a text can be the value of a node. -/
theorem isNodeValue_copy {s : Bytes} (hne : adxCacheValueCopy (.string s) ≠ .error) :
    (adxCacheValueCopy (.string s)).IsNodeValue := by
  refine ⟨copies_adxCacheValueCopy hne, ?_⟩
  unfold adxCacheValueCopy at hne ⊢
  dsimp only at hne ⊢
  split_ifs at hne ⊢
  · trivial
  · exact absurd rfl hne

/-- Behind the lookup nothing is linked, or a node with the key. -/
theorem insertNode_cases (hkey : key.Copies) :
    insertNode key val f cache = cache ∨
      ∃ val', val'.IsNodeValue ∧ insertNode key val f cache = cache.snoc ⟨key, val', f .nil⟩ := by
  have hcopy : adxCacheValueCopy key = key := hkey
  have hlink : (adxCacheValueCopy val ≠ .error → (adxCacheValueCopy val).IsNodeValue) →
      (if adxCacheValueCopy key = .error ∨ adxCacheValueCopy val = .error then cache
        else cache.snoc ⟨adxCacheValueCopy key, adxCacheValueCopy val, f .nil⟩) = cache ∨
      ∃ val', val'.IsNodeValue ∧
        (if adxCacheValueCopy key = .error ∨ adxCacheValueCopy val = .error then cache
          else cache.snoc ⟨adxCacheValueCopy key, adxCacheValueCopy val, f .nil⟩) =
            cache.snoc ⟨key, val', f .nil⟩ := by
    intro hval
    rw [hcopy]
    split_ifs with herror
    · exact .inl rfl
    · exact .inr ⟨_, hval (not_or.mp herror).2, rfl⟩
  cases val with
  | string => exact hlink isNodeValue_copy
  | number => exact hlink fun _ => ⟨rfl, trivial⟩
  | null => exact hlink fun _ => ⟨rfl, trivial⟩
  | unset => exact .inl rfl
  | array => exact .inl rfl
  | error => exact .inl rfl

/-- With a key that is looked up, `adx_cache_add` changes nothing, or the child with the key, or
adds one. -/
theorem adxCacheAdd_of_isNodeKey (hkey : IsNodeKey key) :
    Cache.adxCacheAdd key val f cache = cache ∨
      Cache.adxCacheAdd key val f cache = cache.modify key f ∨
      key ∉ cache.keys ∧ ∃ val', val'.IsNodeValue ∧
        Cache.adxCacheAdd key val f cache = cache.snoc ⟨key, val', f .nil⟩ := by
  -- the key is looked for, and the node of it changed or made
  have hfind : (if (cache.findKey key).isSome then cache.modify key f
      else insertNode key val f cache) = cache ∨
      (if (cache.findKey key).isSome then cache.modify key f
        else insertNode key val f cache) = cache.modify key f ∨
      key ∉ cache.keys ∧ ∃ val', val'.IsNodeValue ∧
        (if (cache.findKey key).isSome then cache.modify key f
          else insertNode key val f cache) = cache.snoc ⟨key, val', f .nil⟩ := by
    split_ifs with hfound
    · exact .inr (.inl rfl)
    · refine (insertNode_cases hkey.1).imp_right fun h => .inr ⟨?_, h⟩
      exact mt isSome_findKey_iff.mpr hfound
  unfold Cache.adxCacheAdd
  by_cases herror : key = .error ∨ val = .error
  · rw [if_pos herror]
    exact .inl rfl
  · rw [if_neg herror]
    cases key with
    | string => exact hfind
    | number => exact hfind
    | unset => exact hkey.2.elim
    | array => exact hkey.2.elim
    | null => exact hkey.2.elim
    | error => exact hkey.2.elim

/-- The children below another key are as before, whatever the value is. -/
theorem childrenOf_adxCacheAdd_of_ne (hkey : IsNodeKey key) (h : key' ≠ key) :
    childrenOf key' (Cache.adxCacheAdd key val f cache) = childrenOf key' cache := by
  obtain heq | heq | ⟨-, val', -, heq⟩ := @adxCacheAdd_of_isNodeKey key val f cache hkey
  · rw [heq]
  · rw [heq, childrenOf, findKey_modify_of_ne h]
    rfl
  · rw [heq, childrenOf, findKey_snoc, if_neg h.symm, Option.or_none]
    rfl

/-- A node without changes below it. -/
theorem childrenOf_adxCacheAdd_id (hkey : IsNodeKey key) (hval : val.IsNodeValue) :
    childrenOf key' (Cache.adxCacheAdd key val id cache) = childrenOf key' cache := by
  by_cases h : key' = key
  · rw [h, childrenOf_adxCacheAdd hkey hval]
    rfl
  · exact childrenOf_adxCacheAdd_of_ne hkey h

/-- An element of an array is not looked up. -/
theorem childrenOf_snoc_array {node : CacheNode} (hkey : IsNodeKey key)
    (hnode : node.key = .array 0) : childrenOf key (cache.snoc node) = childrenOf key cache := by
  have hne : node.key ≠ key := by
    rintro rfl
    rw [hnode] at hkey
    exact hkey.2
  rw [childrenOf, findKey_snoc, if_neg hne, Option.or_none]
  rfl

end

/-! ## Trees that were built -/

/-- A tree that was built by `adx_cache_add`: each child has a key that no later one has, or is an
element of an array. -/
def Built : CacheList → Prop
  | .nil => True
  | .cons key val child next =>
    (key = .array 0 ∨ IsNodeKey key ∧ key ∉ next.keys) ∧ val.IsNodeValue ∧ Built child ∧ Built next

section

variable {key val : CacheValue} {child next src dest cache : CacheList}
  {f : CacheList → CacheList} {node : CacheNode}

/-- A node with a value is linked. -/
theorem linksNode_of_isNodeValue (hkey : key.Copies) (hne : key ≠ .error)
    (hval : val.IsNodeValue) : linksNode key val = true := by
  have hboth : decide (adxCacheValueCopy key ≠ .error ∧ adxCacheValueCopy val ≠ .error) = true := by
    rw [decide_eq_true_iff, show adxCacheValueCopy key = key from hkey,
      show adxCacheValueCopy val = val from hval.1]
    exact ⟨hne, hval.ne_error⟩
  cases val with
  | string => exact hboth
  | number => exact hboth
  | null => exact hboth
  | unset => exact hval.2.elim
  | array => exact hval.2.elim
  | error => exact hval.2.elim

/-- A node that could be built can be added. -/
theorem returnsNode_of_built (hkey : key = .array 0 ∨ IsNodeKey key) (hval : val.IsNodeValue) :
    returnsNode key val dest = true := by
  obtain rfl | hkey := hkey
  · rw [returnsNode, if_neg (not_or.mpr ⟨nofun, hval.ne_error⟩)]
    exact linksNode_of_isNodeValue rfl nofun hval
  · have hlinks := linksNode_of_isNodeValue hkey.1 hkey.ne_error hval
    unfold returnsNode
    rw [if_neg (not_or.mpr ⟨hkey.ne_error, hval.ne_error⟩)]
    cases key with
    | string => exact (Bool.or_eq_true _ _).mpr (.inr hlinks)
    | number => exact (Bool.or_eq_true _ _).mpr (.inr hlinks)
    | unset => exact hkey.2.elim
    | array => exact hkey.2.elim
    | null => exact hkey.2.elim
    | error => exact hkey.2.elim

/-- The first node is entered, and then the others. -/
theorem spliceApart_cons (h : Built (.cons key val child next)) (dest : CacheList) :
    spliceApart (.cons key val child next) dest =
      spliceApart next (Cache.adxCacheAdd key val (spliceApart child) dest) := by
  rw [spliceApart, if_pos (returnsNode_of_built (h.1.imp_right And.left) h.2.1)]

/-- Below a key, the children that the source has there are merged. -/
theorem childrenOf_spliceApart {key' : CacheValue} (hkey' : IsNodeKey key') (h : Built src)
    (dest : CacheList) :
    childrenOf key' (spliceApart src dest) =
      spliceApart (childrenOf key' src) (childrenOf key' dest) := by
  -- by induction over the nodes that are spliced in
  induction src generalizing dest with
  | nil => rfl
  | cons key val child next _ ih =>
    rw [spliceApart_cons h, ih h.2.2.2]
    obtain ⟨hkey | ⟨hkey, hnew⟩, hval, hchild, hnext⟩ := h
    · subst hkey
      -- an element of a list has no key, and changes no children
      have hne : CacheValue.array 0 ≠ key' := by
        rintro rfl
        exact hkey'.2
      have hsrc : childrenOf key' (.cons (.array 0) val child next) = childrenOf key' next := by
        rw [childrenOf, findKey, if_neg hne]
        rfl
      rw [hsrc]
      change spliceApart _ (childrenOf key' (adxCacheArrayAdd val _ dest)) = _
      rw [adxCacheArrayAdd_eq hval, childrenOf_snoc_array hkey' rfl]
    · by_cases hsame : key' = key
      · subst hsame
        have hsrc : childrenOf key' (.cons key' val child next) = child := by
          rw [childrenOf, findKey, if_pos rfl]
          rfl
        rw [childrenOf_of_notMem hnew, hsrc, childrenOf_adxCacheAdd hkey hval, spliceApart]
      · have hsrc : childrenOf key' (.cons key val child next) = childrenOf key' next := by
          rw [childrenOf, findKey, if_neg (Ne.symm hsame)]
          rfl
        rw [hsrc, childrenOf_adxCacheAdd_of_ne hkey hsame]

/-- A node moves from the end of one list to the start of the next. -/
theorem snoc_append (node : CacheNode) (cache : CacheList) (nodes : List CacheNode) :
    ofList ((cache.snoc node).toList ++ nodes) = ofList (cache.toList ++ node :: nodes) := by
  rw [toList_snoc, List.append_assoc]
  rfl

/-- A cache as a list of nodes and back. -/
theorem ofList_toList (cache : CacheList) : ofList cache.toList = cache := by
  induction cache with
  | nil => rfl
  | cons key val child next _ ih => rw [toList, ofList, ih]

/-- Without a key in common, the children are copied behind the others. -/
theorem spliceApart_eq_append (h : Built src)
    (hnew : ∀ key ∈ src.keys, IsNodeKey key → key ∉ dest.keys) :
    spliceApart src dest = ofList (dest.toList ++ src.toList) := by
  -- by induction over the nodes; none of them meets another one with its key
  induction src generalizing dest with
  | nil => rw [spliceApart, toList, List.append_nil, ofList_toList]
  | cons key val child next ihc ih =>
    rw [spliceApart_cons h]
    obtain ⟨hkey, hval, hchild, hnext⟩ := h
    have hcopy : spliceApart child .nil = child := by
      rw [ihc hchild fun key _ _ => List.not_mem_nil]
      exact ofList_toList child
    have hadd : Cache.adxCacheAdd key val (spliceApart child) dest =
        dest.snoc ⟨key, val, child⟩ := by
      obtain rfl | ⟨hkey, -⟩ := hkey
      · have harray : adxCacheArrayAdd val (spliceApart child) dest =
            dest.snoc ⟨.array 0, val, spliceApart child .nil⟩ := adxCacheArrayAdd_eq hval
        rw [hcopy] at harray
        exact harray
      · rw [adxCacheAdd_eq_ite hkey hval, if_neg (hnew key List.mem_cons_self hkey), hcopy]
    rw [hadd, ih hnext ?_, snoc_append]
    · rfl
    -- the rest does not meet the node that is new, either
    · intro key' hmem hkey'
      rw [keys, toList_snoc, List.map_append, List.mem_append, not_or]
      refine ⟨hnew key' (List.mem_cons_of_mem _ hmem) hkey', ?_⟩
      rw [List.map_singleton, List.mem_singleton]
      rintro rfl
      obtain harray | ⟨-, hfresh⟩ := hkey
      · rw [harray] at hkey'
        exact hkey'.2
      · exact hfresh hmem

/-- A node without children gets a copy. -/
theorem spliceApart_nil (h : Built src) : spliceApart src .nil = src := by
  rw [spliceApart_eq_append h fun key _ _ => List.not_mem_nil]
  exact ofList_toList src

/-! ## Building -/

/-- One more node with a new key keeps a cache built. -/
theorem built_snoc (h : Built cache)
    (hkey : node.key = .array 0 ∨ IsNodeKey node.key ∧ node.key ∉ cache.keys)
    (hval : node.val.IsNodeValue) (hchild : Built node.child) : Built (cache.snoc node) := by
  induction cache with
  | nil => exact ⟨hkey.imp_right fun h => ⟨h.1, List.not_mem_nil⟩, hval, hchild, trivial⟩
  | cons key val child next _ ih =>
    obtain ⟨hhead, hheadVal, hheadChild, hnext⟩ := h
    refine ⟨?_, hheadVal, hheadChild, ih hnext ?_⟩
    · refine hhead.imp_right fun hfield => ⟨hfield.1, ?_⟩
      rw [keys, toList_snoc, List.map_append, List.mem_append, not_or]
      refine ⟨hfield.2, ?_⟩
      rw [List.map_singleton, List.mem_singleton]
      rintro rfl
      obtain harray | hnew := hkey
      · rw [harray] at hfield
        exact hfield.1.2
      · exact hnew.2 List.mem_cons_self
    · exact hkey.imp_right fun hnew => ⟨hnew.1, fun hmem => hnew.2 (List.mem_cons_of_mem _ hmem)⟩

/-- Changing the children of a node keeps a cache built. -/
theorem built_modify (h : Built cache) (hf : ∀ cache, Built cache → Built (f cache)) :
    Built (cache.modify key f) := by
  induction cache with
  | nil => trivial
  | cons key' val child next _ ih =>
    obtain ⟨hhead, hval, hchild, hnext⟩ := h
    rw [CacheList.modify]
    split_ifs
    · exact ⟨hhead, hval, hf child hchild, hnext⟩
    · exact ⟨hhead.imp_right fun h => ⟨h.1, by rw [keys_modify]; exact h.2⟩, hval, hchild, ih hnext⟩

/-- Adding a node keeps a cache built. -/
theorem built_adxCacheAdd (h : Built cache) (hkey : IsNodeKey key)
    (hf : ∀ cache, Built cache → Built (f cache)) : Built (Cache.adxCacheAdd key val f cache) := by
  obtain heq | heq | ⟨hnew, val', hval, heq⟩ := @adxCacheAdd_of_isNodeKey key val f cache hkey
  · rwa [heq]
  · rw [heq]
    exact built_modify h hf
  · rw [heq]
    exact built_snoc h (.inr ⟨hkey, hnew⟩) hval (hf .nil trivial)

/-- Elements of an array that are values. -/
theorem built_adxCacheArrayAdd (h : Built cache) : Built (adxCacheArrayAdd val id cache) := by
  unfold adxCacheArrayAdd Cache.adxCacheAdd
  by_cases herror : CacheValue.array 0 = .error ∨ val = .error
  · rwa [if_pos herror]
  · rw [if_neg herror]
    obtain heq | ⟨val', hval, heq⟩ :=
      @insertNode_cases (.array 0) val id cache (show (CacheValue.array 0).Copies from rfl)
    · dsimp only
      rwa [heq]
    · dsimp only
      rw [heq]
      exact built_snoc h (.inl rfl) hval trivial

end

end Cache

end AdxDsp
