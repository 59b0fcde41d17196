import AdxDsp.Cache.Nodes
import AdxDsp.Json.Decode
import AdxDsp.Json.Safety
import AdxDsp.Json.Shape

/-!
# The cache of a JSON document

`adx_cache_from_json` (`adx_cache.c`) enters a tree of `adx_json.c` into a cache.  Elements of
arrays are found by their places, but empty ones are left out, and what an object or an array inside
an array of arrays contains is entered without it.

* **The conversion**: `fromChildren`, `adxCacheFromJson`.
* **Places**: `Aligned`, where elements keep their places; `nth_fromChildren`.
* `found_of_aligned`: strings and numbers are found at the same paths in both trees.
-/

namespace AdxDsp

open CText

/-! ## Lookups in a tree -/

namespace Json

namespace JsonList

/-- `array_len` of an array with these elements, before it becomes an `int`. -/
def length : JsonList → ℕ
  | .nil => 0
  | .cons _ _ _ _ next => next.length + 1

/-- The first child with this key. -/
def findKey (key : Bytes) : JsonList → Option AdxJson
  | .nil => none
  | .cons type key' val child next =>
    if key' = some key then some ⟨type, key', val, child⟩ else next.findKey key

/-- The first child with this number, from a place on. -/
def findPlace (index : ℤ) : ℕ → JsonList → Option AdxJson
  | _, .nil => none
  | place, .cons type key val child next =>
    if toInt32 place = index then some ⟨type, key, val, child⟩
    else next.findPlace index (place + 1)

/-- The child at a place. -/
def nth : JsonList → ℕ → Option AdxJson
  | .nil, _ => none
  | .cons type key val child _, 0 => some ⟨type, key, val, child⟩
  | .cons _ _ _ _ next, n + 1 => next.nth n

end JsonList

/-- `adx_json_find` -/
def adxJsonFind (root : AdxJson) (key : Bytes) : Option AdxJson := root.child.findKey key

/-- `adx_json_array_check` -/
def adxJsonArrayCheck (json : AdxJson) : Bool := json.type = .array ∧ 0 < toInt32 json.child.length

/-- `adx_json_find_array` -/
def adxJsonFindArray (json : AdxJson) (index : ℤ) : Option AdxJson :=
  if adxJsonArrayCheck json then json.child.findPlace index 0 else none

end Json

namespace Cache

open Json

/-- A step of a path. -/
inductive Step where
  | key (key : Bytes)
  | index (index : ℤ)

/-- The node at the end of a path. -/
def followJson : List Step → AdxJson → Option AdxJson
  | [], json => some json
  | .key key :: path, json => (adxJsonFind json key).bind (followJson path)
  | .index index :: path, json => (adxJsonFindArray json index).bind (followJson path)

/-- The node of the cache at the end of a path. -/
def followCache : List Step → CacheNode → Option CacheNode
  | [], cache => some cache
  | .key key :: path, cache =>
    (adxCacheFind cache (adxCacheValueString (some key))).bind (followCache path)
  | .index index :: path, cache => (adxCacheFindArray cache index).bind (followCache path)

/-! ## The conversion -/

/-- `adx_cache_from_json_value`; `none` is its -1. -/
def adxCacheFromJsonValue (json : AdxJson) (cache : CacheList) : Option CacheList :=
  if json.type = .object ∨ json.type = .array ∨ json.type = .empty then none
  else
    let value := json.val.elim .null fun val =>
      if json.type = .number then .number (atoi val) else adxCacheValueString (some val)
    if value = .error then none
    else match json.key with
      | some key => some (adxCacheAdd (adxCacheValueString (some key)) value id cache)
      | none => some (if json.val.isSome then adxCacheArrayAdd value id cache else cache)

/-- What the first line of both functions does: a node with a key becomes a node of the cache. -/
def enter (key : Option Bytes) (f : CacheList → CacheList) (cache : CacheList) : CacheList :=
  match key with
  | some key => adxCacheAdd (adxCacheValueString (some key)) .null f cache
  | none => f cache

/-- What the loops do for a child: that of `adx_cache_from_json_value_array`, which goes over
`elements`, and that of `adx_cache_from_json`.  `fromJson` and `fromArray` are the two functions for
the child, which return 0; `none` is another result, with which the first loop ends. -/
def fromEntry (elements : Bool) (json : AdxJson) (fromJson fromArray : CacheList → CacheList)
    (cache : CacheList) : Option CacheList :=
  match json.type with
  | .object => some (if elements then adxCacheArrayAdd .null fromJson cache else fromJson cache)
  | .array => some (if elements then adxCacheArrayAdd .null fromJson cache else fromArray cache)
  | .string | .number | .bool | .null =>
    if elements then adxCacheFromJsonValue json cache
    else some ((adxCacheFromJsonValue json cache).getD cache)
  | .empty | .unset => some cache

/-- The loops over the children of a node. -/
def fromChildren : Bool → JsonList → CacheList → CacheList
  | _, .nil, cache => cache
  | elements, .cons type key val child next, cache =>
    (fromEntry elements ⟨type, key, val, child⟩ (enter key (fromChildren false child))
      (enter key (fromChildren true child)) cache).elim cache (fromChildren elements next)

/-- `adx_cache_from_json` -/
def adxCacheFromJson (json : AdxJson) (cache : CacheList) : CacheList :=
  enter json.key (fromChildren false json.child) cache

/-- `adx_cache_from_json_value_array` -/
def adxCacheFromJsonValueArray (json : AdxJson) (cache : CacheList) : CacheList :=
  enter json.key (fromChildren true json.child) cache

/-- The loop enters a node and goes on, unless the node could not be entered. -/
theorem fromChildren_cons (elements : Bool) (type : JsonType) (key val : Option Bytes)
    (child next : JsonList) (cache : CacheList) :
    fromChildren elements (.cons type key val child next) cache =
      (fromEntry elements ⟨type, key, val, child⟩ (adxCacheFromJson ⟨type, key, val, child⟩)
        (adxCacheFromJsonValueArray ⟨type, key, val, child⟩) cache).elim cache
          (fromChildren elements next) := rfl

/-! ## Strings and numbers in a tree -/

/-- A string or a number. -/
def IsValue (type : JsonType) : Prop := type = .string ∨ type = .number

/-- There is a string or a number in the list. -/
def Holds : JsonList → Prop
  | .nil => False
  | .cons type _ _ child next => (IsValue type ∨ Holds child) ∨ Holds next

/-- The same value: a text, or the value of the text of a number. -/
def SameValue (json : AdxJson) (node : CacheNode) : Prop :=
  match json.type with
  | .string => ∃ val, json.val = some val ∧ node.val = .string val
  | .number => ∃ val, json.val = some val ∧ node.val = .number (atoi val)
  | _ => False

/-- No object has two members with one key. -/
def NoRepeats : JsonList → Prop
  | .nil => True
  | .cons _ key _ child next =>
    (∀ k ∈ key, next.findKey k = none) ∧ NoRepeats child ∧ NoRepeats next

/-- An element keeps its place in an array that is a member of an object; in one that is itself an
element, only if it is no object and no array. -/
def Keeps (elements : Bool) (type : JsonType) : Prop :=
  type ≠ .empty ∧ (elements = false → type ≠ .object ∧ type ≠ .array)

/-- The greatest number of nodes that are entered for a child, given those for its own children. -/
def entryWidth (elements : Bool) (type : JsonType) (key : Option Bytes) (children : Bool → ℕ) : ℕ :=
  match type with
  | .object => if elements || key.isSome then 1 else children false
  | .array => if elements || key.isSome then 1 else children true
  | .string | .number | .bool | .null => 1
  | .empty | .unset => 0

/-- The greatest number of nodes that are entered for a list. -/
def width : Bool → JsonList → ℕ
  | _, .nil => 0
  | elements, .cons type key _ child next =>
    entryWidth elements type key (fun elements => width elements child) + width elements next

/-- Which loop goes over the children of a child. -/
def goesOver (elements : Bool) (type : JsonType) : Bool := !elements && type = .array

/-- In all arrays the elements up to the last one with a string or a number keep their places, and
the places are numbers that an `int` can be. -/
def Aligned : Bool → JsonList → Prop
  | _, .nil => True
  | elements, .cons type key val child next =>
    (key = none → Holds (.cons type key val child next) → Keeps elements type) ∧
      (type = .array → Holds child → width (goesOver elements type) child < 2 ^ 31) ∧
      Aligned (goesOver elements type) child ∧ Aligned elements next

/-! ## One child -/

/-- The value of the node that a child becomes. -/
def valueOf (json : AdxJson) : CacheValue :=
  match json.type with
  | .object | .array => .null
  | .number => .number (atoi (json.val.getD []))
  | _ => .string (json.val.getD [])

/-- The node that a child becomes. -/
def nodeOf (elements : Bool) (json : AdxJson) : CacheNode :=
  ⟨json.key.elim (.array 0) .string, valueOf json,
    fromChildren (goesOver elements json.type) json.child .nil⟩

section

variable {elements : Bool} {json : AdxJson} {cache : CacheList} {members elems : Prop}

/-- The null value is one of a node. -/
theorem isNodeValue_null : CacheValue.null.IsNodeValue := ⟨rfl, trivial⟩

/-- A short string is a value of a node. -/
theorem isNodeValue_string {string : Bytes} (h : Short string) :
    (CacheValue.string string).IsNodeValue := ⟨copies_string h, trivial⟩

/-- A value without children becomes a node without children. -/
theorem adxCacheFromJsonValue_eq (elements : Bool)
    (hvalue : json.type ≠ .object ∧ json.type ≠ .array) (hne : json.type ≠ .empty)
    (hshape : NodeShape Short json.type json.val json.child members elems)
    (hkey : ∀ k ∈ json.key, Short k ∧ cache.findKey (.string k) = none) :
    adxCacheFromJsonValue json cache = some (cache.snoc (nodeOf elements json)) := by
  obtain ⟨type, key, val, child⟩ := json
  have hscalar : child = .nil ∧ ∃ v, val = some v ∧ Short v := by
    cases type with
    | unset => exact hshape.elim
    | object => exact absurd rfl hvalue.1
    | array => exact absurd rfl hvalue.2
    | empty => exact absurd rfl hne
    | string => exact hshape
    | number => exact ⟨hshape.1, hshape.2.imp fun v hv => ⟨hv.1, hv.2.1⟩⟩
    | bool => exact ⟨hshape.1, by rcases hshape.2 with rfl | rfl <;> exact ⟨_, rfl, by decide⟩⟩
    | null => exact ⟨hshape.1, _, hshape.2, by decide⟩
  obtain ⟨rfl, v, rfl, hv⟩ := hscalar
  -- its value is copied as it is
  have hnode : (valueOf ⟨type, key, some v, .nil⟩).IsNodeValue := by
    cases type with
    | object => exact isNodeValue_null
    | array => exact isNodeValue_null
    | number => exact ⟨rfl, trivial⟩
    | unset => exact isNodeValue_string hv
    | empty => exact isNodeValue_string hv
    | string => exact isNodeValue_string hv
    | bool => exact isNodeValue_string hv
    | null => exact isNodeValue_string hv
  have hval : (if type = .number then CacheValue.number (atoi v)
      else adxCacheValueString (some v)) = valueOf ⟨type, key, some v, .nil⟩ := by
    cases type with
    | object => exact absurd rfl hvalue.1
    | array => exact absurd rfl hvalue.2
    | _ => rfl
  have htype : ¬(type = .object ∨ type = .array ∨ type = .empty) :=
    not_or.mpr ⟨hvalue.1, not_or.mpr ⟨hvalue.2, hne⟩⟩
  unfold adxCacheFromJsonValue
  dsimp only [Option.elim_some]
  rw [if_neg htype, hval, if_neg hnode.ne_error]
  cases key with
  | none =>
    dsimp only
    rw [Option.isSome_some, if_pos rfl, adxCacheArrayAdd_eq hnode]
    rfl
  | some k =>
    obtain ⟨hshort, hnone⟩ := hkey k rfl
    exact congrArg some (adxCacheAdd_of_findKey (copies_string hshort) hnode hnone)

/-- A child that keeps its place, or has a new key, becomes the last node. -/
theorem fromEntry_eq (hne : json.type ≠ .empty)
    (hkeeps : json.key = none → Keeps elements json.type)
    (helements : elements = true → json.key = none)
    (hshape : NodeShape Short json.type json.val json.child members elems)
    (hkey : ∀ k ∈ json.key, Short k ∧ cache.findKey (.string k) = none) :
    fromEntry elements json (adxCacheFromJson json) (adxCacheFromJsonValueArray json) cache =
      some (cache.snoc (nodeOf elements json)) := by
  have hvalue : json.type ≠ .object ∧ json.type ≠ .array →
      (if elements then adxCacheFromJsonValue json cache
        else some ((adxCacheFromJsonValue json cache).getD cache)) =
          some (cache.snoc (nodeOf elements json)) := by
    intro h
    rw [adxCacheFromJsonValue_eq elements h hne hshape hkey]
    cases elements <;> rfl
  obtain ⟨type, key, val, child⟩ := json
  cases type with
  | unset => exact hshape.elim
  | empty => exact absurd rfl hne
  | string => exact hvalue ⟨nofun, nofun⟩
  | number => exact hvalue ⟨nofun, nofun⟩
  | bool => exact hvalue ⟨nofun, nofun⟩
  | null => exact hvalue ⟨nofun, nofun⟩
  | object =>
    cases elements with
    | true =>
      obtain rfl := helements rfl
      exact congrArg some (adxCacheArrayAdd_eq isNodeValue_null)
    | false =>
      cases key with
      -- an object without a key would be entered without a node of its own
      | none => exact absurd rfl ((hkeeps rfl).2 rfl).1
      | some k =>
        obtain ⟨hshort, hnone⟩ := hkey k rfl
        exact congrArg some
          (adxCacheAdd_of_findKey (copies_string hshort) isNodeValue_null hnone)
  | array =>
    cases elements with
    | true =>
      obtain rfl := helements rfl
      exact congrArg some (adxCacheArrayAdd_eq isNodeValue_null)
    | false =>
      cases key with
      | none => exact absurd rfl ((hkeeps rfl).2 rfl).2
      | some k =>
        obtain ⟨hshort, hnone⟩ := hkey k rfl
        exact congrArg some
          (adxCacheAdd_of_findKey (copies_string hshort) isNodeValue_null hnone)

end

/-! ## Places -/

section

variable {elements : Bool} {json : AdxJson} {cache : CacheList} {node : CacheNode} {l : JsonList}
  {n : ℕ}

/-- A node of the document adds at most one node to the cache. -/
theorem adxCacheFromJsonValue_cases {cache' : CacheList}
    (h : adxCacheFromJsonValue json cache = some cache') :
    cache' = cache ∨ ∃ key val f, cache' = adxCacheAdd key val f cache := by
  unfold adxCacheFromJsonValue at h
  dsimp only at h
  generalize (json.val.elim CacheValue.null fun val =>
    if json.type = .number then .number (atoi val) else adxCacheValueString (some val)) = value at h
  by_cases htype : json.type = .object ∨ json.type = .array ∨ json.type = .empty
  · rw [if_pos htype] at h
    cases h
  · rw [if_neg htype] at h
    by_cases herror : value = .error
    · rw [if_pos herror] at h
      cases h
    · rw [if_neg herror] at h
      cases hkey : json.key with
      | none =>
        rw [hkey] at h
        obtain rfl := Option.some.inj h
        split_ifs
        · exact .inr ⟨_, _, _, rfl⟩
        · exact .inl rfl
      | some k =>
        rw [hkey] at h
        obtain rfl := Option.some.inj h
        exact .inr ⟨_, _, _, rfl⟩

/-- What the loops do for a child: nothing, a call of `adx_cache_add`, or a loop over its
children. -/
theorem fromEntry_cases {cache' : CacheList}
    (h : fromEntry elements json (adxCacheFromJson json) (adxCacheFromJsonValueArray json) cache =
      some cache') :
    cache' = cache ∨
      (∃ key val f, cache' = adxCacheAdd key val f cache) ∧
        (∀ children, entryWidth elements json.type json.key children = 1) ∨
      ∃ e, cache' = fromChildren e json.child cache ∧
        ∀ children, entryWidth elements json.type json.key children = children e := by
  obtain ⟨type, key, val, child⟩ := json
  have hvalue : (∀ children, entryWidth elements type key children = 1) →
      (if elements then adxCacheFromJsonValue ⟨type, key, val, child⟩ cache
        else some ((adxCacheFromJsonValue ⟨type, key, val, child⟩ cache).getD cache)) =
          some cache' →
      cache' = cache ∨ (∃ key val f, cache' = adxCacheAdd key val f cache) ∧
        (∀ children, entryWidth elements type key children = 1) := by
    intro hwidth heq
    have hresult : adxCacheFromJsonValue ⟨type, key, val, child⟩ cache = some cache' ∨
        cache' = cache := by
      cases elements with
      | true => exact .inl heq
      | false =>
        cases hv : adxCacheFromJsonValue ⟨type, key, val, child⟩ cache with
        | none =>
          rw [hv] at heq
          exact .inr (Option.some.inj heq).symm
        | some cache₁ =>
          rw [hv] at heq
          exact .inl heq
    rcases hresult with hv | rfl
    · exact (adxCacheFromJsonValue_cases hv).imp_right fun h => ⟨h, hwidth⟩
    · exact .inl rfl
  -- a list without a key of its own is entered by the loop over its children
  have hlist : ∀ e, (∀ children, entryWidth elements type key children =
        if elements || key.isSome then 1 else children e) →
      some (if elements then adxCacheArrayAdd .null (adxCacheFromJson ⟨type, key, val, child⟩) cache
        else enter key (fromChildren e child) cache) = some cache' →
      (∃ key val f, cache' = adxCacheAdd key val f cache) ∧
        (∀ children, entryWidth elements type key children = 1) ∨
      ∃ e, cache' = fromChildren e child cache ∧
        ∀ children, entryWidth elements type key children = children e := by
    intro e hwidth heq
    obtain rfl := Option.some.inj heq
    cases elements with
    | true => exact .inl ⟨⟨.array 0, .null, adxCacheFromJson _, rfl⟩, hwidth⟩
    | false =>
      cases key with
      | none => exact .inr ⟨e, rfl, hwidth⟩
      | some k => exact .inl ⟨⟨.string k, .null, fromChildren e child, rfl⟩, hwidth⟩
  cases type with
  | object => exact .inr (hlist false (fun _ => rfl) h)
  | array => exact .inr (hlist true (fun _ => rfl) h)
  | unset => exact .inl (Option.some.inj h).symm
  | empty => exact .inl (Option.some.inj h).symm
  | string => exact (hvalue (fun _ => rfl) h).imp_right .inl
  | number => exact (hvalue (fun _ => rfl) h).imp_right .inl
  | bool => exact (hvalue (fun _ => rfl) h).imp_right .inl
  | null => exact (hvalue (fun _ => rfl) h).imp_right .inl

/-- Loops leave the elements that are there as they are. -/
theorem nth_fromChildren_of_nth {index : ℤ} (h : cache.nth n = some node)
    (hkey : node.key = .array index) : (fromChildren elements l cache).nth n = some node := by
  induction l generalizing elements cache with
  | nil => exact h
  | cons type key val child next ihc ih =>
    rw [fromChildren_cons]
    cases hentry : fromEntry elements ⟨type, key, val, child⟩
        (adxCacheFromJson ⟨type, key, val, child⟩)
        (adxCacheFromJsonValueArray ⟨type, key, val, child⟩) cache with
    | none => exact h
    | some cache' =>
      rw [Option.elim_some]
      apply ih
      rcases fromEntry_cases hentry with rfl | ⟨⟨key', val', f, rfl⟩, -⟩ | ⟨e, rfl, -⟩
      · exact h
      · exact nth_adxCacheAdd h hkey
      · exact ihc h

/-- The nodes of the document bound those of the cache. -/
theorem length_fromChildren_le :
    (fromChildren elements l cache).length ≤ cache.length + width elements l := by
  induction l generalizing elements cache with
  | nil => exact Nat.le_add_right _ _
  | cons type key val child next ihc ih =>
    rw [fromChildren_cons, width]
    cases hentry : fromEntry elements ⟨type, key, val, child⟩
        (adxCacheFromJson ⟨type, key, val, child⟩)
        (adxCacheFromJsonValueArray ⟨type, key, val, child⟩) cache with
    | none => exact Nat.le_add_right _ _
    | some cache' =>
      rw [Option.elim_some]
      refine ih.trans ?_
      rcases fromEntry_cases hentry with rfl | ⟨⟨key', val', f, rfl⟩, hwidth⟩ | ⟨e, rfl, hwidth⟩
      · omega
      · have hone := hwidth fun elements => width elements child
        have hadd := @length_adxCacheAdd_le cache key' val' f
        dsimp only at hone
        omega
      · have hone := hwidth fun elements => width elements child
        have hchild := @ihc e cache
        dsimp only at hone ⊢
        omega

/-- A node at a place of a list. -/
theorem holds_of_nth (h : l.nth n = some json) (hholds : IsValue json.type ∨ Holds json.child) :
    Holds l := by
  induction l generalizing n with
  | nil => cases h
  | cons type key val child next _ ih =>
    cases n with
    | zero =>
      obtain rfl := Option.some.inj h
      exact .inl hholds
    | succ n => exact .inr (ih h)

/-- An element with a string or a number keeps its place. -/
theorem nth_fromChildren (hshaped : Shaped Short false l) (haligned : Aligned elements l)
    (h : l.nth n = some json) (hholds : IsValue json.type ∨ Holds json.child) :
    (fromChildren elements l cache).nth (cache.length + n) = some (nodeOf elements json) := by
  induction l generalizing cache n with
  | nil => cases h
  | cons type key val child next _ ih =>
    obtain ⟨⟨hname, -⟩, hshape, hnext⟩ := hshaped
    obtain ⟨hkeeps, -, -, halignedNext⟩ := haligned
    obtain rfl : key = none := by simpa using hname
    have hkept : Keeps elements type := hkeeps rfl (holds_of_nth h hholds)
    -- the child becomes the last node, and the rest of the list starts behind it
    have hentry := @fromEntry_eq elements ⟨type, none, val, child⟩ cache _ _ hkept.1
      (fun _ => hkept) (fun _ => rfl) hshape nofun
    rw [fromChildren_cons, hentry, Option.elim_some]
    cases n with
    | zero =>
      obtain rfl := Option.some.inj h
      exact nth_fromChildren_of_nth CacheList.nth_snoc_length rfl
    | succ n =>
      have hlast : (fromChildren elements next
          (cache.snoc (nodeOf elements ⟨type, none, val, child⟩))).nth (_ + n) = _ :=
        ih hnext halignedNext h
      rwa [CacheList.length_snoc, Nat.add_right_comm] at hlast

end

/-! ## Keys -/

section

variable {json : AdxJson} {cache : CacheList} {node : CacheNode} {l : JsonList} {k : Bytes}

/-- A search after one more node. -/
theorem findKey_snoc {key : CacheValue} : (cache.snoc node).findKey key =
    (cache.findKey key).or (if node.key = key then some node else none) := by
  induction cache with
  | nil => rfl
  | cons key' val child next _ ih =>
    rw [CacheList.snoc, CacheList.findKey, CacheList.findKey, ih]
    by_cases hkey : key' = key
    · rw [if_pos hkey, if_pos hkey]
      rfl
    · rw [if_neg hkey, if_neg hkey]

/-- The members of an object are found by their keys, which are all new. -/
theorem findKey_fromChildren (hshaped : Shaped Short true l) (hrepeats : NoRepeats l)
    (hnew : ∀ k, (l.findKey k).isSome → cache.findKey (.string k) = none) :
    (∀ k node, cache.findKey (.string k) = some node →
        (fromChildren false l cache).findKey (.string k) = some node) ∧
      ∀ k json, l.findKey k = some json → json.type ≠ .empty →
        (fromChildren false l cache).findKey (.string k) = some (nodeOf false json) := by
  induction l generalizing cache with
  | nil => exact ⟨fun k node h => h, nofun⟩
  | cons type key val child next _ ih =>
    obtain ⟨⟨hname, hshort⟩, hshape, hnext⟩ := hshaped
    obtain ⟨hfresh, -, hrepeatsNext⟩ := hrepeats
    obtain ⟨key, rfl⟩ := Option.isSome_iff_exists.mp hname
    have hother : ∀ k, (next.findKey k).isSome → key ≠ k := by
      rintro k hk rfl
      rw [hfresh key rfl] at hk
      cases hk
    have hfind : ∀ k, (next.findKey k).isSome → cache.findKey (.string k) = none := by
      intro k hk
      refine hnew k ?_
      rw [JsonList.findKey, if_neg fun h => hother k hk (Option.some.inj h)]
      exact hk
    have hnone : cache.findKey (.string key) = none := by
      refine hnew key ?_
      rw [JsonList.findKey, if_pos rfl]
      rfl
    rw [fromChildren_cons]
    by_cases hempty : type = .empty
    · -- an empty member is left out
      subst hempty
      obtain ⟨hold, hmember⟩ := ih hnext hrepeatsNext hfind
      refine ⟨hold, fun k json hk hne => ?_⟩
      rw [JsonList.findKey] at hk
      split_ifs at hk
      · obtain rfl := Option.some.inj hk
        exact absurd rfl hne
      · exact hmember k json hk hne
    · have hentry := @fromEntry_eq false ⟨type, some key, val, child⟩ cache _ _
        hempty nofun nofun hshape fun k hk => ⟨hshort k hk, by
          obtain rfl := Option.some.inj hk
          exact hnone⟩
      rw [hentry, Option.elim_some]
      -- the new node is last, so that what was found before is found again
      have hkeep : ∀ k node, cache.findKey (.string k) = some node →
          (cache.snoc (nodeOf false ⟨type, some key, val, child⟩)).findKey (.string k) =
            some node := by
        intro k node h
        rw [findKey_snoc, h]
        rfl
      have hfindNext : ∀ k, (next.findKey k).isSome →
          (cache.snoc (nodeOf false ⟨type, some key, val, child⟩)).findKey (.string k) = none := by
        intro k hk
        rw [findKey_snoc, hfind k hk, Option.none_or]
        exact if_neg fun h => hother k hk (CacheValue.string.inj h)
      obtain ⟨hold, hmember⟩ := ih hnext hrepeatsNext hfindNext
      refine ⟨fun k node h => hold k node (hkeep k node h), fun k json hk hne => ?_⟩
      rw [JsonList.findKey] at hk
      split_ifs at hk with hsame
      · obtain rfl := Option.some.inj hk
        obtain rfl := Option.some.inj hsame
        refine hold key _ ?_
        rw [findKey_snoc, hnone, Option.none_or]
        exact if_pos rfl
      · exact hmember k json hk hne

end

/-! ## Paths -/

/-- The node is in the list. -/
def IsChild (json : AdxJson) : JsonList → Prop
  | .nil => False
  | .cons type key val child next => json = ⟨type, key, val, child⟩ ∨ IsChild json next

section

variable {P : Bytes → Prop} {elements keyed : Bool} {json json' target : AdxJson}
  {cache : CacheList} {node : CacheNode} {l : JsonList} {k : Bytes} {n : ℕ} {index : ℤ}
  {path : List Step}

/-- A node at a place is a child. -/
theorem isChild_of_nth (h : l.nth n = some json) : IsChild json l := by
  induction l generalizing n with
  | nil => cases h
  | cons type key val child next _ ih =>
    cases n with
    | zero => exact .inl (Option.some.inj h).symm
    | succ n => exact .inr (ih h)

/-- What is found under a name is a child with this name. -/
theorem isChild_of_findKey (h : l.findKey k = some json) : IsChild json l ∧ json.key = some k := by
  induction l with
  | nil => cases h
  | cons type key val child next _ ih =>
    rw [JsonList.findKey] at h
    split_ifs at h with hkey
    · obtain rfl := Option.some.inj h
      exact ⟨.inl rfl, hkey⟩
    · exact (ih h).imp_left .inr

/-- What is found at an index is there, the index being an `int`. -/
theorem nth_of_findPlace {place : ℕ} (h : l.findPlace index place = some json) :
    ∃ n, l.nth n = some json ∧ toInt32 (place + n : ℕ) = index := by
  induction l generalizing place with
  | nil => cases h
  | cons type key val child next _ ih =>
    rw [JsonList.findPlace] at h
    split_ifs at h with hplace
    · exact ⟨0, h, hplace⟩
    · obtain ⟨n, hn, hindex⟩ := ih h
      exact ⟨n + 1, hn, by rw [← hindex, Nat.add_right_comm, Nat.add_assoc]⟩

/-- A child that holds a value makes the list hold one. -/
theorem IsChild.holds (h : IsChild json l) (hholds : IsValue json.type ∨ Holds json.child) :
    Holds l := by
  induction l with
  | nil => exact h.elim
  | cons type key val child next _ ih =>
    rcases h with rfl | h
    · exact .inl hholds
    · exact .inr (ih h)

/-- A child has the shape that the list asks of it. -/
theorem IsChild.shape (h : IsChild json l) (hshaped : Shaped P keyed l) :
    json.key.isSome = keyed ∧
      NodeShape P json.type json.val json.child (Shaped P true json.child)
        (Shaped P false json.child) := by
  induction l with
  | nil => exact h.elim
  | cons type key val child next _ ih =>
    obtain ⟨⟨hname, -⟩, hshape, hnext⟩ := hshaped
    rcases h with rfl | h
    · exact ⟨hname, hshape⟩
    · exact ih h hnext

/-- Below a child no name is repeated. -/
theorem IsChild.noRepeats (h : IsChild json l) (hrepeats : NoRepeats l) : NoRepeats json.child := by
  induction l with
  | nil => exact h.elim
  | cons type key val child next _ ih =>
    obtain ⟨-, hchild, hnext⟩ := hrepeats
    rcases h with rfl | h
    · exact hchild
    · exact ih h hnext

/-- Below a child the indexes do not wrap. -/
theorem IsChild.aligned (h : IsChild json l) (haligned : Aligned elements l) :
    (json.type = .array → Holds json.child →
        width (goesOver elements json.type) json.child < 2 ^ 31) ∧
      Aligned (goesOver elements json.type) json.child := by
  induction l with
  | nil => exact h.elim
  | cons type key val child next _ ih =>
    obtain ⟨-, hwidth, hchild, hnext⟩ := haligned
    rcases h with rfl | h
    · exact ⟨hwidth, hchild⟩
    · exact ih h hnext

/-- A path leads to a string or a number only through nodes that hold one. -/
theorem holds_of_followJson (h : followJson path json = some target)
    (hvalue : IsValue target.type) : IsValue json.type ∨ Holds json.child := by
  induction path generalizing json with
  | nil =>
    obtain rfl := Option.some.inj h
    exact .inl hvalue
  | cons step path ih =>
    right
    cases step with
    | key k =>
      obtain ⟨json', hfind, hpath⟩ := Option.bind_eq_some_iff.mp h
      exact (isChild_of_findKey hfind).1.holds (ih hpath)
    | index index =>
      obtain ⟨json', hfind, hpath⟩ := Option.bind_eq_some_iff.mp h
      unfold adxJsonFindArray at hfind
      split_ifs at hfind
      obtain ⟨n, hn, -⟩ := nth_of_findPlace hfind
      exact holds_of_nth hn (ih hpath)

/-- The loop over the children of a node that the node of the cache has been filled by. -/
structure Filled (elements : Bool) (json : AdxJson) (node : CacheNode) : Prop where
  child : node.child = fromChildren elements json.child .nil
  value : IsValue json.type → SameValue json node
  shaped : ∃ keyed, Shaped Short keyed json.child ∧ (keyed = true → elements = false) ∧
    (json.type = .array → keyed = false)
  noRepeats : NoRepeats json.child
  aligned : Aligned elements json.child
  width : json.type = .array → Holds json.child → width elements json.child < 2 ^ 31

/-- The nodes that children become are filled. -/
theorem IsChild.filled (h : IsChild json l) (hshaped : Shaped Short keyed l)
    (hrepeats : NoRepeats l) (haligned : Aligned elements l) :
    Filled (goesOver elements json.type) json (nodeOf elements json) := by
  obtain ⟨-, hshape⟩ := h.shape hshaped
  obtain ⟨hwidth, halignedChild⟩ := h.aligned haligned
  refine ⟨rfl, fun hvalue => ?_, ?_, h.noRepeats hrepeats, halignedChild, hwidth⟩
  -- strings and numbers have a value
  · obtain ⟨type, key, val, child⟩ := json
    rcases hvalue with htype | htype
    · dsimp only at htype hshape
      subst htype
      obtain ⟨-, v, rfl, -⟩ := hshape
      exact ⟨v, rfl, rfl⟩
    · dsimp only at htype hshape
      subst htype
      obtain ⟨-, v, rfl, -⟩ := hshape
      exact ⟨v, rfl, rfl⟩
  -- the type says which children there may be
  · obtain ⟨type, key, val, child⟩ := json
    have hnil : child = .nil → ∃ keyed, Shaped Short keyed child ∧
        (keyed = true → goesOver elements type = false) ∧ (type = .array → keyed = false) := by
      rintro rfl
      exact ⟨false, trivial, nofun, fun _ => rfl⟩
    cases type with
    | unset => exact hshape.elim
    | object => exact ⟨true, hshape.2.2, fun _ => by cases elements <;> rfl, nofun⟩
    | array => exact ⟨false, hshape.2.2, nofun, fun _ => rfl⟩
    | empty => exact hnil hshape.2
    | string => exact hnil hshape.1
    | number => exact hnil hshape.1
    | bool => exact hnil hshape.1
    | null => exact hnil hshape.1

/-- Following a key in both trees. -/
theorem Filled.find (h : Filled elements json node) (hfind : adxJsonFind json k = some json')
    (hholds : IsValue json'.type ∨ Holds json'.child) :
    ∃ node' elements', adxCacheFind node (adxCacheValueString (some k)) = some node' ∧
      Filled elements' json' node' := by
  obtain ⟨keyed, hshaped, helements, -⟩ := h.shaped
  obtain ⟨hchild, hkey⟩ := isChild_of_findKey hfind
  obtain ⟨hname, hshape⟩ := hchild.shape hshaped
  obtain rfl : keyed = true := by
    rw [← hname, hkey]
    rfl
  obtain rfl := helements rfl
  -- nothing is held by an empty node
  have hne : json'.type ≠ .empty := by
    intro hempty
    rw [hempty] at hshape hholds
    obtain ⟨-, hnil⟩ := hshape
    rw [hnil] at hholds
    rcases hholds with (h | h) | h
    · cases h
    · cases h
    · exact h
  refine ⟨nodeOf false json', _, ?_, hchild.filled hshaped h.noRepeats h.aligned⟩
  change node.child.findKey (.string k) = _
  rw [h.child]
  exact (findKey_fromChildren hshaped h.noRepeats fun _ _ => rfl).2 k json' hfind hne

/-- Following an index in both trees. -/
theorem Filled.findArray (h : Filled elements json node)
    (hfind : adxJsonFindArray json index = some json')
    (hholds : IsValue json'.type ∨ Holds json'.child) :
    ∃ node' elements', adxCacheFindArray node index = some node' ∧
      Filled elements' json' node' := by
  unfold adxJsonFindArray at hfind
  split_ifs at hfind with hcheck
  obtain ⟨harray, -⟩ := of_decide_eq_true hcheck
  obtain ⟨keyed, hshaped, -, hkeyed⟩ := h.shaped
  obtain rfl := hkeyed harray
  obtain ⟨n, hn, hindex⟩ := nth_of_findPlace hfind
  have hwidth := h.width harray (holds_of_nth hn hholds)
  have hnth : (fromChildren elements json.child .nil).nth (_ + n) = _ :=
    nth_fromChildren hshaped h.aligned hn hholds
  have hle := @length_fromChildren_le elements .nil json.child
  rw [← h.child] at hnth hle
  change node.child.nth (0 + n) = _ at hnth
  change _ ≤ 0 + _ at hle
  rw [Nat.zero_add] at hnth hle
  have hlt := CacheList.lt_length_of_nth hnth
  -- all places are numbers that an `int` can be
  have hplace : toInt32 ((0 + n : ℕ) : ℤ) = (0 + n : ℕ) := toInt32_of_bounds (by omega) (by omega)
  have htotal : node.child.childTotal = node.child.length :=
    toInt32_of_bounds (by omega) (by omega)
  refine ⟨nodeOf elements json', _, ?_,
    (isChild_of_nth hn).filled hshaped h.noRepeats h.aligned⟩
  unfold adxCacheFindArray
  rw [htotal, if_neg (by omega), ← hindex, hplace]
  exact (CacheList.findPlace_eq_nth (by omega)).trans hnth

/-- A path to a string or a number leads to the same value in the cache: by induction on the
path. -/
theorem Filled.follow (h : Filled elements json node) (hpath : followJson path json = some target)
    (hvalue : IsValue target.type) :
    ∃ node', followCache path node = some node' ∧ SameValue target node' := by
  induction path generalizing json node elements with
  | nil =>
    obtain rfl := Option.some.inj hpath
    exact ⟨node, rfl, h.value hvalue⟩
  | cons step path ih =>
    cases step with
    | key k =>
      obtain ⟨json', hfind, hpath⟩ := Option.bind_eq_some_iff.mp hpath
      obtain ⟨node', e, hnode, hfilled⟩ := h.find hfind (holds_of_followJson hpath hvalue)
      obtain ⟨last, hlast, hsame⟩ := ih hfilled hpath
      exact ⟨last, by rw [followCache, hnode]; exact hlast, hsame⟩
    | index index =>
      obtain ⟨json', hfind, hpath⟩ := Option.bind_eq_some_iff.mp hpath
      obtain ⟨node', e, hnode, hfilled⟩ := h.findArray hfind (holds_of_followJson hpath hvalue)
      obtain ⟨last, hlast, hsame⟩ := ih hfilled hpath
      exact ⟨last, by rw [followCache, hnode]; exact hlast, hsame⟩

end

/-! ## The documents -/

/-- The copies of the parser are short. -/
theorem copies_short (n : ℕ) : CopiesSatisfy Short n := by
  intro body val _ _ _ _ h
  obtain ⟨hlo, hhi⟩ := (Token.mk body body.length).len_bounds
  unfold copied Token.adxJsonStrdup Token.copy at h
  split_ifs at h with halloc
  obtain rfl := Option.some.inj h
  refine (length_strdupLoop_le _ _).trans_lt ?_
  by_contra hlong
  -- a block of 2^31 bytes is refused
  have hlen : (Token.mk body body.length).len = 2 ^ 31 - 1 := by omega
  rw [hlen] at halloc
  exact absurd halloc (by decide)

/-- The strings and the numbers of an accepted document, whose objects repeat no key, are found in
its cache at the same paths if all elements up to the last one of them keep their places. -/
theorem found_of_aligned {fuel : ℕ} {str : Bytes} {root : AdxJson} {pos : Cursor}
    (hparse : (adxJsonParse fuel str).outcome = .ok root pos) (hrepeats : NoRepeats root.child)
    (haligned : Aligned false root.child) {path : List Step} {json : AdxJson}
    (hpath : followJson path root = some json) (hvalue : IsValue json.type) :
    ∃ node, followCache path { adxCacheCreate with child := adxCacheFromJson root .nil } =
      some node ∧ SameValue json node := by
  obtain ⟨hroot, -, hshaped⟩ := shaped_of_parse (copies_short _) hparse
  obtain ⟨type, key, val, child⟩ := root
  obtain ⟨rfl, rfl, rfl⟩ : type = .unset ∧ key = none ∧ val = none := by
    injection hroot with h₁ h₂ h₃
    exact ⟨h₁, h₂, h₃⟩
  refine @Filled.follow false _ _ _ _ ⟨rfl, ?_, ⟨true, hshaped, fun _ => rfl, nofun⟩, hrepeats,
    haligned, nofun⟩ hpath hvalue
  rintro (h | h)
  · cases h
  · cases h

/-- `{"a":[1]}` -/
theorem element_found :
    ∃ node, followCache [.key [97], .index 0]
        { adxCacheCreate with
          child := adxCacheFromJson ⟨.unset, none, none, .cons .array (some [97]) none
            (.cons .number none (some [49]) .nil .nil) .nil⟩ .nil } = some node ∧
      SameValue ⟨.number, none, some [49], .nil⟩ node := by
  have hparse : (adxJsonParse 10 [123, 34, 97, 34, 58, 91, 49, 93, 125]).outcome =
      .ok ⟨.unset, none, none, .cons .array (some [97]) none
        (.cons .number none (some [49]) .nil .nil) .nil⟩ (some []) := by rfl
  refine found_of_aligned hparse ⟨fun _ _ => rfl, ⟨nofun, trivial, trivial⟩, trivial⟩ ?_ rfl
    (.inr rfl)
  exact ⟨nofun, fun _ _ => by decide, ⟨fun _ _ => ⟨nofun, nofun⟩, nofun, trivial, trivial⟩, trivial⟩

/-- `{"a":["",1]}`: the second element is found by the index 1 in the tree, but not in the cache. -/
theorem element_shifted :
    ∃ root : AdxJson,
      (adxJsonParse 13 [123, 34, 97, 34, 58, 91, 34, 34, 44, 49, 93, 125]).outcome =
        .ok root (some []) ∧ NoRepeats root.child ∧
      followJson [.key [97], .index 1] root = some ⟨.number, none, some [49], .nil⟩ ∧
      followCache [.key [97], .index 1]
        { adxCacheCreate with child := adxCacheFromJson root .nil } = none := by
  refine ⟨⟨.unset, none, none, .cons .array (some [97]) none
    (.cons .empty none none .nil (.cons .number none (some [49]) .nil .nil)) .nil⟩, by rfl, ?_,
    by decide, by decide⟩
  exact ⟨fun _ _ => rfl, ⟨nofun, trivial, nofun, trivial, trivial⟩, trivial⟩

end Cache

end AdxDsp
