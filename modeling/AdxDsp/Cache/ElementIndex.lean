import AdxDsp.Cache.Paths

/-!
# The index of creatives

`adx_element_init` (`adx_element.cpp`) enters each creative into a tree of levels: the exchange, the
size, the region, and then the map ids by their prices.  A creative without a restriction is entered
under "all", and `adx_select` looks there only if no creative has the key that it looks for.

* **The index**: `adxElementInit`, and `selectMapIds`, which goes through the levels.
* **Creatives**: `Matches`, what should be found; `Hidden`, what is passed over.
* `right_iff`: when exactly the map ids that should be are found.
* `creative_without_size_lost`: two creatives.
-/

namespace AdxDsp

open CText

namespace ElementIndex

open Cache CacheHeap CacheList

/-! ## The index -/

/-- `ADX_DUMP_ALL` -/
def all : CacheValue := str "all"

/-- `adx_cache_find`, where the node may be `NULL`. -/
def find (cache : Option CacheNode) (key : CacheValue) : Option CacheNode :=
  cache.bind fun cache => Cache.adxCacheFind cache key

/-- The children of a node, none if it is `NULL`; `adx_cache_child_check` tells if there are any. -/
def children (cache : Option CacheNode) : List CacheNode :=
  cache.elim [] fun cache => cache.child.toList

/-- `adx_element_add`: what `call` does to the children of each node that is added. -/
def adxElementAdd (fieldsName : String) (fieldsCache : Option CacheNode)
    (call : CacheList → CacheList) (parent : CacheList) : CacheList :=
  let branch (key : CacheValue) (parent : CacheList) :=
    Cache.adxCacheAdd (str fieldsName) .null (Cache.adxCacheAdd key .null call) parent
  let fields := children (find fieldsCache (str fieldsName))
  if fields = [] then branch all parent
  else fields.foldl (fun parent node => branch node.key parent) parent

/-- `adx_element_bid_t` -/
structure ElementBid where
  adx : ℤ
  app : ℤ
  region : ℤ
  price : ℤ

/-- `adx_element_bid_parse`; `strtok_r` skips empty tokens. -/
def adxElementBidParse (bidNode : CacheNode) : ElementBid :=
  match bidNode.key with
  | .string key =>
    if 100 < key.length then ⟨-1, -1, -1, -1⟩
    else
      match (key.splitOn 95).filter (· ≠ []) with
      | adx :: app :: region :: _ =>
        if valueToNumber bidNode.val = 0 then ⟨-1, -1, -1, -1⟩
        else ⟨atoi adx, atoi app, atoi region, valueToNumber bidNode.val⟩
      | _ => ⟨-1, -1, -1, -1⟩
  | _ => ⟨-1, -1, -1, -1⟩

/-- The price of `adx_element_bid`: the last one of the exchange, else the last one of 0_0_0. -/
def bidPrice (adx : CacheValue) (bids : List CacheNode) : ℤ :=
  let parsed := bids.map adxElementBidParse
  let price := parsed.foldl (fun price bid =>
    if bid.adx = 0 ∧ bid.app = 0 ∧ bid.region = 0 then bid.price else price) 0
  parsed.foldl (fun price bid =>
    if bid.adx = valueToNumber adx ∧ 0 ≤ bid.app ∧ 0 ≤ bid.region then bid.price else price) price

/-- `adx_element_bid` -/
def adxElementBid (adx : CacheValue) (creative : CacheNode) (parent : CacheList) : CacheList :=
  let bids := children (Cache.adxCacheFind creative (str "bids"))
  if bids = [] then parent
  else Cache.adxCacheAdd (str "price") (.number (bidPrice adx bids)) id parent

/-- The price that is stored with a map id. -/
def storedPrice (node : CacheNode) : ℤ := getCacheFindNum node "price"

/-- `adx_element_mapid` -/
def adxElementMapid (adx : CacheValue) (creative : CacheNode) (parent : CacheList) : CacheList :=
  match Cache.adxCacheFind creative (str "map_id") with
  | none => parent
  | some mapId =>
    Cache.adxCacheAdd mapId.key .null (fun maps =>
      adxListSort 40960 (priceCmp storedPrice)
        (Cache.adxCacheAdd mapId.val .null (adxElementBid adx creative) maps)) parent

section

variable (adx : CacheValue) (policy : Option CacheNode) (creative : CacheNode) (parent : CacheList)

/-- `adx_element_region` -/
def adxElementRegion : CacheList :=
  adxElementAdd "regioncode" policy (adxElementMapid adx creative) parent

/-- `adx_element_banner` -/
def adxElementBanner : CacheList :=
  adxElementAdd "imgs" (some creative) (adxElementRegion adx policy creative) parent

/-- `adx_element_native` -/
def adxElementNative : CacheList :=
  if children (Cache.adxCacheFind creative (str "icon")) = [] then parent
  else adxElementAdd "icon" (some creative) (adxElementBanner adx policy creative) parent

/-- `adx_element_creative_type`; nothing is done for videos. -/
def adxElementCreativeType : CacheList :=
  if getCacheFindNum creative "type" = 2 then adxElementBanner adx policy creative parent
  else if getCacheFindNum creative "type" = 9 then adxElementNative adx policy creative parent
  else parent

/-- `adx_element_adx` -/
def adxElementAdx : CacheList :=
  (children (Cache.adxCacheFind creative (str "adx"))).foldl (fun parent node =>
    Cache.adxCacheAdd (str "adx") .null (Cache.adxCacheAdd node.key .null
      (adxElementCreativeType node.key policy creative)) parent) parent

end

/-- The policy of a creative. -/
def policyOf (root creative : CacheNode) : Option CacheNode :=
  find (Cache.adxCacheFind root (str "policy_list"))
    (.number (getCacheFindNum creative "policyid"))

/-- The creatives of the cache. -/
def creatives (root : CacheNode) : List CacheNode :=
  children (Cache.adxCacheFind root (str "creative_list"))

/-- `adx_element_init`, by the children of the root of the index. -/
def adxElementInit (root : CacheNode) (elementRoot : CacheList) : CacheList :=
  if (Cache.adxCacheFind root (str "policy_list")).isNone then elementRoot
  else (creatives root).foldl (fun elementRoot creative =>
    adxElementAdx (policyOf root creative) creative elementRoot) elementRoot

/-- `adx_select` with a section, for a number or a text. -/
def adxSelect (root : CacheNode) (section_ : String) (key : CacheValue) : Option CacheNode :=
  (Cache.adxCacheFind root (str section_)).bind fun cache =>
    (Cache.adxCacheFind cache key).or (Cache.adxCacheFind cache all)

/-- The map ids, with their prices, at the end of the levels. -/
def selectMapIds (elementRoot : CacheList) (adx : ℤ) (size : Bytes) (region : ℤ) :
    List CacheNode :=
  children <| do
    let cache ← adxSelect ⟨.unset, .unset, elementRoot⟩ "adx" (.number adx)
    let cache ← adxSelect cache "imgs" (.string size)
    let cache ← adxSelect cache "regioncode" (.number region)
    Cache.adxCacheFind cache (str "map_id")

/-! ## What should be found -/

/-- The values of a set, which are the keys of its children. -/
def values (cache : Option CacheNode) (name : String) : List CacheValue :=
  (children (find cache (str name))).map CacheNode.key

/-- The map id of a creative. -/
def mapIdOf (creative : CacheNode) : Option CacheValue :=
  (Cache.adxCacheFind creative (str "map_id")).map CacheNode.val

/-- A banner creative: a number as its map id, numbers of exchanges, sizes, and numbers of regions
in its policy. -/
structure IsBanner (root creative : CacheNode) : Prop where
  type : getCacheFindNum creative "type" = 2
  mapId : ∃ mapId : ℤ, mapIdOf creative = some (.number mapId)
  adx : ∀ v ∈ values (some creative) "adx", ∃ adx : ℤ, v = .number adx
  imgs : ∀ v ∈ values (some creative) "imgs", IsNodeKey v ∧ v ≠ all
  regioncode : ∀ v ∈ values (policyOf root creative) "regioncode", ∃ region : ℤ, v = .number region

/-- The cache holds banner creatives and their policies. -/
structure HoldsBanners (root : CacheNode) : Prop where
  policyList : (Cache.adxCacheFind root (str "policy_list")).isSome
  banner : ∀ creative ∈ creatives root, IsBanner root creative

section

variable (root : CacheNode) (adx : ℤ) (size : Bytes) (region : ℤ)

/-- The creative may be shown on the exchange, in the size and in the region. -/
structure Matches (creative : CacheNode) : Prop where
  mem : creative ∈ creatives root
  adx : .number adx ∈ values (some creative) "adx"
  imgs : values (some creative) "imgs" = [] ∨ .string size ∈ values (some creative) "imgs"
  regioncode : values (policyOf root creative) "regioncode" = [] ∨
    .number region ∈ values (policyOf root creative) "regioncode"

/-- What is found: the map ids of the creatives that match, each once, in the order of the stored
prices. -/
structure Right : Prop where
  ids : ∀ v, v ∈ (selectMapIds (adxElementInit root .nil) adx size region).map CacheNode.key ↔
    ∃ creative, Matches root adx size region creative ∧ mapIdOf creative = some v
  nodup : ((selectMapIds (adxElementInit root .nil) adx size region).map CacheNode.key).Nodup
  sorted : (selectMapIds (adxElementInit root .nil) adx size region).Pairwise
    fun a b => storedPrice b ≤ storedPrice a

/-! ## What is passed over -/

/-- A creative of the exchange is restricted to sizes with this one. -/
def SizeTaken : Prop :=
  ∃ creative ∈ creatives root, .number adx ∈ values (some creative) "adx" ∧
    .string size ∈ values (some creative) "imgs"

/-- The creative is on the branch of the sizes that is gone through. -/
def OnBranch (creative : CacheNode) : Prop :=
  (SizeTaken root adx size → .string size ∈ values (some creative) "imgs") ∧
    (¬ SizeTaken root adx size → values (some creative) "imgs" = [])

/-- A creative of the exchange on this branch is restricted to regions with this one. -/
def RegionTaken : Prop :=
  ∃ creative ∈ creatives root, .number adx ∈ values (some creative) "adx" ∧
    OnBranch root adx size creative ∧
    .number region ∈ values (policyOf root creative) "regioncode"

/-- The creative has no restriction where another one has one that fits. -/
def Hidden (creative : CacheNode) : Prop :=
  values (some creative) "imgs" = [] ∧ SizeTaken root adx size ∨
    values (policyOf root creative) "regioncode" = [] ∧ RegionTaken root adx size region

end

/-! ## The paths of the index -/

/-- The keys under which a set is entered. -/
def branchKeys (values : List CacheValue) : List CacheValue :=
  if values = [] then [all] else values

/-- The paths of a level: its name, one of its keys, and a path below. -/
def level (name : String) (keys : List CacheValue) (T : Set (List CacheValue)) :
    Set (List CacheValue) :=
  {t | ∃ key ∈ keys, ∃ t' ∈ T, t = str name :: key :: t'}

/-- The path of a map id. -/
def idPath (adx size region mapId : CacheValue) : List CacheValue :=
  [str "adx", adx, str "imgs", size, str "regioncode", region, str "map_id", mapId]

/-- The name of the branch for all is a key. -/
theorem isNodeKey_all : IsNodeKey all := isNodeKey_str (by decide)

/-- There is always a branch: that for all where no value is given. -/
theorem branchKeys_ne_nil (values : List CacheValue) : branchKeys values ≠ [] := by
  rw [branchKeys]
  split_ifs with h
  · exact List.cons_ne_nil _ _
  · exact h

/-- The branches have keys if the values are keys. -/
theorem isNodeKey_of_mem_branchKeys {values : List CacheValue} {key : CacheValue}
    (h : ∀ v ∈ values, IsNodeKey v) (hkey : key ∈ branchKeys values) : IsNodeKey key := by
  rw [branchKeys] at hkey
  split_ifs at hkey
  · rw [List.mem_singleton.mp hkey]
    exact isNodeKey_all
  · exact h key hkey

section

variable {n d : ℕ} {T : Set (List CacheValue)} {P : CacheList → Prop}
  {call : CacheList → CacheList} {fieldsName : String} {fieldsCache : Option CacheNode}

/-- A level of the index goes through its keys. -/
theorem adxElementAdd_eq (parent : CacheList) :
    adxElementAdd fieldsName fieldsCache call parent =
      (branchKeys (values fieldsCache fieldsName)).foldl (fun parent key =>
        Cache.adxCacheAdd (str fieldsName) .null (Cache.adxCacheAdd key .null call) parent)
        parent := by
  rw [adxElementAdd, branchKeys, values]
  by_cases hnil : children (find fieldsCache (str fieldsName)) = []
  · rw [if_pos hnil, hnil, List.map_nil, if_pos rfl]
    rfl
  · rw [if_neg hnil, if_neg (mt List.map_eq_nil_iff.mp hnil), List.foldl_map]

/-- A level over a set of paths that is not empty has a path. -/
theorem level_nonempty {keys : List CacheValue} (hkeys : keys ≠ []) (hT : T.Nonempty) :
    (level fieldsName keys T).Nonempty := by
  obtain ⟨key, hkey⟩ := List.exists_mem_of_ne_nil keys hkeys
  obtain ⟨t, ht⟩ := hT
  exact ⟨_, key, hkey, t, ht, rfl⟩

/-- A loop that adds the nodes of a level. -/
theorem adds_level {keys : List CacheValue} {F : CacheValue → CacheList → CacheList}
    (h : ∀ key ∈ keys, Adds n T (F key)) (hT : T.Nonempty) (hname : IsNodeKey (str fieldsName))
    (hkeys : ∀ key ∈ keys, IsNodeKey key) :
    Adds (n + 2) (level fieldsName keys T) fun parent => keys.foldl (fun parent key =>
      Cache.adxCacheAdd (str fieldsName) .null (Cache.adxCacheAdd key .null (F key)) parent)
      parent := by
  have hlevel := Adds.foldl (l := keys) fun key hkey =>
    ((h key hkey).add (hkeys key hkey) hT).add hname (hT.image (key :: ·))
  intro cache path hlen
  rw [hlevel cache path hlen]
  refine or_congr_right ⟨?_, ?_⟩
  · rintro ⟨t, ht, hpath⟩
    simp only [Set.mem_iUnion, exists_prop] at ht
    obtain ⟨key, hkey, -, ⟨t', ht', rfl⟩, rfl⟩ := ht
    exact ⟨_, ⟨key, hkey, t', ht', rfl⟩, hpath⟩
  · rintro ⟨-, ⟨key, hkey, t', ht', rfl⟩, hpath⟩
    refine ⟨_, ?_, hpath⟩
    simp only [Set.mem_iUnion, exists_prop]
    exact ⟨key, hkey, _, ⟨t', ht', rfl⟩, rfl⟩

/-- A level keeps the ends of the paths if what is under it does. -/
theorem keeps_level {keys : List CacheValue} {F : CacheValue → CacheList → CacheList}
    (h : ∀ key ∈ keys, KeepsEnds d P (F key)) (hnil : P .nil) (hname : IsNodeKey (str fieldsName))
    (hkeys : ∀ key ∈ keys, IsNodeKey key) :
    KeepsEnds (d + 2) P fun parent => keys.foldl (fun parent key =>
      Cache.adxCacheAdd (str fieldsName) .null (Cache.adxCacheAdd key .null (F key)) parent)
      parent :=
  KeepsEnds.foldl fun key hkey => ((h key hkey).add (hkeys key hkey) hnil).add hname hnil

/-- The paths of a level: the name, a key, and a path of what is called. -/
theorem adds_adxElementAdd (h : Adds n T call) (hT : T.Nonempty)
    (hname : IsNodeKey (str fieldsName))
    (hkeys : ∀ v ∈ values fieldsCache fieldsName, IsNodeKey v) :
    Adds (n + 2) (level fieldsName (branchKeys (values fieldsCache fieldsName)) T)
      (adxElementAdd fieldsName fieldsCache call) := by
  have hlevel := adds_level (fun _ _ => h) hT hname
    (fun key hkey => isNodeKey_of_mem_branchKeys hkeys hkey)
  intro cache path hlen
  rw [adxElementAdd_eq]
  exact hlevel cache path hlen

/-- The same for the branches of a field. -/
theorem keeps_adxElementAdd (h : KeepsEnds d P call) (hnil : P .nil)
    (hname : IsNodeKey (str fieldsName))
    (hkeys : ∀ v ∈ values fieldsCache fieldsName, IsNodeKey v) :
    KeepsEnds (d + 2) P (adxElementAdd fieldsName fieldsCache call) := by
  have hlevel := keeps_level (fun _ _ => h) hnil hname
    (fun key hkey => isNodeKey_of_mem_branchKeys hkeys hkey)
  intro cache
  rw [adxElementAdd_eq]
  exact hlevel cache

end

/-- The list of a leaf is in the order of the prices, and has each map id once. -/
structure Leaf (cache : CacheList) : Prop where
  sorted : cache.toList.Pairwise fun a b => storedPrice b ≤ storedPrice a
  nodup : cache.keys.Nodup

/-- An empty node is a leaf. -/
theorem leaf_nil : Leaf .nil := ⟨.nil, .nil⟩

section

variable {root creative : CacheNode} {adx mapId : CacheValue} {number : ℤ}

/-- The turn for a map id, on the children of the node `map_id`. -/
def enterMapId (adx : CacheValue) (creative : CacheNode) (mapId : CacheValue)
    (maps : CacheList) : CacheList :=
  adxListSort 40960 (priceCmp storedPrice)
    (Cache.adxCacheAdd mapId .null (adxElementBid adx creative) maps)

/-- A creative with a mapping id is entered under it. -/
theorem adxElementMapid_eq (h : mapIdOf creative = some mapId) :
    adxElementMapid adx creative =
      Cache.adxCacheAdd (str "map_id") .null (enterMapId adx creative mapId) := by
  obtain ⟨node, hnode, rfl⟩ := Option.map_eq_some_iff.mp h
  have hkey : node.key = str "map_id" := key_of_findKey hnode
  funext parent
  rw [adxElementMapid, hnode, ← hkey]
  rfl

variable (adx creative) in
/-- The mapping id adds its own path. -/
theorem adds_enterMapId (hkey : IsNodeKey mapId) :
    Adds 1 {[mapId]} (enterMapId adx creative mapId) := by
  intro maps path hlen
  match path, hlen with
  | [], _ => exact iff_of_true rfl (.inl rfl)
  | [key], _ =>
    rw [occurs_singleton_iff, occurs_singleton_iff, enterMapId]
    have hperm := (toList_adxListSort_perm 40960 (priceCmp storedPrice)
      (Cache.adxCacheAdd mapId .null (adxElementBid adx creative) maps)).map CacheNode.key
    have hmem := hperm.mem_iff (a := key)
    rw [CacheList.keys, hmem]
    change key ∈ (Cache.adxCacheAdd mapId .null _ maps).keys ↔ _
    rw [keys_adxCacheAdd hkey isNodeValue_null]
    split_ifs with hold
    · simp only [Set.mem_singleton_iff, exists_eq_left]
      constructor
      · exact .inl
      · rintro (h | h)
        · exact h
        · rw [List.cons_prefix_cons] at h
          exact h.1 ▸ hold
    · rw [List.mem_append, List.mem_singleton]
      simp

variable (adx creative) in
/-- The mapping id keeps the leaves. -/
theorem keeps_enterMapId (hkey : IsNodeKey mapId) :
    KeepsEnds 0 Leaf (enterMapId adx creative mapId) := by
  intro maps hmaps path hlen leaf hleaf
  obtain rfl := List.length_eq_zero_iff.mp hlen
  cases hleaf
  have hleaf := hmaps [] rfl maps rfl
  refine ⟨pairwise_adxListSort _ _ _, ?_⟩
  have hperm := (toList_adxListSort_perm 40960 (priceCmp storedPrice)
    (Cache.adxCacheAdd mapId .null (adxElementBid adx creative) maps)).map CacheNode.key
  exact hperm.nodup_iff.mpr (nodup_keys_adxCacheAdd hkey isNodeValue_null hleaf.nodup)

/-- The paths of a creative below an exchange. -/
def bannerPaths (root creative : CacheNode) (mapId : CacheValue) : Set (List CacheValue) :=
  level "imgs" (branchKeys (values (some creative) "imgs"))
    (level "regioncode" (branchKeys (values (policyOf root creative) "regioncode"))
      {[str "map_id", mapId]})

/-- A banner has a path. -/
theorem bannerPaths_nonempty : (bannerPaths root creative mapId).Nonempty :=
  level_nonempty (branchKeys_ne_nil _)
    (level_nonempty (branchKeys_ne_nil _) (Set.singleton_nonempty _))

/-- The sizes of a banner are keys. -/
theorem IsBanner.isNodeKey_imgs (h : IsBanner root creative) :
    ∀ v ∈ values (some creative) "imgs", IsNodeKey v :=
  fun v hv => (h.imgs v hv).1

/-- The regions of its policy are keys. -/
theorem IsBanner.isNodeKey_regioncode (h : IsBanner root creative) :
    ∀ v ∈ values (policyOf root creative) "regioncode", IsNodeKey v := by
  intro v hv
  obtain ⟨region, rfl⟩ := h.regioncode v hv
  exact isNodeKey_number region

/-- What is done for an exchange of a banner. -/
theorem adxElementCreativeType_eq (h : IsBanner root creative) :
    adxElementCreativeType adx (policyOf root creative) creative =
      adxElementBanner adx (policyOf root creative) creative := by
  funext parent
  rw [adxElementCreativeType, if_pos h.type]

/-- The name of the sizes is a key. -/
theorem isNodeKey_imgs : IsNodeKey (str "imgs") := isNodeKey_str (by decide)

/-- The name of the regions is a key. -/
theorem isNodeKey_regioncode : IsNodeKey (str "regioncode") := isNodeKey_str (by decide)

/-- The name of the mapping id is a key. -/
theorem isNodeKey_mapId : IsNodeKey (str "map_id") := isNodeKey_str (by decide)

/-- The name of the exchanges is a key. -/
theorem isNodeKey_adx : IsNodeKey (str "adx") := isNodeKey_str (by decide)

variable (adx) in
/-- A banner adds its paths. -/
theorem adds_adxElementBanner (h : IsBanner root creative)
    (hid : mapIdOf creative = some (.number number)) :
    Adds 6 (bannerPaths root creative (.number number))
      (adxElementBanner adx (policyOf root creative) creative) := by
  have hmap := (adds_enterMapId creative adx (isNodeKey_number number)).add
    isNodeKey_mapId (Set.singleton_nonempty _)
  rw [← adxElementMapid_eq hid, Set.image_singleton] at hmap
  have hregion := adds_adxElementAdd hmap (Set.singleton_nonempty _) isNodeKey_regioncode
    h.isNodeKey_regioncode
  exact adds_adxElementAdd hregion (level_nonempty (branchKeys_ne_nil _) (Set.singleton_nonempty _))
    isNodeKey_imgs h.isNodeKey_imgs

variable (adx) in
/-- A banner keeps the leaves. -/
theorem keeps_adxElementBanner (h : IsBanner root creative)
    (hid : mapIdOf creative = some (.number number)) :
    KeepsEnds 5 Leaf (adxElementBanner adx (policyOf root creative) creative) := by
  have hmap := (keeps_enterMapId creative adx (isNodeKey_number number)).add
    isNodeKey_mapId leaf_nil
  rw [← adxElementMapid_eq hid] at hmap
  have hregion := keeps_adxElementAdd hmap leaf_nil isNodeKey_regioncode h.isNodeKey_regioncode
  exact keeps_adxElementAdd hregion leaf_nil isNodeKey_imgs h.isNodeKey_imgs

/-- The loop over the exchanges of a creative. -/
theorem adxElementAdx_eq (h : IsBanner root creative) (parent : CacheList) :
    adxElementAdx (policyOf root creative) creative parent =
      (values (some creative) "adx").foldl (fun parent adx =>
        Cache.adxCacheAdd (str "adx") .null (Cache.adxCacheAdd adx .null
          (adxElementBanner adx (policyOf root creative) creative)) parent) parent := by
  rw [adxElementAdx, values, List.foldl_map]
  simp only [adxElementCreativeType_eq h]
  rfl

/-- The exchanges of a banner are keys. -/
theorem IsBanner.isNodeKey_adx (h : IsBanner root creative) :
    ∀ v ∈ values (some creative) "adx", IsNodeKey v := by
  intro v hv
  obtain ⟨adx, rfl⟩ := h.adx v hv
  exact isNodeKey_number adx

/-- A banner adds its paths under each of its exchanges. -/
theorem adds_adxElementAdx (h : IsBanner root creative)
    (hid : mapIdOf creative = some (.number number)) :
    Adds 8 (level "adx" (values (some creative) "adx")
      (bannerPaths root creative (.number number)))
      (adxElementAdx (policyOf root creative) creative) := by
  have hlevel := adds_level (fun adx _ => adds_adxElementBanner adx h hid)
    bannerPaths_nonempty isNodeKey_adx h.isNodeKey_adx
  intro cache path hlen
  rw [adxElementAdx_eq h]
  exact hlevel cache path hlen

/-- A banner keeps the leaves under each of its exchanges. -/
theorem keeps_adxElementAdx (h : IsBanner root creative)
    (hid : mapIdOf creative = some (.number number)) :
    KeepsEnds 7 Leaf (adxElementAdx (policyOf root creative) creative) := by
  have hlevel := keeps_level (fun adx _ => keeps_adxElementBanner adx h hid) leaf_nil
    isNodeKey_adx h.isNodeKey_adx
  intro cache
  rw [adxElementAdx_eq h]
  exact hlevel cache

end

/-! ## The whole index -/

section

variable {root : CacheNode}

/-- A creative has a path with these keys. -/
structure Entered (root creative : CacheNode) (adx size region mapId : CacheValue) : Prop where
  mem : creative ∈ creatives root
  adx : adx ∈ values (some creative) "adx"
  size : size ∈ branchKeys (values (some creative) "imgs")
  region : region ∈ branchKeys (values (policyOf root creative) "regioncode")
  mapId : mapIdOf creative = some mapId

/-- The index enters the creatives one after another. -/
theorem adxElementInit_eq (h : HoldsBanners root) (elementRoot : CacheList) :
    adxElementInit root elementRoot = (creatives root).foldl (fun elementRoot creative =>
      adxElementAdx (policyOf root creative) creative elementRoot) elementRoot := by
  rw [adxElementInit, if_neg]
  rw [Option.isNone_iff_eq_none, ← Option.not_isSome_iff_eq_none, not_not]
  exact h.policyList

/-- A path occurs if it leads to a map id of a creative. -/
theorem occurs_adxElementInit (h : HoldsBanners root) {path : List CacheValue}
    (hlen : path.length ≤ 8) : Occurs path (adxElementInit root .nil) ↔
      path = [] ∨ ∃ creative adx size region mapId,
        Entered root creative adx size region mapId ∧ path <+: idPath adx size region mapId := by
  -- what a single creative adds are the paths that it enters
  have hadds : ∀ creative ∈ creatives root, Adds 8
      {t | ∃ adx size region mapId, Entered root creative adx size region mapId ∧
        t = idPath adx size region mapId} (adxElementAdx (policyOf root creative) creative) := by
    intro creative hmem
    have hbanner := h.banner creative hmem
    obtain ⟨number, hid⟩ := hbanner.mapId
    intro cache path hlen
    rw [adds_adxElementAdx hbanner hid cache path hlen]
    refine or_congr_right ⟨?_, ?_⟩
    · rintro ⟨-, ⟨adx, hadx, -, ⟨size, hsize, -, ⟨region, hregion, -, rfl, rfl⟩, rfl⟩, rfl⟩, hpath⟩
      exact ⟨_, ⟨adx, size, region, _, ⟨hmem, hadx, hsize, hregion, hid⟩, rfl⟩, hpath⟩
    · rintro ⟨-, ⟨adx, size, region, mapId, hentered, rfl⟩, hpath⟩
      obtain rfl : mapId = .number number := Option.some.inj (hentered.mapId.symm.trans hid)
      exact ⟨_, ⟨adx, hentered.adx, _, ⟨size, hentered.size, _, ⟨region, hentered.region, _, rfl,
        rfl⟩, rfl⟩, rfl⟩, hpath⟩
  rw [adxElementInit_eq h, Adds.foldl hadds .nil path hlen]
  -- nothing was there before
  refine or_congr ?_ ?_
  · cases path with
    | nil => simp
    | cons => simp [Occurs, descend_nil_eq]
  · simp only [Set.mem_iUnion, exists_prop, Set.mem_ofPred_eq]
    constructor
    · rintro ⟨t, ⟨creative, -, adx, size, region, mapId, hentered, rfl⟩, hpath⟩
      exact ⟨creative, adx, size, region, mapId, hentered, hpath⟩
    · rintro ⟨creative, adx, size, region, mapId, hentered, hpath⟩
      exact ⟨_, ⟨creative, hentered.mem, adx, size, region, mapId, hentered, rfl⟩, hpath⟩

/-- The list at the end of each path is in order. -/
theorem leaf_adxElementInit (h : HoldsBanners root) {path : List CacheValue} {leaf : CacheList}
    (hlen : path.length = 7) (hleaf : leaf ∈ descend path (adxElementInit root .nil)) :
    Leaf leaf := by
  rw [adxElementInit_eq h] at hleaf
  refine KeepsEnds.foldl (fun creative hmem => ?_) .nil ?_ path hlen leaf hleaf
  · have hbanner := h.banner creative hmem
    obtain ⟨number, hid⟩ := hbanner.mapId
    exact keeps_adxElementAdx hbanner hid
  · intro path' hlen' leaf' hleaf'
    cases path' with
    | nil => cases hlen'
    | cons => cases hleaf'

end

/-! ## Going through the levels -/

/-- The key under which a level is gone through at the end of a path. -/
def pickAt (path : List CacheValue) (name : String) (key : CacheValue) (cache : CacheList) :
    CacheValue :=
  if Occurs (path ++ [str name, key]) cache then key else all

/-- The path that is gone through. -/
def selectedPath (adx : ℤ) (size : Bytes) (region : ℤ) (cache : CacheList) : List CacheValue :=
  let atAdx := [str "adx", pickAt [] "adx" (.number adx) cache]
  let atSize := atAdx ++ [str "imgs", pickAt atAdx "imgs" (.string size) cache]
  atSize ++ [str "regioncode", pickAt atSize "regioncode" (.number region) cache] ++ [str "map_id"]

section

variable {name : String} {key : CacheValue} {cache : CacheList} {path : List CacheValue}

/-- A section is looked up with the key, or with "all". -/
theorem adxSelect_child (hkey : ∀ cache, Cache.adxCacheFind cache key = cache.child.findKey key)
    (node : CacheNode) :
    (adxSelect node name key).map CacheNode.child =
      descend [str name, pickAt [] name key node.child] node.child := by
  change ((node.child.findKey (str name)).bind _).map _ = _
  cases hsection : node.child.findKey (str name) with
  | none => simp [descend, hsection]
  | some child =>
    have hoccurs : Occurs ([] ++ [str name, key]) node.child ↔
        (child.child.findKey key).isSome := by
      rw [List.nil_append, Occurs, descend, hsection]
      cases hkey' : child.child.findKey key <;> simp [descend, hkey']
    rw [Option.bind_some, hkey, pickAt, if_congr hoccurs rfl rfl]
    change ((child.child.findKey key).or (child.child.findKey all)).map _ = _
    cases hkey' : child.child.findKey key with
    | none => simp [descend, hsection]
    | some found => simp [descend, hsection, hkey']

/-- One level further. -/
theorem bind_adxSelect (hkey : ∀ cache, Cache.adxCacheFind cache key = cache.child.findKey key)
    {node : Option CacheNode} (hnode : node.map CacheNode.child = descend path cache) :
    (node.bind fun node => adxSelect node name key).map CacheNode.child =
      descend (path ++ [str name, pickAt path name key cache]) cache := by
  rw [descend_append, ← hnode]
  cases node with
  | none => rfl
  | some node =>
    have hpick : pickAt path name key cache = pickAt [] name key node.child := by
      have hoccurs : Occurs (path ++ [str name, key]) cache ↔
          Occurs ([] ++ [str name, key]) node.child := by
        rw [occurs_append_iff, ← hnode]
        simp
      rw [pickAt, pickAt, if_congr hoccurs rfl rfl]
    rw [hpick]
    exact adxSelect_child hkey node

/-- The map ids are the children at the end of the path. -/
theorem selectMapIds_eq (adx : ℤ) (size : Bytes) (region : ℤ) :
    selectMapIds cache adx size region =
      (descend (selectedPath adx size region cache) cache).elim [] toList := by
  have hstart : (some ⟨.unset, .unset, cache⟩ : Option CacheNode).map CacheNode.child =
      descend [] cache := rfl
  have hadx := @bind_adxSelect "adx" (.number adx) _ _ (fun _ => rfl) _ hstart
  have hsize := @bind_adxSelect "imgs" (.string size) _ _ (fun _ => rfl) _ hadx
  have hregion := @bind_adxSelect "regioncode" (.number region) _ _ (fun _ => rfl) _ hsize
  have hid : ∀ node : Option CacheNode,
      children (node.bind fun node => Cache.adxCacheFind node (str "map_id")) =
        ((node.map CacheNode.child).bind (descend [str "map_id"])).elim [] toList := by
    intro node
    cases node with
    | none => rfl
    | some node =>
      change children (node.child.findKey (str "map_id")) = _
      cases hfind : node.child.findKey (str "map_id") <;> simp [children, descend, hfind]
  have hselect : selectMapIds cache adx size region = children
      (((((some ⟨.unset, .unset, cache⟩ : Option CacheNode).bind fun node =>
        adxSelect node "adx" (.number adx)).bind fun node =>
        adxSelect node "imgs" (.string size)).bind fun node =>
        adxSelect node "regioncode" (.number region)).bind fun node =>
        Cache.adxCacheFind node (str "map_id")) := by
    simp only [Option.bind_assoc]
    rfl
  rw [hselect, hid, hregion, ← descend_append]
  rfl

end

/-! ## What is found -/

section

variable {vs : List CacheValue} {key : CacheValue}

/-- Other branches than that for all are the values. -/
theorem mem_branchKeys_of_ne (h : key ≠ all) : key ∈ branchKeys vs ↔ key ∈ vs := by
  rw [branchKeys]
  split_ifs with hnil
  · simp [hnil, h]
  · exact Iff.rfl

/-- The branch for all is there just if no value is given. -/
theorem all_mem_branchKeys (h : all ∉ vs) : all ∈ branchKeys vs ↔ vs = [] := by
  rw [branchKeys]
  split_ifs with hnil
  · exact iff_of_true (List.mem_singleton_self all) hnil
  · exact iff_of_false h hnil

/-- There is always a branch. -/
theorem exists_mem_branchKeys (vs : List CacheValue) : ∃ key, key ∈ branchKeys vs :=
  List.exists_mem_of_ne_nil _ (branchKeys_ne_nil vs)

/-- A number is not the branch for all. -/
theorem number_ne_all (number : ℤ) : CacheValue.number number ≠ all := nofun

end

section

variable {root creative : CacheNode} {adx region : ℤ} {size : Bytes} {v : CacheValue}

/-- No size of a banner is named like the branch for all. -/
theorem IsBanner.all_notMem_imgs (h : IsBanner root creative) :
    all ∉ values (some creative) "imgs" := fun hmem => (h.imgs all hmem).2 rfl

/-- No region of its policy is named like the branch for all. -/
theorem IsBanner.all_notMem_regioncode (h : IsBanner root creative) :
    all ∉ values (policyOf root creative) "regioncode" := by
  intro hmem
  obtain ⟨number, hnumber⟩ := h.regioncode all hmem
  exact number_ne_all number hnumber.symm

/-- The region is on the branch that is gone through. -/
def OnRegion (root : CacheNode) (adx : ℤ) (size : Bytes) (region : ℤ) (creative : CacheNode) :
    Prop :=
  (RegionTaken root adx size region →
      .number region ∈ values (policyOf root creative) "regioncode") ∧
    (¬ RegionTaken root adx size region → values (policyOf root creative) "regioncode" = [])

/-- The creatives that are not hidden are on both branches. -/
theorem onBranch_and_onRegion_iff (hmem : creative ∈ creatives root)
    (hadx : .number adx ∈ values (some creative) "adx") :
    OnBranch root adx size creative ∧ OnRegion root adx size region creative ↔
      Matches root adx size region creative ∧ ¬ Hidden root adx size region creative := by
  constructor
  · rintro ⟨⟨htaken, hfree⟩, hregion, hall⟩
    refine ⟨⟨hmem, hadx, ?_, ?_⟩, ?_⟩
    · by_cases h : SizeTaken root adx size
      · exact .inr (htaken h)
      · exact .inl (hfree h)
    · by_cases h : RegionTaken root adx size region
      · exact .inr (hregion h)
      · exact .inl (hall h)
    · rintro (⟨hnil, h⟩ | ⟨hnil, h⟩)
      · exact absurd (htaken h) (by rw [hnil]; exact List.not_mem_nil)
      · exact absurd (hregion h) (by rw [hnil]; exact List.not_mem_nil)
  · rintro ⟨hmatches, hhidden⟩
    rw [Hidden, not_or, not_and, not_and] at hhidden
    have honBranch : OnBranch root adx size creative := by
      refine ⟨fun h => hmatches.imgs.resolve_left fun hnil => hhidden.1 hnil h, fun h => ?_⟩
      exact hmatches.imgs.resolve_right fun hsize => h ⟨creative, hmem, hadx, hsize⟩
    refine ⟨honBranch, fun h => hmatches.regioncode.resolve_left fun hnil => hhidden.2 hnil h,
      fun h => ?_⟩
    exact hmatches.regioncode.resolve_right
      fun hregion => h ⟨creative, hmem, hadx, honBranch, hregion⟩

/-- A creative with the keys of a path has a path. -/
theorem exists_entered (h : HoldsBanners root) (hmem : creative ∈ creatives root)
    {adx size region : CacheValue} (hadx : adx ∈ values (some creative) "adx")
    (hsize : size ∈ branchKeys (values (some creative) "imgs"))
    (hregion : region ∈ branchKeys (values (policyOf root creative) "regioncode")) :
    ∃ mapId, Entered root creative adx size region mapId := by
  obtain ⟨number, hid⟩ := (h.banner creative hmem).mapId
  exact ⟨_, hmem, hadx, hsize, hregion, hid⟩

/-- The exchanges of the index are those of the creatives. -/
theorem occurs_adx_iff (h : HoldsBanners root) {adx : CacheValue} :
    Occurs [str "adx", adx] (adxElementInit root .nil) ↔
      ∃ creative ∈ creatives root, adx ∈ values (some creative) "adx" := by
  rw [occurs_adxElementInit h (by simp)]
  constructor
  · rintro (hnil | ⟨creative, adx', size, region, mapId, hentered, hpath⟩)
    · cases hnil
    · obtain rfl : adx = adx' := by simpa [idPath] using hpath
      exact ⟨creative, hentered.mem, hentered.adx⟩
  · rintro ⟨creative, hmem, hadx⟩
    obtain ⟨size, hsize⟩ := exists_mem_branchKeys (values (some creative) "imgs")
    obtain ⟨region, hregion⟩ := exists_mem_branchKeys (values (policyOf root creative) "regioncode")
    obtain ⟨mapId, hentered⟩ := exists_entered h hmem hadx hsize hregion
    exact .inr ⟨creative, adx, size, region, mapId, hentered, by simp [idPath]⟩

/-- The sizes under an exchange are those of its creatives. -/
theorem occurs_size_iff (h : HoldsBanners root) {adx size : CacheValue} :
    Occurs [str "adx", adx, str "imgs", size] (adxElementInit root .nil) ↔
      ∃ creative ∈ creatives root, adx ∈ values (some creative) "adx" ∧
        size ∈ branchKeys (values (some creative) "imgs") := by
  rw [occurs_adxElementInit h (by simp)]
  constructor
  · rintro (hnil | ⟨creative, adx', size', region, mapId, hentered, hpath⟩)
    · cases hnil
    · obtain ⟨rfl, rfl⟩ : adx = adx' ∧ size = size' := by simpa [idPath] using hpath
      exact ⟨creative, hentered.mem, hentered.adx, hentered.size⟩
  · rintro ⟨creative, hmem, hadx, hsize⟩
    obtain ⟨region, hregion⟩ := exists_mem_branchKeys (values (policyOf root creative) "regioncode")
    obtain ⟨mapId, hentered⟩ := exists_entered h hmem hadx hsize hregion
    exact .inr ⟨creative, adx, size, region, mapId, hentered, by simp [idPath]⟩

/-- The regions under a size are those of the policies of its creatives. -/
theorem occurs_region_iff (h : HoldsBanners root) {adx size region : CacheValue} :
    Occurs [str "adx", adx, str "imgs", size, str "regioncode", region]
        (adxElementInit root .nil) ↔
      ∃ creative ∈ creatives root, adx ∈ values (some creative) "adx" ∧
        size ∈ branchKeys (values (some creative) "imgs") ∧
        region ∈ branchKeys (values (policyOf root creative) "regioncode") := by
  rw [occurs_adxElementInit h (by simp)]
  constructor
  · rintro (hnil | ⟨creative, adx', size', region', mapId, hentered, hpath⟩)
    · cases hnil
    · obtain ⟨rfl, rfl, rfl⟩ : adx = adx' ∧ size = size' ∧ region = region' := by
        simpa [idPath] using hpath
      exact ⟨creative, hentered.mem, hentered.adx, hentered.size, hentered.region⟩
  · rintro ⟨creative, hmem, hadx, hsize, hregion⟩
    obtain ⟨mapId, hentered⟩ := exists_entered h hmem hadx hsize hregion
    exact .inr ⟨creative, adx, size, region, mapId, hentered, by simp [idPath]⟩

/-- The mapping ids under a region are those of the creatives entered there. -/
theorem occurs_idPath_iff (h : HoldsBanners root) {adx size region mapId : CacheValue} :
    Occurs (idPath adx size region mapId) (adxElementInit root .nil) ↔
      ∃ creative, Entered root creative adx size region mapId := by
  rw [occurs_adxElementInit h (by simp [idPath])]
  constructor
  · rintro (hnil | ⟨creative, adx', size', region', mapId', hentered, hpath⟩)
    · cases hnil
    · obtain ⟨rfl, rfl, rfl, rfl⟩ :
          adx = adx' ∧ size = size' ∧ region = region' ∧ mapId = mapId' := by
        simpa [idPath] using hpath
      exact ⟨creative, hentered⟩
  · rintro ⟨creative, hentered⟩
    exact .inr ⟨creative, adx, size, region, mapId, hentered, List.prefix_rfl⟩

/-- The branch of the sizes that is gone through. -/
theorem size_branch (h : HoldsBanners root)
    (hmem : creative ∈ creatives root) :
    pickAt [str "adx", .number adx] "imgs" (.string size) (adxElementInit root .nil) ∈
        branchKeys (values (some creative) "imgs") ↔ OnBranch root adx size creative := by
  have hall := (h.banner creative hmem).all_notMem_imgs
  have hoccurs := @occurs_size_iff root h (.number adx) (.string size)
  simp only [pickAt, List.cons_append, List.nil_append]
  by_cases htaken : SizeTaken root adx size
  · obtain ⟨other, hother, hadx, hsize⟩ := htaken
    have hne : CacheValue.string size ≠ all := ((h.banner other hother).imgs _ hsize).2
    rw [if_pos (hoccurs.mpr ⟨other, hother, hadx, (mem_branchKeys_of_ne hne).mpr hsize⟩),
      mem_branchKeys_of_ne hne]
    exact ⟨fun hmem => ⟨fun _ => hmem, fun hfree => absurd ⟨other, hother, hadx, hsize⟩ hfree⟩,
      fun hbranch => hbranch.1 ⟨other, hother, hadx, hsize⟩⟩
  · have hkey : (if Occurs [str "adx", .number adx, str "imgs", .string size]
        (adxElementInit root .nil) then CacheValue.string size else all) = all := by
      split_ifs with hocc
      · -- only the text "all" itself can occur
        obtain ⟨other, hother, hadx, hsize⟩ := hoccurs.mp hocc
        by_contra hne
        exact htaken ⟨other, hother, hadx, (mem_branchKeys_of_ne hne).mp hsize⟩
      · rfl
    rw [hkey, all_mem_branchKeys hall]
    exact ⟨fun hnil => ⟨fun hsize => absurd hsize htaken, fun _ => hnil⟩, fun hbranch =>
      hbranch.2 htaken⟩

/-- The branch of the regions that is gone through. -/
theorem region_branch (h : HoldsBanners root) (hmem : creative ∈ creatives root)
    {sizeKey : CacheValue} (hsizeKey : ∀ creative ∈ creatives root,
      (sizeKey ∈ branchKeys (values (some creative) "imgs") ↔ OnBranch root adx size creative)) :
    pickAt [str "adx", .number adx, str "imgs", sizeKey] "regioncode" (.number region)
        (adxElementInit root .nil) ∈
        branchKeys (values (policyOf root creative) "regioncode") ↔
      OnRegion root adx size region creative := by
  have hall := (h.banner creative hmem).all_notMem_regioncode
  have hne := number_ne_all region
  have hoccurs : Occurs [str "adx", .number adx, str "imgs", sizeKey, str "regioncode",
      .number region] (adxElementInit root .nil) ↔ RegionTaken root adx size region := by
    rw [occurs_region_iff h]
    constructor
    · rintro ⟨other, hother, hadx, hsize, hregion⟩
      exact ⟨other, hother, hadx, (hsizeKey other hother).mp hsize,
        (mem_branchKeys_of_ne hne).mp hregion⟩
    · rintro ⟨other, hother, hadx, hsize, hregion⟩
      exact ⟨other, hother, hadx, (hsizeKey other hother).mpr hsize,
        (mem_branchKeys_of_ne hne).mpr hregion⟩
  simp only [pickAt, List.cons_append, List.nil_append]
  by_cases htaken : RegionTaken root adx size region
  · rw [if_pos (hoccurs.mpr htaken), mem_branchKeys_of_ne hne]
    exact ⟨fun hmem => ⟨fun _ => hmem, fun hfree => absurd htaken hfree⟩,
      fun hregion => hregion.1 htaken⟩
  · rw [if_neg (mt hoccurs.mp htaken), all_mem_branchKeys hall]
    exact ⟨fun hnil => ⟨fun hregion => absurd hregion htaken, fun _ => hnil⟩, fun hregion =>
      hregion.2 htaken⟩

/-- Exactly the map ids of the creatives that match and are not hidden are found. -/
theorem mem_selectMapIds_iff (h : HoldsBanners root) :
    v ∈ (selectMapIds (adxElementInit root .nil) adx size region).map CacheNode.key ↔
      ∃ creative, Matches root adx size region creative ∧
        ¬ Hidden root adx size region creative ∧ mapIdOf creative = some v := by
  have hpath : v ∈ (selectMapIds (adxElementInit root .nil) adx size region).map CacheNode.key ↔
      Occurs (selectedPath adx size region (adxElementInit root .nil) ++ [v])
        (adxElementInit root .nil) := by
    rw [selectMapIds_eq, occurs_append_iff]
    cases descend (selectedPath adx size region (adxElementInit root .nil))
        (adxElementInit root .nil) with
    | none => simp
    | some leaf =>
      simp only [Option.elim_some, Option.some.injEq, exists_eq_left', occurs_singleton_iff]
      rfl
  rw [hpath]
  by_cases hsome : ∃ creative ∈ creatives root, .number adx ∈ values (some creative) "adx"
  · have hadx : pickAt [] "adx" (.number adx) (adxElementInit root .nil) = .number adx :=
      if_pos ((occurs_adx_iff h).mpr hsome)
    have hsize := fun creative hmem => @size_branch root creative adx size h hmem
    have hregion := fun creative hmem => @region_branch root creative adx region size h hmem _ hsize
    simp only [selectedPath, hadx, List.cons_append, List.nil_append]
    refine (occurs_idPath_iff h).trans ⟨?_, ?_⟩
    · rintro ⟨creative, hentered⟩
      have hbranch := (hsize creative hentered.mem).mp hentered.size
      have honRegion := (hregion creative hentered.mem).mp hentered.region
      obtain ⟨hmatches, hhidden⟩ :=
        (onBranch_and_onRegion_iff hentered.mem hentered.adx).mp ⟨hbranch, honRegion⟩
      exact ⟨creative, hmatches, hhidden, hentered.mapId⟩
    · rintro ⟨creative, hmatches, hhidden, hid⟩
      obtain ⟨hbranch, honRegion⟩ :=
        (onBranch_and_onRegion_iff hmatches.mem hmatches.adx).mpr ⟨hmatches, hhidden⟩
      exact ⟨creative, hmatches.mem, hmatches.adx, (hsize creative hmatches.mem).mpr hbranch,
        (hregion creative hmatches.mem).mpr honRegion, hid⟩
  · have hadx : pickAt [] "adx" (.number adx) (adxElementInit root .nil) = all :=
      if_neg (mt (occurs_adx_iff h).mp hsome)
    simp only [selectedPath, hadx, List.cons_append, List.nil_append]
    refine (occurs_idPath_iff h).trans ⟨?_, ?_⟩
    · rintro ⟨creative, hentered⟩
      -- "all" is no number of an exchange
      obtain ⟨number, hnumber⟩ := (h.banner creative hentered.mem).adx _ hentered.adx
      exact absurd hnumber.symm (number_ne_all number)
    · rintro ⟨creative, hmatches, -⟩
      exact absurd ⟨creative, hmatches.mem, hmatches.adx⟩ hsome

/-- The list is always in order. -/
theorem leaf_selectMapIds (h : HoldsBanners root) :
    ((selectMapIds (adxElementInit root .nil) adx size region).Pairwise
      fun a b => storedPrice b ≤ storedPrice a) ∧
      ((selectMapIds (adxElementInit root .nil) adx size region).map CacheNode.key).Nodup := by
  rw [selectMapIds_eq]
  cases hleaf : descend (selectedPath adx size region (adxElementInit root .nil))
      (adxElementInit root .nil) with
  | none => exact ⟨.nil, .nil⟩
  | some leaf =>
    have hgood := leaf_adxElementInit h rfl hleaf
    exact ⟨hgood.sorted, hgood.nodup⟩

/-- For every cache of banner creatives and every exchange, size and region: exactly the map ids of
the creatives that match are found, each once and in the order of the prices, exactly if each
creative that matches and is hidden has its map id in common with one that matches and is not. -/
theorem right_iff (h : HoldsBanners root) (adx : ℤ) (size : Bytes) (region : ℤ) :
    Right root adx size region ↔ ∀ creative, Matches root adx size region creative →
      Hidden root adx size region creative → ∃ other, Matches root adx size region other ∧
        ¬ Hidden root adx size region other ∧ mapIdOf other = mapIdOf creative := by
  constructor
  · intro hright creative hmatches hhidden
    obtain ⟨number, hid⟩ := (h.banner creative hmatches.mem).mapId
    have hfound := (hright.ids (.number number)).mpr ⟨creative, hmatches, hid⟩
    rw [hid]
    exact (mem_selectMapIds_iff h).mp hfound
  · intro hshown
    obtain ⟨hsorted, hnodup⟩ := @leaf_selectMapIds root adx region size h
    refine ⟨fun v => (mem_selectMapIds_iff h).trans ⟨?_, ?_⟩, hnodup, hsorted⟩
    · rintro ⟨creative, hmatches, -, hid⟩
      exact ⟨creative, hmatches, hid⟩
    · rintro ⟨creative, hmatches, hid⟩
      by_cases hhidden : Hidden root adx size region creative
      · obtain ⟨other, hother, hshown, hsame⟩ := hshown creative hmatches hhidden
        exact ⟨other, hother, hshown, hsame.trans hid⟩
      · exact ⟨creative, hmatches, hhidden, hid⟩

end

/-! ## Two creatives -/

/-- A banner for the exchange 1, with its map id and its sizes. -/
def sampleCreative (mapId : ℤ) (imgs : List CacheValue) : CacheNode :=
  ⟨.number mapId, .null, ofList [⟨str "type", .number 2, .nil⟩, ⟨str "map_id", .number mapId, .nil⟩,
    ⟨str "policyid", .number 7, .nil⟩, ⟨str "adx", .null, ofList [⟨.number 1, .null, .nil⟩]⟩,
    ⟨str "imgs", .null, ofList (imgs.map fun size => ⟨size, .null, .nil⟩)⟩]⟩

/-- A cache with creatives of one policy without regions. -/
def sampleRoot (creatives : List CacheNode) : CacheNode :=
  ⟨.unset, .unset, ofList [⟨str "policy_list", .null, ofList [⟨.number 7, .null, .nil⟩]⟩,
    ⟨str "creative_list", .null, ofList creatives⟩]⟩

/-- The sizes of the sample. -/
theorem values_imgs_sample (mapId : ℤ) (imgs : List CacheValue) :
    values (some (sampleCreative mapId imgs)) "imgs" = imgs := by
  change ((ofList (imgs.map fun size => ⟨size, .null, .nil⟩)).toList).map CacheNode.key = imgs
  rw [toList_ofList, List.map_map]
  exact List.map_id imgs

/-- The sample is a banner. -/
theorem isBanner_sample {imgs : List CacheValue} (h : ∀ v ∈ imgs, IsNodeKey v ∧ v ≠ all)
    (mapId : ℤ) (creatives : List CacheNode) :
    IsBanner (sampleRoot creatives) (sampleCreative mapId imgs) where
  type := rfl
  mapId := ⟨mapId, rfl⟩
  adx := fun v hv => ⟨1, List.mem_singleton.mp hv⟩
  imgs := by
    rw [values_imgs_sample]
    exact h
  regioncode := fun v hv => absurd hv List.not_mem_nil

/-- The two sizes are keys. -/
theorem isNodeKey_size {size : CacheValue} (hsize : size ∈ [str "320X50", str "640X100"]) :
    ∀ v ∈ [size], IsNodeKey v ∧ v ≠ all := by
  intro v hv
  rw [List.mem_singleton.mp hv]
  rcases List.mem_cons.mp hsize with rfl | hsize
  · exact ⟨isNodeKey_str (by decide), by decide⟩
  · rw [List.mem_singleton.mp hsize]
    exact ⟨isNodeKey_str (by decide), by decide⟩

/-- A creative without a size is found beside one with a size that is not asked for. -/
theorem creative_without_size_found :
    Right (sampleRoot [sampleCreative 31 [], sampleCreative 32 [str "640X100"]]) 1
      (bytes "320X50") 5 := by
  have hmem : ∀ creative ∈ creatives
        (sampleRoot [sampleCreative 31 [], sampleCreative 32 [str "640X100"]]),
      creative = sampleCreative 31 [] ∨ creative = sampleCreative 32 [str "640X100"] := by
    intro creative hcreative
    exact (List.mem_cons.mp hcreative).imp_right List.mem_singleton.mp
  have hbanners : HoldsBanners
      (sampleRoot [sampleCreative 31 [], sampleCreative 32 [str "640X100"]]) := by
    refine ⟨rfl, fun creative hcreative => ?_⟩
    obtain rfl | rfl := hmem creative hcreative
    · exact isBanner_sample (fun v hv => absurd hv List.not_mem_nil) 31 _
    · exact isBanner_sample (isNodeKey_size (by simp)) 32 _
  refine (right_iff hbanners 1 (bytes "320X50") 5).mpr fun creative hmatches hhidden => ?_
  exfalso
  obtain ⟨-, other, hother, -, hsize⟩ | ⟨-, other, hother, -, -, hregion⟩ := hhidden
  · -- no creative lists the size
    obtain rfl | rfl := hmem other hother
    · rw [values_imgs_sample] at hsize
      exact List.not_mem_nil hsize
    · rw [values_imgs_sample] at hsize
      exact absurd (List.mem_singleton.mp hsize) (by decide)
  · obtain rfl | rfl := hmem other hother <;> exact List.not_mem_nil hregion

/-- A creative without a size and one with the size that is asked for: both match, and only the one
with the size is found. -/
theorem creative_without_size_lost :
    let root := sampleRoot [sampleCreative 31 [], sampleCreative 32 [str "320X50"]]
    let found := (selectMapIds (adxElementInit root .nil) 1 (bytes "320X50") 5).map CacheNode.key
    HoldsBanners root ∧ Matches root 1 (bytes "320X50") 5 (sampleCreative 31 []) ∧
      CacheValue.number 31 ∉ found ∧ CacheValue.number 32 ∈ found ∧
      ¬ Right root 1 (bytes "320X50") 5 := by
  intro root found
  have hmem : ∀ creative ∈ creatives root,
      creative = sampleCreative 31 [] ∨ creative = sampleCreative 32 [str "320X50"] := by
    intro creative hcreative
    exact (List.mem_cons.mp hcreative).imp_right List.mem_singleton.mp
  have hbanners : HoldsBanners root := by
    refine ⟨rfl, fun creative hcreative => ?_⟩
    obtain rfl | rfl := hmem creative hcreative
    · exact isBanner_sample (fun v hv => absurd hv List.not_mem_nil) 31 _
    · exact isBanner_sample (isNodeKey_size (by simp)) 32 _
  have h31 : Matches root 1 (bytes "320X50") 5 (sampleCreative 31 []) :=
    ⟨List.mem_cons_self, List.mem_cons_self, .inl (values_imgs_sample 31 []), .inl rfl⟩
  have h32 : Matches root 1 (bytes "320X50") 5 (sampleCreative 32 [str "320X50"]) := by
    refine ⟨List.mem_cons_of_mem _ List.mem_cons_self, List.mem_cons_self, .inr ?_, .inl rfl⟩
    rw [values_imgs_sample]
    exact List.mem_singleton_self _
  -- the size is taken, so that the creative without one is not found
  have htaken : SizeTaken root 1 (bytes "320X50") := by
    refine ⟨_, h32.mem, h32.adx, ?_⟩
    rw [values_imgs_sample]
    exact List.mem_singleton_self _
  have hlost : CacheValue.number 31 ∉ found := by
    rw [mem_selectMapIds_iff hbanners]
    rintro ⟨creative, hmatches, hshown, hid⟩
    obtain rfl | rfl := hmem creative hmatches.mem
    · exact hshown (.inl ⟨values_imgs_sample 31 [], htaken⟩)
    · exact absurd hid (by decide)
  have hfound : CacheValue.number 32 ∈ found := by
    rw [mem_selectMapIds_iff hbanners]
    refine ⟨_, h32, ?_, rfl⟩
    rintro (⟨hnil, -⟩ | ⟨-, creative, hcreative, -, -, hregion⟩)
    · rw [values_imgs_sample] at hnil
      cases hnil
    · obtain rfl | rfl := hmem creative hcreative <;> exact List.not_mem_nil hregion
  exact ⟨hbanners, h31, hlost, hfound, fun hright => hlost ((hright.ids _).mpr ⟨_, h31, rfl⟩)⟩

end ElementIndex

end AdxDsp
