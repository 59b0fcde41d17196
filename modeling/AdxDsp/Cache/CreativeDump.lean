import AdxDsp.Cache.FromJson
import AdxDsp.Cache.SpliceApart

/-!
# Loading the creatives

`adx_dump_load_creative` (`adx_dump.cpp`) enters the creatives of the policies into the cache of the
exchanges: the size, one of two lists, the map id with its price, and below it what the policy and
the creative say.  A node that is already there is filled once more.

* **The functions**: `adxDumpLoadCreative`, and `run`, one after another.
* `Right`: what the lists should hold; `Fits`, where an entry finds no node that it would spoil.
* `right_of_allFit`: a run whose entries fit is right.
* `exchange_listed_twice`: a creative that lists an exchange twice.
-/

namespace AdxDsp

open CText

namespace CreativeDump

open Cache CacheHeap CacheList Json

/-! ## Documents -/

/-- `adx_json_find`, where the node may be `NULL`. -/
def find (json : Option AdxJson) (key : String) : Option AdxJson :=
  json.bind fun json => adxJsonFind json (bytes key)

/-- `adx_json_find_value_number`, as the `int` it is assigned to. -/
def adxJsonFindValueNumber (json : Option AdxJson) (key : String) : ℤ :=
  ((find json key).bind fun node => if node.type = .number then node.val else none).elim 0 atoi

/-- `adx_json_find_value_string` -/
def adxJsonFindValueString (json : Option AdxJson) (key : String) : Option Bytes :=
  (find json key).bind fun node => if node.type = .string then node.val else none

/-- The children of an array that `adx_json_array_check` accepts. -/
def arrayNodes (json : Option AdxJson) : Option (List AdxJson) :=
  json.bind fun json => if adxJsonArrayCheck json then some json.child.nodes else none

/-- `adx_cache_from_json_string` -/
def adxCacheFromJsonString (json : Option AdxJson) (cache : CacheList) : CacheList :=
  match json with
  | some json =>
    if json.type = .string then
      Cache.adxCacheAdd (adxCacheValueString json.key) (adxCacheValueString json.val) id cache
    else cache
  | none => cache

/-- `adx_cache_from_json_number` -/
def adxCacheFromJsonNumber (json : Option AdxJson) (cache : CacheList) : CacheList :=
  match json with
  | some json =>
    if json.type = .number then
      Cache.adxCacheAdd (adxCacheValueString json.key) (.number (json.val.elim 0 atoi)) id cache
    else cache
  | none => cache

/-- `adx_cache_from_json_array` -/
def adxCacheFromJsonArray (json : Option AdxJson) (cache : CacheList) : CacheList :=
  match json, arrayNodes json with
  | some json, some nodes =>
    Cache.adxCacheAdd (adxCacheValueString json.key) .null (fun cache =>
      nodes.foldl (fun cache node => (adxCacheFromJsonValue node cache).getD cache) cache) cache
  | _, _ => cache

/-! ## Policies -/

/-- `adx_dump_load_policy_info` -/
def adxDumpLoadPolicyInfo (json : AdxJson) (policyId : ℤ) : Option CacheList :=
  let campaignId := adxJsonFindValueNumber (some json) "campaignid"
  if campaignId = 0 then none
  else
    let policyInfo := Cache.adxCacheAdd (str "campaign_id") (.number campaignId) id .nil
    some (Cache.adxCacheAdd (str "policy_id") (.number policyId) id policyInfo)

/-- The names of the targets. -/
def targetNames : List String :=
  ["regioncode", "connectiontype", "carrier", "devicetype", "os", "make"]

/-- `adx_dump_load_policy_target` -/
def adxDumpLoadPolicyTarget (json : AdxJson) : Option CacheList :=
  (find (some json) "device").map fun device =>
    targetNames.foldl (fun target name => adxCacheFromJsonArray (find (some device) name) target)
      .nil

/-- A policy as it is loaded.  The tree of `adx_json_parse` has no keys in arrays; without a
document there is no target. -/
structure Policy where
  info : CacheList
  target : Option CacheList
  isInfo : ∃ json policyId, adxDumpLoadPolicyInfo json policyId = some info
  isTarget : ∀ tree ∈ target, ∃ json, Shaped (fun _ => True) true json.child ∧
    adxDumpLoadPolicyTarget json = some tree

/-! ## Creatives -/

/-- What the value of a size is: `ADX_SIZE_IMG`, `ADX_SIZE_ICON` or `ADX_SIZE_INFO`. -/
inductive SizeType where
  | img
  | icon
  | info

/-- The text of a size. -/
def adsize (w h : ℤ) : Bytes := decimal w ++ 88 :: decimal h

/-- `adx_dump_load_creative_size`, with what its caller does to the node. -/
def adxDumpLoadCreativeSize (json : Option AdxJson) (sizeType : SizeType)
    (call : CacheList → CacheList) (cache : CacheList) : CacheList :=
  let w := adxJsonFindValueNumber json "w"
  let h := adxJsonFindValueNumber json "h"
  if w = 0 ∨ h = 0 then cache
  else
    let val := match sizeType with
      | .img => .number 1
      | .icon => .number 2
      | .info => adxCacheValueString (adxJsonFindValueString json "sourceurl")
    Cache.adxCacheAdd (.string (adsize w h)) val call cache

/-- `adx_dump_load_creative_price`; the prices come in the order of their keys. -/
def adxDumpLoadCreativePrice (mapId : ℤ) (prices : List (Bytes × ℤ)) : CacheNode :=
  ⟨.unset, .unset, prices.foldl (fun cache price =>
    Cache.adxCacheAdd (.number (atoi price.1)) (.number price.2) id cache)
    (Cache.adxCacheAdd (str "map_id") (.number mapId) id .nil)⟩

/-- The two lists of a size. -/
inductive Listing where
  | white
  | unlimit
  deriving DecidableEq

/-- The name of a list. -/
def Listing.key : Listing → CacheValue
  | .white => str "white_list"
  | .unlimit => str "unlimit_list"

/-- The price of a node in a list. -/
def priceOfNode (node : CacheNode) : ℤ := valueToNumber node.val

/-- What is put below a map id. -/
def fill (policy : Policy) (creativeId : ℤ) (json : AdxJson) (cache : CacheList) : CacheList :=
  let cache := spliceApart policy.info cache
  let cache := Cache.adxCacheAdd (str "creative_id") (.number creativeId) id cache
  let cache := spliceOption policy.target cache
  let cache := adxCacheFromJsonString (find (some json) "monitorcode") cache
  let cache := adxCacheFromJsonArray (find (some json) "imonitorurl") cache
  let cache := adxCacheFromJsonArray (find (some json) "cmonitorurl") cache
  let cache := adxCacheFromJsonString (find (some json) "curl") cache
  let cache := adxCacheFromJsonString (find (some json) "landingurl") cache
  adxCacheFromJsonString (find (some json) "deeplink") cache

/-- `adx_dump_load_creative_info` with the list that `rand` picks, and with what its caller does to
the node of the map id. -/
def adxDumpLoadCreativeInfo (listing : Listing) (adx : ℤ) (policy : Policy)
    (creativePrice : CacheNode) (json : AdxJson) (call : CacheList → CacheList)
    (parent : CacheList) : CacheList :=
  let parent := Cache.adxCacheAdd Listing.white.key .null id parent
  let parent := Cache.adxCacheAdd Listing.unlimit.key .null id parent
  match (Cache.adxCacheFind creativePrice (.number adx)).or
      (Cache.adxCacheFind creativePrice (.number 0)) with
  | none => parent
  | some priceCache =>
    let price := valueToNumber priceCache.val
    let mapId := getCacheFindNum creativePrice "map_id"
    let creativeId := adxJsonFindValueNumber (some json) "creativeid"
    if price = 0 ∨ mapId = 0 ∨ creativeId = 0 then parent
    else
      Cache.adxCacheAdd listing.key .null (fun creatives =>
        let creatives := Cache.adxCacheAdd (.number mapId) (.number price) id creatives
        let sorted := adxListSort (creatives.childTotal + 1).toNat (priceCmp priceOfNode) creatives
        sorted.modify (.number mapId) fun cache => call (fill policy creativeId json cache)) parent

section

variable (listing : Listing) (adx : ℤ) (policy : Policy) (creativePrice : CacheNode)
  (json : AdxJson) (cache : CacheList)

/-- `adx_dump_load_creative_banner` -/
def adxDumpLoadCreativeBanner : CacheList :=
  Cache.adxCacheAdd (str "banner") .null
    (adxDumpLoadCreativeSize (some json) .img
      (adxDumpLoadCreativeInfo listing adx policy creativePrice json
        (Cache.adxCacheAdd (str "imgs") .null
          (adxDumpLoadCreativeSize (some json) .info id)))) cache

/-- `adx_dump_load_creative_native` -/
def adxDumpLoadCreativeNative : CacheList :=
  let icon := find (some json) "icon"
  Cache.adxCacheAdd (str "native") .null
    (adxDumpLoadCreativeSize icon .icon fun cache =>
      match arrayNodes (find (some json) "imgs") with
      | none => cache
      | some imgs =>
        imgs.foldr (fun node call => adxDumpLoadCreativeSize (some node) .icon call)
          (adxDumpLoadCreativeInfo listing adx policy creativePrice json fun cache =>
            let cache := Cache.adxCacheAdd (str "icon") .null
              (adxDumpLoadCreativeSize icon .info id) cache
            let cache := imgs.foldl (fun cache node => Cache.adxCacheAdd (str "imgs") .null
              (adxDumpLoadCreativeSize (some node) .info id) cache) cache
            let cache := adxCacheFromJsonString (find (some json) "title") cache
            let cache := adxCacheFromJsonString (find (some json) "description") cache
            adxCacheFromJsonNumber (find (some json) "rating") cache) cache) cache

end

/-- The cache of the exchanges, and how often `rand` has been called. -/
structure Dump where
  cache : CacheList
  calls : ℕ

/-- The list that the next call of `rand` picks. -/
def pick (rand : ℕ → ℕ) (dump : Dump) : Listing :=
  if rand dump.calls % 2 = 0 then .unlimit else .white

/-- `adx_dump_load_creative_parse_type`, for the node of an exchange. -/
def adxDumpLoadCreativeParseType (rand : ℕ → ℕ) (adx : ℤ) (policy : Policy)
    (creativePrice : CacheNode) (json : AdxJson) (dump : Dump) : Dump :=
  let type := adxJsonFindValueNumber (some json) "type"
  let add (call : CacheList → CacheList) : CacheList :=
    Cache.adxCacheAdd (.number adx) .null call dump.cache
  if type = 2 then
    ⟨add (adxDumpLoadCreativeBanner (pick rand dump) adx policy creativePrice json), dump.calls + 1⟩
  else if type = 9 then
    ⟨add (adxDumpLoadCreativeNative (pick rand dump) adx policy creativePrice json),
      -- without images it returns before the call of rand
      dump.calls + if (arrayNodes (find (some json) "imgs")).isSome then 1 else 0⟩
  else ⟨add id, dump.calls⟩

/-- The exchanges of `exts`. -/
def exchanges (json : AdxJson) : List ℤ :=
  ((arrayNodes (find (some json) "exts")).getD []).map fun node =>
    adxJsonFindValueNumber (some node) "adx"

/-- `adx_dump_load_creative_adx` -/
def adxDumpLoadCreativeAdx (rand : ℕ → ℕ) (policy : Policy) (creativePrice : CacheNode)
    (json : AdxJson) (dump : Dump) : Dump :=
  (exchanges json).foldl (fun dump adx =>
    adxDumpLoadCreativeParseType rand adx policy creativePrice json dump) dump

/-- A call: its arguments, and the document and the prices that redis has for the map id, if they
can be read. -/
structure Load where
  policy : Policy
  mapId : ℤ
  json : Option AdxJson
  prices : Option (List (Bytes × ℤ))

/-- `adx_dump_load_creative` -/
def adxDumpLoadCreative (rand : ℕ → ℕ) (dump : Dump) (load : Load) : Dump :=
  match load.json, load.prices with
  | some json, some prices =>
    adxDumpLoadCreativeAdx rand load.policy (adxDumpLoadCreativePrice load.mapId prices) json dump
  | _, _ => dump

/-- The calls one after another, from the empty cache. -/
def run (rand : ℕ → ℕ) (loads : List Load) : Dump :=
  loads.foldl (adxDumpLoadCreative rand) ⟨.nil, 0⟩

/-! ## What the lists should hold -/

/-- An exchange of a loaded creative. -/
structure Entry where
  adx : ℤ
  policy : Policy
  mapId : ℤ
  json : AdxJson
  prices : List (Bytes × ℤ)

/-- The exchanges of a loaded creative, each as often as it is listed. -/
def Load.entries (load : Load) : List Entry :=
  match load.json, load.prices with
  | some json, some prices =>
    (exchanges json).map fun adx => ⟨adx, load.policy, load.mapId, json, prices⟩
  | _, _ => []

/-- The first entry of the table for an exchange. -/
def priceEntry (prices : List (Bytes × ℤ)) (adx : ℤ) : Option ℤ :=
  (prices.find? fun price => atoi price.1 = adx).map Prod.snd

/-- The price for the exchange, or else the one for 0. -/
def Entry.price (entry : Entry) : ℤ :=
  ((priceEntry entry.prices entry.adx).or (priceEntry entry.prices 0)).getD 0

/-- The creative has this size, and it can be bid with. -/
structure Entry.Offers (entry : Entry) (w h : ℤ) : Prop where
  width : adxJsonFindValueNumber (some entry.json) "w" = w
  height : adxJsonFindValueNumber (some entry.json) "h" = h
  mapId : entry.mapId ≠ 0
  creativeId : adxJsonFindValueNumber (some entry.json) "creativeid" ≠ 0
  price : entry.price ≠ 0

/-- The list of an exchange and a size. -/
def creatives (cache : CacheList) (adx w h : ℤ) (listing : Listing) : CacheList :=
  childrenOf listing.key (childrenOf (.string (adsize w h))
    (childrenOf (str "banner") (childrenOf (.number adx) cache)))

/-- The values under a name. -/
def values (cache : CacheList) (name : String) : List CacheValue :=
  (childrenOf (str name) cache).toList.map CacheNode.val

/-- The node is that of the entry. -/
def Entry.Node (entry : Entry) (node : CacheNode) : Prop :=
  node.key = .number entry.mapId ∧ node.val = .number entry.price

/-- For an exchange and a size both lists together hold the map ids that can be bid with, with their
prices and the targets of their policies; each list has a map id once, and is in the order of the
prices. -/
structure RightAt (entries : List Entry) (cache : CacheList) (adx w h : ℤ) : Prop where
  sound : ∀ listing, ∀ node ∈ (creatives cache adx w h listing).toList,
    ∃ entry ∈ entries, entry.adx = adx ∧ entry.Offers w h ∧ entry.Node node
  complete : ∀ entry ∈ entries, entry.adx = adx → entry.Offers w h →
    ∃ listing, ∃ node ∈ (creatives cache adx w h listing).toList, entry.Node node
  nodup : ∀ listing, (creatives cache adx w h listing).keys.Nodup
  sorted : ∀ listing, (creatives cache adx w h listing).toList.Pairwise
    fun a b => priceOfNode b ≤ priceOfNode a
  targets : ∀ listing, ∀ node ∈ (creatives cache adx w h listing).toList, ∀ entry ∈ entries,
    node.key = .number entry.mapId → ∀ name ∈ targetNames,
      values node.child name = values (entry.policy.target.getD .nil) name

/-- The lists are right for all exchanges and sizes. -/
def Right (entries : List Entry) (cache : CacheList) : Prop :=
  ∀ adx w h, w ≠ 0 → h ≠ 0 → RightAt entries cache adx w h

/-! ## Sizes and prices -/

section

variable {w h w' h' mapId adx : ℤ} {key key' val : CacheValue} {cache : CacheList}
  {prices : List (Bytes × ℤ)}

/-- A size names its width and its height. -/
theorem adsize_inj : adsize w h = adsize w' h' ↔ w = w' ∧ h = h' := by
  have htake : ∀ w h, (adsize w h).takeWhile (· ≠ 88) = decimal w := by
    intro w h
    rw [adsize, List.takeWhile_append_of_pos]
    · simp
    · intro b hb
      have hne : b ≠ 88 := by
        rintro rfl
        exact notMem_decimal (by decide) (by decide) w hb
      simpa using hne
  constructor
  · intro heq
    have hw : decimal w = decimal w' := by rw [← htake w h, heq, htake]
    rw [adsize, adsize, hw] at heq
    obtain ⟨-, hh⟩ := List.cons_eq_cons.mp (List.append_cancel_left heq)
    exact ⟨decimal_injective hw, decimal_injective hh⟩
  · rintro ⟨rfl, rfl⟩
    rfl

/-- A number that a document has is an `int`. -/
theorem adxJsonFindValueNumber_bounds (json : Option AdxJson) (key : String) :
    -2 ^ 31 ≤ adxJsonFindValueNumber json key ∧ adxJsonFindValueNumber json key < 2 ^ 31 := by
  rw [adxJsonFindValueNumber]
  cases (find json key).bind fun node => if node.type = .number then node.val else none with
  | none => exact ⟨by norm_num, by norm_num⟩
  | some val => exact atoi_bounds val

/-- An `int` has eleven characters at most. -/
theorem length_decimal_le (hlow : -2 ^ 31 ≤ w) (hhigh : w < 2 ^ 31) :
    (decimal w).length ≤ 11 := by
  by_cases hneg : w < 0
  · have habs := @length_decimal_natCast_le w.natAbs 10 (by norm_num) (by omega)
    rw [decimal, if_neg (not_lt.mpr (Int.natCast_nonneg _)), Int.natAbs_natCast] at habs
    rw [decimal, if_pos hneg, List.length_cons]
    omega
  · have habs := @length_decimal_natCast_le w.toNat 10 (by norm_num) (by omega)
    rw [Int.toNat_of_nonneg (by omega)] at habs
    omega

/-- The text of a size is short enough for a key. -/
theorem isNodeKey_adsize (json : Option AdxJson) :
    IsNodeKey (.string (adsize (adxJsonFindValueNumber json "w")
      (adxJsonFindValueNumber json "h"))) := by
  obtain ⟨hw, hw'⟩ := adxJsonFindValueNumber_bounds json "w"
  obtain ⟨hh, hh'⟩ := adxJsonFindValueNumber_bounds json "h"
  refine ⟨copies_string ?_, trivial⟩
  have hwidth := length_decimal_le hw hw'
  have hheight := length_decimal_le hh hh'
  rw [adsize, List.length_append, List.length_cons]
  omega

/-- A child without changes is found as it was, and a new one behind the others. -/
theorem findKey_adxCacheAdd_id (hkey : IsNodeKey key) (hval : val.IsNodeValue) :
    (Cache.adxCacheAdd key val id cache).findKey key' =
      (cache.findKey key').or (if key = key' then some ⟨key, val, .nil⟩ else none) := by
  rw [adxCacheAdd_eq_ite hkey hval]
  split_ifs with hmem hsame hsame
  · subst hsame
    obtain ⟨node, hnode⟩ := Option.isSome_iff_exists.mp (isSome_findKey_iff.mpr hmem)
    rw [findKey_modify_self, hnode]
    rfl
  · rw [findKey_modify_of_ne (Ne.symm hsame), Option.or_none]
  · rw [findKey_snoc, if_pos hsame]
    rfl
  · rw [findKey_snoc, if_neg hsame]

/-- The first price for a number is found. -/
theorem findKey_foldl_prices (key' : CacheValue) :
    (prices.foldl (fun cache price =>
      Cache.adxCacheAdd (.number (atoi price.1)) (.number price.2) id cache) cache).findKey key' =
      (cache.findKey key').or ((prices.find? fun price => .number (atoi price.1) = key').map
        fun price => ⟨.number (atoi price.1), .number price.2, .nil⟩) := by
  induction prices generalizing cache with
  | nil => exact (Option.or_none).symm
  | cons price prices ih =>
    rw [List.foldl_cons, ih, findKey_adxCacheAdd_id (isNodeKey_number _) (isNodeValue_number _),
      Option.or_assoc, List.find?_cons]
    by_cases hkey : CacheValue.number (atoi price.1) = key' <;> simp [hkey]

/-- The name of the mapping id is a key. -/
theorem isNodeKey_mapIdName : IsNodeKey (str "map_id") := isNodeKey_str (by decide)

/-- The price that is looked up. -/
theorem price_adxDumpLoadCreativePrice (mapId : ℤ) (prices : List (Bytes × ℤ)) (adx : ℤ) :
    (Cache.adxCacheFind (adxDumpLoadCreativePrice mapId prices) (.number adx)).map
      (fun node => valueToNumber node.val) = priceEntry prices adx := by
  change ((adxDumpLoadCreativePrice mapId prices).child.findKey (.number adx)).map _ = _
  have hstart : (Cache.adxCacheAdd (str "map_id") (.number mapId) id .nil).findKey (.number adx) =
      none := by
    rw [findKey_adxCacheAdd_id isNodeKey_mapIdName (isNodeValue_number _)]
    rfl
  rw [adxDumpLoadCreativePrice, findKey_foldl_prices, hstart, Option.none_or, Option.map_map,
    priceEntry]
  simp only [CacheValue.number.injEq]
  rfl

/-- The prices of a creative carry its mapping id. -/
theorem mapId_adxDumpLoadCreativePrice (mapId : ℤ) (prices : List (Bytes × ℤ)) :
    getCacheFindNum (adxDumpLoadCreativePrice mapId prices) "map_id" = mapId := by
  change ((adxDumpLoadCreativePrice mapId prices).child.findKey (str "map_id")).elim 0 _ = mapId
  rw [adxDumpLoadCreativePrice, findKey_foldl_prices,
    findKey_adxCacheAdd_id isNodeKey_mapIdName (isNodeValue_number _), if_pos rfl]
  rfl

end

/-! ## Lists of creatives -/

/-- The names of the lists are keys. -/
theorem isNodeKey_listing (listing : Listing) : IsNodeKey listing.key := by
  cases listing <;> exact isNodeKey_str (by decide)

/-- The two lists have different names. -/
theorem listing_key_inj {a b : Listing} : a.key = b.key ↔ a = b := by
  cases a <;> cases b <;> decide

/-- What an entry does to the children of its map id. -/
def Entry.fillNode (entry : Entry) (cache : CacheList) : CacheList :=
  Cache.adxCacheAdd (str "imgs") .null (adxDumpLoadCreativeSize (some entry.json) .info id)
    (fill entry.policy (adxJsonFindValueNumber (some entry.json) "creativeid") entry.json cache)

/-- What an entry does to a list. -/
def Entry.enter (entry : Entry) (creatives : CacheList) : CacheList :=
  let creatives := Cache.adxCacheAdd (.number entry.mapId) (.number entry.price) id creatives
  (adxListSort (creatives.childTotal + 1).toNat (priceCmp priceOfNode) creatives).modify
    (.number entry.mapId) entry.fillNode

/-- The list that an entry enters before it is sorted. -/
def Entry.entered (entry : Entry) (creatives : CacheList) : CacheList :=
  Cache.adxCacheAdd (.number entry.mapId) (.number entry.price) entry.fillNode creatives

section

variable {entry : Entry} {list : CacheList} {node : CacheNode}

/-- Reordering keeps the keys distinct. -/
theorem nodup_keys_of_perm {a b : CacheList} (h : a.toList.Perm b.toList) (hb : b.keys.Nodup) :
    a.keys.Nodup :=
  (h.map CacheNode.key).nodup_iff.mpr hb

/-- Filling the node before or after the list is sorted is the same. -/
theorem toList_enter_perm (h : list.keys.Nodup) :
    (entry.enter list).toList.Perm (entry.entered list).toList := by
  have hkey := isNodeKey_number entry.mapId
  have hval := isNodeValue_number entry.price
  have hsort := toList_adxListSort_perm
    ((Cache.adxCacheAdd (.number entry.mapId) (.number entry.price) id list).childTotal + 1).toNat
    (priceCmp priceOfNode) (Cache.adxCacheAdd (.number entry.mapId) (.number entry.price) id list)
  have hnodup := nodup_keys_of_perm hsort (nodup_keys_adxCacheAdd hkey hval h)
  rw [Entry.enter, toList_modify hnodup]
  refine (hsort.map _).trans (.of_eq ?_)
  rw [Entry.entered, adxCacheAdd_eq_ite hkey hval, adxCacheAdd_eq_ite hkey hval]
  split_ifs with hmem
  · rw [toList_modify h, toList_modify h, List.map_map]
    refine List.map_congr_left fun node _ => ?_
    rw [Function.comp_apply]
    by_cases hsame : node.key = .number entry.mapId
    · simp [CacheNode.changeAt, CacheNode.withChild, hsame]
    · simp [CacheNode.changeAt, hsame]
  · have hother : ∀ node ∈ list.toList, node.key ≠ .number entry.mapId := by
      rintro node hnode hsame
      rw [← hsame] at hmem
      exact hmem (List.mem_map_of_mem hnode)
    rw [toList_snoc, toList_snoc, List.map_append, map_changeAt_of_notMem hother]
    simp [CacheNode.changeAt, CacheNode.withChild]

/-- An entry keeps the keys distinct. -/
theorem nodup_keys_enter (h : list.keys.Nodup) : (entry.enter list).keys.Nodup :=
  nodup_keys_of_perm (toList_enter_perm h)
    (nodup_keys_adxCacheAdd (isNodeKey_number _) (isNodeValue_number _) h)

/-- The list is sorted, and filling the node keeps its order. -/
theorem pairwise_enter (h : list.keys.Nodup) :
    (entry.enter list).toList.Pairwise fun a b => priceOfNode b ≤ priceOfNode a := by
  have hkey := isNodeKey_number entry.mapId
  have hval := isNodeValue_number entry.price
  have hsort := toList_adxListSort_perm
    ((Cache.adxCacheAdd (.number entry.mapId) (.number entry.price) id list).childTotal + 1).toNat
    (priceCmp priceOfNode) (Cache.adxCacheAdd (.number entry.mapId) (.number entry.price) id list)
  rw [Entry.enter, toList_modify (nodup_keys_of_perm hsort (nodup_keys_adxCacheAdd hkey hval h)),
    List.pairwise_map]
  refine (pairwise_adxListSort _ priceOfNode _).imp fun hle => ?_
  rwa [priceOfNode, priceOfNode, CacheNode.val_changeAt, CacheNode.val_changeAt]

/-- The nodes of the list behind a new map id. -/
theorem mem_enter_of_new (h : list.keys.Nodup) (hnew : .number entry.mapId ∉ list.keys) :
    node ∈ (entry.enter list).toList ↔ node ∈ list.toList ∨
      node = ⟨.number entry.mapId, .number entry.price, entry.fillNode .nil⟩ := by
  rw [(toList_enter_perm h).mem_iff, Entry.entered,
    adxCacheAdd_eq_ite (isNodeKey_number _) (isNodeValue_number _), if_neg hnew, toList_snoc,
    List.mem_append, List.mem_singleton]

/-- The nodes of the list behind a map id that is there. -/
theorem mem_enter_of_mem (h : list.keys.Nodup) (hmem : .number entry.mapId ∈ list.keys) :
    node ∈ (entry.enter list).toList ↔ ∃ old ∈ list.toList,
      node = old.changeAt (.number entry.mapId) entry.fillNode := by
  rw [(toList_enter_perm h).mem_iff, Entry.entered,
    adxCacheAdd_eq_ite (isNodeKey_number _) (isNodeValue_number _), if_pos hmem, toList_modify h,
    List.mem_map]
  simp only [eq_comm]

end

/-! ## The lists behind one entry -/

/-- What is done for an exchange of a creative. -/
def visit (rand : ℕ → ℕ) (dump : Dump) (entry : Entry) : Dump :=
  adxDumpLoadCreativeParseType rand entry.adx entry.policy
    (adxDumpLoadCreativePrice entry.mapId entry.prices) entry.json dump

section

variable {entry : Entry} {adx w h : ℤ} {listing picked : Listing} {cache : CacheList}
  {json : AdxJson} {call : CacheList → CacheList}

instance (entry : Entry) (w h : ℤ) : Decidable (entry.Offers w h) :=
  decidable_of_iff (adxJsonFindValueNumber (some entry.json) "w" = w ∧
    adxJsonFindValueNumber (some entry.json) "h" = h ∧ entry.mapId ≠ 0 ∧
    adxJsonFindValueNumber (some entry.json) "creativeid" ≠ 0 ∧ entry.price ≠ 0)
    ⟨fun ⟨hw, hh, hid, hcreative, hprice⟩ => ⟨hw, hh, hid, hcreative, hprice⟩,
      fun ⟨hw, hh, hid, hcreative, hprice⟩ => ⟨hw, hh, hid, hcreative, hprice⟩⟩

/-- The price that the code finds is that of the entry. -/
theorem price_eq (entry : Entry) :
    ((Cache.adxCacheFind (adxDumpLoadCreativePrice entry.mapId entry.prices)
      (.number entry.adx)).or (Cache.adxCacheFind
        (adxDumpLoadCreativePrice entry.mapId entry.prices) (.number 0))).elim 0
          (fun node => valueToNumber node.val) = entry.price := by
  rw [Entry.price, ← price_adxDumpLoadCreativePrice entry.mapId,
    ← price_adxDumpLoadCreativePrice entry.mapId]
  cases Cache.adxCacheFind (adxDumpLoadCreativePrice entry.mapId entry.prices)
      (.number entry.adx) with
  | some node => rfl
  | none =>
    cases Cache.adxCacheFind (adxDumpLoadCreativePrice entry.mapId entry.prices) (.number 0) <;> rfl

/-- In the list that is picked the map id is entered. -/
theorem childrenOf_adxDumpLoadCreativeInfo (parent : CacheList) :
    childrenOf listing.key (adxDumpLoadCreativeInfo picked entry.adx entry.policy
      (adxDumpLoadCreativePrice entry.mapId entry.prices) entry.json
      (Cache.adxCacheAdd (str "imgs") .null
        (adxDumpLoadCreativeSize (some entry.json) .info id)) parent) =
      if (entry.price ≠ 0 ∧ entry.mapId ≠ 0 ∧
        adxJsonFindValueNumber (some entry.json) "creativeid" ≠ 0) ∧ listing = picked
      then entry.enter (childrenOf listing.key parent) else childrenOf listing.key parent := by
  have hprice := price_eq entry
  -- the nodes of the lists themselves add no child to a listing
  have hboth : ∀ parent, childrenOf listing.key (Cache.adxCacheAdd Listing.unlimit.key .null id
      (Cache.adxCacheAdd Listing.white.key .null id parent)) = childrenOf listing.key parent := by
    intro parent
    rw [childrenOf_adxCacheAdd_id (isNodeKey_listing _) isNodeValue_null,
      childrenOf_adxCacheAdd_id (isNodeKey_listing _) isNodeValue_null]
  rw [adxDumpLoadCreativeInfo]
  -- the price of the exchange, or that of all exchanges
  cases hfind : (Cache.adxCacheFind (adxDumpLoadCreativePrice entry.mapId entry.prices)
      (.number entry.adx)).or (Cache.adxCacheFind
        (adxDumpLoadCreativePrice entry.mapId entry.prices) (.number 0)) with
  | none =>
    rw [hfind] at hprice
    rw [if_neg fun h => h.1.1 hprice.symm]
    exact hboth parent
  | some priceCache =>
    rw [hfind] at hprice
    dsimp only [Option.elim_some] at hprice ⊢
    rw [hprice, mapId_adxDumpLoadCreativePrice]
    -- without a price, a map id or a creative id it is left out
    by_cases hskip : entry.price = 0 ∨ entry.mapId = 0 ∨
        adxJsonFindValueNumber (some entry.json) "creativeid" = 0
    · rw [if_pos hskip, if_neg, hboth]
      rintro ⟨⟨hprice, hid, hcreative⟩, -⟩
      exact hskip.elim hprice fun h => h.elim hid hcreative
    · obtain ⟨hprice, hrest⟩ := not_or.mp hskip
      obtain ⟨hid, hcreative⟩ := not_or.mp hrest
      rw [if_neg hskip]
      by_cases hsame : listing = picked
      · subst hsame
        rw [if_pos ⟨⟨hprice, hid, hcreative⟩, rfl⟩,
          childrenOf_adxCacheAdd (isNodeKey_listing _) isNodeValue_null, hboth]
        rfl
      · rw [if_neg fun h => hsame h.2, childrenOf_adxCacheAdd_of_ne (isNodeKey_listing _)
          (mt listing_key_inj.mp hsame), hboth]

/-- Only the size of the document is touched. -/
theorem childrenOf_adxDumpLoadCreativeSize_img (hw : w ≠ 0) (hh : h ≠ 0) :
    childrenOf (.string (adsize w h)) (adxDumpLoadCreativeSize (some json) .img call cache) =
      if adxJsonFindValueNumber (some json) "w" = w ∧ adxJsonFindValueNumber (some json) "h" = h
      then call (childrenOf (.string (adsize w h)) cache)
      else childrenOf (.string (adsize w h)) cache := by
  rw [adxDumpLoadCreativeSize]
  by_cases hzero : adxJsonFindValueNumber (some json) "w" = 0 ∨
      adxJsonFindValueNumber (some json) "h" = 0
  · rw [if_pos hzero, if_neg]
    rintro ⟨rfl, rfl⟩
    exact hzero.elim hw hh
  · rw [if_neg hzero]
    have hkey := isNodeKey_adsize (some json)
    by_cases hsize : adxJsonFindValueNumber (some json) "w" = w ∧
        adxJsonFindValueNumber (some json) "h" = h
    · rw [if_pos hsize]
      obtain ⟨rfl, rfl⟩ := hsize
      exact childrenOf_adxCacheAdd hkey (isNodeValue_number 1)
    · rw [if_neg hsize]
      refine childrenOf_adxCacheAdd_of_ne hkey fun heq => hsize ?_
      obtain ⟨rfl, rfl⟩ := adsize_inj.mp (CacheValue.string.inj heq)
      exact ⟨rfl, rfl⟩

end

section

variable {entry : Entry} {adx w h : ℤ} {listing : Listing} {rand : ℕ → ℕ} {dump : Dump}

/-- The document is a banner. -/
def IsBanner (json : AdxJson) : Prop := adxJsonFindValueNumber (some json) "type" = 2

/-- Exactly the list of the exchange, of the size and of the call of `rand` is entered. -/
theorem creatives_visit (hbanner : IsBanner entry.json) (hw : w ≠ 0) (hh : h ≠ 0) :
    creatives (visit rand dump entry).cache adx w h listing =
      if (adx = entry.adx ∧ entry.Offers w h) ∧ listing = pick rand dump
      then entry.enter (creatives dump.cache adx w h listing)
      else creatives dump.cache adx w h listing := by
  -- only the banners of the exchange are changed
  have hvisit : (visit rand dump entry).cache = Cache.adxCacheAdd (.number entry.adx) .null
      (adxDumpLoadCreativeBanner (pick rand dump) entry.adx entry.policy
        (adxDumpLoadCreativePrice entry.mapId entry.prices) entry.json) dump.cache := by
    rw [visit, adxDumpLoadCreativeParseType]
    dsimp only
    rw [if_pos (show adxJsonFindValueNumber (some entry.json) "type" = 2 from hbanner)]
  have hbannerKey : IsNodeKey (str "banner") := isNodeKey_str (by decide)
  rw [creatives, hvisit]
  -- another exchange, or another size, has the creatives that it had
  by_cases hadx : adx = entry.adx
  · subst hadx
    rw [childrenOf_adxCacheAdd (isNodeKey_number _) isNodeValue_null, adxDumpLoadCreativeBanner,
      childrenOf_adxCacheAdd hbannerKey isNodeValue_null,
      childrenOf_adxDumpLoadCreativeSize_img hw hh]
    by_cases hsize : adxJsonFindValueNumber (some entry.json) "w" = w ∧
        adxJsonFindValueNumber (some entry.json) "h" = h
    · rw [if_pos hsize, childrenOf_adxDumpLoadCreativeInfo]
      refine if_congr (and_congr_left fun _ => ?_) rfl rfl
      constructor
      · rintro ⟨hprice, hid, hcreative⟩
        exact ⟨rfl, hsize.1, hsize.2, hid, hcreative, hprice⟩
      · rintro ⟨-, hoffers⟩
        exact ⟨hoffers.price, hoffers.mapId, hoffers.creativeId⟩
    · rw [if_neg hsize, if_neg fun h => hsize ⟨h.1.2.width, h.1.2.height⟩]
      rfl
  · rw [childrenOf_adxCacheAdd_of_ne (isNodeKey_number _) (mt CacheValue.number.inj hadx),
      if_neg fun h => hadx h.1.1]
    rfl

end

/-! ## Texts and arrays of a document -/

section

variable {key name : String} {json node : AdxJson} {l : JsonList} {cache : CacheList}

/-- What is found under a name has it. -/
theorem key_of_findKey_json {key : Bytes} (h : l.findKey key = some node) :
    node.key = some key := by
  induction l with
  | nil => cases h
  | cons type key' val child next _ ih =>
    rw [JsonList.findKey] at h
    split_ifs at h with hkey
    · obtain rfl := Option.some.inj h
      exact hkey
    · exact ih h

/-- What is found under a name has it. -/
theorem key_of_find {json : Option AdxJson} (h : find json key = some node) :
    node.key = some (bytes key) := by
  obtain ⟨root, -, hnode⟩ := Option.bind_eq_some_iff.mp h
  exact key_of_findKey_json hnode

/-- A text is entered under its own name. -/
theorem childrenOf_adxCacheFromJsonString {json : Option AdxJson} (hkey : IsNodeKey (str key))
    (hne : str name ≠ str key) :
    childrenOf (str name) (adxCacheFromJsonString (find json key) cache) =
      childrenOf (str name) cache := by
  cases hfind : find json key with
  | none => rfl
  | some node =>
    rw [adxCacheFromJsonString]
    split_ifs
    · rw [key_of_find hfind]
      exact childrenOf_adxCacheAdd_of_ne hkey hne
    · rfl

/-- An array is entered under its own name. -/
theorem childrenOf_adxCacheFromJsonArray {json : Option AdxJson} (hkey : IsNodeKey (str key))
    (hne : str name ≠ str key) :
    childrenOf (str name) (adxCacheFromJsonArray (find json key) cache) =
      childrenOf (str name) cache := by
  rw [adxCacheFromJsonArray.eq_def]
  cases hfind : find json key with
  | none => rfl
  | some node =>
    cases arrayNodes (some node) with
    | none => rfl
    | some nodes =>
      dsimp only
      rw [key_of_find hfind]
      exact childrenOf_adxCacheAdd_of_ne hkey hne

end

/-! ## Policies are built -/

section

variable {P : Bytes → Prop} {keyed : Bool} {l : JsonList} {key : Bytes} {node : AdxJson}
  {cache : CacheList}

/-- What is found in an object has the shape of a value. -/
theorem shape_of_findKey (hl : Shaped P keyed l) (h : l.findKey key = some node) :
    NodeShape P node.type node.val node.child (Shaped P true node.child)
      (Shaped P false node.child) := by
  induction l with
  | nil => cases h
  | cons type key' val child next _ ih =>
    rw [JsonList.findKey] at h
    split_ifs at h
    · obtain rfl := Option.some.inj h
      exact hl.2.1
    · exact ih hl.2.2 h

/-- The children of a shaped node are shaped. -/
theorem shaped_child (h : NodeShape P node.type node.val node.child (Shaped P true node.child)
    (Shaped P false node.child)) : ∃ keyed, Shaped P keyed node.child := by
  have hnil : node.child = .nil → ∃ keyed, Shaped P keyed node.child := by
    intro hnil
    rw [hnil]
    exact ⟨true, trivial⟩
  revert h
  cases node.type with
  | unset => exact False.elim
  | object => exact fun h => ⟨true, h.2.2⟩
  | array => exact fun h => ⟨false, h.2.2⟩
  | empty => exact fun h => hnil h.2
  | string => exact fun h => hnil h.1
  | number => exact fun h => hnil h.1
  | bool => exact fun h => hnil h.1
  | null => exact fun h => hnil h.1

/-- The elements of an array have no names. -/
theorem key_of_mem_nodes (hl : Shaped P false l) (h : node ∈ l.nodes) : node.key = none := by
  induction l with
  | nil => cases h
  | cons type key val child next _ ih =>
    rw [JsonList.nodes, List.mem_cons] at h
    obtain rfl | h := h
    · exact Option.not_isSome_iff_eq_none.mp (Bool.eq_false_iff.mp hl.1.1)
    · exact ih hl.2.2 h

/-- An element without a key is entered as an element. -/
theorem built_adxCacheFromJsonValue (hkey : node.key = none) (h : Built cache) :
    Built ((adxCacheFromJsonValue node cache).getD cache) := by
  unfold adxCacheFromJsonValue
  dsimp only
  rw [hkey]
  generalize node.val.elim CacheValue.null _ = value
  by_cases htype : node.type = .object ∨ node.type = .array ∨ node.type = .empty
  · rwa [if_pos htype]
  · rw [if_neg htype]
    by_cases herror : value = .error
    · rwa [if_pos herror]
    · rw [if_neg herror]
      dsimp only [Option.getD_some]
      split_ifs
      · exact built_adxCacheArrayAdd h
      · exact h

/-- An array of the document makes a cache that was built. -/
theorem built_adxCacheFromJsonArray {json : Option AdxJson} {name : String}
    (hname : IsNodeKey (str name)) (hshape : ∀ node ∈ find json name,
      NodeShape P node.type node.val node.child (Shaped P true node.child)
        (Shaped P false node.child)) (h : Built cache) :
    Built (adxCacheFromJsonArray (find json name) cache) := by
  rw [adxCacheFromJsonArray.eq_def]
  cases hfind : find json name with
  | none => exact h
  | some node =>
    cases hnodes : arrayNodes (some node) with
    | none => exact h
    | some elements =>
      dsimp only
      rw [key_of_find hfind]
      have harray : adxJsonArrayCheck node = true ∧ node.child.nodes = elements := by
        simpa [arrayNodes] using hnodes
      have htype : node.type = .array := (of_decide_eq_true harray.1).1
      have hshaped : Shaped P false node.child := by
        have hnode := hshape node hfind
        rw [htype] at hnode
        exact hnode.2.2
      -- by induction over the elements, which have no keys of their own
      refine built_adxCacheAdd h hname fun cache hcache => ?_
      have helements : ∀ element ∈ elements, element.key = none := by
        rw [← harray.2]
        exact fun element hmem => key_of_mem_nodes hshaped hmem
      clear hnodes harray
      induction elements generalizing cache with
      | nil => exact hcache
      | cons element elements ih =>
        obtain ⟨helement, hrest⟩ := List.forall_mem_cons.mp helements
        exact ih _ (built_adxCacheFromJsonValue helement hcache) hrest

/-- The names of the targets are keys. -/
theorem isNodeKey_targetName : ∀ name ∈ targetNames, IsNodeKey (str name) := by
  intro name hname
  refine isNodeKey_str ?_
  revert name
  decide

/-- The target of a policy is built by `adx_cache_add`. -/
theorem Policy.built_target (policy : Policy) : Built (policy.target.getD .nil) := by
  cases htarget : policy.target with
  | none => trivial
  | some tree =>
    obtain ⟨json, hshaped, htree⟩ := policy.isTarget tree htarget
    obtain ⟨device, hdevice, rfl⟩ := Option.map_eq_some_iff.mp htree
    obtain ⟨keyed, hchild⟩ := shaped_child (shape_of_findKey hshaped hdevice)
    have hshape : ∀ name, ∀ node ∈ find (some device) name,
        NodeShape (fun _ => True) node.type node.val node.child
          (Shaped (fun _ => True) true node.child) (Shaped (fun _ => True) false node.child) :=
      fun name node hnode => shape_of_findKey hchild hnode
    have hloop : ∀ names : List String, (∀ name ∈ names, IsNodeKey (str name)) → ∀ target,
        Built target → Built (names.foldl (fun target name =>
          adxCacheFromJsonArray (find (some device) name) target) target) := by
      intro names
      induction names with
      | nil => exact fun _ target htarget => htarget
      | cons name names ih =>
        intro hnames target htarget
        obtain ⟨hname, hrest⟩ := List.forall_mem_cons.mp hnames
        exact ih hrest _ (built_adxCacheFromJsonArray hname (hshape name) htarget)
    exact hloop targetNames isNodeKey_targetName .nil trivial

/-- The policy itself has no target names. -/
theorem Policy.info_spec (policy : Policy) : Built policy.info ∧
    ∀ name ∈ targetNames, childrenOf (str name) policy.info = .nil := by
  obtain ⟨json, policyId, hinfo⟩ := policy.isInfo
  rw [adxDumpLoadPolicyInfo] at hinfo
  dsimp only at hinfo
  split_ifs at hinfo
  obtain hinfo := Option.some.inj hinfo
  have hcampaign : IsNodeKey (str "campaign_id") := isNodeKey_str (by decide)
  have hpolicy : IsNodeKey (str "policy_id") := isNodeKey_str (by decide)
  rw [← hinfo]
  constructor
  · exact built_adxCacheAdd (built_adxCacheAdd trivial hcampaign fun _ h => h) hpolicy fun _ h => h
  · intro name hname
    rw [childrenOf_adxCacheAdd_id hpolicy (isNodeValue_number _),
      childrenOf_adxCacheAdd_id hcampaign (isNodeValue_number _)]
    rfl

/-- The children of a cache that was built were built. -/
theorem built_childrenOf {cache : CacheList} {key : CacheValue} (h : Built cache) :
    Built (childrenOf key cache) := by
  induction cache with
  | nil => trivial
  | cons key' val child next _ ih =>
    rw [childrenOf, findKey]
    split_ifs
    · exact h.2.2.1
    · exact ih h.2.2.2

end

/-! ## What is put below a map id -/

section

variable {entry : Entry} {name : String} {cache : CacheList}

/-- Below a name of a target, the values of the policy are added. -/
theorem childrenOf_fillNode (hname : name ∈ targetNames) :
    childrenOf (str name) (entry.fillNode cache) =
      spliceApart (childrenOf (str name) (entry.policy.target.getD .nil))
        (childrenOf (str name) cache) := by
  obtain ⟨hinfo, hnone⟩ := entry.policy.info_spec
  have hkey := isNodeKey_targetName name hname
  -- none of the other keys is the name of a target
  have hother : ∀ key ∈ ["imgs", "deeplink", "landingurl", "curl", "cmonitorurl", "imonitorurl",
      "monitorcode", "creative_id"], IsNodeKey (str key) ∧ str name ≠ str key := by
    intro key hmem
    refine ⟨isNodeKey_str ?_, ?_⟩
    · revert key
      decide
    · have hnames : ∀ name ∈ targetNames, ∀ key ∈ ["imgs", "deeplink", "landingurl", "curl",
          "cmonitorurl", "imonitorurl", "monitorcode", "creative_id"], str name ≠ str key := by
        decide
      exact hnames name hname key hmem
  simp only [List.forall_mem_cons] at hother
  obtain ⟨himgs, hdeeplink, hlanding, hcurl, hcmonitor, himonitor, hmonitor, hcreative, -⟩ := hother
  -- the values of the target are spliced in behind those that are there
  have htarget : ∀ cache, childrenOf (str name) (spliceOption entry.policy.target cache) =
      spliceApart (childrenOf (str name) (entry.policy.target.getD .nil))
        (childrenOf (str name) cache) := by
    intro cache
    have hbuilt := entry.policy.built_target
    cases hnull : entry.policy.target with
    | none => rfl
    | some target =>
      rw [hnull] at hbuilt
      exact childrenOf_spliceApart hkey hbuilt cache
  rw [Entry.fillNode, childrenOf_adxCacheAdd_of_ne himgs.1 himgs.2, fill,
    childrenOf_adxCacheFromJsonString hdeeplink.1 hdeeplink.2,
    childrenOf_adxCacheFromJsonString hlanding.1 hlanding.2,
    childrenOf_adxCacheFromJsonString hcurl.1 hcurl.2,
    childrenOf_adxCacheFromJsonArray hcmonitor.1 hcmonitor.2,
    childrenOf_adxCacheFromJsonArray himonitor.1 himonitor.2,
    childrenOf_adxCacheFromJsonString hmonitor.1 hmonitor.2, htarget,
    childrenOf_adxCacheAdd_of_ne hcreative.1 hcreative.2, childrenOf_spliceApart hkey hinfo,
    hnone name hname, spliceApart]

/-- A new node has the values of the policy. -/
theorem values_fillNode_nil (hname : name ∈ targetNames) :
    values (entry.fillNode .nil) name = values (entry.policy.target.getD .nil) name := by
  rw [values, childrenOf_fillNode hname]
  change ((spliceApart _ .nil).toList).map _ = _
  rw [spliceApart_nil (built_childrenOf entry.policy.built_target)]
  rfl

/-- Without values in the policy a node keeps its own. -/
theorem values_fillNode_of_nil (hname : name ∈ targetNames)
    (h : values (entry.policy.target.getD .nil) name = []) :
    values (entry.fillNode cache) name = values cache name := by
  have hnil : childrenOf (str name) (entry.policy.target.getD .nil) = .nil := by
    have hlist := List.map_eq_nil_iff.mp h
    rw [← ofList_toList (childrenOf _ _), hlist]
    rfl
  rw [values, childrenOf_fillNode hname, hnil]
  rfl

end

/-! ## Runs -/

/-- The list that `rand` picks does not have the map id yet; or it is there with the price, and the
policy has no values that would be added once more. -/
def Fits (rand : ℕ → ℕ) (dump : Dump) (entry : Entry) : Prop :=
  ∀ w h, w ≠ 0 → h ≠ 0 → entry.Offers w h →
    .number entry.mapId ∉ (creatives dump.cache entry.adx w h (pick rand dump)).keys ∨
      (∀ name ∈ targetNames, values (entry.policy.target.getD .nil) name = []) ∧
        ∃ listing, ∃ node ∈ (creatives dump.cache entry.adx w h listing).toList, entry.Node node

/-- Each entry fits where it is entered. -/
def AllFit (rand : ℕ → ℕ) : Dump → List Entry → Prop
  | _, [] => True
  | dump, entry :: entries => Fits rand dump entry ∧ AllFit rand (visit rand dump entry) entries

section

variable {rand : ℕ → ℕ} {dump : Dump} {entries : List Entry} {entry : Entry} {adx w h : ℤ}
  {list : CacheList}

/-- A node has the values of the policy, if it has its map id. -/
def HasTargets (entry : Entry) (node : CacheNode) : Prop :=
  node.key = .number entry.mapId → ∀ name ∈ targetNames,
    values node.child name = values (entry.policy.target.getD .nil) name

/-- A node of the list before has one behind the entry, with the same key and value. -/
theorem exists_mem_enter (hlist : list.keys.Nodup) {node : CacheNode} (h : node ∈ list.toList) :
    ∃ node' ∈ (entry.enter list).toList, node'.key = node.key ∧ node'.val = node.val := by
  by_cases hmem : .number entry.mapId ∈ list.keys
  · exact ⟨_, (mem_enter_of_mem hlist hmem).mpr ⟨node, h, rfl⟩, CacheNode.key_changeAt,
      CacheNode.val_changeAt⟩
  · exact ⟨node, (mem_enter_of_new hlist hmem).mpr (.inl h), rfl, rfl⟩

/-- Where each map id has one policy, a node of a list has the targets of each entry with its
key. -/
theorem hasTargets_of_mem (hright : RightAt entries dump.cache adx w h)
    (hpolicy : ∀ e ∈ entries, e.mapId = entry.mapId → e.policy = entry.policy) {listing : Listing}
    {node : CacheNode} (hnode : node ∈ (creatives dump.cache adx w h listing).toList) :
    HasTargets entry node := by
  intro hkey name hname
  obtain ⟨e, he, -, -, hekey, -⟩ := hright.sound listing node hnode
  have hsame : e.mapId = entry.mapId := CacheValue.number.inj (hekey.symm.trans hkey)
  rw [← hpolicy e he hsame]
  exact hright.targets listing node hnode e he hekey name hname

/-- Each node behind an entry that fits is the new one, or one from before with the same targets. -/
theorem node_cases (hbanner : IsBanner entry.json) (hright : Right entries dump.cache)
    (hfit : Fits rand dump entry) (hw : w ≠ 0) (hh : h ≠ 0) {listing : Listing} {node : CacheNode}
    (hnode : node ∈ (creatives (visit rand dump entry).cache adx w h listing).toList) :
    ((entry.adx = adx ∧ entry.Offers w h) ∧ entry.Node node ∧ HasTargets entry node) ∨
      ∃ old ∈ (creatives dump.cache adx w h listing).toList, node.key = old.key ∧
        node.val = old.val ∧ ∀ name ∈ targetNames,
          values node.child name = values old.child name := by
  rw [creatives_visit hbanner hw hh] at hnode
  split_ifs at hnode with henter
  · obtain ⟨⟨rfl, hoffers⟩, rfl⟩ := henter
    have hnodup := (hright entry.adx w h hw hh).nodup (pick rand dump)
    by_cases hmem : .number entry.mapId ∈
        (creatives dump.cache entry.adx w h (pick rand dump)).keys
    · obtain ⟨old, hold, rfl⟩ := (mem_enter_of_mem hnodup hmem).mp hnode
      refine .inr ⟨old, hold, CacheNode.key_changeAt, CacheNode.val_changeAt, fun name hname => ?_⟩
      obtain hnew | ⟨hnone, -⟩ := hfit w h hw hh hoffers
      · exact absurd hmem hnew
      · rw [CacheNode.changeAt]
        split_ifs
        · exact values_fillNode_of_nil hname (hnone name hname)
        · rfl
    · obtain hold | rfl := (mem_enter_of_new hnodup hmem).mp hnode
      · exact .inr ⟨node, hold, rfl, rfl, fun _ _ => rfl⟩
      · exact .inl ⟨⟨rfl, hoffers⟩, ⟨rfl, rfl⟩, fun _ name hname => values_fillNode_nil hname⟩
  · exact .inr ⟨node, hnode, rfl, rfl, fun _ _ => rfl⟩

variable (rand) in
/-- Each node from before is still there. -/
theorem exists_node_visit (hbanner : IsBanner entry.json) (hright : Right entries dump.cache)
    (hw : w ≠ 0) (hh : h ≠ 0) {listing : Listing} {old : CacheNode}
    (hold : old ∈ (creatives dump.cache adx w h listing).toList) :
    ∃ node ∈ (creatives (visit rand dump entry).cache adx w h listing).toList,
      node.key = old.key ∧ node.val = old.val := by
  rw [creatives_visit hbanner hw hh]
  split_ifs
  · exact exists_mem_enter ((hright adx w h hw hh).nodup listing) hold
  · exact ⟨old, hold, rfl, rfl⟩

/-- The map id of an entry that can be bid with is in one of the lists. -/
theorem exists_node_of_offers (hbanner : IsBanner entry.json) (hright : Right entries dump.cache)
    (hfit : Fits rand dump entry) (hw : w ≠ 0) (hh : h ≠ 0) (hoffers : entry.Offers w h) :
    ∃ listing, ∃ node ∈ (creatives (visit rand dump entry).cache entry.adx w h listing).toList,
      entry.Node node := by
  obtain hnew | ⟨-, listing, old, hold, hnode⟩ := hfit w h hw hh hoffers
  · refine ⟨pick rand dump, ⟨.number entry.mapId, .number entry.price, entry.fillNode .nil⟩, ?_,
      rfl, rfl⟩
    rw [creatives_visit hbanner hw hh, if_pos ⟨⟨rfl, hoffers⟩, rfl⟩]
    exact (mem_enter_of_new ((hright entry.adx w h hw hh).nodup _) hnew).mpr (.inr rfl)
  · obtain ⟨node, hmem, hkey, hval⟩ := exists_node_visit rand hbanner hright hw hh hold
    exact ⟨listing, node, hmem, hkey.trans hnode.1, hval.trans hnode.2⟩

/-- The step: an entry that fits keeps the lists right. -/
theorem right_visit (hright : Right entries dump.cache) (hbanner : IsBanner entry.json)
    (hpolicy : ∀ e ∈ entries, e.mapId = entry.mapId → e.policy = entry.policy)
    (hfit : Fits rand dump entry) :
    Right (entries ++ [entry]) (visit rand dump entry).cache := by
  intro adx w h hw hh
  have hbefore := hright adx w h hw hh
  refine ⟨fun listing node hnode => ?_, fun e he hadx hoffers => ?_, fun listing => ?_,
    fun listing => ?_, fun listing node hnode e he hkey name hname => ?_⟩
  -- a node comes from the new entry, or was there before
  · obtain ⟨⟨hadx, hoffers⟩, hnew, -⟩ | ⟨old, hold, hkey, hval, -⟩ :=
      node_cases hbanner hright hfit hw hh hnode
    · exact ⟨entry, List.mem_append_right _ List.mem_cons_self, hadx, hoffers, hnew⟩
    · obtain ⟨e, he, hadx, hoffers, hekey, heval⟩ := hbefore.sound listing old hold
      exact ⟨e, List.mem_append_left _ he, hadx, hoffers, hkey.trans hekey, hval.trans heval⟩
  -- an entry that was in before is still in; the new one has got in
  · subst hadx
    obtain he | he := List.mem_append.mp he
    · obtain ⟨listing, old, hold, holdKey, holdVal⟩ := hbefore.complete e he rfl hoffers
      obtain ⟨node, hnode, hkey, hval⟩ :=
        exists_node_visit rand hbanner hright hw hh hold
      exact ⟨listing, node, hnode, hkey.trans holdKey, hval.trans holdVal⟩
    · obtain rfl := List.mem_singleton.mp he
      exact exists_node_of_offers hbanner hright hfit hw hh hoffers
  · rw [creatives_visit hbanner hw hh]
    split_ifs
    · exact nodup_keys_enter (hbefore.nodup listing)
    · exact hbefore.nodup listing
  · rw [creatives_visit hbanner hw hh]
    split_ifs
    · exact pairwise_enter (hbefore.nodup listing)
    · exact hbefore.sorted listing
  -- the targets are those of the policy, whichever entry has made the node
  · obtain ⟨-, hnew, htargets⟩ | ⟨old, hold, holdKey, -, hvalues⟩ :=
      node_cases hbanner hright hfit hw hh hnode
    · have hsame : e.policy = entry.policy := by
        obtain he | he := List.mem_append.mp he
        · exact hpolicy e he (CacheValue.number.inj (hkey.symm.trans hnew.1))
        · rw [List.mem_singleton.mp he]
      rw [hsame]
      exact htargets hnew.1 name hname
    · rw [hvalues name hname]
      obtain he | he := List.mem_append.mp he
      · exact hbefore.targets listing old hold e he (holdKey.symm.trans hkey) name hname
      · obtain rfl := List.mem_singleton.mp he
        exact hasTargets_of_mem hbefore hpolicy hold (holdKey.symm.trans hkey) name hname

/-- Without entries the empty cache is right. -/
theorem right_nil : Right [] .nil := by
  intro adx w h hw hh
  have hnil : ∀ listing, creatives .nil adx w h listing = .nil := fun _ => rfl
  refine ⟨fun listing node hnode => ?_, fun e he => absurd he List.not_mem_nil, fun listing => ?_,
    fun listing => ?_, fun _ _ _ _ he => absurd he List.not_mem_nil⟩
  · rw [hnil] at hnode
    exact absurd hnode List.not_mem_nil
  · rw [hnil]
    exact List.nodup_nil
  · rw [hnil]
    exact List.Pairwise.nil

/-- The loop over the exchanges of a creative. -/
theorem adxDumpLoadCreative_eq (load : Load) :
    adxDumpLoadCreative rand dump load = load.entries.foldl (visit rand) dump := by
  rw [adxDumpLoadCreative.eq_def, Load.entries.eq_def]
  cases load.json with
  | none => rfl
  | some json =>
    cases load.prices with
    | none => rfl
    | some prices =>
      dsimp only
      rw [adxDumpLoadCreativeAdx, List.foldl_map]
      rfl

/-- A run visits the entries of its loads one after another. -/
theorem run_eq (loads : List Load) :
    run rand loads = (loads.flatMap Load.entries).foldl (visit rand) ⟨.nil, 0⟩ := by
  rw [run, List.foldl_flatMap]
  congr 1
  funext dump load
  exact adxDumpLoadCreative_eq load

/-- The run: from lists that are right, entries that fit lead to lists that are right. -/
theorem right_foldl_visit {todo : List Entry} (hright : Right entries dump.cache)
    (hbanner : ∀ e ∈ todo, IsBanner e.json)
    (hpolicy : ∀ e ∈ entries ++ todo, ∀ e' ∈ entries ++ todo, e.mapId = e'.mapId →
      e.policy = e'.policy) (hfit : AllFit rand dump todo) :
    Right (entries ++ todo) (todo.foldl (visit rand) dump).cache := by
  induction todo generalizing entries dump with
  | nil => rwa [List.append_nil]
  | cons entry todo ih =>
    obtain ⟨hhead, hrest⟩ := List.forall_mem_cons.mp hbanner
    have hstep := right_visit hright hhead
      (fun e he => hpolicy e (List.mem_append_left _ he) entry
        (List.mem_append_right _ List.mem_cons_self)) hfit.1
    have hmove : entries ++ entry :: todo = entries ++ [entry] ++ todo := List.append_cons ..
    rw [hmove] at hpolicy ⊢
    exact ih hstep hrest hpolicy hfit.2

/-- An exchange that no earlier entry of the map id has finds no node. -/
theorem fits_of_notMem (rand : ℕ → ℕ) (hright : Right entries dump.cache)
    (hnew : ∀ e ∈ entries, ¬(e.adx = entry.adx ∧ e.mapId = entry.mapId)) :
    Fits rand dump entry := by
  intro w h hw hh hoffers
  left
  intro hmem
  obtain ⟨node, hnode, hkey⟩ := List.mem_map.mp hmem
  obtain ⟨e, he, hadx, -, hekey, -⟩ := (hright entry.adx w h hw hh).sound _ node hnode
  exact hnew e he ⟨hadx, CacheValue.number.inj (hekey.symm.trans hkey)⟩

/-- Whatever `rand` returns, creatives that are loaded once and list each exchange once fit. -/
theorem allFit_of_pairwise {todo : List Entry} (hright : Right entries dump.cache)
    (hbanner : ∀ e ∈ todo, IsBanner e.json)
    (hpolicy : ∀ e ∈ entries ++ todo, ∀ e' ∈ entries ++ todo, e.mapId = e'.mapId →
      e.policy = e'.policy)
    (hnew : (entries ++ todo).Pairwise fun a b => ¬(a.adx = b.adx ∧ a.mapId = b.mapId)) :
    AllFit rand dump todo := by
  induction todo generalizing entries dump with
  | nil => trivial
  | cons entry todo ih =>
    obtain ⟨hhead, hrest⟩ := List.forall_mem_cons.mp hbanner
    have hfit : Fits rand dump entry := fits_of_notMem rand hright fun e he =>
      (List.pairwise_append.mp hnew).2.2 e he entry List.mem_cons_self
    have hstep := right_visit hright hhead
      (fun e he => hpolicy e (List.mem_append_left _ he) entry
        (List.mem_append_right _ List.mem_cons_self)) hfit
    have hmove : entries ++ entry :: todo = entries ++ [entry] ++ todo := List.append_cons ..
    rw [hmove] at hpolicy hnew
    exact ⟨hfit, ih hstep hrest hpolicy hnew⟩

/-- A load has one entry for each exchange of its creative. -/
theorem entries_mk (policy : Policy) (mapId : ℤ) (json : AdxJson) (prices : List (Bytes × ℤ)) :
    Load.entries ⟨policy, mapId, some json, some prices⟩ =
      (exchanges json).map fun adx => ⟨adx, policy, mapId, json, prices⟩ := rfl

/-- An entry has the creative, the mapping id and the policy of its load. -/
theorem mem_entries {load : Load} (h : entry ∈ load.entries) :
    load.json = some entry.json ∧ entry.mapId = load.mapId ∧ entry.policy = load.policy := by
  rw [Load.entries.eq_def] at h
  cases hjson : load.json with
  | none =>
    rw [hjson] at h
    exact absurd h List.not_mem_nil
  | some json =>
    cases hprices : load.prices with
    | none =>
      rw [hjson, hprices] at h
      exact absurd h List.not_mem_nil
    | some prices =>
      rw [hjson, hprices] at h
      obtain ⟨adx, -, rfl⟩ := List.mem_map.mp h
      exact ⟨rfl, rfl, rfl⟩

variable {loads : List Load}

/-- If the creatives are banners, so are the entries. -/
theorem isBanner_of_mem (hbanner : ∀ load ∈ loads, ∀ json ∈ load.json, IsBanner json) :
    ∀ e ∈ loads.flatMap Load.entries, IsBanner e.json := by
  intro e he
  obtain ⟨load, hload, he⟩ := List.mem_flatMap.mp he
  exact hbanner load hload e.json (mem_entries he).1

/-- If a mapping id has one policy in the loads, it has one in the entries. -/
theorem policy_of_mem
    (hpolicy : ∀ a ∈ loads, ∀ b ∈ loads, a.mapId = b.mapId → a.policy = b.policy) :
    ∀ e ∈ loads.flatMap Load.entries, ∀ e' ∈ loads.flatMap Load.entries, e.mapId = e'.mapId →
      e.policy = e'.policy := by
  intro e he e' he' hsame
  obtain ⟨a, ha, he⟩ := List.mem_flatMap.mp he
  obtain ⟨b, hb, he'⟩ := List.mem_flatMap.mp he'
  obtain ⟨-, hid, hpol⟩ := mem_entries he
  obtain ⟨-, hid', hpol'⟩ := mem_entries he'
  rw [hpol, hpol']
  exact hpolicy a ha b hb (hid.symm.trans (hsame.trans hid'))

/-- If all entries fit, the first ones do. -/
theorem allFit_of_append {first second : List Entry} (h : AllFit rand dump (first ++ second)) :
    AllFit rand dump first := by
  induction first generalizing dump with
  | nil => trivial
  | cons entry first ih => exact ⟨h.1, ih h.2⟩

end

/-- For all banner creatives, with one policy for each map id, and whatever `rand` returns: in a run
whose entries all fit, the lists are right after each call. -/
theorem right_of_allFit (rand : ℕ → ℕ) (loads : List Load)
    (hbanner : ∀ load ∈ loads, ∀ json ∈ load.json, IsBanner json)
    (hpolicy : ∀ a ∈ loads, ∀ b ∈ loads, a.mapId = b.mapId → a.policy = b.policy)
    (hfit : AllFit rand ⟨.nil, 0⟩ (loads.flatMap Load.entries)) (done : List Load)
    (hdone : done <+: loads) : Right (done.flatMap Load.entries) (run rand done).cache := by
  obtain ⟨rest, rfl⟩ := hdone
  rw [List.flatMap_append] at hfit
  rw [run_eq]
  exact right_foldl_visit right_nil
    (isBanner_of_mem fun load hload => hbanner load (List.mem_append_left _ hload))
    (policy_of_mem fun a ha b hb => hpolicy a (List.mem_append_left _ ha) b
      (List.mem_append_left _ hb)) (allFit_of_append hfit)

/-! ## A creative that lists an exchange -/

/-- A number in a document. -/
def numberNode (key : String) (val : String) (next : JsonList) : JsonList :=
  .cons .number (some (bytes key)) (some (bytes val)) .nil next

/-- The target of a policy: one region. -/
def sampleTarget : CacheList :=
  .cons (str "regioncode") .null (.cons (.array 0) (.number 1) .nil .nil) .nil

/-- Its document. -/
def sampleTargetJson : AdxJson :=
  ⟨.unset, none, none, .cons .object (some (bytes "device")) none
    (.cons .array (some (bytes "regioncode")) none
      (.cons .number none (some [49]) .nil .nil) .nil) .nil⟩

/-- The target of the sample has the shape of a parsed one. -/
theorem shaped_sampleTargetJson : Shaped (fun _ => True) true sampleTargetJson.child := by
  have hdigit : isDigit 49 = true := by decide
  have hnumber : NumberText [49] := by
    refine ⟨fun c hc => ?_, 49, rfl, .inr hdigit⟩
    rw [List.mem_singleton.mp hc]
    rfl
  have hregions : Shaped (fun _ => True) false
      (.cons .number none (some [49]) .nil .nil) :=
    ⟨⟨rfl, nofun⟩, ⟨rfl, _, rfl, trivial, .inr hnumber⟩, trivial⟩
  have hdevice : Shaped (fun _ => True) true (.cons .array (some (bytes "regioncode")) none
      (.cons .number none (some [49]) .nil .nil) .nil) :=
    ⟨⟨rfl, fun _ _ => trivial⟩, ⟨rfl, JsonList.noConfusion, hregions⟩, trivial⟩
  exact ⟨⟨rfl, fun _ _ => trivial⟩, ⟨rfl, JsonList.noConfusion, hdevice⟩, trivial⟩

/-- A policy of campaign 3 with a target. -/
def samplePolicy : Policy where
  info := .cons (str "campaign_id") (.number 3) .nil (.cons (str "policy_id") (.number 7) .nil .nil)
  target := some sampleTarget
  isInfo := ⟨⟨.unset, none, none, numberNode "campaignid" "3" .nil⟩, 7, by decide +kernel⟩
  isTarget := by
    intro tree htree
    obtain rfl := Option.some.inj htree
    exact ⟨sampleTargetJson, shaped_sampleTargetJson, by decide +kernel⟩

/-- A banner with its exchanges. -/
def sampleJson (exts : JsonList) : AdxJson :=
  ⟨.unset, none, none, numberNode "type" "2" (numberNode "w" "320" (numberNode "h" "50"
    (numberNode "creativeid" "9" (.cons .array (some (bytes "exts")) none exts .nil))))⟩

/-- Its map id is 31, and its price for each exchange is 100. -/
def sampleLoad (exts : JsonList) : Load :=
  ⟨samplePolicy, 31, some (sampleJson exts), some [(bytes "0", 100)]⟩

/-- The exchange 1, and others. -/
def sampleExt (next : JsonList) : JsonList :=
  .cons .object none none (numberNode "adx" "1" .nil) next

/-- An entry of the banner. -/
def sampleEntry (exts : JsonList) : Entry :=
  ⟨1, samplePolicy, 31, sampleJson exts, [(bytes "0", 100)]⟩

/-- Two banners that list the exchange once. -/
def onceLoads : List Load :=
  [sampleLoad (sampleExt .nil), { sampleLoad (sampleExt .nil) with mapId := 32 }]

/-- Both are entered in one list. -/
theorem exchange_listed_once :
    Right (onceLoads.flatMap Load.entries) (run (fun _ => 0) onceLoads).cache := by
  have hload : ∀ load ∈ onceLoads,
      load.json = some (sampleJson (sampleExt .nil)) ∧ load.policy = samplePolicy := by
    intro load hload
    rcases List.mem_cons.mp hload with rfl | hload
    · exact ⟨rfl, rfl⟩
    · rw [List.mem_singleton.mp hload]
      exact ⟨rfl, rfl⟩
  have hbanner : ∀ load ∈ onceLoads, ∀ json ∈ load.json, IsBanner json := by
    intro load hmem json hjson
    rw [(hload load hmem).1] at hjson
    rw [← Option.some.inj hjson]
    exact (by decide : adxJsonFindValueNumber (some (sampleJson (sampleExt .nil))) "type" = 2)
  have hpolicy : ∀ a ∈ onceLoads, ∀ b ∈ onceLoads, a.mapId = b.mapId → a.policy = b.policy :=
    fun a ha b hb _ => (hload a ha).2.trans (hload b hb).2.symm
  -- both creatives are for the one exchange
  have hentries : onceLoads.flatMap Load.entries =
      [sampleEntry (sampleExt .nil), { sampleEntry (sampleExt .nil) with mapId := 32 }] := by
    have hexchanges : exchanges (sampleJson (sampleExt .nil)) = [1] := by decide
    rw [onceLoads, List.flatMap_cons, List.flatMap_singleton, sampleLoad, entries_mk, entries_mk,
      hexchanges]
    rfl
  -- the two have different map ids, so that neither is in the way of the other
  have hfit : AllFit (fun _ => 0) ⟨.nil, 0⟩ (onceLoads.flatMap Load.entries) := by
    have hbanners := isBanner_of_mem hbanner
    have hpolicies := policy_of_mem hpolicy
    rw [hentries] at hbanners hpolicies ⊢
    refine allFit_of_pairwise right_nil hbanners hpolicies ?_
    exact List.pairwise_pair.mpr fun h => absurd h.2 (by decide)
  exact right_of_allFit (fun _ => 0) _ hbanner hpolicy hfit _ List.prefix_rfl

/-- A banner that lists the exchange twice. -/
def twiceLoad : Load := sampleLoad (sampleExt (sampleExt .nil))

/-- An entry whose array is in the document twice. -/
def twiceEntry : Entry := sampleEntry (sampleExt (sampleExt .nil))

/-- It is a banner. -/
theorem isBanner_twice : IsBanner twiceEntry.json :=
  (by decide : adxJsonFindValueNumber (some (sampleJson (sampleExt (sampleExt .nil)))) "type" = 2)

/-- Its load has the entry twice. -/
theorem entries_twice : [twiceLoad].flatMap Load.entries = [twiceEntry, twiceEntry] := by
  have hexchanges : exchanges (sampleJson (sampleExt (sampleExt .nil))) = [1, 1] := by decide
  rw [List.flatMap_singleton, twiceLoad, sampleLoad, entries_mk, hexchanges]
  rfl

/-- It offers its size. -/
theorem offers_twice : twiceEntry.Offers 320 50 := by decide

/-- Both visits enter the list. -/
theorem creatives_twice : creatives (run (fun _ => 0) [twiceLoad]).cache 1 320 50 .unlimit =
    twiceEntry.enter (twiceEntry.enter .nil) := by
  rw [run_eq, entries_twice, List.foldl_cons, List.foldl_cons, List.foldl_nil,
    creatives_visit isBanner_twice (by decide) (by decide), if_pos ⟨⟨rfl, offers_twice⟩, rfl⟩,
    creatives_visit isBanner_twice (by decide) (by decide), if_pos ⟨⟨rfl, offers_twice⟩, rfl⟩]
  rfl

/-- After two entries the regions are there twice. -/
theorem values_twice : values (twiceEntry.fillNode (twiceEntry.fillNode .nil)) "regioncode" =
    [.number 1, .number 1] := by
  rw [values, childrenOf_fillNode (by decide), childrenOf_fillNode (by decide)]
  decide

/-- The node of the map id behind both visits. -/
def twiceNode : CacheNode :=
  ⟨.number 31, .number twiceEntry.price, twiceEntry.fillNode (twiceEntry.fillNode .nil)⟩

/-- The creative is in the list. -/
theorem mem_twice :
    twiceNode ∈ (creatives (run (fun _ => 0) [twiceLoad]).cache 1 320 50 .unlimit).toList := by
  have hnil : (CacheList.nil).keys.Nodup := List.nodup_nil
  have hfirst : (⟨.number 31, .number twiceEntry.price, twiceEntry.fillNode .nil⟩ : CacheNode) ∈
      (twiceEntry.enter .nil).toList :=
    (mem_enter_of_new hnil List.not_mem_nil).mpr (.inr rfl)
  rw [creatives_twice]
  exact (mem_enter_of_mem (nodup_keys_enter hnil) (List.mem_map_of_mem hfirst)).mpr
    ⟨_, hfirst, rfl⟩

/-- The policy has the region once. -/
theorem values_target_twice :
    values (twiceEntry.policy.target.getD .nil) "regioncode" = [.number 1] :=
  (by decide : values sampleTarget "regioncode" = [.number 1])

/-- The exchange is listed twice, and `rand` picks the same list: below the map id the region of the
policy occurs twice. -/
theorem exchange_listed_twice :
    (∀ json ∈ twiceLoad.json, IsBanner json) ∧
      (∃ node ∈ (creatives (run (fun _ => 0) [twiceLoad]).cache 1 320 50 .unlimit).toList,
        node.key = .number 31 ∧ values node.child "regioncode" = [.number 1, .number 1]) ∧
      values (twiceLoad.policy.target.getD .nil) "regioncode" = [.number 1] ∧
      ¬ Right ([twiceLoad].flatMap Load.entries) (run (fun _ => 0) [twiceLoad]).cache := by
  refine ⟨?_, ⟨twiceNode, mem_twice, rfl, values_twice⟩, values_target_twice, ?_⟩
  · intro json hjson
    rw [← Option.some.inj hjson]
    exact isBanner_twice
  · intro hright
    have hentry : twiceEntry ∈ [twiceLoad].flatMap Load.entries := by
      rw [entries_twice]
      exact List.mem_cons_self
    have htargets := (hright 1 320 50 (by decide) (by decide)).targets .unlimit twiceNode mem_twice
      twiceEntry hentry rfl "regioncode" (by decide)
    rw [values_target_twice, show values twiceNode.child "regioncode" = _ from values_twice]
      at htargets
    cases htargets

end CreativeDump

end AdxDsp
