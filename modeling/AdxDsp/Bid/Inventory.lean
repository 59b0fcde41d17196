import AdxDsp.Bid.Element
import AdxDsp.Lib.Containers
import AdxDsp.Lib.Heap
import AdxDsp.Lib.StdMap

/-!
# The policies and creatives of a bidder

`AdData::GetPolicies` (`ad_cache.cpp`) reads the policies of the bidder and the creatives of each.
A creative goes into `all_creative` with a pointer to its policy before it is known whether the
policy stays: a policy whose number is there already is deleted again, and its creatives keep the
pointer.

* **One policy** (`turn_cases`): its turn changes nothing but the heap, or adds its creatives and
  the policy, or adds its creatives only.
* **All of them** (`consistent_iff`): every creative points to the entry of its policy, and every
  policy has the creatives that were read for it, exactly when the members that come to the end of
  their turn have different numbers.

The functions that parse the JSON of an element are parameters.  What redis replies may differ from
one command to the next; any of them may fail, and the run flag may end each of the loops.
-/

namespace AdxDsp.Inventory

open CText

/-! ## The data -/

/-- What is read of a creative. -/
structure CreativeRecord (γ : Type) where
  mapid : ℤ
  /-- What `CreativeInfo::Parse` sets. -/
  parsed : γ
  price : List (PriceFactor × ℤ)

/-- A `CreativeInfo` of `all_creative`, which owns it; the pointer to its policy is an address. -/
structure Creative (γ : Type) extends CreativeRecord γ where
  policy : ℕ

/-- The policies in memory, and the members of `AdData` that `GetPolicies` fills. -/
structure AdData (γ : Type) where
  policies : Heap PolicyInfo
  allPolicy : StdMap ℤ ℕ
  allCreative : List (Creative γ)

/-- What `ClearData` leaves of a state. -/
def AdData.cleared {γ : Type} (policies : Heap PolicyInfo) : AdData γ :=
  ⟨policies, .ofList [], []⟩

/-- `new PolicyInfo` at an address, with its number. -/
def newPolicy (addr : ℕ) (id : ℤ) : PolicyInfo where
  addr := addr
  id := id
  campaignid := 0
  cat := []
  advcat := 0
  adomain := []
  atInfo := []
  extAdvid := []
  targetDevice := ⟨0, [], [], [], [], [], []⟩
  targetApp := ⟨0, 0, [], []⟩
  targetScene := ⟨0, 0, []⟩
  audiences := []
  allowNoDeviceid := .leaf

/-! ## The environment -/

/-- What `xRedisClient` returns at one place of the program; `none` if it fails. -/
structure AdReads where
  get : Bytes → Option Bytes
  smembers : Bytes → Option (List Bytes)
  hgetall : Bytes → Option (List Bytes)
  hmget : Bytes → List Bytes → Option (List Bytes)
  /-- The run flag. -/
  running : Bool

/-- All that `GetPolicies` reads: the set of policies, at most twice, the run flag before each turn
of its loop, and in a turn what the place with a number gives. -/
structure AdServer where
  policyIds : Bytes → Option (List Bytes)
  connects : Bool
  policyIdsAgain : Bytes → Option (List Bytes)
  running : ℕ → Bool
  reads : ℕ → ℕ → AdReads

/-- The functions that parse the records of an element: a policy and a creative that have just been
made, and the targets of a policy, which they write to. -/
structure ElementParser (γ : Type) where
  policy : Bytes → Option PolicyInfo
  creative : Bytes → Option γ
  targetApp : Bytes → TargetApp → TargetApp
  targetDevice : Bytes → TargetDevice → TargetDevice
  targetScene : Bytes → TargetScene → TargetScene
  allowNoDeviceid : Bytes → SetTree AllowNoDeviceid → SetTree AllowNoDeviceid

/-! ## Prices, targets and audiences -/

/-- `SplitString` with a separator of one byte. -/
def splitString (c : UInt8) (s : Bytes) : List Bytes :=
  let pieces := s.splitOn c
  if pieces.getLast? = some [] then pieces.dropLast else pieces

/-- `PriceFactor::Parse`. -/
def PriceFactor.parse (str : Bytes) : Option PriceFactor :=
  match splitString 95 str with
  | [adx, app, regcode] => some ⟨app, atoi regcode, atoi adx⟩
  | _ => none

/-- `PriceFactor::operator<`. -/
def PriceFactor.lt (p q : PriceFactor) : Bool :=
  decide (p.app < q.app) || (decide (p.app = q.app) && decide (p.regcode < q.regcode)) ||
    (decide (p.app = q.app) && decide (p.regcode = q.regcode) && decide (p.adx < q.adx))

/-- The loop of `GetCreativePrice` over the fields and values of a hash. -/
def addPrices : List Bytes → List (PriceFactor × ℤ) → List (PriceFactor × ℤ)
  | factor :: val :: rest, price =>
    match PriceFactor.parse (cstr factor) with
    | none => addPrices rest price
    | some f => addPrices rest (CmpMap.assign PriceFactor.lt f (atoi val) price)
  | _, price => price

/-- `GetCreativePrice`; its caller does not look whether it fails. -/
def getCreativePrice (reads : AdReads) (id : Bytes) : List (PriceFactor × ℤ) :=
  match reads.hgetall (bytes "dsp_mapid_bid_" ++ id) with
  | none => []
  | some reply => addPrices reply []

/-- The price that `GetPolicyDealPrice` sets for a deal: the first positive one of the reply. -/
def fixPrice (adx : ℤ) (reads : AdReads) (dealid : Bytes) (price : ℤ) : ℤ :=
  let key := bytes "dsp_fixprice_" ++ decimal adx ++ bytes "_" ++ dealid
  let replies := (reads.hmget key [bytes "imp", bytes "clk"]).getD []
  ((replies.map atoi).find? fun p => decide (0 < p)).getD price

/-- `GetPolicyDealPrice`; the deals of one auction type are read at one place. -/
def getPolicyDealPrice (adx : ℤ) (reads : ℕ → AdReads) (policy : PolicyInfo) : PolicyInfo :=
  { policy with
    atInfo := policy.atInfo.mapIdx fun j (at_, deals) =>
      (at_, deals.map fun (dealid, price) => (dealid, fixPrice adx (reads j) dealid price)) }

section

variable {γ : Type} (parser : ElementParser γ)

/-- `GetPolicyTarget`. -/
def getPolicyTarget (reads : AdReads) (strid : Bytes) (policy : PolicyInfo) : PolicyInfo :=
  match reads.get (bytes "dsp_policyid_target_" ++ strid) with
  | none => policy
  | some val =>
    { policy with
      targetApp := parser.targetApp (cstr val) policy.targetApp
      targetDevice := parser.targetDevice (cstr val) policy.targetDevice
      targetScene := parser.targetScene (cstr val) policy.targetScene
      allowNoDeviceid := parser.allowNoDeviceid (cstr val) policy.allowNoDeviceid }

/-- The loop of `GetPolicyAudiences`. -/
def addAudiences : List Bytes → List (Bytes × ℤ) → List (Bytes × ℤ)
  | audience :: val :: rest, m =>
    addAudiences rest (CmpMap.assign (fun a b => decide (a < b)) audience (atoi val) m)
  | _, m => m

/-- `GetPolicyAudiences`. -/
def getPolicyAudiences (reads : AdReads) (strid : Bytes) (policy : PolicyInfo) : PolicyInfo :=
  match reads.hgetall (bytes "dsp_policy_audienceid_" ++ strid) with
  | none => policy
  | some reply => { policy with audiences := addAudiences reply policy.audiences }

/-! ## The creatives of a policy -/

/-- The loop of `GetCreativesByPolicy` from a position on, with `all_creative` and `bFind`. -/
def creativesLoop (reads : ℕ → AdReads) (policy : ℕ) :
    ℕ → List Bytes → List (Creative γ) × Bool → List (Creative γ) × Bool
  | _, [], acc => acc
  | j, id :: rest, (allCreative, bFind) =>
    if ¬(reads j).running then (allCreative, bFind)
    else match (reads j).get (bytes "dsp_mapid_" ++ id) with
      | none => creativesLoop reads policy (j + 1) rest (allCreative, bFind)
      | some val =>
        match parser.creative (cstr val) with
        | none => creativesLoop reads policy (j + 1) rest (allCreative, bFind)
        | some parsed =>
          let creative := ⟨⟨atoi id, parsed, getCreativePrice (reads j) id⟩, policy⟩
          creativesLoop reads policy (j + 1) rest (allCreative ++ [creative], true)

/-- `GetCreativesByPolicy`, with `all_creative` before and after. -/
def getCreativesByPolicy (reads : ℕ → AdReads) (policy : ℕ) (policyId : Bytes)
    (allCreative : List (Creative γ)) : List (Creative γ) × Bool :=
  match (reads 0).smembers (bytes "dsp_policy_mapids_" ++ policyId) with
  | none => (allCreative, false)
  | some vals => creativesLoop parser reads policy 0 vals (allCreative, false)

/-! ## The loop over the policies -/

/-- One turn of the loop of `GetPolicies`. -/
def turn (adx : ℤ) (reads : ℕ → AdReads) (strid : Bytes) (d : AdData γ) : AdData γ :=
  let policyId := atoi strid
  match (reads 0).get (bytes "dsp_policy_info_" ++ strid) with
  | none => d
  | some val =>
    let policy := d.policies.next
    let heap := d.policies.new (newPolicy policy policyId)
    match parser.policy (cstr val) with
    | none => { d with policies := heap.delete policy }
    | some parsed =>
      -- `Parse` does not write to the number
      let heap := heap.modify policy fun _ => { parsed with addr := policy, id := policyId }
      let (allCreative, found) := getCreativesByPolicy parser reads policy strid d.allCreative
      if ¬found then ⟨heap.delete policy, d.allPolicy, allCreative⟩
      else
        let heap := heap.modify policy (getPolicyDealPrice adx reads)
        let heap := heap.modify policy (getPolicyTarget parser (reads 0) strid)
        let heap := heap.modify policy (getPolicyAudiences (reads 0) strid)
        match d.allPolicy.find policyId with
        | none => ⟨heap, d.allPolicy.set policyId policy, allCreative⟩
        -- a repeated policy
        | some _ => ⟨heap.delete policy, d.allPolicy, allCreative⟩

variable (adx : ℤ) (server : AdServer)

/-- The loop of `GetPolicies` from a position on. -/
def policiesLoop : ℕ → List Bytes → AdData γ → AdData γ
  | _, [], d => d
  | i, strid :: rest, d =>
    if ¬server.running i then d
    else policiesLoop (i + 1) rest (turn parser adx (server.reads i) strid d)

/-- The members of `dsp_policyids`, read again after a new connection if they cannot be read. -/
def policyIds : Option (List Bytes) :=
  match server.policyIds (bytes "dsp_policyids") with
  | some vals => some vals
  | none =>
    if ¬server.connects then none
    else server.policyIdsAgain (bytes "dsp_policyids")

/-- `AdData::GetPolicies`. -/
def getPolicies (d : AdData γ) : Bool × AdData γ :=
  match policyIds server with
  | none => (false, d)
  | some vals => (true, policiesLoop parser adx server 0 vals d)

/-! ## What a turn reads -/

/-- The creative that one step of the loop over the creatives reads. -/
def creativeRead (reads : AdReads) (id : Bytes) : Option (CreativeRecord γ) :=
  (reads.get (bytes "dsp_mapid_" ++ id)).bind fun val =>
    (parser.creative (cstr val)).map fun parsed => ⟨atoi id, parsed, getCreativePrice reads id⟩

/-- The creatives that a turn reads for its policy, up to where the run flag ends the loop. -/
def creativesRead (reads : ℕ → AdReads) (strid : Bytes) : List (CreativeRecord γ) :=
  let vals := ((reads 0).smembers (bytes "dsp_policy_mapids_" ++ strid)).getD []
  ((vals.zipIdx).takeWhile fun t => (reads t.2).running).filterMap fun t =>
    creativeRead parser (reads t.2) t.1

/-- A turn comes to its end: its policy can be read and parsed, and so can one of its creatives. -/
def Comes (reads : ℕ → AdReads) (strid : Bytes) : Prop :=
  ((reads 0).get (bytes "dsp_policy_info_" ++ strid)).bind (fun val => parser.policy (cstr val)) ≠
      none ∧
    creativesRead parser reads strid ≠ []

/-- The turns of the loop, with the member each is for, up to where the run flag ends it. -/
def turns : List (Bytes × ℕ) :=
  (((policyIds server).getD []).zipIdx).takeWhile fun t => server.running t.2

/-! ## One turn -/

/-- The loop over the creatives appends what it reads. -/
theorem creativesLoop_eq (reads : ℕ → AdReads) (policy : ℕ) (j : ℕ) (ids : List Bytes)
    (acc : List (Creative γ) × Bool) :
    creativesLoop parser reads policy j ids acc =
      let read := ((ids.zipIdx j).takeWhile fun t => (reads t.2).running).filterMap fun t =>
        creativeRead parser (reads t.2) t.1
      (acc.1 ++ read.map (⟨·, policy⟩), acc.2 || !read.isEmpty) := by
  induction ids generalizing j acc with
  | nil => simp [creativesLoop]
  | cons id rest ih =>
    rw [creativesLoop, List.zipIdx_cons, List.takeWhile_cons]
    by_cases hrun : (reads j).running
    · simp only [hrun, not_true_eq_false, if_false, if_true, List.filterMap_cons, creativeRead]
      cases hget : (reads j).get (bytes "dsp_mapid_" ++ id) with
      | none => simp [ih, creativeRead]
      | some val =>
        cases hparse : parser.creative (cstr val) with
        | none => simp [ih, hparse, creativeRead]
        | some parsed => simp [ih, hparse, creativeRead]
    · simp [hrun]

/-- The creatives of a policy are put behind the others. -/
theorem getCreativesByPolicy_eq (reads : ℕ → AdReads) (policy : ℕ) (strid : Bytes)
    (all : List (Creative γ)) :
    getCreativesByPolicy parser reads policy strid all =
      (all ++ (creativesRead parser reads strid).map (⟨·, policy⟩),
        !(creativesRead parser reads strid).isEmpty) := by
  rw [getCreativesByPolicy, creativesRead]
  cases (reads 0).smembers (bytes "dsp_policy_mapids_" ++ strid) with
  | none => simp
  | some vals => simp [creativesLoop_eq]

/-- The policy at the end of its turn. -/
def finishedPolicy (reads : ℕ → AdReads) (strid : Bytes) (addr : ℕ) (parsed : PolicyInfo) :
    PolicyInfo :=
  getPolicyAudiences (reads 0) strid (getPolicyTarget parser (reads 0) strid
    (getPolicyDealPrice adx reads { parsed with addr := addr, id := atoi strid }))

/-- The id of a policy is the number of its text. -/
theorem finishedPolicy_id (reads : ℕ → AdReads) (strid : Bytes) (addr : ℕ)
    (parsed : PolicyInfo) :
    (finishedPolicy parser adx reads strid addr parsed).id = atoi strid := by
  rw [finishedPolicy, getPolicyAudiences]
  cases (reads 0).hgetall (bytes "dsp_policy_audienceid_" ++ strid) <;>
    · rw [getPolicyTarget]
      cases (reads 0).get (bytes "dsp_policyid_target_" ++ strid) <;> rfl

/-- What a turn does: nothing but to the heap, or the policy is put under its number, or it is
deleted while its creatives stay. -/
theorem turn_cases (reads : ℕ → AdReads) (strid : Bytes) (d : AdData γ) :
    let d' := turn parser adx reads strid d
    let policy := d.policies.next
    let creatives := d.allCreative ++ (creativesRead parser reads strid).map (⟨·, policy⟩)
    (¬Comes parser reads strid ∧
        (d' = d ∨ ∃ p, d' = { d with policies := (d.policies.new p).delete policy })) ∨
      (Comes parser reads strid ∧ d.allPolicy.find (atoi strid) = none ∧
        ∃ p, p.id = atoi strid ∧
          d' = ⟨d.policies.new p, d.allPolicy.set (atoi strid) policy, creatives⟩) ∨
      (Comes parser reads strid ∧ (d.allPolicy.find (atoi strid)).isSome ∧
        ∃ p, d' = ⟨(d.policies.new p).delete policy, d.allPolicy, creatives⟩) := by
  intro d' policy creatives
  cases hget : (reads 0).get (bytes "dsp_policy_info_" ++ strid) with
  | none =>
    refine .inl ⟨fun h => h.1 (by rw [hget]; rfl), .inl ?_⟩
    simp only [d', turn, hget]
  | some val =>
    cases hparse : parser.policy (cstr val) with
    | none =>
      refine .inl ⟨fun h => h.1 (by rw [hget]; exact hparse),
        .inr ⟨newPolicy policy (atoi strid), ?_⟩⟩
      simp only [d', turn, hget, hparse, policy]
    | some parsed =>
      by_cases hread : creativesRead parser reads strid = []
      · -- no creatives: the policy goes, and nothing was appended
        refine .inl ⟨fun h => h.2 hread,
          .inr ⟨{ parsed with addr := policy, id := atoi strid }, ?_⟩⟩
        simp [d', turn, hget, hparse, getCreativesByPolicy_eq, hread, policy]
      · have hcomes : Comes parser reads strid := by
          refine ⟨?_, hread⟩
          rw [hget]
          simp [hparse]
        cases hfind : d.allPolicy.find (atoi strid) with
        | none =>
          -- the number is new, and the creatives get an owner
          refine .inr (.inl ⟨hcomes, rfl, finishedPolicy parser adx reads strid policy parsed,
            finishedPolicy_id .., ?_⟩)
          simp [d', turn, hget, hparse, getCreativesByPolicy_eq, hread, hfind, policy, creatives,
            finishedPolicy]
        | some ptr =>
          -- a repeated policy: it is deleted, its creatives have been appended already
          refine .inr (.inr ⟨hcomes, rfl, finishedPolicy parser adx reads strid policy parsed, ?_⟩)
          simp [d', turn, hget, hparse, getCreativesByPolicy_eq, hread, hfind, policy, creatives,
            finishedPolicy]

/-! ## The whole loop -/

/-- The pointer of a creative leads to a policy that is the entry under its number. -/
def Owned (d : AdData γ) (c : Creative γ) : Prop :=
  ∃ p, d.policies.cell c.policy = some p ∧ d.allPolicy.find p.id = some c.policy

/-- The creatives that point to an address, as they were read. -/
def creativesOf (d : AdData γ) (policy : ℕ) : List (CreativeRecord γ) :=
  (d.allCreative.filter fun c => c.policy = policy).map (·.toCreativeRecord)

/-- Every creative is owned by the entry of its policy, and an entry with creatives has those that
a turn with its number has read. -/
structure Consistent (d : AdData γ) : Prop where
  owned : ∀ c ∈ d.allCreative, Owned d c
  complete : ∀ id policy, d.allPolicy.find id = some policy →
    (∃ c ∈ d.allCreative, c.policy = policy) →
    ∃ t ∈ turns server, atoi t.1 = id ∧
      creativesOf d policy = creativesRead parser (server.reads t.2) t.1

/-- The turns that come to their end are for different numbers. -/
def DistinctNumbers (ts : List (Bytes × ℕ)) : Prop :=
  ts.Pairwise fun t u => Comes parser (server.reads t.2) t.1 →
    Comes parser (server.reads u.2) u.1 → atoi t.1 ≠ atoi u.1

/-- The loop goes through the ids while the flag is up. -/
theorem policiesLoop_eq (i : ℕ) (vals : List Bytes) (d : AdData γ) :
    policiesLoop parser adx server i vals d =
      ((vals.zipIdx i).takeWhile fun t => server.running t.2).foldl
        (fun d t => turn parser adx (server.reads t.2) t.1 d) d := by
  induction vals generalizing i d with
  | nil => rfl
  | cons strid rest ih =>
    rw [policiesLoop, List.zipIdx_cons, List.takeWhile_cons]
    by_cases hrun : server.running i
    · simp [hrun, ih]
    · simp [hrun]

/-- What is known after some turns. -/
structure Loaded (ts : List (Bytes × ℕ)) (d : AdData γ) : Prop where
  /-- An entry is a policy with its number and the creatives of one of the turns. -/
  entry : ∀ id policy, d.allPolicy.find id = some policy →
    (∃ p, d.policies.cell policy = some p ∧ p.id = id) ∧
      ∃ t ∈ ts, Comes parser (server.reads t.2) t.1 ∧ atoi t.1 = id ∧
        creativesOf d policy = creativesRead parser (server.reads t.2) t.1
  bound : ∀ c ∈ d.allCreative, c.policy < d.policies.next
  /-- Each number that has come to its end has an entry. -/
  known : ∀ t ∈ ts, Comes parser (server.reads t.2) t.1 → (d.allPolicy.find (atoi t.1)).isSome
  owned_iff : (∀ c ∈ d.allCreative, Owned d c) ↔ DistinctNumbers parser server ts

/-- After clearing nothing is loaded. -/
theorem loaded_cleared (policies : Heap PolicyInfo) :
    Loaded parser server [] (AdData.cleared policies) where
  entry id policy h := by cases h
  bound c hc := by cases hc
  known t ht := by cases ht
  owned_iff := ⟨fun _ => .nil, fun _ c hc => by cases hc⟩

/-- The condition for one more turn. -/
theorem distinctNumbers_concat {ts : List (Bytes × ℕ)} {t : Bytes × ℕ} :
    DistinctNumbers parser server (ts ++ [t]) ↔ DistinctNumbers parser server ts ∧
      ∀ u ∈ ts, Comes parser (server.reads u.2) u.1 → Comes parser (server.reads t.2) t.1 →
        atoi u.1 ≠ atoi t.1 := by
  simp [DistinctNumbers, List.pairwise_append]

variable {parser server}
variable {ts : List (Bytes × ℕ)} {t : Bytes × ℕ} {d : AdData γ}

/-- What is said of the creatives and their policies does not depend on later addresses. -/
theorem owned_congr {heap : Heap PolicyInfo} {all : List (Creative γ)} {c : Creative γ}
    (hcell : heap.cell c.policy = d.policies.cell c.policy) :
    Owned ⟨heap, d.allPolicy, all⟩ c ↔ Owned d c := by
  simp only [Owned, hcell]

/-- The creatives of a policy after more were put in. -/
theorem creativesOf_append (heap : Heap PolicyInfo) (entries : StdMap ℤ ℕ)
    (read : List (CreativeRecord γ)) (policy q : ℕ) :
    creativesOf ⟨heap, entries, d.allCreative ++ read.map (⟨·, policy⟩)⟩ q =
      creativesOf d q ++ if policy = q then read else [] := by
  have hmap : ((read.map (⟨·, policy⟩ : CreativeRecord γ → Creative γ)).filter fun c =>
      c.policy = q).map (·.toCreativeRecord) = if policy = q then read else [] := by
    rw [List.filter_map, List.map_map]
    by_cases hq : policy = q
    · simp [hq, Function.comp_def]
    · simp [hq, Function.comp_def]
  rw [creativesOf, List.filter_append, List.map_append, hmap]
  rfl

namespace Loaded

variable (h : Loaded parser server ts d)

include h

/-- No creative points to an address that has not been given out. -/
theorem creativesOf_next : creativesOf d d.policies.next = [] := by
  have hnone : (d.allCreative.filter fun c => c.policy = d.policies.next) = [] := by
    refine List.filter_eq_nil_iff.mpr fun c hc => ?_
    have := h.bound c hc
    simp
    omega
  rw [creativesOf, hnone]
  rfl

/-- The policies have addresses in use. -/
theorem lt_next {id : ℤ} {policy : ℕ} (hfind : d.allPolicy.find id = some policy) :
    policy < d.policies.next := by
  obtain ⟨⟨p, hp, -⟩, -⟩ := h.entry id policy hfind
  exact d.policies.lt_next_of_cell hp

/-- The creatives of a turn point to the policy of the turn. -/
theorem bound_turn (l : List (CreativeRecord γ)) :
    ∀ c ∈ d.allCreative ++ l.map (⟨·, d.policies.next⟩), c.policy < d.policies.next + 1 := by
  intro c hc
  rcases List.mem_append.mp hc with hc | hc
  · have := h.bound c hc
    omega
  · obtain ⟨r, -, rfl⟩ := List.mem_map.mp hc
    exact Nat.lt_succ_self _

/-- A turn that does not come to its end. -/
theorem skip (hno : ¬Comes parser (server.reads t.2) t.1) {heap : Heap PolicyInfo}
    (hcell : ∀ q < d.policies.next, heap.cell q = d.policies.cell q)
    (hnext : d.policies.next ≤ heap.next) :
    Loaded parser server (ts ++ [t]) { d with policies := heap } where
  entry id policy hfind := by
    obtain ⟨⟨p, hp, hid⟩, u, hu, hrest⟩ := h.entry id policy hfind
    refine ⟨⟨p, ?_, hid⟩, u, List.mem_append_left _ hu, hrest⟩
    rw [← hp]
    exact hcell policy (h.lt_next hfind)
  bound c hc := lt_of_lt_of_le (h.bound c hc) hnext
  known u hu hcomes := by
    rcases List.mem_append.mp hu with hu | hu
    · exact h.known u hu hcomes
    · rw [List.mem_singleton.mp hu] at hcomes
      exact absurd hcomes hno
  owned_iff := by
    rw [distinctNumbers_concat]
    have hsame : (∀ c ∈ d.allCreative, Owned { d with policies := heap } c) ↔
        ∀ c ∈ d.allCreative, Owned d c :=
      forall₂_congr fun c hc => owned_congr (hcell c.policy (h.bound c hc))
    rw [hsame, h.owned_iff]
    exact ⟨fun hd => ⟨hd, fun u _ _ hcomes => absurd hcomes hno⟩, And.left⟩

/-- A turn that puts its policy under its number. -/
theorem add (hcomes : Comes parser (server.reads t.2) t.1)
    (hfree : d.allPolicy.find (atoi t.1) = none) {p : PolicyInfo} (hid : p.id = atoi t.1) :
    Loaded parser server (ts ++ [t])
      ⟨d.policies.new p, d.allPolicy.set (atoi t.1) d.policies.next,
        d.allCreative ++ (creativesRead parser (server.reads t.2) t.1).map
          (⟨·, d.policies.next⟩)⟩ where
  entry id policy hfind := by
    rw [StdMap.find_set] at hfind
    split_ifs at hfind with heq
    · cases hfind
      refine ⟨⟨p, by simp, hid.trans heq.symm⟩, t, by simp, hcomes, heq.symm, ?_⟩
      rw [creativesOf_append, h.creativesOf_next, if_pos rfl, List.nil_append]
    · obtain ⟨⟨p', hp', hid'⟩, u, hu, hcomes', hnum, hof⟩ := h.entry id policy hfind
      have hlt := h.lt_next hfind
      refine ⟨⟨p', ?_, hid'⟩, u, List.mem_append_left _ hu, hcomes', hnum, ?_⟩
      · rw [Heap.cell_new, if_neg (by omega), hp']
      · rw [creativesOf_append, if_neg (by omega), List.append_nil, hof]
  bound := h.bound_turn _
  known u hu hcomes' := by
    rw [StdMap.find_set]
    split_ifs with heq
    · rfl
    · rcases List.mem_append.mp hu with hu | hu
      · exact h.known u hu hcomes'
      · rw [List.mem_singleton.mp hu] at heq
        exact absurd rfl heq
  owned_iff := by
    rw [distinctNumbers_concat]
    -- the new creatives are owned, and the entry takes no creative from another policy
    have hnew : ∀ u ∈ ts, Comes parser (server.reads u.2) u.1 →
        Comes parser (server.reads t.2) t.1 → atoi u.1 ≠ atoi t.1 := by
      intro u hu hcomes' _ heq
      have hsome := h.known u hu hcomes'
      rw [heq, hfree] at hsome
      cases hsome
    have hold : ∀ c ∈ d.allCreative,
        Owned ⟨d.policies.new p, d.allPolicy.set (atoi t.1) d.policies.next,
          d.allCreative ++ (creativesRead parser (server.reads t.2) t.1).map
            (⟨·, d.policies.next⟩)⟩ c ↔ Owned d c := by
      intro c hc
      have hlt := h.bound c hc
      refine exists_congr fun p' => ?_
      rw [Heap.cell_new, if_neg (by omega), StdMap.find_set]
      refine and_congr_right fun _ => ?_
      split_ifs with hp'
      · rw [hp', hfree]
        simp
        omega
      · rfl
    rw [← h.owned_iff, ← forall₂_congr hold]
    refine ⟨fun hall => ⟨fun c hc => hall c (List.mem_append_left _ hc), hnew⟩,
      fun ⟨hall, _⟩ c hc => ?_⟩
    rcases List.mem_append.mp hc with hc | hc
    · exact hall c hc
    · obtain ⟨r, -, rfl⟩ := List.mem_map.mp hc
      exact ⟨p, by simp, by simp [StdMap.find_set, hid]⟩

/-- A turn that finds its number taken. -/
theorem repeated (hcomes : Comes parser (server.reads t.2) t.1)
    (htaken : (d.allPolicy.find (atoi t.1)).isSome) {p : PolicyInfo} :
    Loaded parser server (ts ++ [t])
      ⟨(d.policies.new p).delete d.policies.next, d.allPolicy,
        d.allCreative ++ (creativesRead parser (server.reads t.2) t.1).map
          (⟨·, d.policies.next⟩)⟩ where
  entry id policy hfind := by
    obtain ⟨⟨p', hp', hid'⟩, u, hu, hcomes', hnum, hof⟩ := h.entry id policy hfind
    have hlt := h.lt_next hfind
    refine ⟨⟨p', ?_, hid'⟩, u, List.mem_append_left _ hu, hcomes', hnum, ?_⟩
    · rw [Heap.cell_delete, if_neg (by omega), Heap.cell_new, if_neg (by omega), hp']
    · rw [creativesOf_append, if_neg (by omega), List.append_nil, hof]
  bound := h.bound_turn _
  known u hu hcomes' := by
    rcases List.mem_append.mp hu with hu | hu
    · exact h.known u hu hcomes'
    · rw [List.mem_singleton.mp hu]
      exact htaken
  owned_iff := by
    rw [distinctNumbers_concat]
    -- the policy of the new creatives has been deleted
    obtain ⟨r, rest, hread⟩ := List.exists_cons_of_ne_nil hcomes.2
    obtain ⟨policy, hfind⟩ := Option.isSome_iff_exists.mp htaken
    obtain ⟨-, u, hu, hcomes', hnum, -⟩ := h.entry _ policy hfind
    refine ⟨fun hall => ?_, fun ⟨_, hnew⟩ => absurd hnum (hnew u hu hcomes' hcomes)⟩
    obtain ⟨p', hp', -⟩ := hall ⟨r, d.policies.next⟩ (by simp [hread])
    rw [Heap.cell_delete, if_pos rfl] at hp'
    cases hp'

end Loaded

/-- A turn loads its policy. -/
theorem loaded_turn (h : Loaded parser server ts d) (t : Bytes × ℕ) :
    Loaded parser server (ts ++ [t]) (turn parser adx (server.reads t.2) t.1 d) := by
  rcases turn_cases parser adx (server.reads t.2) t.1 d with
    ⟨hno, hd | ⟨p, hd⟩⟩ | ⟨hcomes, hfree, p, hid, hd⟩ | ⟨hcomes, htaken, p, hd⟩
  · rw [hd]
    exact h.skip hno (fun _ _ => rfl) le_rfl
  · rw [hd]
    refine h.skip hno (fun q hq => ?_) (Nat.le_succ _)
    rw [Heap.cell_delete, if_neg (by omega), Heap.cell_new, if_neg (by omega)]
  · rw [hd]
    exact h.add hcomes hfree hid
  · rw [hd]
    exact h.repeated hcomes htaken

/-- The turns load their policies. -/
theorem loaded_turns (policies : Heap PolicyInfo) (ts : List (Bytes × ℕ)) :
    Loaded parser server ts
      (ts.foldl (fun d t => turn parser adx (server.reads t.2) t.1 d) (.cleared policies)) := by
  induction ts using List.reverseRecOn with
  | nil => exact loaded_cleared parser server policies
  | append_singleton ts t ih =>
    rw [List.foldl_concat]
    exact loaded_turn adx ih t

/-- The update loads the policies of its turns. -/
theorem loaded_getPolicies (policies : Heap PolicyInfo) :
    Loaded parser server (turns server) (getPolicies parser adx server (.cleared policies)).2 := by
  rw [getPolicies, turns]
  cases policyIds server with
  | none => exact loaded_cleared parser server policies
  | some vals =>
    show Loaded parser server _ (policiesLoop parser adx server 0 vals (.cleared policies))
    rw [policiesLoop_eq]
    exact loaded_turns adx policies _

end

/-- **The policies and creatives that are loaded fit together** exactly when the turns that come to
their end, in which the policy and one of its creatives at least can be read and parsed, are for
members of `dsp_policyids` with different numbers. -/
theorem consistent_iff {γ : Type} (parser : ElementParser γ) (adx : ℤ) (server : AdServer)
    (policies : Heap PolicyInfo) :
    Consistent parser server (getPolicies parser adx server (.cleared policies)).2 ↔
      DistinctNumbers parser server (turns server) := by
  have hloaded : Loaded parser server (turns server)
      (getPolicies parser adx server (.cleared policies)).2 := loaded_getPolicies adx policies
  refine ⟨fun h => hloaded.owned_iff.mp h.owned, fun h => ⟨hloaded.owned_iff.mpr h, ?_⟩⟩
  intro id policy hfind _
  obtain ⟨-, t, ht, -, hnum, hof⟩ := hloaded.entry id policy hfind
  exact ⟨t, ht, hnum, hof⟩

/-- Two members with the number 1, each with a policy for the exchange and a creative. -/
def repeatedReads : AdReads where
  get key := List.lookup key
    [(bytes "dsp_policy_info_1", bytes "\x7b\x22adx\x22:[1]\x7d"),
      (bytes "dsp_policy_info_01", bytes "\x7b\x22adx\x22:[1]\x7d"),
      (bytes "dsp_mapid_10", bytes "\x7b\x7d"), (bytes "dsp_mapid_20", bytes "\x7b\x7d")]
  smembers key := List.lookup key
    [(bytes "dsp_policy_mapids_1", [bytes "10"]), (bytes "dsp_policy_mapids_01", [bytes "20"])]
  hgetall _ := none
  hmget _ _ := none
  running := true

/-- A server with two texts for one number. -/
def repeatedServer : AdServer where
  policyIds key := List.lookup key [(bytes "dsp_policyids", [bytes "1", bytes "01"])]
  connects := true
  policyIdsAgain _ := none
  running _ := true
  reads _ _ := repeatedReads

/-- The functions that parse, on the texts of these records. -/
def repeatedParser : ElementParser Unit where
  policy text := if text = bytes "\x7b\x22adx\x22:[1]\x7d" then some (newPolicy 0 0) else none
  creative text := if text = bytes "\x7b\x7d" then some () else none
  targetApp _ t := t
  targetDevice _ t := t
  targetScene _ t := t
  allowNoDeviceid _ t := t

/-- The creative of the second one is left with a pointer to the policy that was deleted. -/
theorem repeated_policy_dangles :
    let d := (getPolicies repeatedParser 1 repeatedServer (.cleared .empty)).2
    d.allCreative.map (fun c => (c.mapid, c.policy)) = [(10, 0), (20, 1)] ∧
      d.allPolicy.find 1 = some 0 ∧ d.policies.cell 1 = none ∧
      ¬Consistent repeatedParser repeatedServer d := by
  intro d
  have hall : d.allCreative = [⟨⟨10, (), []⟩, 0⟩, ⟨⟨20, (), []⟩, 1⟩] := by rfl
  have hcell : d.policies.cell 1 = none := by rfl
  refine ⟨by rw [hall]; rfl, rfl, hcell, fun h => ?_⟩
  obtain ⟨p, hp, -⟩ := h.owned ⟨⟨20, (), []⟩, 1⟩ (by rw [hall]; simp)
  rw [hcell] at hp
  cases hp

end AdxDsp.Inventory
