import AdxDsp.Bid.Selector

/-!
# The tree of creatives with its pointers

`AdSelector` once more (`ad_optimize.cpp`), now with the pointers between the nodes, the reason
`_err` for which a node is excluded, and what a search excludes.

* `creater_safe_iff`: when the tree is built without going through a null pointer.
* `search_complete`: each creative is found or excluded, and when each excluded one has a reason.
* `creater_toSelector`: without reasons this is the tree of `adSelectorCreater`.
-/

namespace AdxDsp

open CText

namespace Classify

/-! ## The nodes

A pointer to a node is an `Option`, and a function that goes through a null pointer gives `none`.
The layout that the constructor of `AdSelector` sets up decides which class is below which. -/

/-- `BaseClassify` itself, the leaf of the tree. -/
structure Leaf where
  creatives : List CreativeInfo
  err : BidErr

/-- `ClassifyDeeplink`. -/
structure Deeplink where
  supports : Option Leaf
  notSupports : Option Leaf
  err : BidErr

/-- `ClassifySize`; `_tmp` holds the same pointers as `_child`. -/
structure Size where
  child : List (CreativeSize × Option Deeplink)
  err : BidErr

/-- `ClassifyCreativeType`, the root. -/
structure CreativeType where
  child : List (ℕ × Option Size)

/-- What a pointer in the list of excluded nodes points to. -/
inductive BaseClassify where
  | leaf (n : Leaf)
  | deeplink (n : Deeplink)
  | size (n : Size)

/-- The operator `<` of the keys of `ClassifyCreativeType`. -/
def typeLt (a b : ℕ) : Bool := decide (a < b)

/-! ## Building the tree -/

/-- `BaseClassify::Add`. -/
def Leaf.add (one : CreativeInfo) (n : Leaf) : Leaf := { n with creatives := n.creatives ++ [one] }

/-- `ClassifyDeeplink::Add`. -/
def Deeplink.add (one : CreativeInfo) (n : Deeplink) : Option Deeplink :=
  if one.deeplink ≠ [] then
    match n.supports with
    | some leaf => some { n with supports := some (leaf.add one) }
    | none => do
      -- the reason of the new child goes to its sibling, which need not exist
      let sibling ← n.notSupports
      return { n with
        supports := some (Leaf.add one ⟨[], .success⟩)
        notSupports := some { sibling with err := .creativeDeeplink } }
  else
    let leaf := n.notSupports.getD ⟨[], .creativeDeeplink⟩
    some { n with notSupports := some (leaf.add one) }

/-- What `Add` of both maps does: the child of the key, which may have to be made first, takes the
creative. -/
def addChild {κ ν : Type} (lt : κ → κ → Bool) (key : κ) (new : ν) (add : ν → Option ν)
    (child : List (κ × Option ν)) : Option (List (κ × Option ν)) :=
  CmpMap.update lt key (some new) (fun p => p.bind fun n => (add n).map some) child

/-- `ClassifySize::Add`. -/
def Size.add (one : CreativeInfo) (n : Size) : Option Size :=
  (addChild CreativeSize.lt one.size ⟨none, none, .creativeSize⟩ (Deeplink.add one) n.child).map
    fun child => { n with child := child }

/-- `ClassifyCreativeType::Add`. -/
def CreativeType.add (n : CreativeType) (one : CreativeInfo) : Option CreativeType :=
  (addChild typeLt one.type ⟨[], .creativeType⟩ (Size.add one) n.child).map
    fun child => { n with child := child }

/-- `AdSelector::Creater`. -/
def creater (creatives : List CreativeInfo) : Option CreativeType :=
  creatives.foldlM CreativeType.add ⟨[]⟩

/-! ## Searching it -/

/-- What a search leaves behind: the nodes pushed to `exclude`, and the creatives inserted. -/
structure Found where
  exclude : List (Option BaseClassify)
  creatives : List CreativeInfo

/-- `ClassifyDeeplink::Search`. -/
def Deeplink.search (req : ComRequest) (n : Deeplink) : Found :=
  if req.supportDeepLink = 0 then
    match n.notSupports with
    | some leaf => ⟨(n.supports.map fun l => some (.leaf l)).toList, leaf.creatives⟩
    | none => ⟨[], []⟩
  else ⟨[], (n.supports.elim [] Leaf.creatives) ++ n.notSupports.elim [] Leaf.creatives⟩

/-- What `Search` of both maps does: the child of the key is searched, and the others are
excluded. -/
def searchChild {κ ν : Type} (lt : κ → κ → Bool) (key : κ) (pack : ν → BaseClassify)
    (search : ν → Option Found) (child : List (κ × Option ν)) : Option Found :=
  match CmpMap.find lt key child with
  | none => some ⟨child.map fun e => e.2.map pack, []⟩
  | some p => do
    let n ← p
    let found ← search n
    let tmp := child.eraseP fun e => CmpMap.Same lt e.1 key
    return ⟨found.exclude ++ tmp.map fun e => e.2.map pack, found.creatives⟩

/-- `ClassifySize::Search`. -/
def Size.search (req : ComRequest) (imp : ComImpression) (n : Size) : Option Found :=
  searchChild CreativeSize.lt imp.searchSize .deeplink (fun c => some (c.search req)) n.child

/-- `ClassifyCreativeType::Search`. -/
def CreativeType.search (req : ComRequest) (imp : ComImpression) (n : CreativeType) :
    Option Found :=
  searchChild typeLt imp.searchType .size (Size.search req imp) n.child

/-! ## Collecting creatives -/

/-- `ClassifyDeeplink::GetAll`. -/
def Deeplink.getAll (n : Deeplink) : List CreativeInfo :=
  (n.notSupports.elim [] Leaf.creatives) ++ n.supports.elim [] Leaf.creatives

/-- What is collected through one pointer after the other. -/
def getAllPtrs {ν α : Type} (getAll : ν → Option (List α)) : List (Option ν) → Option (List α)
  | [] => some []
  | p :: rest => do
    let n ← p
    let all ← getAll n
    let others ← getAllPtrs getAll rest
    return all ++ others

/-- `ClassifySize::GetAll`. -/
def Size.getAll (n : Size) : Option (List CreativeInfo) :=
  getAllPtrs (fun c => some c.getAll) (n.child.map Prod.snd)

/-- `ClassifyCreativeType::GetAll`. -/
def CreativeType.getAll (n : CreativeType) : Option (List CreativeInfo) :=
  getAllPtrs Size.getAll (n.child.map Prod.snd)

/-- `GetAll` of an excluded node. -/
def BaseClassify.getAll : BaseClassify → Option (List CreativeInfo)
  | .leaf n => some n.creatives
  | .deeplink n => some n.getAll
  | .size n => n.getAll

/-- The reason `_err` of an excluded node. -/
def BaseClassify.err : BaseClassify → BidErr
  | .leaf n => n.err
  | .deeplink n => n.err
  | .size n => n.err

/-- The creatives below an excluded node, each with the reason of the node. -/
def BaseClassify.report (n : BaseClassify) : Option (List (CreativeInfo × BidErr)) :=
  n.getAll.map fun all => all.map fun c => (c, n.err)

/-- What `BidWork::FilterCreative` reports of the excluded nodes. -/
def report (exclude : List (Option BaseClassify)) : Option (List (CreativeInfo × BidErr)) :=
  getAllPtrs BaseClassify.report exclude

/-! ## The invariant of the tree -/

/-- A pointer that is not null, to a node of which `P` holds. -/
def Points {ν : Type} (P : ν → Prop) (p : Option ν) : Prop := ∃ n, p = some n ∧ P n

/-- A child for creatives with deep links is never alone nor empty, and has no reason. -/
structure Deeplink.Valid (n : Deeplink) : Prop where
  guarded : n.supports.isSome → n.notSupports.isSome
  supports_err : ∀ leaf ∈ n.supports, leaf.err = .success ∧ leaf.creatives ≠ []
  notSupports_err : ∀ leaf ∈ n.notSupports, leaf.err = .creativeDeeplink
  err : n.err = .creativeSize

/-- The children of a size node are there and valid. -/
structure Size.Valid (n : Size) : Prop where
  child : ∀ e ∈ n.child, Points Deeplink.Valid e.2
  err : n.err = .creativeType

/-- The children of a type node are there and valid. -/
def CreativeType.Valid (n : CreativeType) : Prop := ∀ e ∈ n.child, Points Size.Valid e.2

/-- The creatives below a node, whatever the pointers are. -/
def Size.all (n : Size) : List CreativeInfo := n.child.flatMap fun e => e.2.elim [] Deeplink.getAll

/-- The creatives below a type node, whatever the pointers are. -/
def CreativeType.all (n : CreativeType) : List CreativeInfo :=
  n.child.flatMap fun e => e.2.elim [] Size.all

section

variable {one : CreativeInfo}

/-- A new node is valid. -/
theorem Deeplink.valid_new : Deeplink.Valid ⟨none, none, .creativeSize⟩ where
  guarded := id
  supports_err := by simp
  notSupports_err := by simp
  err := rfl

/-- A creative is refused if it has a deep link and comes before all creatives of its node. -/
theorem Deeplink.isSome_add {n : Deeplink} (hn : n.Valid) :
    (n.add one).isSome ↔ one.deeplink = [] ∨ n.notSupports.isSome := by
  unfold Deeplink.add
  split_ifs with hdl
  · cases hs : n.supports with
    | some leaf => simpa [hdl] using hn.guarded (by rw [hs]; rfl)
    | none =>
      cases n.notSupports with
      | some leaf => simp
      | none => simpa using hdl
  · simpa using .inl (not_not.mp hdl)

/-- What `ClassifyDeeplink::Add` does. -/
theorem Deeplink.add_spec {n n' : Deeplink} (hn : n.Valid) (h : n.add one = some n') :
    n'.Valid ∧ n'.getAll.Perm (one :: n.getAll) ∧
      (n'.notSupports.isSome ↔ n.notSupports.isSome ∨ one.deeplink = []) ∧
        (n'.supports.isSome ↔ n.supports.isSome ∨ one.deeplink ≠ []) := by
  obtain ⟨hguarded, hs, hns, herr⟩ := hn
  unfold Deeplink.add at h
  split_ifs at h with hdl
  · obtain ⟨supports, notSupports, err⟩ := n
    -- the creative has a deeplink, and goes where those are
    cases supports with
    | some leaf =>
      obtain rfl := Option.some_inj.mp h
      refine ⟨⟨fun _ => hguarded rfl, ?_, hns, herr⟩, ?_, by simp [hdl], by simp⟩
      · simpa [Leaf.add] using (hs leaf rfl).1
      · simp only [Deeplink.getAll, Option.elim_some, Leaf.add, ← List.append_assoc]
        exact List.perm_append_singleton _ _
    | none =>
      cases notSupports with
      -- neither leaf is there: the sibling that the code goes to is `NULL`
      | none => exact absurd h (by simp)
      | some sibling =>
        obtain rfl := Option.some_inj.mp h
        refine ⟨⟨fun _ => rfl, by simp [Leaf.add], by simp, herr⟩, ?_, by simp, by simp [hdl]⟩
        simp only [Deeplink.getAll, Option.elim_some, Option.elim_none, Leaf.add,
          List.append_nil]
        exact List.perm_append_singleton _ _
  · have hnil : one.deeplink = [] := not_not.mp hdl
    -- no deeplink: the leaf is made where there is none
    obtain rfl := Option.some_inj.mp h
    refine ⟨⟨fun _ => rfl, hs, ?_, herr⟩, ?_, by simp [hnil], by simp [hnil]⟩
    · cases hleaf : n.notSupports with
      | none => simp [Leaf.add]
      | some leaf => simpa [Leaf.add, hleaf] using hns
    · cases hleaf : n.notSupports with
      | none => simp [Deeplink.getAll, Leaf.add, hleaf]
      | some leaf =>
        simp only [Deeplink.getAll, hleaf, Option.getD_some, Option.elim_some, Leaf.add,
          List.append_assoc]
        exact List.perm_middle

end

/-! ## Adding below a map -/

section

variable {κ ν : Type} {lt : κ → κ → Bool} {P : ν → Prop} {new : ν}
  {add : ν → Option ν} {child child' : List (κ × Option ν)} {key : κ}

/-- The child of a key, or the one that would be made for it. -/
def childAt (lt : κ → κ → Bool) (new : ν) (child : List (κ × Option ν)) (key : κ) : ν :=
  ((CmpMap.find lt key child).getD (some new)).getD new

/-- What is found in the map points to a valid node. -/
theorem find_points (hchild : ∀ e ∈ child, Points P e.2) {p : Option ν}
    (hp : CmpMap.find lt key child = some p) : Points P p := by
  obtain ⟨k', -, hperm⟩ := CmpMap.find_eraseP_perm hp
  exact hchild (k', p) (hperm.mem_iff.mpr List.mem_cons_self)

/-- The pointer that `Add` goes through is not null. -/
theorem getD_find_eq (hchild : ∀ e ∈ child, Points P e.2) :
    (CmpMap.find lt key child).getD (some new) = some (childAt lt new child key) := by
  unfold childAt
  cases hp : CmpMap.find lt key child with
  | none => rfl
  | some p =>
    obtain ⟨n, rfl, -⟩ := find_points hchild hp
    rfl

/-- Adding below a key goes well just if it does in the child. -/
theorem isSome_addChild (hchild : ∀ e ∈ child, Points P e.2) :
    (addChild lt key new add child).isSome ↔ (add (childAt lt new child key)).isSome := by
  rw [addChild, CmpMap.isSome_update, getD_find_eq hchild, Option.bind_some, Option.isSome_map]

/-- The child of the key has taken the creative, and no other child has changed. -/
theorem childAt_addChild (hsame : Equivalence (CmpMap.Same lt))
    (hchild : ∀ e ∈ child, Points P e.2) (h : addChild lt key new add child = some child') :
    ∃ n, add (childAt lt new child key) = some n ∧ ∀ k,
      childAt lt new child' k = if CmpMap.Same lt key k then n else childAt lt new child k := by
  obtain ⟨p, hp, hfind⟩ := CmpMap.find_update hsame h
  rw [getD_find_eq hchild, Option.bind_some] at hp
  obtain ⟨n, hn, rfl⟩ := Option.map_eq_some_iff.mp hp
  refine ⟨n, hn, fun k => ?_⟩
  rw [childAt, hfind k]
  split_ifs
  · rfl
  · rfl

/-- The pointers stay good when `Add` of the children keeps what holds of them. -/
theorem points_addChild (hchild : ∀ e ∈ child, Points P e.2) (hnew : P new)
    (hadd : ∀ n n', P n → add n = some n' → P n')
    (h : addChild lt key new add child = some child') : ∀ e ∈ child', Points P e.2 := by
  refine CmpMap.forall_update h hchild ⟨new, rfl, hnew⟩ ?_
  rintro p p' ⟨n, rfl, hn⟩ hstep
  obtain ⟨n', hn', rfl⟩ := Option.map_eq_some_iff.mp hstep
  exact ⟨n', rfl, hadd n n' hn hn'⟩

/-- One more creative is below the map. -/
theorem flatMap_addChild {all : ν → List CreativeInfo} {one : CreativeInfo}
    (hchild : ∀ e ∈ child, Points P e.2) (hnew : P new) (hall : all new = [])
    (hadd : ∀ n n', P n → add n = some n' → (all n').Perm (one :: all n))
    (h : addChild lt key new add child = some child') :
    (child'.flatMap fun e => e.2.elim [] all).Perm
      (one :: child.flatMap fun e => e.2.elim [] all) := by
  refine CmpMap.flatMap_update_perm (g := fun p => Option.elim p [] all) h hchild
    ⟨new, rfl, hnew⟩ hall ?_
  rintro p p' ⟨n, rfl, hn⟩ hstep
  obtain ⟨n', hn', rfl⟩ := Option.map_eq_some_iff.mp hstep
  exact hadd n n' hn hn'

end

/-! ## Adding to the tree -/

/-- Being neither before nor behind is an equivalence of types. -/
theorem same_typeLt : Equivalence (CmpMap.Same typeLt) := same_lt_nat

/-- It is equality. -/
theorem same_typeLt_iff {a b : ℕ} : CmpMap.Same typeLt a b ↔ a = b := same_lt_nat_iff

/-- The node for the creatives of a size. -/
def Size.bucket (n : Size) (size : CreativeSize) : Deeplink :=
  childAt CreativeSize.lt ⟨none, none, .creativeSize⟩ n.child size

/-- The node for the creatives of a type and a size. -/
def CreativeType.bucket (n : CreativeType) (type : ℕ) (size : CreativeSize) : Deeplink :=
  (childAt typeLt ⟨[], .creativeType⟩ n.child type).bucket size

section

variable {one : CreativeInfo} {type : ℕ} {size : CreativeSize}

/-- A new node is valid. -/
theorem Size.valid_new : Size.Valid ⟨[], .creativeType⟩ := ⟨by simp, rfl⟩

/-- The child below a key is valid, a new one included. -/
theorem valid_childAt {κ ν : Type} {lt : κ → κ → Bool} {P : ν → Prop} {new : ν}
    {child : List (κ × Option ν)} (hchild : ∀ e ∈ child, Points P e.2) (hnew : P new) (key : κ) :
    P (childAt lt new child key) := by
  unfold childAt
  cases hp : CmpMap.find lt key child with
  | none => exact hnew
  | some p =>
    obtain ⟨n, rfl, hn⟩ := find_points hchild hp
    exact hn

/-- A deeplink creative needs a plain one of its size before it. -/
theorem Size.isSome_add {n : Size} (hn : n.Valid) :
    (n.add one).isSome ↔ one.deeplink = [] ∨ (n.bucket one.size).notSupports.isSome := by
  unfold Size.add Size.bucket
  rw [← Deeplink.isSome_add (valid_childAt hn.child Deeplink.valid_new _),
    ← isSome_addChild hn.child, Option.isSome_map]

/-- What `ClassifySize::Add` does. -/
theorem Size.add_spec {n n' : Size} (hn : n.Valid) (h : n.add one = some n') :
    n'.Valid ∧ n'.all.Perm (one :: n.all) ∧
      ((n'.bucket size).notSupports.isSome ↔ (n.bucket size).notSupports.isSome ∨
        one.size.w = size.w ∧ one.deeplink = []) ∧
      ((n'.bucket size).supports.isSome ↔ (n.bucket size).supports.isSome ∨
        one.size.w = size.w ∧ one.deeplink ≠ []) := by
  obtain ⟨child, hchild, rfl⟩ := Option.map_eq_some_iff.mp h
  refine ⟨⟨points_addChild hn.child Deeplink.valid_new (fun _ _ hc ha =>
    (Deeplink.add_spec hc ha).1) hchild, hn.err⟩, ?_, ?_⟩
  · exact flatMap_addChild hn.child Deeplink.valid_new rfl
      (fun _ _ hc ha => (Deeplink.add_spec hc ha).2.1) hchild
  · obtain ⟨node, hnode, hat⟩ := childAt_addChild same_lt_size hn.child hchild
    have hspec := (Deeplink.add_spec (valid_childAt hn.child Deeplink.valid_new _) hnode).2.2
    unfold Size.bucket
    rw [hat size]
    by_cases hw : CmpMap.Same CreativeSize.lt one.size size
    · rw [if_pos hw, hspec.1, hspec.2, childAt, childAt, CmpMap.find_congr same_lt_size hw]
      simp [same_lt_size_iff.mp hw]
    · rw [if_neg hw]
      rw [same_lt_size_iff] at hw
      simp [hw]

/-- A deeplink creative needs a plain one of its type and size before it. -/
theorem CreativeType.isSome_add {n : CreativeType} (hn : n.Valid) :
    (n.add one).isSome ↔ one.deeplink = [] ∨ (n.bucket one.type one.size).notSupports.isSome := by
  unfold CreativeType.add CreativeType.bucket
  rw [← Size.isSome_add (valid_childAt hn Size.valid_new _), ← isSome_addChild hn,
    Option.isSome_map]

/-- What `ClassifyCreativeType::Add` does. -/
theorem CreativeType.add_spec {n n' : CreativeType} (hn : n.Valid) (h : n.add one = some n') :
    n'.Valid ∧ n'.all.Perm (one :: n.all) ∧
      ((n'.bucket type size).notSupports.isSome ↔ (n.bucket type size).notSupports.isSome ∨
        one.type = type ∧ one.size.w = size.w ∧ one.deeplink = []) ∧
      ((n'.bucket type size).supports.isSome ↔ (n.bucket type size).supports.isSome ∨
        one.type = type ∧ one.size.w = size.w ∧ one.deeplink ≠ []) := by
  obtain ⟨child, hchild, rfl⟩ := Option.map_eq_some_iff.mp h
  have hadd : ∀ s s' : Size, s.Valid → s.add one = some s' → _ := fun s s' hs ha =>
    @Size.add_spec _ size s s' hs ha
  refine ⟨points_addChild hn Size.valid_new (fun s s' hs ha => (hadd s s' hs ha).1) hchild, ?_, ?_⟩
  · exact flatMap_addChild hn Size.valid_new rfl (fun s s' hs ha => (hadd s s' hs ha).2.1) hchild
  · obtain ⟨node, hnode, hat⟩ := childAt_addChild same_typeLt hn hchild
    have hspec := (hadd _ node (valid_childAt hn Size.valid_new _) hnode).2.2
    unfold CreativeType.bucket
    rw [hat type]
    by_cases htype : one.type = type
    · rw [if_pos (same_typeLt_iff.mpr htype), hspec.1, hspec.2, htype]
      simp
    · rw [if_neg (fun hs => htype (same_typeLt_iff.mp hs))]
      simp [htype]

end

/-! ## Building the whole tree -/

/-- A creative that belongs where a type and a size are kept. -/
def InBucket (type : ℕ) (size : CreativeSize) (c : CreativeInfo) : Prop :=
  c.type = type ∧ c.size.w = size.w

instance (type : ℕ) (size : CreativeSize) (c : CreativeInfo) : Decidable (InBucket type size c) :=
  inferInstanceAs (Decidable (_ ∧ _))

/-- Each creative with a deep link comes after one without that is kept at the same place. -/
def PlainFirst (creatives : List CreativeInfo) : Prop :=
  ∀ before one after, creatives = before ++ one :: after → one.deeplink ≠ [] →
    ∃ c ∈ before, InBucket one.type one.size c ∧ c.deeplink = []

/-- What holds of the tree of some creatives. -/
structure Built (creatives : List CreativeInfo) (n : CreativeType) : Prop where
  valid : n.Valid
  all : n.all.Perm creatives
  notSupports : ∀ type size, (n.bucket type size).notSupports.isSome ↔
    ∃ c ∈ creatives, InBucket type size c ∧ c.deeplink = []
  supports : ∀ type size, (n.bucket type size).supports.isSome ↔
    ∃ c ∈ creatives, InBucket type size c ∧ c.deeplink ≠ []

/-- Without creatives there is the empty tree. -/
theorem built_nil : Built [] ⟨[]⟩ where
  valid := by simp [CreativeType.Valid]
  all := .refl _
  notSupports := by simp [CreativeType.bucket, Size.bucket, childAt, CmpMap.find]
  supports := by simp [CreativeType.bucket, Size.bucket, childAt, CmpMap.find]

/-- Adding a creative builds the tree with it. -/
theorem Built.add {creatives : List CreativeInfo} {n n' : CreativeType} {one : CreativeInfo}
    (hn : Built creatives n) (h : n.add one = some n') : Built (creatives ++ [one]) n' where
  valid := (@CreativeType.add_spec _ 0 ⟨0, 0⟩ _ _ hn.valid h).1
  all := (@CreativeType.add_spec _ 0 ⟨0, 0⟩ _ _ hn.valid h).2.1.trans
    ((hn.all.cons one).trans (List.perm_append_singleton one creatives).symm)
  notSupports := by
    intro type size
    rw [(CreativeType.add_spec hn.valid h).2.2.1, hn.notSupports]
    simp [InBucket, or_and_right, exists_or, and_assoc]
  supports := by
    intro type size
    rw [(CreativeType.add_spec hn.valid h).2.2.2, hn.supports]
    simp [InBucket, or_and_right, exists_or, and_assoc]

/-- One more creative. -/
theorem creater_append (creatives : List CreativeInfo) (one : CreativeInfo) :
    creater (creatives ++ [one]) = (creater creatives).bind fun n => n.add one := by
  simp [creater, List.foldlM_append]

/-- The tree that is built has all the creatives: by induction over them, from the last one. -/
theorem built_creater {creatives : List CreativeInfo} {n : CreativeType}
    (h : creater creatives = some n) : Built creatives n := by
  induction creatives using List.reverseRecOn generalizing n with
  | nil =>
    obtain rfl := Option.some_inj.mp h
    exact built_nil
  | append_singleton creatives one ih =>
    rw [creater_append] at h
    obtain ⟨n₀, h₀, h₁⟩ := Option.bind_eq_some_iff.mp h
    exact (ih h₀).add h₁

/-- The condition for one more creative. -/
theorem plainFirst_append {creatives : List CreativeInfo} {one : CreativeInfo} :
    PlainFirst (creatives ++ [one]) ↔ PlainFirst creatives ∧ (one.deeplink ≠ [] →
      ∃ c ∈ creatives, InBucket one.type one.size c ∧ c.deeplink = []) := by
  constructor
  · intro h
    refine ⟨fun before x after heq => h before x (after ++ [one]) (by simp [heq]), ?_⟩
    exact h creatives one [] rfl
  · rintro ⟨hfirst, hlast⟩ before x after heq hdl
    -- the creative is the last one or one of the others
    rcases List.eq_nil_or_concat after with rfl | ⟨after', y, rfl⟩
    · obtain ⟨rfl, hone⟩ := List.append_inj' heq rfl
      obtain rfl := List.singleton_inj.mp hone
      exact hlast hdl
    · rw [List.concat_eq_append, ← List.cons_append, ← List.append_assoc] at heq
      exact hfirst before x after' (List.append_inj' heq rfl).1 hdl

/-- Building succeeds exactly if no creative with a deep link comes first at its place. -/
theorem isSome_creater (creatives : List CreativeInfo) :
    (creater creatives).isSome ↔ PlainFirst creatives := by
  induction creatives using List.reverseRecOn with
  | nil => simp [creater, PlainFirst]
  | append_singleton creatives one ih =>
    rw [creater_append, plainFirst_append, ← ih]
    cases hn : creater creatives with
    | none => simp
    | some n =>
      have hbuilt := built_creater hn
      rw [Option.bind_some, CreativeType.isSome_add hbuilt.valid, hbuilt.notSupports]
      simp [or_iff_not_imp_left]

/-! ## What a search leaves out -/

section

variable {ν α : Type} {P : ν → Prop}

/-- Through good pointers everything is collected. -/
theorem getAllPtrs_eq {getAll : ν → Option (List α)} {all : ν → List α} {ptrs : List (Option ν)}
    (h : ∀ p ∈ ptrs, Points P p) (hall : ∀ n, P n → getAll n = some (all n)) :
    getAllPtrs getAll ptrs = some (ptrs.flatMap fun p => p.elim [] all) := by
  induction ptrs with
  | nil => rfl
  | cons p rest ih =>
    obtain ⟨⟨n, rfl, hn⟩, hrest⟩ := List.forall_mem_cons.mp h
    simp [getAllPtrs, hall n hn, ih hrest]

/-- The creatives below two rows of pointers. -/
theorem getAllPtrs_append {getAll : ν → Option (List α)} {p q : List (Option ν)}
    {xs ys : List α} (hp : getAllPtrs getAll p = some xs) (hq : getAllPtrs getAll q = some ys) :
    getAllPtrs getAll (p ++ q) = some (xs ++ ys) := by
  induction p generalizing xs with
  | nil =>
    obtain rfl := Option.some_inj.mp hp
    exact hq
  | cons e rest ih =>
    obtain ⟨n, rfl, hp⟩ := Option.bind_eq_some_iff.mp hp
    obtain ⟨all, hall, hp⟩ := Option.bind_eq_some_iff.mp hp
    obtain ⟨others, hothers, hp⟩ := Option.bind_eq_some_iff.mp hp
    obtain rfl := Option.some_inj.mp hp
    simp [getAllPtrs, hall, ih hothers]

end

/-- In a valid node all creatives are collected. -/
theorem Size.getAll_eq {n : Size} (hn : n.Valid) : n.getAll = some n.all := by
  have hchild := getAllPtrs_eq (List.forall_mem_map.mpr hn.child)
    (fun _ _ => rfl : ∀ d, Deeplink.Valid d → some d.getAll = some d.getAll)
  rw [Size.getAll, hchild, Size.all, List.flatMap_map]

/-- In a valid node all creatives are collected. -/
theorem CreativeType.getAll_eq {n : CreativeType} (hn : n.Valid) : n.getAll = some n.all := by
  rw [CreativeType.getAll, getAllPtrs_eq (List.forall_mem_map.mpr hn) fun _ => Size.getAll_eq,
    CreativeType.all, List.flatMap_map]

/-- A search goes through no null pointer, nor does the report on what it excludes; both together
have all the creatives; and exactly if `reasoned`, all that is reported has a reason. -/
def Complete (search : Option Found) (all : List CreativeInfo) (reasoned : Prop) : Prop :=
  ∃ found reported, search = some found ∧ report found.exclude = some reported ∧
    (found.creatives ++ reported.map Prod.fst).Perm all ∧
    ((∀ r ∈ reported, r.2 ≠ .success) ↔ reasoned)

/-- What the search in a bucket finds and reports. -/
theorem Deeplink.complete {n : Deeplink} (hn : n.Valid) (req : ComRequest) :
    Complete (some (n.search req)) n.getAll
      (req.supportDeepLink ≠ 0 ∨ ¬n.supports.isSome) := by
  obtain ⟨supports, notSupports, err⟩ := n
  unfold Deeplink.search
  split_ifs with hreq
  · cases notSupports with
    | none =>
      cases supports with
      | none => exact ⟨_, [], rfl, rfl, .refl _, by simp⟩
      | some leaf => exact absurd (hn.guarded rfl) (by simp)
    | some plain =>
      cases supports with
      | none => exact ⟨_, [], rfl, rfl, .refl _, by simp⟩
      | some leaf =>
        -- the child for deep links is excluded, without a reason
        obtain ⟨herr, hne⟩ := hn.supports_err leaf rfl
        refine ⟨_, leaf.creatives.map fun c => (c, leaf.err), rfl, ?_, ?_, ?_⟩
        · simp [report, getAllPtrs, BaseClassify.report, BaseClassify.getAll, BaseClassify.err]
        · simp [Deeplink.getAll, Function.comp_def]
        · obtain ⟨c, hc⟩ := List.exists_mem_of_ne_nil _ hne
          simp only [hreq, herr, ne_eq, not_true_eq_false, Option.isSome_some, or_self, iff_false]
          exact fun h => h (c, .success) (List.mem_map.mpr ⟨c, hc, rfl⟩) rfl
  · exact ⟨_, [], rfl, rfl, by simpa [Deeplink.getAll] using List.perm_append_comm, by simp [hreq]⟩

section

variable {κ ν : Type} {lt : κ → κ → Bool} {P : ν → Prop} {search : ν → Option Found}
  {child : List (κ × Option ν)}

/-- What is reported of children that are excluded. -/
theorem report_children (pack : ν → BaseClassify) (all : ν → List CreativeInfo)
    (hchild : ∀ e ∈ child, Points P e.2)
    (hall : ∀ n, P n → (pack n).getAll = some (all n))
    (herr : ∀ n, P n → (pack n).err ≠ .success) :
    ∃ reported, report (child.map fun e => e.2.map pack) = some reported ∧
      reported.map Prod.fst = (child.flatMap fun e => e.2.elim [] all) ∧
      ∀ r ∈ reported, r.2 ≠ .success := by
  induction child with
  | nil => exact ⟨[], rfl, rfl, by simp⟩
  | cons e rest ih =>
    obtain ⟨⟨n, hp, hn⟩, hrest⟩ := List.forall_mem_cons.mp hchild
    obtain ⟨reported, hreport, hfst, hreason⟩ := ih hrest
    rw [report] at hreport
    refine ⟨(all n).map (fun c => (c, (pack n).err)) ++ reported, ?_, ?_, ?_⟩
    · simp [report, getAllPtrs, hp, BaseClassify.report, hall n hn, hreport]
    · simp [hp, hfst, Function.comp_def]
    · intro r hr
      rcases List.mem_append.mp hr with hr | hr
      · obtain ⟨c, -, rfl⟩ := List.mem_map.mp hr
        exact herr n hn
      · exact hreason r hr

/-- The search of a map is complete if the searches of its children are. -/
theorem complete_searchChild (new : ν) (pack : ν → BaseClassify) (all : ν → List CreativeInfo)
    (Q : ν → Prop) {key : κ} (hchild : ∀ e ∈ child, Points P e.2)
    (hall : ∀ n, P n → (pack n).getAll = some (all n))
    (herr : ∀ n, P n → (pack n).err ≠ .success)
    (hsearch : ∀ n, P n → Complete (search n) (all n) (Q n)) (hQ : Q new) :
    Complete (searchChild lt key pack search child)
      (child.flatMap fun e => e.2.elim [] all) (Q (childAt lt new child key)) := by
  unfold searchChild childAt
  cases hfind : CmpMap.find lt key child with
  | none =>
    obtain ⟨reported, hreport, hfst, hreason⟩ := report_children pack all hchild hall herr
    exact ⟨_, reported, rfl, hreport, .of_eq hfst, iff_of_true hreason hQ⟩
  | some p =>
    obtain ⟨k', -, hperm⟩ := CmpMap.find_eraseP_perm hfind
    obtain ⟨n, rfl, hn⟩ := find_points hchild hfind
    obtain ⟨found, reported, hfound, hreport, hfound_perm, hreasoned⟩ := hsearch n hn
    have herase : ∀ e ∈ child.eraseP (fun e => CmpMap.Same lt e.1 key), Points P e.2 :=
      fun e he => hchild e (List.mem_of_mem_eraseP he)
    obtain ⟨others, hothers, hfst, hreason⟩ := report_children pack all herase hall herr
    refine ⟨⟨found.exclude ++ _, found.creatives⟩, reported ++ others, by simp [hfound],
      getAllPtrs_append hreport hothers, ?_, ?_⟩
    · rw [List.map_append, hfst, ← List.append_assoc]
      refine (hfound_perm.append_right _).trans ?_
      exact (hperm.flatMap_right fun e => e.2.elim [] all).symm
    · rw [List.forall_mem_append]
      exact (and_iff_left hreason).trans hreasoned

end

/-- What the search below a type finds and reports. -/
theorem Size.complete {n : Size} (hn : n.Valid) (req : ComRequest) (imp : ComImpression) :
    Complete (n.search req imp) n.all
      (req.supportDeepLink ≠ 0 ∨ ¬(n.bucket imp.searchSize).supports.isSome) := by
  unfold Size.search Size.all Size.bucket
  exact complete_searchChild ⟨none, none, .creativeSize⟩ .deeplink Deeplink.getAll
    (fun c => req.supportDeepLink ≠ 0 ∨ ¬c.supports.isSome) hn.child (fun _ _ => rfl)
    (fun c hc => by simp [BaseClassify.err, hc.err]) (fun c hc => c.complete hc req)
    (.inr (by simp))

/-- What the search in the tree finds and reports. -/
theorem CreativeType.complete {n : CreativeType} (hn : n.Valid) (req : ComRequest)
    (imp : ComImpression) :
    Complete (n.search req imp) n.all (req.supportDeepLink ≠ 0 ∨
      ¬(n.bucket imp.searchType imp.searchSize).supports.isSome) := by
  have herr : ∀ s : Size, s.Valid → (BaseClassify.size s).err ≠ .success := by
    intro s hs
    simp [BaseClassify.err, hs.err]
  -- a size that has just been made has no creatives
  have hnew : req.supportDeepLink ≠ 0 ∨
      ¬(Size.bucket ⟨[], .creativeType⟩ imp.searchSize).supports.isSome := by
    simp [Size.bucket, childAt, CmpMap.find]
  have hall : ∀ s : Size, s.Valid → (BaseClassify.size s).getAll = some s.all :=
    fun _ hs => Size.getAll_eq hs
  have hsearch : ∀ s : Size, s.Valid → Complete (s.search req imp) s.all
      (req.supportDeepLink ≠ 0 ∨ ¬(s.bucket imp.searchSize).supports.isSome) :=
    fun s hs => s.complete hs req imp
  unfold CreativeType.search CreativeType.all CreativeType.bucket
  exact @complete_searchChild _ _ typeLt Size.Valid (Size.search req imp) n.child
    ⟨[], .creativeType⟩ .size Size.all
    (fun s => req.supportDeepLink ≠ 0 ∨ ¬(s.bucket imp.searchSize).supports.isSome)
    imp.searchType hn hall herr hsearch hnew

/-! ## No null pointers -/

/-- `Creater`, each search of its tree with the report on it, and `GetAll` go through no null
pointer. -/
def Safe (creatives : List CreativeInfo) : Prop :=
  ∃ n, creater creatives = some n ∧ n.getAll.isSome ∧
    ∀ req imp, ∃ found, n.search req imp = some found ∧ (report found.exclude).isSome

/-- No null pointer is met if and only if each creative with a deep link comes after one of its
type and width without. -/
theorem creater_safe_iff (creatives : List CreativeInfo) :
    Safe creatives ↔ PlainFirst creatives := by
  rw [← isSome_creater]
  constructor
  · rintro ⟨n, hn, -⟩
    rw [hn]
    rfl
  · intro h
    obtain ⟨n, hn⟩ := Option.isSome_iff_exists.mp h
    have hvalid := (built_creater hn).valid
    refine ⟨n, hn, by rw [CreativeType.getAll_eq hvalid]; rfl, fun req imp => ?_⟩
    obtain ⟨found, reported, hfound, hreport, -⟩ := n.complete hvalid req imp
    exact ⟨found, hfound, by rw [hreport]; rfl⟩

/-- A banner that opens an application. -/
def sampleDeeplink (addr : ℕ) : CreativeInfo :=
  { sampleCreative addr adtypeImage 320 50 with deeplink := bytes "app://a" }

/-- The only creative has a deep link: the sibling of its node, on which the reason is set, does
not exist. -/
theorem creater_null_sibling : ¬Safe [sampleDeeplink 1] := by
  rintro ⟨n, hn, -⟩
  exact absurd hn (by simp [show creater [sampleDeeplink 1] = none from rfl])

/-! ## Each creative once -/

/-- Each creative is found or reported, exactly once; and all reported ones have a reason if and
only if the request takes the deep links of all creatives of the type and the width of the slot. -/
theorem search_complete (creatives : List CreativeInfo)
    (hdistinct : (creatives.map CreativeInfo.addr).Nodup) (n : CreativeType)
    (hn : creater creatives = some n) (req : ComRequest) (imp : ComImpression) :
    ∃ found reported, n.search req imp = some found ∧ report found.exclude = some reported ∧
      (AddrSet.insertAll CreativeInfo.addr found.creatives [] ++ reported.map Prod.fst).Perm
        creatives ∧
      ((∀ r ∈ reported, r.2 ≠ .success) ↔ ∀ c ∈ creatives,
        InBucket imp.searchType imp.searchSize c → DeeplinkAllowed req c) := by
  have hbuilt := built_creater hn
  obtain ⟨found, reported, hfound, hreport, hperm, hreasoned⟩ := n.complete hbuilt.valid req imp
  have hall := hperm.trans hbuilt.all
  refine ⟨found, reported, hfound, hreport, ?_, hreasoned.trans ?_⟩
  · -- the creatives that were found are different, so that the set has each of them
    have hnodup := hall.nodup_iff.mpr (List.Nodup.of_map _ hdistinct)
    have hinsert := AddrSet.insertAll_perm CreativeInfo.addr
      (List.nodup_append.mp hnodup).1 (s := []) (by simp)
    rw [List.append_nil] at hinsert
    exact (hinsert.append_right _).trans hall
  -- the request supports deeplinks, or no creative of the bucket has one
  · rw [hbuilt.supports]
    simp only [DeeplinkAllowed, not_exists, not_and, not_not]
    constructor
    · rintro (hreq | hplain) c hc hin
      · exact .inl hreq
      · exact .inr (hplain c hc hin)
    · intro h
      by_cases hreq : req.supportDeepLink = 0
      · exact .inr fun c hc hin => (h c hc hin).resolve_left (not_not.mpr hreq)
      · exact .inl hreq

/-- Two banners, of which the second has a deep link. -/
def sampleMixed : List CreativeInfo := [sampleCreative 1 adtypeImage 320 50, sampleDeeplink 2]

/-- The search in a bucket with both kinds of creatives. -/
theorem search_complete_mixed :
    ∃ n, creater sampleMixed = some n ∧ ∃ found reported,
      n.search { sampleRequest (bytes "a") with supportDeepLink := 1 } sampleImpression =
          some found ∧ report found.exclude = some reported ∧
        (AddrSet.insertAll CreativeInfo.addr found.creatives [] ++ reported.map Prod.fst).Perm
          sampleMixed ∧ ∀ r ∈ reported, r.2 ≠ .success := by
  obtain ⟨n, hn⟩ := Option.isSome_iff_exists.mp
    (show (creater sampleMixed).isSome = true from rfl)
  obtain ⟨found, reported, hfound, hreport, hperm, hreasoned⟩ := search_complete sampleMixed
    (by decide) n hn { sampleRequest (bytes "a") with supportDeepLink := 1 } sampleImpression
  exact ⟨n, hn, found, reported, hfound, hreport, hperm,
    hreasoned.mpr fun _ _ _ => .inl (by decide)⟩

/-- When the request takes no deep links, the second one is reported with the reason success. -/
theorem reported_without_reason :
    ∃ n found reported, creater sampleMixed = some n ∧
      n.search (sampleRequest (bytes "a")) sampleImpression = some found ∧
      report found.exclude = some reported ∧ reported = [(sampleDeeplink 2, .success)] ∧
      ¬∀ r ∈ reported, r.2 ≠ .success :=
  ⟨_, _, _, rfl, rfl, rfl, rfl, fun h =>
    h (sampleDeeplink 2, .success) (List.mem_singleton.mpr rfl) rfl⟩

/-! ## The tree without its reasons -/

/-- The node as the tree of `adSelectorCreater` has it. -/
def Deeplink.toSelector (n : Deeplink) : ClassifyDeeplink :=
  ⟨n.supports.map Leaf.creatives, n.notSupports.map Leaf.creatives⟩

/-- A size node as one of the selector, with new nodes for null pointers. -/
def Size.toSelector (n : Size) : ClassifySize :=
  n.child.map fun e => (e.1, (e.2.getD ⟨none, none, .creativeSize⟩).toSelector)

/-- A type node as one of the selector. -/
def CreativeType.toSelector (n : CreativeType) : ClassifyCreativeType :=
  n.child.map fun e => (e.1, (e.2.getD ⟨[], .creativeType⟩).toSelector)

section

variable {one : CreativeInfo}

/-- Adding below a bucket is adding to the selector. -/
theorem Deeplink.add_toSelector (n : Deeplink) :
    (n.add one).map Deeplink.toSelector = n.toSelector.add one := by
  obtain ⟨supports, notSupports, err⟩ := n
  unfold Deeplink.add ClassifyDeeplink.add
  split_ifs
  · cases supports with
    | some leaf => rfl
    | none =>
      cases notSupports with
      | some sibling => rfl
      | none => rfl
  · cases notSupports with
    | some leaf => rfl
    | none => rfl

/-- Both maps: if the children correspond, so do the maps. -/
theorem addChild_map {κ ν μ : Type} {lt : κ → κ → Bool} {P : ν → Prop} {key : κ} {new : ν}
    {add : ν → Option ν} {add' : μ → Option μ} {child : List (κ × Option ν)} {f : ν → μ}
    (hchild : ∀ e ∈ child, Points P e.2) (hnew : P new)
    (hadd : ∀ n, P n → (add n).map f = add' (f n)) :
    (addChild lt key new add child).map (List.map fun e => (e.1, f (e.2.getD new))) =
      CmpMap.update lt key (f new) add' (child.map fun e => (e.1, f (e.2.getD new))) := by
  have hstep : ∀ p : Option ν, Points P p →
      (p.bind fun n => (add n).map some).map (fun q => f (q.getD new)) = add' (f (p.getD new)) := by
    rintro p ⟨n, rfl, hn⟩
    rw [Option.bind_some, Option.map_map]
    exact hadd n hn
  exact @CmpMap.update_map κ (Option ν) lt μ (fun q => f (q.getD new)) key (some new)
    (fun p => p.bind fun n => (add n).map some) add' child (hstep (some new) ⟨new, rfl, hnew⟩)
    fun e he => hstep e.2 (hchild e he)

/-- Adding below a size node is adding to the selector. -/
theorem Size.add_toSelector {n : Size} (hn : n.Valid) :
    (n.add one).map Size.toSelector = n.toSelector.add one := by
  unfold Size.add ClassifySize.add
  rw [Option.map_map]
  exact addChild_map hn.child Deeplink.valid_new fun c _ => c.add_toSelector

/-- Adding below a type node is adding to the selector. -/
theorem CreativeType.add_toSelector {n : CreativeType} (hn : n.Valid) :
    (n.add one).map CreativeType.toSelector = n.toSelector.add one := by
  unfold CreativeType.add ClassifyCreativeType.add
  rw [Option.map_map]
  exact addChild_map hn Size.valid_new fun s hs => s.add_toSelector hs

end

/-- Without the reasons, the tree is the one of `adSelectorCreater`: by induction over the
creatives, from the last one. -/
theorem creater_toSelector (creatives : List CreativeInfo) :
    (creater creatives).map CreativeType.toSelector = adSelectorCreater creatives := by
  induction creatives using List.reverseRecOn with
  | nil => rfl
  | append_singleton creatives one ih =>
    rw [creater_append, adSelectorCreater, List.foldlM_append, ← adSelectorCreater, ← ih]
    cases hn : creater creatives with
    | none => rfl
    | some n => simpa using CreativeType.add_toSelector (built_creater hn).valid

/-- Both maps: a search finds what the search of the corresponding child finds. -/
theorem searchChild_creatives {κ ν μ : Type} {lt : κ → κ → Bool} {P : ν → Prop} {key : κ}
    {pack : ν → BaseClassify} {search : ν → Option Found} {child : List (κ × Option ν)} (new : ν)
    (f : ν → μ) (search' : μ → List CreativeInfo) (hchild : ∀ e ∈ child, Points P e.2)
    (hsearch : ∀ n, P n → (search n).map Found.creatives = some (search' (f n))) :
    (searchChild lt key pack search child).map Found.creatives =
      some ((CmpMap.find lt key (child.map fun e => (e.1, f (e.2.getD new)))).elim [] search') := by
  rw [@CmpMap.find_map κ (Option ν) lt μ (fun q => f (q.getD new)) key child, searchChild]
  cases hfind : CmpMap.find lt key child with
  | none => rfl
  | some p =>
    obtain ⟨n, rfl, hn⟩ := find_points hchild hfind
    obtain ⟨found, hfound, hcreatives⟩ := Option.map_eq_some_iff.mp (hsearch n hn)
    simp [hfound, hcreatives]

/-- A search finds what the search of that tree finds. -/
theorem search_toSelector {n : CreativeType} (hn : n.Valid) (req : ComRequest)
    (imp : ComImpression) :
    (n.search req imp).map Found.creatives = some (n.toSelector.search req imp) := by
  unfold CreativeType.search ClassifyCreativeType.search CreativeType.toSelector
  refine (searchChild_creatives ⟨[], .creativeType⟩ Size.toSelector (ClassifySize.search req imp)
    hn fun s hs => ?_).trans (congrArg some ?_)
  · unfold Size.search ClassifySize.search Size.toSelector
    refine (searchChild_creatives ⟨none, none, .creativeSize⟩ Deeplink.toSelector
      (ClassifyDeeplink.search req) hs.child fun c _ => ?_).trans (congrArg some ?_)
    · -- the leaves of both trees have the same creatives
      unfold Deeplink.search ClassifyDeeplink.search Deeplink.toSelector
      split_ifs
      · cases c.notSupports with
        | none => rfl
        | some leaf => rfl
      · cases c.supports with
        | none => cases c.notSupports <;> rfl
        | some leaf => cases c.notSupports <;> rfl
    · cases CmpMap.find CreativeSize.lt imp.searchSize _ <;> rfl
  · show Option.elim (CmpMap.find typeLt imp.searchType _) [] _ = _
    unfold typeLt
    cases CmpMap.find (fun a b => decide (a < b)) imp.searchType _ <;> rfl

end Classify

end AdxDsp
