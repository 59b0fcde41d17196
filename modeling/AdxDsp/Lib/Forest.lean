import Mathlib

/-!
# Forests of linked nodes

Nodes by their addresses, each with a key, a value, the address of its parent and the list of its
children.  A node is linked once, behind the children of a node that there is, and stays there.

* `WellFormed.link`: linking a node with a new key keeps the forest in order.
* `Grows`: what many links leave as it was; `Grows.find`, `Grows.below_iff`.
* `WellFormed.find_eq_some_iff`, `value_congr`: what is found along a path of keys.
-/

/-- A node; a root has no parent. -/
structure ForestNode (κ ν : Type) where
  key : κ
  val : ν
  parent : Option ℕ
  child : List ℕ

/-- The nodes that have been allocated have the addresses below `size`. -/
structure Forest (κ ν : Type) where
  size : ℕ
  node : ℕ → ForestNode κ ν

namespace Forest

variable {κ ν : Type}

/-- Before the first node. -/
def empty (key : κ) (val : ν) : Forest κ ν := ⟨0, fun _ => ⟨key, val, none, []⟩⟩

/-- A new root. -/
def create (h : Forest κ ν) (key : κ) (val : ν) : Forest κ ν where
  size := h.size + 1
  node a := if a = h.size then ⟨key, val, none, []⟩ else h.node a

/-- A new node behind the children of a node. -/
def link (h : Forest κ ν) (dest : ℕ) (key : κ) (val : ν) : Forest κ ν where
  size := h.size + 1
  node a :=
    if a = h.size then ⟨key, val, some dest, []⟩
    else if a = dest then { h.node a with child := (h.node a).child ++ [h.size] }
    else h.node a

/-- The first child with a key. -/
def find [DecidableEq κ] (h : Forest κ ν) (a : ℕ) (key : κ) : Option ℕ :=
  (h.node a).child.find? fun c => (h.node c).key = key

/-- The node at the end of a path of keys. -/
def walk [DecidableEq κ] (h : Forest κ ν) : ℕ → List κ → Option ℕ
  | a, [] => some a
  | a, key :: path => (h.find a key).bind fun c => h.walk c path

/-- The value at the end of a path of keys. -/
def value [DecidableEq κ] (h : Forest κ ν) (a : ℕ) (path : List κ) : Option ν :=
  (h.walk a path).map fun c => (h.node c).val

/-- The paths of keys on which there are nodes. -/
def paths [DecidableEq κ] (h : Forest κ ν) (a : ℕ) : Set (List κ) :=
  {path | (h.value a path).isSome}

/-- The node some levels above a node. -/
def ancestor (h : Forest κ ν) : ℕ → ℕ → Option ℕ
  | 0, a => some a
  | n + 1, a => (h.node a).parent.bind (h.ancestor n)

/-- A node is in the tree of another one. -/
def Below (h : Forest κ ν) : ℕ → ℕ → Prop := Relation.ReflTransGen fun x y => y ∈ (h.node x).child

/-- Two trees have no node in common. -/
def Apart (h : Forest κ ν) (a b : ℕ) : Prop := ∀ c, h.Below a c → ¬h.Below b c

/-- What is found at a node of which one child is known. -/
def under [DecidableEq κ] (key : κ) (f : List κ → Option ν) : List κ → Option ν
  | [] => none
  | key' :: path => if key' = key then f path else none

/-- The lists of the children and the pointers to the parents agree, a parent is older than its
children, no two children of a node have one key, and their keys and values are as they should. -/
structure WellFormed (P : κ → ν → Prop) (h : Forest κ ν) : Prop where
  mem_child : ∀ {a c}, c ∈ (h.node a).child ↔ c < h.size ∧ (h.node c).parent = some a
  parent_lt : ∀ {a c}, c < h.size → (h.node c).parent = some a → a < c
  nodup : ∀ a, ((h.node a).child.map fun c => (h.node c).key).Nodup
  payload : ∀ {a c}, c ∈ (h.node a).child → P (h.node c).key (h.node c).val

section

variable {P : κ → ν → Prop} {h h' h'' : Forest κ ν} {a b c d dest : ℕ} {key : κ} {val : ν}

/-- A child has a larger address than its parent, and is in the forest. -/
theorem WellFormed.lt (hwf : h.WellFormed P) (hc : c ∈ (h.node a).child) : a < c ∧ c < h.size :=
  have hm := hwf.mem_child.mp hc
  ⟨hwf.parent_lt hm.1 hm.2, hm.1⟩

/-! ## Trees -/

/-- What is below a node has no smaller address. -/
theorem WellFormed.le_of_below (hwf : h.WellFormed P) (hb : h.Below a b) : a ≤ b := by
  induction hb with
  | refl => exact le_rfl
  | tail _ hc ih => exact ih.trans (hwf.lt hc).1.le

/-- What is below a node of the forest is in the forest. -/
theorem WellFormed.lt_of_below (hwf : h.WellFormed P) (ha : a < h.size) (hb : h.Below a b) :
    b < h.size := by
  induction hb with
  | refl => exact ha
  | tail _ hc _ => exact (hwf.lt hc).2

/-- Of two nodes above one node, one is above the other. -/
theorem WellFormed.below_total (hwf : h.WellFormed P) (ha : h.Below a c) (hb : h.Below b c) :
    h.Below a b ∨ h.Below b a := by
  induction ha with
  | refl => exact .inr hb
  | @tail x y hx hy ih =>
    cases hb with
    | refl => exact .inl (hx.tail hy)
    | @tail x' _ hx' hy' =>
      -- both ways come through the one parent
      have hsame : x = x' := Option.some.inj
        ((hwf.mem_child.mp hy).2.symm.trans (hwf.mem_child.mp hy').2)
      subst hsame
      exact ih hx'

/-- A node that is not above another one is not above its parent. -/
theorem WellFormed.below_of_mem_child (hwf : h.WellFormed P) (hc : c ∈ (h.node a).child)
    (hb : h.Below b c) (hne : b ≠ c) : h.Below b a := by
  cases hb with
  | refl => exact absurd rfl hne
  | @tail x _ hx hc' =>
    have hsame : x = a := Option.some.inj
      ((hwf.mem_child.mp hc').2.symm.trans (hwf.mem_child.mp hc).2)
    rwa [← hsame]

/-- The trees of two children of one node have no node in common. -/
theorem WellFormed.eq_of_siblings (hwf : h.WellFormed P) (ha : a ∈ (h.node d).child)
    (hb : b ∈ (h.node d).child) (hac : h.Below a c) (hbc : h.Below b c) : a = b := by
  have hnot : ∀ {x y}, x ∈ (h.node d).child → y ∈ (h.node d).child → h.Below x y → x = y := by
    intro x y hx hy hxy
    -- else `x` would be above the common parent, but a parent is older than its children
    by_contra hne
    have hle := hwf.le_of_below (hwf.below_of_mem_child hy hxy hne)
    exact absurd hle (not_le.mpr (hwf.lt hx).1)
  rcases hwf.below_total hac hbc with h | h
  · exact hnot ha hb h
  · exact (hnot hb ha h).symm

/-- There is nothing above a root. -/
theorem WellFormed.eq_of_below_root (hwf : h.WellFormed P) (hroot : (h.node b).parent = none)
    (hb : h.Below a b) : a = b := by
  cases hb with
  | refl => rfl
  | tail _ hc =>
    have hparent := (hwf.mem_child.mp hc).2
    rw [hroot] at hparent
    cases hparent

/-- The trees of two roots have no node in common. -/
theorem WellFormed.apart_of_roots (hwf : h.WellFormed P) (ha : (h.node a).parent = none)
    (hb : (h.node b).parent = none) (hne : a ≠ b) : h.Apart a b := by
  intro c hac hbc
  rcases hwf.below_total hac hbc with h | h
  · exact hne (hwf.eq_of_below_root hb h)
  · exact hne (hwf.eq_of_below_root ha h).symm

/-! ## Growing -/

/-- What stays as it was while nodes are linked. -/
structure Grows (h h' : Forest κ ν) : Prop where
  size_le : h.size ≤ h'.size
  key : ∀ {a}, a < h.size → (h'.node a).key = (h.node a).key
  val : ∀ {a}, a < h.size → (h'.node a).val = (h.node a).val
  parent : ∀ {a}, a < h.size → (h'.node a).parent = (h.node a).parent

/-- Every forest has grown from itself. -/
theorem Grows.refl (h : Forest κ ν) : h.Grows h :=
  ⟨le_rfl, fun _ => rfl, fun _ => rfl, fun _ => rfl⟩

/-- Growth composes. -/
theorem Grows.trans (hg : h.Grows h') (hg' : h'.Grows h'') : h.Grows h'' where
  size_le := hg.size_le.trans hg'.size_le
  key ha := (hg'.key (ha.trans_le hg.size_le)).trans (hg.key ha)
  val ha := (hg'.val (ha.trans_le hg.size_le)).trans (hg.val ha)
  parent ha := (hg'.parent (ha.trans_le hg.size_le)).trans (hg.parent ha)

/-- A new child only makes the forest grow. -/
theorem grows_link : h.Grows (h.link dest key val) where
  size_le := Nat.le_succ _
  key ha := by
    rw [link]
    dsimp only
    rw [if_neg ha.ne]
    split_ifs <;> rfl
  val ha := by
    rw [link]
    dsimp only
    rw [if_neg ha.ne]
    split_ifs <;> rfl
  parent ha := by
    rw [link]
    dsimp only
    rw [if_neg ha.ne]
    split_ifs <;> rfl

/-- Links never take a node from the children of another one. -/
theorem Grows.mem_child_iff (hg : h.Grows h') (hwf : h.WellFormed P) (hwf' : h'.WellFormed P)
    (hc : c < h.size) : c ∈ (h'.node a).child ↔ c ∈ (h.node a).child := by
  rw [hwf'.mem_child, hwf.mem_child, hg.parent hc]
  exact and_congr_left' (iff_of_true (hc.trans_le hg.size_le) hc)

/-- The tree of a node keeps its nodes, and no other old one joins it. -/
theorem Grows.below_iff (hg : h.Grows h') (hwf : h.WellFormed P) (hwf' : h'.WellFormed P)
    (hb : b < h.size) : h'.Below a b ↔ h.Below a b := by
  constructor
  · intro hbelow
    induction hbelow with
    | refl => exact .refl
    | tail _ hc ih =>
      -- an old child has its old parent
      have hold := (hg.mem_child_iff hwf hwf' hb).mp hc
      exact (ih ((hwf.lt hold).1.trans hb)).tail hold
  · intro hbelow
    induction hbelow with
    | refl => exact .refl
    | tail _ hc ih =>
      exact (ih ((hwf.lt hc).1.trans hb)).tail ((hg.mem_child_iff hwf hwf' hb).mpr hc)

/-- Each step up lowers the address by one at least. -/
theorem WellFormed.add_le_of_ancestor (hwf : h.WellFormed P) {n : ℕ} (ha : a < h.size)
    (hb : h.ancestor n a = some b) : b + n ≤ a := by
  induction n generalizing a with
  | zero =>
    obtain rfl := Option.some.inj hb
    exact le_rfl
  | succ n ih =>
    obtain ⟨c, hc, hb⟩ := Option.bind_eq_some_iff.mp hb
    have hlt := hwf.parent_lt ha hc
    have := ih (hlt.trans ha) hb
    omega

/-- Growth keeps the ancestors of a node. -/
theorem Grows.ancestor_eq (hg : h.Grows h') (hwf : h.WellFormed P) {n : ℕ} (ha : a < h.size) :
    h'.ancestor n a = h.ancestor n a := by
  induction n generalizing a with
  | zero => rfl
  | succ n ih =>
    rw [ancestor, ancestor, hg.parent ha]
    cases hp : (h.node a).parent with
    | none => rfl
    | some b => exact ih ((hwf.parent_lt ha hp).trans ha)

/-! ## A new node -/

/-- There is nothing below a node that is yet to come. -/
theorem WellFormed.child_size (hwf : h.WellFormed P) : (h.node h.size).child = [] := by
  rw [List.eq_nil_iff_forall_not_mem]
  intro c hc
  -- a child would be newer than all nodes
  have := hwf.lt hc
  omega

/-- The new node: a leaf under `dest`. -/
@[simp] theorem node_link_size : (h.link dest key val).node h.size = ⟨key, val, some dest, []⟩ :=
  if_pos rfl

/-- The new node is the last child of `dest`, and no other list of children changes. -/
theorem child_link (hwf : h.WellFormed P) (hdest : dest < h.size) :
    ((h.link dest key val).node a).child =
      if a = dest then (h.node dest).child ++ [h.size] else (h.node a).child := by
  by_cases ha : a = h.size
  · subst ha
    rw [node_link_size, if_neg hdest.ne', hwf.child_size]
  · change (if a = h.size then _ else _ : ForestNode κ ν).child = _
    rw [if_neg ha]
    split_ifs with hd
    · rw [hd]
    · rfl

/-- The children after a new one. -/
theorem mem_child_link (hwf : h.WellFormed P) (hdest : dest < h.size) :
    c ∈ ((h.link dest key val).node a).child ↔
      c ∈ (h.node a).child ∨ a = dest ∧ c = h.size := by
  rw [child_link hwf hdest]
  split_ifs with hd
  · simp [hd]
  · simp [hd]

/-- A root alone is well formed. -/
theorem wellFormed_empty : (empty key val).WellFormed P where
  mem_child := iff_of_false nofun fun hc => absurd hc.1 (Nat.not_lt_zero _)
  parent_lt hc := absurd hc (Nat.not_lt_zero _)
  nodup _ := List.nodup_nil
  payload := nofun

/-- A new root has no part in what there is. -/
theorem WellFormed.create (hwf : h.WellFormed P) : (h.create key val).WellFormed P := by
  have hnode : ∀ {c}, c ≠ h.size → (h.create key val).node c = h.node c := fun hc => if_neg hc
  have hroot : (h.create key val).node h.size = ⟨key, val, none, []⟩ := if_pos rfl
  -- nothing hangs on the new node, and it hangs on nothing
  have hchild : ∀ a, ((h.create key val).node a).child = (h.node a).child := by
    intro a
    by_cases ha : a = h.size
    · rw [ha, hroot, hwf.child_size]
    · rw [hnode ha]
  have hsame : ∀ {a c}, c ∈ (h.node a).child → (h.create key val).node c = h.node c :=
    fun hc => hnode (hwf.lt hc).2.ne
  refine ⟨?_, ?_, ?_, ?_⟩
  · intro a c
    rw [hchild, hwf.mem_child]
    by_cases hc : c = h.size
    · rw [hc, hroot]
      simp
    · rw [hnode hc]
      refine and_congr_left' ?_
      change c < h.size ↔ c < h.size + 1
      omega
  · intro a c hc hp
    by_cases hsize : c = h.size
    · rw [hsize, hroot] at hp
      cases hp
    · rw [hnode hsize] at hp
      change c < h.size + 1 at hc
      exact hwf.parent_lt (by omega) hp
  · intro a
    rw [hchild, List.map_congr_left fun c hc => congrArg ForestNode.key (hsame hc)]
    exact hwf.nodup a
  · intro a c hc
    rw [hchild] at hc
    rw [hsame hc]
    exact hwf.payload hc

/-! ## Paths of keys -/

variable [DecidableEq κ]

/-- A child is found under a key just if it has this key: no two have one key. -/
theorem WellFormed.find_eq_some_iff (hwf : h.WellFormed P) :
    h.find a key = some c ↔ c ∈ (h.node a).child ∧ (h.node c).key = key := by
  constructor
  · intro hf
    exact ⟨List.mem_of_find?_eq_some hf, by simpa using List.find?_some hf⟩
  · rintro ⟨hc, hkey⟩
    cases hf : h.find a key with
    | none =>
      have hne := List.find?_eq_none.mp hf c hc
      simp [hkey] at hne
    | some c' =>
      have hc' : c' ∈ (h.node a).child := List.mem_of_find?_eq_some hf
      have hkey' : (h.node c').key = key := by simpa using List.find?_some hf
      exact congrArg some (List.inj_on_of_nodup_map (hwf.nodup a) hc' hc (hkey'.trans hkey.symm))

/-- Growth keeps what is found. -/
theorem Grows.find (hg : h.Grows h') (hwf : h.WellFormed P) (hwf' : h'.WellFormed P)
    (hf : h.find a key = some c) : h'.find a key = some c := by
  obtain ⟨hc, hkey⟩ := hwf.find_eq_some_iff.mp hf
  have hlt := (hwf.lt hc).2
  exact hwf'.find_eq_some_iff.mpr
    ⟨(hg.mem_child_iff hwf hwf' hlt).mpr hc, (hg.key hlt).trans hkey⟩

/-- Nothing is found just if no child has the key. -/
theorem find_eq_none_iff : h.find a key = none ↔ ∀ c ∈ (h.node a).child, (h.node c).key ≠ key := by
  simp [Forest.find]

@[simp] theorem value_nil : h.value a ([] : List κ) = some (h.node a).val := rfl

/-- The value of a path, by its first key. -/
theorem value_cons {path : List κ} :
    h.value a (key :: path) = (h.find a key).bind fun c => h.value c path := by
  rw [value, walk, Option.map_bind]
  rfl

/-- What is found in a tree depends on its nodes only. -/
theorem value_congr (hsame : ∀ b, h.Below a b → h'.node b = h.node b) (path : List κ) :
    h'.value a path = h.value a path := by
  induction path generalizing a with
  | nil => rw [value_nil, value_nil, hsame a .refl]
  | cons key path ih =>
    have hfind : h'.find a key = h.find a key := by
      rw [Forest.find, Forest.find, hsame a .refl]
      refine List.find?_congr fun c hc => ?_
      rw [hsame c (.single hc)]
    rw [value_cons, value_cons, hfind]
    cases hf : h.find a key with
    | none => rfl
    | some c =>
      exact ih fun b hb => hsame b (.head (List.mem_of_find?_eq_some hf) hb)

/-- Linking a node with a key that no child has keeps the forest in order. -/
theorem WellFormed.link (hwf : h.WellFormed P) (hdest : dest < h.size)
    (hnew : h.find dest key = none) (hP : P key val) : (h.link dest key val).WellFormed P where
  mem_child := by
    intro a c
    rw [mem_child_link hwf hdest, hwf.mem_child]
    -- an old node, the new one, or none
    rcases lt_trichotomy c h.size with hc | rfl | hc
    · rw [grows_link.parent hc]
      simp [Forest.link, hc, hc.ne, hc.trans (Nat.lt_succ_self _)]
    · simp [Forest.link, eq_comm]
    · simp [Forest.link, hc.ne', not_lt.mpr hc.le, not_le.mpr hc]
  parent_lt := by
    intro a c hc hp
    rcases (Nat.lt_succ_iff.mp hc).lt_or_eq with hc | rfl
    · rw [grows_link.parent hc] at hp
      exact hwf.parent_lt hc hp
    · rw [node_link_size] at hp
      obtain rfl := Option.some.inj hp
      exact hdest
  nodup := by
    intro a
    have hold : ∀ a, ((h.node a).child.map fun c => ((h.link dest key val).node c).key) =
        (h.node a).child.map fun c => (h.node c).key := by
      intro a
      refine List.map_congr_left fun c hc => ?_
      exact grows_link.key (hwf.lt hc).2
    rw [child_link hwf hdest]
    split_ifs with hd
    · -- the lookup has found no child with the new key
      rw [List.map_append, hold, List.map_singleton, node_link_size]
      refine List.nodup_append'.mpr ⟨hwf.nodup dest, List.nodup_singleton _, ?_⟩
      rw [List.disjoint_singleton, List.mem_map]
      rintro ⟨c, hc, hkey⟩
      exact find_eq_none_iff.mp hnew c hc hkey
    · rw [hold]
      exact hwf.nodup a
  payload := by
    intro a c hc
    rcases (mem_child_link hwf hdest).mp hc with hc | ⟨-, rfl⟩
    · rw [grows_link.key (hwf.lt hc).2, grows_link.val (hwf.lt hc).2]
      exact hwf.payload hc
    · rw [node_link_size]
      exact hP

/-! ## Merging into a tree -/

/-- Only the tree of a node has changed; along the paths where it had nothing, it now has what `f`
says. -/
structure Merged (P : κ → ν → Prop) (h h' : Forest κ ν) (dest : ℕ) (f : List κ → Option ν) :
    Prop where
  wf : h'.WellFormed P
  grows : h.Grows h'
  frame : ∀ {a}, a < h.size → ¬h.Below dest a → h'.node a = h.node a
  value : ∀ path, h'.value dest path = (h.value dest path).or (f path)

variable {f g : List κ → Option ν} {src : ℕ}

/-- Merging nothing changes nothing. -/
theorem Merged.refl (hwf : h.WellFormed P) (hf : ∀ path, f path = none ∨ path = []) :
    h.Merged P h dest f := by
  refine ⟨hwf, .refl h, fun _ _ => rfl, fun path => ?_⟩
  rcases hf path with hnone | rfl
  · rw [hnone, Option.or_none]
  · rfl

/-- The merged values may be given otherwise, the root's apart. -/
theorem Merged.congr (hm : h.Merged P h' dest f) (hfg : ∀ path, path ≠ [] → f path = g path) :
    h.Merged P h' dest g := by
  refine ⟨hm.wf, hm.grows, hm.frame, fun path => ?_⟩
  rw [hm.value]
  cases path with
  | nil => rfl
  | cons key path => rw [hfg (key :: path) (List.cons_ne_nil _ _)]

/-- Of two merges the values of the first one stay. -/
theorem Merged.trans (hwf : h.WellFormed P) (hm : h.Merged P h' dest f)
    (hm' : h'.Merged P h'' dest g) : h.Merged P h'' dest fun path => (f path).or (g path) where
  wf := hm'.wf
  grows := hm.grows.trans hm'.grows
  frame ha hb := by
    have hb' := mt (hm.grows.below_iff hwf hm.wf ha).mp hb
    rw [hm'.frame (ha.trans_le hm.grows.size_le) hb', hm.frame ha hb]
  value path := by rw [hm'.value, hm.value, Option.or_assoc]

/-- Another tree stays as it is. -/
theorem Merged.node_eq (hm : h.Merged P h' dest f) (hwf : h.WellFormed P) (hsrc : src < h.size)
    (hapart : h.Apart dest src) (hb : h.Below src b) : h'.node b = h.node b :=
  hm.frame (hwf.lt_of_below hsrc hb) fun hdest => hapart b hdest hb

/-- A merge leaves the values below a node apart from `dest` alone. -/
theorem Merged.value_eq (hm : h.Merged P h' dest f) (hwf : h.WellFormed P) (hsrc : src < h.size)
    (hapart : h.Apart dest src) (path : List κ) : h'.value src path = h.value src path :=
  value_congr (fun _ hb => hm.node_eq hwf hsrc hapart hb) path

/-- A merge leaves what is below a node apart from `dest` alone. -/
theorem Merged.below_iff (hm : h.Merged P h' dest f) (hwf : h.WellFormed P) (hsrc : src < h.size)
    (hapart : h.Apart dest src) : h'.Below src b ↔ h.Below src b := by
  constructor
  · intro hb
    induction hb with
    | refl => exact .refl
    | tail _ hc ih =>
      rw [hm.node_eq hwf hsrc hapart ih] at hc
      exact ih.tail hc
  · intro hb
    exact (hm.grows.below_iff hwf hm.wf (hwf.lt_of_below hsrc hb)).mpr hb

/-- A node apart from `dest` stays so in a merge. -/
theorem Merged.apart (hm : h.Merged P h' dest f) (hwf : h.WellFormed P) (hsrc : src < h.size)
    (hapart : h.Apart dest src) : h'.Apart dest src := by
  intro c hdest hc
  have hold := (hm.below_iff hwf hsrc hapart).mp hc
  exact hapart c ((hm.grows.below_iff hwf hm.wf (hwf.lt_of_below hsrc hold)).mp hdest) hold

/-- A child that is there already keeps its value. -/
theorem Merged.old (hwf : h.WellFormed P) (hold : h.find dest key = some c) :
    h.Merged P h dest (under key fun path => if path = [] then some val else none) := by
  refine ⟨hwf, .refl h, fun _ _ => rfl, fun path => ?_⟩
  match path with
  | [] => rfl
  | key' :: [] =>
    by_cases hkey : key' = key
    · -- the old value comes first
      rw [value_cons, hkey, hold]
      rfl
    · rw [under, if_neg hkey, Option.or_none]
  | key' :: key'' :: path =>
    rw [under, if_neg (List.cons_ne_nil _ _), ite_self, Option.or_none]

/-- A new child is found with its key. -/
theorem Merged.link (hwf : h.WellFormed P) (hdest : dest < h.size)
    (hnew : h.find dest key = none) (hP : P key val) :
    h.Merged P (h.link dest key val) dest
      (under key fun path => if path = [] then some val else none) := by
  have hwf' := hwf.link hdest hnew hP
  have hnode : ∀ {a}, a < h.size → a ≠ dest → (h.link dest key val).node a = h.node a :=
    fun ha hne => (if_neg ha.ne).trans (if_neg hne)
  refine ⟨hwf', grows_link, fun ha hb => hnode ha fun heq => hb (heq ▸ .refl), fun path => ?_⟩
  cases path with
  | nil =>
    rw [value_nil, value_nil, grows_link.val hdest]
    rfl
  | cons key' path =>
    rw [value_cons, value_cons, under]
    cases hf : h.find dest key' with
    | some c =>
      have hne : key' ≠ key := fun heq => by simp [← heq, hf] at hnew
      have hlt := hwf.lt (hwf.find_eq_some_iff.mp hf).1
      rw [grows_link.find hwf hwf' hf, if_neg hne, Option.or_none]
      -- the nodes below an old child are others than the one that got the new child
      refine value_congr (fun b hb => ?_) path
      have hle := hwf.le_of_below hb
      exact hnode (hwf.lt_of_below hlt.2 hb) (by omega)
    | none =>
      by_cases hkey : key' = key
      · -- the new child, which has no children yet
        have hfind : (h.link dest key val).find dest key' = some h.size := by
          refine hwf'.find_eq_some_iff.mpr ⟨(mem_child_link hwf hdest).mpr (.inr ⟨rfl, rfl⟩), ?_⟩
          rw [node_link_size, hkey]
        rw [hfind, if_pos hkey]
        cases path with
        | nil => simp
        | cons key'' path => simp [value_cons, Forest.find]
      · have hfind : (h.link dest key val).find dest key' = none := by
          refine find_eq_none_iff.mpr fun c hc => ?_
          rcases (mem_child_link hwf hdest).mp hc with hc | ⟨-, rfl⟩
          · rw [grows_link.key (hwf.lt hc).2]
            exact find_eq_none_iff.mp hf c hc
          · rw [node_link_size]
            exact fun heq => hkey heq.symm
        rw [hfind, if_neg hkey]
        rfl

/-- To merge into a child of a node is to merge into the node. -/
theorem Merged.child (hwf : h.WellFormed P) (hc : c ∈ (h.node dest).child)
    (hm : h.Merged P h' c f) : h.Merged P h' dest (under (h.node c).key f) := by
  have hlt := hwf.lt hc
  have hdest : h'.node dest = h.node dest :=
    hm.frame (hlt.1.trans hlt.2) fun hb => absurd (hwf.le_of_below hb) (not_le.mpr hlt.1)
  have hfind : ∀ key, h'.find dest key = h.find dest key := by
    intro key
    rw [Forest.find, Forest.find, hdest]
    refine List.find?_congr fun b hb => ?_
    rw [hm.grows.key (hwf.lt hb).2]
  refine ⟨hm.wf, hm.grows, fun ha hb => hm.frame ha fun h => hb (.head hc h), fun path => ?_⟩
  cases path with
  | nil =>
    rw [value_nil, value_nil, hdest]
    rfl
  | cons key path =>
    rw [value_cons, value_cons, hfind, under]
    by_cases hkey : key = (h.node c).key
    · have hsome : h.find dest key = some c := hwf.find_eq_some_iff.mpr ⟨hc, hkey.symm⟩
      rw [hsome, if_pos hkey]
      exact hm.value path
    · rw [if_neg hkey, Option.or_none]
      cases hf : h.find dest key with
      | none => rfl
      | some c' =>
        obtain ⟨hc', hkey'⟩ := hwf.find_eq_some_iff.mp hf
        -- the tree of another child is left as it is
        refine value_congr (fun b hb => ?_) path
        refine hm.frame (hwf.lt_of_below (hwf.lt hc').2 hb) fun hcb => hkey ?_
        rw [hwf.eq_of_siblings hc hc' hcb hb, hkey']

end

end Forest
