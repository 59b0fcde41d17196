import Mathlib

/-!
# Red-black trees

Search trees that are kept in balance as their nodes are linked: a node goes to the end of its
search, as a red leaf, and the tree is recolored and rotated upwards from there.  A path is what the
pointers to the parents give, from a hole in the tree to the root.

* `toList_insertColor`: recoloring and rotating keep the order of the entries.
* `balanced_insertColor`: they restore the balance.
* `add_spec`: an entry is added unless its key is there.
* `find_addAll`: of the entries with one key, the first is found.
-/

/-- The color of a node. -/
inductive RbColor where
  | red
  | black
  deriving DecidableEq

/-- A tree with an entry at each node. -/
inductive RbTree (α : Type) where
  | leaf
  | node (color : RbColor) (left : RbTree α) (entry : α) (right : RbTree α)
  deriving DecidableEq

namespace RbTree

variable {α κ : Type}

/-- The entries from left to right. -/
def toList : RbTree α → List α
  | leaf => []
  | node _ left entry right => left.toList ++ entry :: right.toList

/-- The root is red; a leaf is not. -/
def isRed : RbTree α → Bool
  | leaf => false
  | node color _ _ _ => color = .red

/-- The root is colored black. -/
def setBlack : RbTree α → RbTree α
  | leaf => leaf
  | node _ left entry right => node .black left entry right

/-- The right child becomes the root; there has to be one. -/
def rotateLeft : RbTree α → Option (RbTree α)
  | node color left entry (node color' left' entry' right') =>
    some (node color' (node color left entry left') entry' right')
  | _ => none

/-- The left child becomes the root; there has to be one. -/
def rotateRight : RbTree α → Option (RbTree α)
  | node color (node color' left' entry' right') entry right =>
    some (node color' left' entry' (node color right' entry right))
  | _ => none

/-! ## Paths -/

/-- One of the two children of a node. -/
inductive Side where
  | left
  | right
  deriving DecidableEq

/-- A node on the way to the root: the side from which it was reached, and its other child. -/
structure Frame (α : Type) where
  side : Side
  color : RbColor
  entry : α
  sibling : RbTree α

/-- A node, with a tree at the side from which it was reached. -/
def Frame.fill (f : Frame α) (t : RbTree α) : RbTree α :=
  match f.side with
  | .left => node f.color t f.entry f.sibling
  | .right => node f.color f.sibling f.entry t

/-- A whole tree, with a tree in the hole that the path leads to; the closest node comes first. -/
def fill (t : RbTree α) (path : List (Frame α)) : RbTree α := path.foldl (fun t f => f.fill t) t

/-! ## Insertion -/

/-- The parent of a red tree, turned below it if the two are not on one side. -/
def straighten (side : Side) (t : RbTree α) (parent : Frame α) : Option (RbTree α) :=
  if parent.side = side then some (parent.fill t)
  else match side with
    | .left => rotateLeft (parent.fill t)
    | .right => rotateRight (parent.fill t)

/-- A red tree below a red node: the node above them becomes a red child of the upper one. -/
def turn (t : RbTree α) (parent gparent : Frame α) : Option (RbTree α) :=
  match gparent.side with
  | .left => (straighten .left t parent).bind fun top =>
    rotateRight (node .red top.setBlack gparent.entry gparent.sibling)
  | .right => (straighten .right t parent).bind fun top =>
    rotateLeft (node .red gparent.sibling gparent.entry top.setBlack)

/-- Recolor and rotate upwards from a red node; at last the root is black.  A red node above
another one has to have a parent. -/
def insertColor : RbTree α → List (Frame α) → Option (RbTree α)
  | t, [] => some t.setBlack
  | t, [parent] => if parent.color = .black then some (parent.fill t).setBlack else none
  | t, parent :: gparent :: path =>
    if parent.color = .black then some (fill t (parent :: gparent :: path)).setBlack
    else if gparent.sibling.isRed then
      let gparent' := { gparent with color := .red, sibling := gparent.sibling.setBlack }
      insertColor (gparent'.fill (parent.fill t).setBlack) path
    else (turn t parent gparent).map fun t => (fill t path).setBlack

section

variable [Ord κ] (key : α → κ)

/-- Go down to the place of a key; `none` if a node has the key. -/
def descend (k : κ) : RbTree α → List (Frame α) → Option (List (Frame α))
  | leaf, path => some path
  | node color left entry right, path =>
    match compare k (key entry) with
    | .lt => descend k left (⟨.left, color, entry, right⟩ :: path)
    | .gt => descend k right (⟨.right, color, entry, left⟩ :: path)
    | .eq => none

/-- Link a new node, unless there is one with its key. -/
def add (entry : α) (t : RbTree α) : Option (RbTree α) :=
  match descend key (key entry) t [] with
  | none => some t
  | some path => insertColor (node .red leaf entry leaf) path

/-- Link the entries of a list, one after the other. -/
def addAll (entries : List α) : Option (RbTree α) :=
  entries.foldlM (fun t entry => add key entry t) leaf

/-- The entry with a key. -/
def find (k : κ) : RbTree α → Option α
  | leaf => none
  | node _ left entry right =>
    match compare k (key entry) with
    | .lt => find k left
    | .gt => find k right
    | .eq => some entry

end

/-! ## The order of the entries -/

/-- The entries on a path before its hole. -/
def before : List (Frame α) → List α
  | [] => []
  | ⟨.left, _, _, _⟩ :: path => before path
  | ⟨.right, _, entry, sibling⟩ :: path => before path ++ (sibling.toList ++ [entry])

/-- The entries on a path behind its hole. -/
def after : List (Frame α) → List α
  | [] => []
  | ⟨.left, _, entry, sibling⟩ :: path => entry :: sibling.toList ++ after path
  | ⟨.right, _, _, _⟩ :: path => after path

section

variable {t t' : RbTree α} {f parent gparent : Frame α} {path : List (Frame α)}

@[simp] theorem toList_leaf : (leaf : RbTree α).toList = [] := rfl

@[simp] theorem toList_node {c : RbColor} {l r : RbTree α} {e : α} :
    (node c l e r).toList = l.toList ++ e :: r.toList := rfl

/-- Another colour of the root keeps the elements. -/
@[simp] theorem toList_setBlack : t.setBlack.toList = t.toList := by
  cases t <;> rfl

/-- The root is black then. -/
@[simp] theorem isRed_setBlack : t.setBlack.isRed = false := by
  cases t <;> rfl

/-- A rotation to the left keeps the elements and their order. -/
theorem toList_rotateLeft (h : rotateLeft t = some t') : t'.toList = t.toList := by
  match t, h with
  | node c l e (node c' l' e' r'), h =>
    obtain rfl := Option.some.inj h
    simp

/-- A rotation to the right keeps the elements and their order. -/
theorem toList_rotateRight (h : rotateRight t = some t') : t'.toList = t.toList := by
  match t, h with
  | node c (node c' l' e' r') e r, h =>
    obtain rfl := Option.some.inj h
    simp

/-- The elements of a tree in its place: those before, its own, those after. -/
theorem toList_fill : (fill t path).toList = before path ++ t.toList ++ after path := by
  induction path generalizing t with
  | nil => simp [fill, before, after]
  | cons f path ih =>
    obtain ⟨side, c, e, s⟩ := f
    refine ih.trans ?_
    cases side <;> simp [Frame.fill, before, after]

/-- A path is not longer than the tree. -/
theorem length_le_toList_fill : path.length + t.toList.length ≤ (fill t path).toList.length := by
  induction path generalizing t with
  | nil => exact (Nat.zero_add _).le
  | cons f path ih =>
    obtain ⟨side, c, e, s⟩ := f
    have hstep : t.toList.length + 1 ≤ (Frame.fill ⟨side, c, e, s⟩ t).toList.length := by
      cases side <;> simp only [Frame.fill, toList_node, List.length_append, List.length_cons] <;>
        omega
    have hpath : path.length + (Frame.fill ⟨side, c, e, s⟩ t).toList.length ≤
        (fill (Frame.fill ⟨side, c, e, s⟩ t) path).toList.length := ih
    rw [List.length_cons]
    exact le_trans (by omega) hpath

/-- What is in the hole counts only with its entries. -/
theorem toList_fill_congr (h : t'.toList = t.toList) :
    (fill t' path).toList = (fill t path).toList := by
  rw [toList_fill, toList_fill, h]

/-- Rotating out an inner node keeps the elements. -/
theorem toList_straighten {side : Side} (h : straighten side t parent = some t') :
    t'.toList = (parent.fill t).toList := by
  unfold straighten at h
  split_ifs at h
  · rw [Option.some.inj h]
  · cases side with
    | left => exact toList_rotateLeft h
    | right => exact toList_rotateRight h

/-- The rotation at the grandparent keeps the elements. -/
theorem toList_turn (h : turn t parent gparent = some t') :
    t'.toList = (gparent.fill (parent.fill t)).toList := by
  obtain ⟨side, c, e, s⟩ := gparent
  cases side with
  | left =>
    obtain ⟨top, htop, h⟩ := Option.bind_eq_some_iff.mp h
    rw [toList_rotateRight h]
    simp [Frame.fill, toList_straighten htop]
  | right =>
    obtain ⟨top, htop, h⟩ := Option.bind_eq_some_iff.mp h
    rw [toList_rotateLeft h]
    simp [Frame.fill, toList_straighten htop]

/-- Recoloring and rotating keep the order of the entries. -/
theorem toList_insertColor (h : insertColor t path = some t') :
    t'.toList = (fill t path).toList := by
  induction t, path using insertColor.induct with
  | case1 t =>
    obtain rfl := Option.some.inj h
    exact toList_setBlack
  | case2 t parent hblack =>
    rw [insertColor, if_pos hblack] at h
    obtain rfl := Option.some.inj h
    exact toList_setBlack
  | case3 t parent hred =>
    rw [insertColor, if_neg hred] at h
    cases h
  | case4 t parent gparent path hblack =>
    rw [insertColor, if_pos hblack] at h
    obtain rfl := Option.some.inj h
    exact toList_setBlack
  | case5 t parent gparent path hred huncle gparent' ih =>
    -- two red children: their colors change, their places do not
    rw [insertColor, if_neg hred, if_pos huncle] at h
    rw [ih h]
    refine toList_fill_congr (t := gparent.fill (parent.fill t)) ?_
    obtain ⟨side, c, e, s⟩ := gparent
    cases side <;> simp [gparent', Frame.fill]
  | case6 t parent gparent path hred huncle =>
    rw [insertColor, if_neg hred, if_neg huncle] at h
    obtain ⟨t'', hturn, rfl⟩ := Option.map_eq_some_iff.mp h
    rw [toList_setBlack]
    exact toList_fill_congr (toList_turn hturn)

/-- After the colours are mended the root is black. -/
theorem isRed_insertColor (h : insertColor t path = some t') : t'.isRed = false := by
  induction t, path using insertColor.induct with
  | case1 t =>
    obtain rfl := Option.some.inj h
    exact isRed_setBlack
  | case2 t parent hblack =>
    rw [insertColor, if_pos hblack] at h
    obtain rfl := Option.some.inj h
    exact isRed_setBlack
  | case3 t parent hred =>
    rw [insertColor, if_neg hred] at h
    cases h
  | case4 t parent gparent path hblack =>
    rw [insertColor, if_pos hblack] at h
    obtain rfl := Option.some.inj h
    exact isRed_setBlack
  | case5 t parent gparent path hred huncle gparent' ih =>
    rw [insertColor, if_neg hred, if_pos huncle] at h
    exact ih h
  | case6 t parent gparent path hred huncle =>
    rw [insertColor, if_neg hred, if_neg huncle] at h
    obtain ⟨t'', hturn, rfl⟩ := Option.map_eq_some_iff.mp h
    exact isRed_setBlack

/-- The rotations have the children that they need. -/
theorem exists_turn (ht : t ≠ leaf) : ∃ t', turn t parent gparent = some t' := by
  obtain ⟨side, c, e, s⟩ := gparent
  obtain ⟨side', c', e', s'⟩ := parent
  cases t with
  | leaf => exact absurd rfl ht
  | node => cases side <;> cases side' <;> exact ⟨_, rfl⟩

/-- A frame has a node at least. -/
theorem fill_ne_leaf : f.fill t ≠ leaf := by
  rw [Frame.fill]
  split <;> exact nofun

/-- A root that is not red is enough for the parents that are needed. -/
theorem exists_insertColor (ht : t ≠ leaf) (h : ∀ f ∈ path.getLast?, f.color = .black) :
    ∃ t', insertColor t path = some t' := by
  induction t, path using insertColor.induct with
  | case1 t => exact ⟨_, rfl⟩
  | case2 t parent hblack => exact ⟨_, by rw [insertColor, if_pos hblack]⟩
  -- a red root cannot be the last node of the path
  | case3 t parent hred => exact absurd (h parent rfl) hred
  | case4 t parent gparent path hblack => exact ⟨_, by rw [insertColor, if_pos hblack]⟩
  | case5 t parent gparent path hred huncle gparent' ih =>
    rw [insertColor, if_neg hred, if_pos huncle]
    refine ih fill_ne_leaf fun f hf => h f ?_
    -- without the two nodes that are left behind, the path has the same end
    cases path with
    | nil => cases hf
    | cons g path => simpa using hf
  | case6 t parent gparent path hred huncle =>
    obtain ⟨t', hturn⟩ : ∃ t', turn t parent gparent = some t' := exists_turn ht
    exact ⟨(fill t' path).setBlack, by
      rw [insertColor, if_neg hred, if_neg huncle, hturn, Option.map_some]⟩

/-- The color of the root is that of the last node of a path. -/
theorem isRed_fill : ∀ {path : List (Frame α)} {t : RbTree α}, (fill t path).isRed = false →
    ∀ f ∈ path.getLast?, f.color = .black := by
  intro path t h f hf
  obtain ⟨front, rfl⟩ := List.getLast?_eq_some_iff.mp hf
  -- the last node of the path is filled last, so that it is the root
  rw [fill, List.foldl_append] at h
  change (f.fill _).isRed = false at h
  rw [Frame.fill] at h
  cases hc : f.color with
  | black => rfl
  | red =>
    rw [hc] at h
    split at h <;> cases h

end

/-! ## The balance -/

/-- No red node has a red child. -/
def NoRedRed : RbTree α → Prop
  | leaf => True
  | node color left _ right =>
    (color = .red → left.isRed = false ∧ right.isRed = false) ∧ NoRedRed left ∧ NoRedRed right

/-- What a node of a color counts among the black nodes. -/
def weight : RbColor → ℕ
  | .red => 0
  | .black => 1

/-- Every way from the root to a leaf meets the given number of black nodes. -/
def BlackHeight : RbTree α → ℕ → Prop
  | leaf, n => n = 0
  | node color left _ right, n =>
    ∃ m, n = weight color + m ∧ BlackHeight left m ∧ BlackHeight right m

/-- A red-black tree. -/
structure RedBlack (t : RbTree α) : Prop where
  black : t.isRed = false
  noRedRed : NoRedRed t
  blackHeight : ∃ n, BlackHeight t n

section

variable {t t' : RbTree α} {f parent gparent : Frame α} {path : List (Frame α)} {n : ℕ}

/-- There are two colours only. -/
theorem eq_red_of_ne_black {color : RbColor} (h : color ≠ .black) : color = .red := by
  cases color with
  | red => rfl
  | black => exact absurd rfl h

/-- The empty tree is red-black. -/
theorem redBlack_leaf : RedBlack (leaf : RbTree α) := ⟨rfl, trivial, 0, rfl⟩

/-- The root of a frame has the frame's colour. -/
theorem isRed_frame : (f.fill t).isRed = decide (f.color = .red) := by
  obtain ⟨side, c, e, s⟩ := f
  cases side <;> rfl

/-- A frame without a red child of a red node, by its parts. -/
theorem noRedRed_frame : NoRedRed (f.fill t) ↔
    (f.color = .red → t.isRed = false ∧ f.sibling.isRed = false) ∧
      NoRedRed t ∧ NoRedRed f.sibling := by
  obtain ⟨side, c, e, s⟩ := f
  cases side with
  | left => rfl
  | right =>
    simp only [Frame.fill, NoRedRed]
    tauto

/-- The black height of a frame, by its parts. -/
theorem blackHeight_frame : BlackHeight (f.fill t) n ↔
    ∃ m, n = weight f.color + m ∧ BlackHeight t m ∧ BlackHeight f.sibling m := by
  obtain ⟨side, c, e, s⟩ := f
  cases side with
  | left => rfl
  | right =>
    simp only [Frame.fill, BlackHeight]
    exact exists_congr fun m => and_congr_right fun _ => and_comm

/-- Blackening a frame. -/
theorem setBlack_frame : (f.fill t).setBlack = { f with color := .black }.fill t := by
  obtain ⟨side, c, e, s⟩ := f
  cases side <;> rfl

/-- A black root forms no red pair. -/
theorem NoRedRed.setBlack (h : NoRedRed t) : NoRedRed t.setBlack := by
  cases t with
  | leaf => trivial
  | node => exact ⟨nofun, h.2⟩

/-- With a black root the tree still has a black height. -/
theorem BlackHeight.setBlack (h : BlackHeight t n) : ∃ n, BlackHeight t.setBlack n := by
  cases t with
  | leaf => exact ⟨n, h⟩
  | node =>
    obtain ⟨m, -, h⟩ := h
    exact ⟨_, m, rfl, h⟩

/-- A red tree whose root becomes black. -/
theorem BlackHeight.setBlack_of_isRed (h : BlackHeight t n) (hred : t.isRed = true) :
    BlackHeight t.setBlack (1 + n) := by
  match t, hred with
  | node .red l e r, _ =>
    obtain ⟨m, rfl, h⟩ := h
    exact ⟨_, by simp [weight], h⟩

/-- What is in the hole counts with its own nodes, and with its root below the path. -/
theorem noRedRed_fill : NoRedRed (fill t path) ↔
    NoRedRed t ∧ (t.isRed = true → ∀ f ∈ path.head?, f.color = .black) ∧
      NoRedRed (fill leaf path) := by
  induction path generalizing t with
  | nil => simp [fill, NoRedRed]
  | cons f path ih =>
    change NoRedRed (fill (f.fill t) path) ↔ _ ∧ _ ∧ NoRedRed (fill (f.fill leaf) path)
    rw [ih, ih (t := f.fill leaf), noRedRed_frame, noRedRed_frame, isRed_frame, isRed_frame]
    have hleaf : (leaf : RbTree α).isRed = false := rfl
    cases hc : f.color <;> simp [hc, hleaf, NoRedRed] <;> tauto

/-- A tree in the hole can be replaced by one of the same height. -/
theorem BlackHeight.hole (h : BlackHeight (fill t path) n) :
    ∃ m, BlackHeight t m ∧ ∀ t', BlackHeight t' m → BlackHeight (fill t' path) n := by
  induction path generalizing t with
  | nil => exact ⟨n, h, fun t' h' => h'⟩
  | cons f path ih =>
    obtain ⟨m, hm, hpath⟩ := ih h
    obtain ⟨m', rfl, ht, hs⟩ := blackHeight_frame.mp hm
    exact ⟨m', ht, fun t' h' => hpath _ (blackHeight_frame.mpr ⟨m', rfl, h', hs⟩)⟩

/-- A turn takes the two red nodes apart, and keeps the height. -/
theorem turn_balanced (h : turn t parent gparent = some t') (ht : t.isRed = true)
    (hparent : parent.color = .red) (hnored : NoRedRed t)
    (hpath : NoRedRed (gparent.fill (parent.fill leaf))) (huncle : gparent.sibling.isRed = false)
    (hn : BlackHeight (gparent.fill (parent.fill t)) n) :
    t'.isRed = false ∧ NoRedRed t' ∧ BlackHeight t' n := by
  obtain ⟨side, c, e, s⟩ := parent
  obtain ⟨side', c', e', s'⟩ := gparent
  match t, ht with
  | node .red l a r, _ =>
    obtain rfl : c = .red := hparent
    -- the upper node is black, since the lower one is red
    obtain rfl : c' = .black := by
      cases c' with
      | black => rfl
      | red =>
        rw [noRedRed_frame, isRed_frame] at hpath
        simpa using (hpath.1 rfl).1
    simp only [noRedRed_frame, NoRedRed, blackHeight_frame, BlackHeight, weight,
      reduceCtorEq, forall_const, true_and, false_implies] at hpath hnored hn huncle
    obtain ⟨m, rfl, ⟨_, rfl, ⟨_, rfl, hl, hr⟩, hs⟩, hs'⟩ := hn
    simp only [Nat.zero_add] at hl hr hs hs' ⊢
    cases side <;> cases side' <;>
      · obtain rfl := Option.some.inj h
        simp_all [NoRedRed, BlackHeight, weight, isRed]

/-- Recoloring and rotating restore the balance above a red node. -/
theorem balanced_insertColor (h : insertColor t path = some t') (ht : t.isRed = true)
    (hnored : NoRedRed t) (hpath : NoRedRed (fill leaf path)) (hn : BlackHeight (fill t path) n) :
    NoRedRed t' ∧ ∃ n, BlackHeight t' n := by
  induction t, path using insertColor.induct with
  | case1 t =>
    obtain rfl := Option.some.inj h
    exact ⟨hnored.setBlack, hn.setBlack⟩
  | case2 t parent hblack =>
    rw [insertColor, if_pos hblack] at h
    obtain rfl := Option.some.inj h
    refine ⟨NoRedRed.setBlack ?_, hn.setBlack⟩
    exact noRedRed_fill.mpr ⟨hnored, fun _ f hf => by simp_all, hpath⟩
  | case3 t parent hred =>
    rw [insertColor, if_neg hred] at h
    cases h
  | case4 t parent gparent path hblack =>
    rw [insertColor, if_pos hblack] at h
    obtain rfl := Option.some.inj h
    refine ⟨NoRedRed.setBlack ?_, hn.setBlack⟩
    exact noRedRed_fill.mpr ⟨hnored, fun _ f hf => by simp_all, hpath⟩
  | case5 t parent gparent path hred huncle gparent' ih =>
    rw [insertColor, if_neg hred, if_pos huncle] at h
    have hparent := eq_red_of_ne_black hred
    -- the path above the two nodes, and what they have beside the hole
    obtain ⟨hfront, -, hrest⟩ := (noRedRed_fill (t := gparent.fill (parent.fill leaf))).mp hpath
    rw [noRedRed_frame, noRedRed_frame, isRed_frame, hparent] at hfront
    obtain ⟨hcolor, ⟨-, -, hsibling⟩, huncle'⟩ := hfront
    have hgparent : gparent.color = .black := by
      cases hc : gparent.color with
      | black => rfl
      | red => simpa using (hcolor hc).1
    obtain ⟨m, hm, hhole⟩ := BlackHeight.hole (t := gparent.fill (parent.fill t)) hn
    refine ih h (isRed_frame.trans (decide_eq_true rfl)) ?_ hrest (hhole _ ?_)
    · refine noRedRed_frame.mpr ⟨fun _ => ⟨isRed_setBlack, isRed_setBlack⟩, ?_, huncle'.setBlack⟩
      rw [setBlack_frame]
      exact noRedRed_frame.mpr ⟨nofun, hnored, hsibling⟩
    · -- the black node of the upper one goes down to its two children
      obtain ⟨k, rfl, hk, hkuncle⟩ := blackHeight_frame.mp hm
      have hkparent := hk.setBlack_of_isRed (isRed_frame.trans (decide_eq_true hparent))
      rw [hgparent]
      exact blackHeight_frame.mpr ⟨1 + k, (Nat.zero_add _).symm, hkparent,
        hkuncle.setBlack_of_isRed huncle⟩
  | case6 t parent gparent path hred huncle =>
    rw [insertColor, if_neg hred, if_neg huncle] at h
    obtain ⟨t'', hturn, rfl⟩ := Option.map_eq_some_iff.mp h
    have hparent := eq_red_of_ne_black hred
    obtain ⟨hfront, -, hrest⟩ := (noRedRed_fill (t := gparent.fill (parent.fill leaf))).mp hpath
    obtain ⟨m, hm, hhole⟩ := BlackHeight.hole (t := gparent.fill (parent.fill t)) hn
    obtain ⟨hblack, hnored'', hm''⟩ := turn_balanced hturn ht hparent hnored hfront
      (Bool.not_eq_true _ ▸ huncle) hm
    refine ⟨NoRedRed.setBlack (noRedRed_fill.mpr ⟨hnored'', ?_, hrest⟩), (hhole _ hm'').setBlack⟩
    intro hred''
    rw [hblack] at hred''
    cases hred''

end

/-! ## Searching -/

section

variable [Ord κ] {key : α → κ} {t t' : RbTree α}
  {path path' : List (Frame α)} {k : κ} {a b entry : α}

variable (key) in
/-- The keys increase from left to right. -/
def Sorted (t : RbTree α) : Prop := t.toList.Pairwise fun a b => compare (key a) (key b) = .lt

variable (key) in
/-- A tree as it is between two insertions. -/
structure Valid (t : RbTree α) : Prop where
  black : t.isRed = false
  sorted : Sorted key t

/-- The empty tree is valid. -/
theorem valid_leaf : Valid key (leaf : RbTree α) := ⟨rfl, .nil⟩

/-- Of two keys in strict order neither is the other. -/
theorem compare_ne_eq [Std.LawfulEqOrd κ] (h : compare (key a) (key b) = .lt) :
    key a ≠ key b := by
  intro heq
  have hself : compare (key b) (key b) = .eq := Std.ReflCmp.compare_self
  rw [heq, hself] at h
  cases h

/-- A search that ends at no hole has met its key. -/
theorem exists_of_descend_eq_none [Std.LawfulEqOrd κ] (h : t.descend key k path = none) :
    ∃ a ∈ t.toList, key a = k := by
  induction t generalizing path with
  | leaf => cases h
  | node c l e r ihl ihr =>
    rw [descend] at h
    simp only [toList_node, List.mem_append, List.mem_cons]
    split at h
    · obtain ⟨a, ha, hk⟩ := ihl h
      exact ⟨a, .inl ha, hk⟩
    · obtain ⟨a, ha, hk⟩ := ihr h
      exact ⟨a, .inr (.inr ha), hk⟩
    · rename_i heq
      exact ⟨e, .inr (.inl rfl), (Std.LawfulEqCmp.eq_of_compare heq).symm⟩

variable [Std.TransOrd κ]

/-- A node is sorted just if its children are and lie on either side of its key. -/
theorem sorted_node {c : RbColor} {l r : RbTree α} {e : α} :
    Sorted key (node c l e r) ↔ Sorted key l ∧ Sorted key r ∧
      (∀ a ∈ l.toList, compare (key a) (key e) = .lt) ∧
      ∀ a ∈ r.toList, compare (key e) (key a) = .lt := by
  simp only [Sorted, toList_node, List.pairwise_append, List.pairwise_cons, List.mem_cons]
  constructor
  · rintro ⟨hl, ⟨her, hr⟩, hlr⟩
    exact ⟨hl, hr, fun a ha => hlr a ha e (.inl rfl), her⟩
  · rintro ⟨hl, hr, hle, her⟩
    refine ⟨hl, ⟨her, hr⟩, fun a ha b hb => ?_⟩
    rcases hb with rfl | hb
    · exact hle a ha
    · exact Std.TransCmp.lt_trans (hle a ha) (her b hb)

/-- A search that ends at a hole has the smaller keys before it and the larger ones behind it. -/
theorem descend_eq_some (h : t.descend key k path = some path') (ht : Sorted key t)
    (hbefore : ∀ a ∈ before path, compare (key a) k = .lt)
    (hafter : ∀ a ∈ after path, compare k (key a) = .lt) :
    fill leaf path' = fill t path ∧ (∀ a ∈ before path', compare (key a) k = .lt) ∧
      ∀ a ∈ after path', compare k (key a) = .lt := by
  induction t generalizing path with
  | leaf =>
    obtain rfl := Option.some.inj h
    exact ⟨rfl, hbefore, hafter⟩
  | node c l e r ihl ihr =>
    obtain ⟨hl, hr, hle, her⟩ := sorted_node.mp ht
    rw [descend] at h
    split at h
    · rename_i hlt
      -- to the left: the node and what is right of it come behind the hole
      refine ihl h hl hbefore fun a ha => ?_
      rcases List.mem_cons.mp ha with rfl | ha
      · exact hlt
      · rcases List.mem_append.mp ha with ha | ha
        · exact Std.TransCmp.lt_trans hlt (her a ha)
        · exact hafter a ha
    · rename_i hgt
      have hlt := Std.OrientedCmp.gt_iff_lt.mp hgt
      -- to the right: the node and what is left of it come before the hole
      refine ihr h hr (fun a ha => ?_) hafter
      rcases List.mem_append.mp ha with ha | ha
      · exact hbefore a ha
      · rcases List.mem_append.mp ha with ha | ha
        · exact Std.TransCmp.lt_trans (hle a ha) hlt
        · obtain rfl := List.mem_singleton.mp ha
          exact hlt
    · cases h

/-- A new node comes between the smaller and the larger entries. -/
theorem toList_of_descend (hd : t.descend key (key entry) [] = some path) (ht : Sorted key t) :
    fill leaf path = t ∧ t.toList = before path ++ after path ∧
      (∀ a ∈ before path, compare (key a) (key entry) = .lt) ∧
      (∀ a ∈ after path, compare (key entry) (key a) = .lt) ∧
      ∀ t', insertColor (node .red leaf entry leaf) path = some t' →
        t'.toList = before path ++ entry :: after path := by
  obtain ⟨hfill, hbefore, hafter⟩ := descend_eq_some hd ht (by simp [before]) (by simp [after])
  change fill leaf path = t at hfill
  refine ⟨hfill, ?_, hbefore, hafter, fun t' ht' => ?_⟩
  · rw [← hfill, toList_fill]
    simp
  · rw [toList_insertColor ht', toList_fill]
    simp

/-- There is at most one entry more. -/
theorem length_add_le (ht : Sorted key t) (hadd : add key entry t = some t') :
    t'.toList.length ≤ t.toList.length + 1 := by
  rw [add] at hadd
  cases hd : t.descend key (key entry) [] with
  | none =>
    rw [hd] at hadd
    obtain rfl := Option.some.inj hadd
    exact Nat.le_succ _
  | some path =>
    rw [hd] at hadd
    obtain ⟨-, hold, -, -, hnew⟩ := toList_of_descend hd ht
    rw [hold, hnew t' hadd, List.length_append, List.length_append, List.length_cons]
    omega

variable [Std.LawfulEqOrd κ]

/-- In a sorted tree a search finds just the element with the key. -/
theorem Sorted.find_eq_some_iff (h : Sorted key t) :
    t.find key k = some a ↔ a ∈ t.toList ∧ key a = k := by
  induction t with
  | leaf => simp [find]
  | node c l e r ihl ihr =>
    obtain ⟨hl, hr, hle, her⟩ := sorted_node.mp h
    rw [find, toList_node, List.mem_append, List.mem_cons]
    -- by where the key is, relative to that of the root
    split
    · rename_i hlt
      rw [ihl hl]
      constructor
      · exact fun ⟨ha, hk⟩ => ⟨.inl ha, hk⟩
      · rintro ⟨ha | rfl | ha, rfl⟩
        · exact ⟨ha, rfl⟩
        · exact absurd rfl (compare_ne_eq hlt)
        · exact absurd rfl (compare_ne_eq (Std.TransCmp.lt_trans hlt (her a ha)))
    · rename_i hgt
      have hlt := Std.OrientedCmp.gt_iff_lt.mp hgt
      rw [ihr hr]
      constructor
      · exact fun ⟨ha, hk⟩ => ⟨.inr (.inr ha), hk⟩
      · rintro ⟨ha | rfl | ha, rfl⟩
        · exact absurd rfl (compare_ne_eq (Std.TransCmp.lt_trans (hle a ha) hlt))
        · exact absurd rfl (compare_ne_eq hlt)
        · exact ⟨ha, rfl⟩
    · rename_i heq
      obtain rfl := Std.LawfulEqCmp.eq_of_compare heq
      constructor
      · intro ha
        obtain rfl := Option.some.inj ha
        exact ⟨.inr (.inl rfl), rfl⟩
      · rintro ⟨ha | rfl | ha, hk⟩
        · exact absurd hk (compare_ne_eq (hle a ha))
        · rfl
        · exact absurd hk.symm (compare_ne_eq (her a ha))

/-! ## Adding entries -/

/-- An entry is added unless its key is there. -/
theorem add_spec (h : Valid key t) (entry : α) : ∃ t', add key entry t = some t' ∧ Valid key t' ∧
    ∀ a, a ∈ t'.toList ↔ a ∈ t.toList ∨ (a = entry ∧ ∀ b ∈ t.toList, key b ≠ key entry) := by
  rw [add]
  cases hd : t.descend key (key entry) [] with
  | none =>
    -- the key is there
    refine ⟨t, rfl, h, fun a => ?_⟩
    obtain ⟨b, hb, hkey⟩ := exists_of_descend_eq_none hd
    rw [or_iff_left]
    exact fun hnot => hnot.2 b hb hkey
  | some path =>
    obtain ⟨hfill, hold, hbefore, hafter, hlist⟩ := toList_of_descend hd h.sorted
    have hblack : ∀ f ∈ path.getLast?, f.color = .black := isRed_fill (t := leaf) (by
      rw [hfill]
      exact h.black)
    obtain ⟨t', ht'⟩ := exists_insertColor (t := node .red leaf entry leaf) nofun hblack
    have hnew := hlist t' ht'
    have hsorted := h.sorted
    rw [Sorted, hold, List.pairwise_append] at hsorted
    refine ⟨t', ht', ⟨isRed_insertColor ht', ?_⟩, fun a => ?_⟩
    · rw [Sorted, hnew, List.pairwise_append, List.pairwise_cons]
      refine ⟨hsorted.1, ⟨hafter, hsorted.2.1⟩, fun a ha b hb => ?_⟩
      rcases List.mem_cons.mp hb with rfl | hb
      · exact hbefore a ha
      · exact hsorted.2.2 a ha b hb
    · rw [hnew, hold, and_iff_left]
      · simp only [List.mem_append, List.mem_cons]
        tauto
      · intro b hb
        rcases List.mem_append.mp hb with hb | hb
        · exact compare_ne_eq (hbefore b hb)
        · exact (compare_ne_eq (hafter b hb)).symm

omit [Std.LawfulEqOrd κ] in
/-- The balance is kept. -/
theorem redBlack_add (h : RedBlack t) (hsorted : Sorted key t) (hadd : add key entry t = some t') :
    RedBlack t' := by
  rw [add] at hadd
  cases hd : t.descend key (key entry) [] with
  | none =>
    rw [hd] at hadd
    obtain rfl := Option.some.inj hadd
    exact h
  | some path =>
    rw [hd] at hadd
    obtain ⟨hfill, -⟩ := toList_of_descend hd hsorted
    -- a red leaf is as high as no node
    obtain ⟨n, hn⟩ := h.blackHeight
    rw [← hfill] at hn
    obtain ⟨m, rfl, hhole⟩ := hn.hole
    have hheight := hhole (node .red leaf entry leaf) ⟨0, rfl, rfl, rfl⟩
    obtain ⟨hnored, hheight'⟩ := balanced_insertColor hadd rfl
      ⟨fun _ => ⟨rfl, rfl⟩, trivial, trivial⟩ (hfill ▸ h.noRedRed) hheight
    exact ⟨isRed_insertColor hadd, hnored, hheight'⟩

variable [DecidableEq κ]

/-- After an insertion the old entry with a key is found, or else the new one. -/
theorem find_add (h : Valid key t) (hadd : add key entry t = some t') :
    Valid key t' ∧
      ∀ k, t'.find key k = (t.find key k).or (if key entry = k then some entry else none) := by
  obtain ⟨t'', ht'', hvalid, hmem⟩ := add_spec h entry
  obtain rfl := Option.some.inj (hadd.symm.trans ht'')
  refine ⟨hvalid, fun k => ?_⟩
  cases hold : t.find key k with
  | some b =>
    obtain ⟨hb, hk⟩ := h.sorted.find_eq_some_iff.mp hold
    rw [Option.some_or, hvalid.sorted.find_eq_some_iff, hmem]
    exact ⟨.inl hb, hk⟩
  | none =>
    have hno : ∀ b ∈ t.toList, key b ≠ k := by
      intro b hb hk
      rw [h.sorted.find_eq_some_iff.mpr ⟨hb, hk⟩] at hold
      cases hold
    rw [Option.none_or]
    -- among the entries with this key there is at most the new one
    split_ifs with hk
    · rw [hvalid.sorted.find_eq_some_iff, hmem]
      exact ⟨.inr ⟨rfl, fun b hb => hk ▸ hno b hb⟩, hk⟩
    · rw [Option.eq_none_iff_forall_ne_some]
      intro a ha
      obtain ⟨hmem', hka⟩ := hvalid.sorted.find_eq_some_iff.mp ha
      rcases (hmem a).mp hmem' with hmem' | ⟨rfl, -⟩
      · exact hno a hmem' hka
      · exact hk hka

variable (key) in
/-- Of the entries with one key, the first is found. -/
theorem find_addAll (entries : List α) : ∃ t, addAll key entries = some t ∧ Valid key t ∧
    ∀ k, t.find key k = entries.find? fun entry => key entry = k := by
  induction entries using List.reverseRecOn with
  | nil => exact ⟨leaf, rfl, valid_leaf, fun k => rfl⟩
  | append_singleton entries entry ih =>
    obtain ⟨t, ht, hvalid, hfind⟩ := ih
    obtain ⟨t', ht', -⟩ := add_spec hvalid entry
    obtain ⟨hvalid', hfind'⟩ := find_add hvalid ht'
    refine ⟨t', ?_, hvalid', fun k => ?_⟩
    · rw [addAll, List.foldlM_append, ← addAll, ht]
      simpa using ht'
    · rw [hfind', hfind, List.find?_append, List.find?_cons, List.find?_nil]
      split_ifs with hk <;> simp [hk]

end

end RbTree
