import AdxDsp.Lib.ParentTrees

/-!
# Deletion from red-black trees

A node with at most one child is taken out of its place; one with two children is taken over by the
next entry.  When a black node has gone, the tree at its place is too low, and it is recolored and
rotated upwards until a node is found that can make up for it.

* **The functions**: `deleteColor`, `delete`.
* `deleteColor_spec`: the heights are right again, and the entries are what they were.
* `delete_spec`: the entries without the one that is deleted, in a tree with the balance.
-/

namespace RbTree

open ParentTrees (other)

variable {α : Type}

/-! ## Deletion -/

/-- The root is colored red. -/
def setRed : RbTree α → RbTree α
  | leaf => leaf
  | node _ left entry right => node .red left entry right

/-- The two children of a node: that on a side, and the other one. -/
def children : Side → RbTree α → Option (RbTree α × RbColor × α × RbTree α)
  | _, leaf => none
  | .left, node color left entry right => some (left, color, entry, right)
  | .right, node color left entry right => some (right, color, entry, left)

/-- Behind a turn, a node is too low still, or all is done. -/
inductive Turn (α : Type) where
  | up (t : RbTree α)
  | done (t : RbTree α)

/-- The sibling of a tree with its outer child red, if one of its children is red: otherwise the
inner one comes up. -/
def outward (side : Side) (color : RbColor) (mid : RbTree α) (entry : α) (far : RbTree α) :
    Option (RbTree α × RbColor × α × RbTree α) :=
  if far.isRed then some (mid, color, entry, far)
  else (children side mid).map fun inner =>
    (inner.1, .black, inner.2.2.1, Frame.fill ⟨side, .red, entry, far⟩ inner.2.2.2)

/-- One turn at a tree that is too low, with a sibling that is black. -/
def deleteTurn (t : RbTree α) (parent : Frame α) : Option (Turn α) :=
  (children parent.side parent.sibling).bind fun sibling =>
    if sibling.1.isRed = false ∧ sibling.2.2.2.isRed = false then
      some (.up ({ parent with sibling := parent.sibling.setRed }.fill t))
    else
      (outward parent.side sibling.2.1 sibling.1 sibling.2.2.1 sibling.2.2.2).map fun top =>
        .done (Frame.fill ⟨parent.side, parent.color, top.2.2.1, top.2.2.2.setBlack⟩
          (Frame.fill ⟨parent.side, .black, parent.entry, top.1⟩ t))

/-- A red sibling comes up: the parent is red then, and has another sibling. -/
def lower (parent : Frame α) : Option (Frame α × Frame α) :=
  (children parent.side parent.sibling).map fun sibling =>
    (⟨parent.side, .red, parent.entry, sibling.1⟩,
      ⟨parent.side, .black, sibling.2.2.1, sibling.2.2.2⟩)

/-- Recolor and rotate upwards from a tree that is too low. -/
def deleteColor : RbTree α → List (Frame α) → Option (RbTree α)
  | t, [] => some t.setBlack
  | t, parent :: path =>
    if t.isRed then some (fill t.setBlack (parent :: path))
    else if parent.sibling.isRed then
      (lower parent).bind fun frames => (deleteTurn t frames.1).map fun
        | .up t => fill t.setBlack (frames.2 :: path)
        | .done t => (fill t (frames.2 :: path)).setBlack
    else (deleteTurn t parent).bind fun
      | .up t => deleteColor t path
      | .done t => some (fill t path).setBlack

/-- The first node of a tree: the path to it, its color, its entry, and what is right of it. -/
def leftmost : RbTree α → List (Frame α) → Option (List (Frame α) × RbColor × α × RbTree α)
  | leaf, _ => none
  | node color leaf entry right, path => some (path, color, entry, right)
  | node color left entry right, path => leftmost left (⟨.left, color, entry, right⟩ :: path)

/-- A node of a color has gone, and what was below it is in its place. -/
def splice (color : RbColor) (t : RbTree α) (path : List (Frame α)) : Option (RbTree α) :=
  if color = .black then deleteColor t path else some (fill t path)

/-- Delete the node at the end of a path. -/
def delete (path : List (Frame α)) (color : RbColor) : RbTree α → RbTree α → Option (RbTree α)
  | leaf, right => splice color right path
  | left, leaf => splice color left path
  | left, right => (leftmost right []).bind fun next =>
    splice next.2.1 next.2.2.2 (next.1 ++ ⟨.right, color, next.2.2.1, left⟩ :: path)

/-! ## The heights -/

/-- The height of a tree with a hole for a tree of another height. -/
def HoleHeight : List (Frame α) → ℕ → ℕ → Prop
  | [], m, n => m = n
  | f :: path, m, n => BlackHeight f.sibling m ∧ HoleHeight path (weight f.color + m) n

section

variable {t t' : RbTree α} {f parent : Frame α} {path inner : List (Frame α)} {m n : ℕ} {side : Side}
  {c : RbColor} {e e' : α} {l r near mid far : RbTree α}

/-- The black height of a tree in its place, by the hole and what fills it. -/
theorem blackHeight_fill : BlackHeight (fill t path) n ↔
    ∃ m, BlackHeight t m ∧ HoleHeight path m n := by
  induction path generalizing t with
  | nil => simp [fill, HoleHeight]
  | cons f path ih =>
    refine ih.trans ⟨?_, ?_⟩
    · rintro ⟨_, ht, hpath⟩
      obtain ⟨m, rfl, ht, hsibling⟩ := blackHeight_frame.mp ht
      exact ⟨m, ht, hsibling, hpath⟩
    · rintro ⟨m, ht, hsibling, hpath⟩
      exact ⟨_, blackHeight_frame.mpr ⟨m, rfl, ht, hsibling⟩, hpath⟩

/-- The color of the root above a path that has a node. -/
theorem isRed_fill_cons (h : ∀ g ∈ (f :: path).getLast?, g.color = .black) :
    (fill t (f :: path)).isRed = false := by
  induction path generalizing t f with
  | nil => exact isRed_frame.trans (by simp [h f rfl])
  | cons g path ih => exact ih fun x hx => h x (by simpa using hx)

/-- A tree that is not red stays as it is. -/
theorem setBlack_of_not_isRed (h : t.isRed = false) : t.setBlack = t := by
  match t, h with
  | leaf, _ => rfl
  | node .black l e r, _ => rfl

/-- The balance does not depend on an entry. -/
theorem RedBlack.entry (h : RedBlack (fill (node c l e r) path)) (e' : α) :
    RedBlack (fill (node c l e' r) path) := by
  obtain ⟨n, hn⟩ := h.blackHeight
  have hnored := noRedRed_fill.mp h.noRedRed
  have hheight := blackHeight_fill.mp hn
  refine ⟨?_, noRedRed_fill.mpr hnored, n, blackHeight_fill.mpr hheight⟩
  cases path with
  | nil => exact h.black
  | cons f path => exact isRed_fill_cons (isRed_fill h.black)

/-- A black frame forms no red pair of its own. -/
theorem noRedRed_frame_black {s : RbTree α} :
    NoRedRed (Frame.fill ⟨side, .black, e, s⟩ t) ↔ NoRedRed t ∧ NoRedRed s := by
  rw [noRedRed_frame]
  exact and_iff_right fun h => by cases h

/-! ## One turn -/

/-- The children of a frame. -/
@[simp] theorem children_frame : children side (Frame.fill ⟨side, c, e, far⟩ mid) =
    some (mid, c, e, far) := by
  cases side <;> rfl

/-- A tree with children is a frame. -/
theorem eq_frame_of_children (h : children side t = some (mid, c, e, far)) :
    t = Frame.fill ⟨side, c, e, far⟩ mid := by
  cases t with
  | leaf => cases side <;> cases h
  | node => cases side <;> cases h <;> rfl

/-- A tree that has black nodes has two children. -/
theorem exists_frame_of_height (h : BlackHeight t (m + 1)) (side : Side) :
    ∃ c e far mid, t = Frame.fill ⟨side, c, e, far⟩ mid := by
  cases t with
  | leaf => cases h
  | node c l e r =>
    cases side with
    | left => exact ⟨c, e, r, l, rfl⟩
    | right => exact ⟨c, e, l, r, rfl⟩

/-- Reddening a frame. -/
theorem setRed_frame : (f.fill t).setRed = { f with color := .red }.fill t := by
  obtain ⟨side, c, e, s⟩ := f
  cases side <;> rfl

/-- Another colour of the root keeps the elements. -/
theorem toList_setRed : t.setRed.toList = t.toList := by
  cases t <;> rfl

/-- The entries of a node that is turned downwards. -/
theorem toList_turned {c₁ c₂ c₃ c₄ : RbColor} :
    (Frame.fill ⟨side, c₁, e', far⟩ (Frame.fill ⟨side, c₂, e, mid⟩ near)).toList =
      (Frame.fill ⟨side, c₃, e, Frame.fill ⟨side, c₄, e', far⟩ mid⟩ near).toList := by
  cases side <;> simp [Frame.fill]

/-- A frame whose parts keep their elements keeps its own, whatever the colours are. -/
theorem toList_frame_congr (ht : t'.toList = t.toList) (hs : mid.toList = far.toList)
    {c₁ c₂ : RbColor} :
    (Frame.fill ⟨side, c₁, e, mid⟩ t').toList = (Frame.fill ⟨side, c₂, e, far⟩ t).toList := by
  cases side <;> simp [Frame.fill, ht, hs]

/-- The outer child is red after the inner one was rotated out. -/
theorem isRed_outward {top : RbTree α × RbColor × α × RbTree α}
    (h : outward side c mid e far = some top) : top.2.2.2.isRed = true := by
  rw [outward] at h
  split_ifs at h with hred
  · obtain rfl := Option.some.inj h
    exact hred
  · obtain ⟨inner, -, rfl⟩ := Option.map_eq_some_iff.mp h
    exact isRed_frame.trans (decide_eq_true rfl)

/-- The sibling has a red outer child behind it, and is as high as it was. -/
theorem outward_spec (hnored : NoRedRed (Frame.fill ⟨side, .black, e, far⟩ mid))
    (hm : BlackHeight mid m) (hf : BlackHeight far m)
    (hred : ¬ (mid.isRed = false ∧ far.isRed = false)) :
    ∃ mid' e' far', outward side .black mid e far = some (mid', .black, e', far') ∧
      (Frame.fill ⟨side, .black, e', far'⟩ mid').toList =
        (Frame.fill ⟨side, .black, e, far⟩ mid).toList ∧
      NoRedRed mid' ∧ NoRedRed far'.setBlack ∧ BlackHeight mid' m ∧
      BlackHeight far'.setBlack (1 + m) := by
  obtain ⟨-, hmid, hfar⟩ := noRedRed_frame.mp hnored
  rw [outward]
  cases hfr : far.isRed with
  | true => exact ⟨mid, e, far, rfl, rfl, hmid, hfar.setBlack, hm, hf.setBlack_of_isRed hfr⟩
  | false =>
    have hmr : mid.isRed = true := by
      cases h : mid.isRed with
      | true => rfl
      | false => exact absurd ⟨h, hfr⟩ hred
    -- the inner child is red, and its own children are not
    obtain ⟨c, e', b, a, rfl⟩ : ∃ c e' b a, mid = Frame.fill ⟨side, c, e', b⟩ a := by
      cases mid with
      | leaf => cases hmr
      | node c l e r => cases side <;> exact ⟨_, _, _, _, rfl⟩
    obtain rfl : c = .red := of_decide_eq_true (isRed_frame.symm.trans hmr)
    obtain ⟨-, hna, hnb⟩ := noRedRed_frame.mp hmid
    obtain ⟨k, rfl, hka, hkb⟩ := blackHeight_frame.mp hm
    simp only [weight, zero_add] at hka hkb hf hm ⊢
    have hsetBlack : (Frame.fill ⟨side, .red, e, far⟩ b).setBlack =
        Frame.fill ⟨side, .black, e, far⟩ b := setBlack_frame
    refine ⟨a, e', Frame.fill ⟨side, .red, e, far⟩ b, by simp, toList_turned.symm, hna, ?_, hka, ?_⟩
    · rw [hsetBlack]
      exact noRedRed_frame_black.mpr ⟨hnb, hfar⟩
    · rw [hsetBlack]
      exact blackHeight_frame.mpr ⟨k, rfl, hkb, hf⟩

/-- What a turn leaves: the entries are what they were, and the tree is too low still, or as high
as it has to be. -/
structure Turned (t : RbTree α) (parent : Frame α) (m : ℕ) (t' : RbTree α) : Prop where
  toList : t'.toList = (parent.fill t).toList
  isRed : parent.color = .red ↔ t'.isRed = true
  height : BlackHeight t' (weight parent.color + m)

/-- The sibling of a tree that is too low has children, so that a turn can be taken. -/
theorem deleteTurn_spec (hnored : NoRedRed t) (hsibling : NoRedRed parent.sibling)
    (hblack : parent.sibling.isRed = false) (hm : BlackHeight t m)
    (hs : BlackHeight parent.sibling (m + 1)) :
    ∃ r, deleteTurn t parent = some r ∧ match r with
      | .up t' => Turned t parent m t' ∧ NoRedRed t'.setBlack
      | .done t' => Turned t parent (m + 1) t' ∧ NoRedRed t' := by
  obtain ⟨side, c, e, s⟩ := parent
  obtain ⟨c', e', far, mid, rfl⟩ := exists_frame_of_height hs side
  obtain rfl : c' = .black := by
    cases c' with
    | black => rfl
    | red => exact absurd (isRed_frame.symm.trans hblack) (by simp)
  obtain ⟨k, hk, hmid, hfar⟩ := blackHeight_frame.mp hs
  obtain rfl : m = k := by simpa [weight, Nat.add_comm] using hk
  obtain ⟨-, hnmid, hnfar⟩ := noRedRed_frame.mp hsibling
  rw [deleteTurn, children_frame, Option.bind_some]
  by_cases hboth : mid.isRed = false ∧ far.isRed = false
  · rw [if_pos hboth]
    have hred : NoRedRed (Frame.fill ⟨side, .black, e', far⟩ mid).setRed := by
      rw [setRed_frame]
      exact noRedRed_frame.mpr ⟨fun _ => hboth, hnmid, hnfar⟩
    have hheight : BlackHeight (Frame.fill ⟨side, .black, e', far⟩ mid).setRed m := by
      rw [setRed_frame]
      exact blackHeight_frame.mpr ⟨m, (Nat.zero_add m).symm, hmid, hfar⟩
    refine ⟨_, rfl, ⟨toList_frame_congr rfl toList_setRed, by simp [isRed_frame], ?_⟩, ?_⟩
    · exact blackHeight_frame.mpr ⟨m, rfl, hm, hheight⟩
    · rw [setBlack_frame]
      exact noRedRed_frame_black.mpr ⟨hnored, hred⟩
  · rw [if_neg hboth]
    obtain ⟨mid', e'', far', hout, hlist, hnmid', hnfar', hmid', hfar'⟩ :=
      outward_spec hsibling hmid hfar hboth
    rw [hout, Option.map_some]
    -- the sibling comes up with the color of the parent, between two black nodes
    have htop : NoRedRed (Frame.fill ⟨side, .black, e, mid'⟩ t) :=
      noRedRed_frame_black.mpr ⟨hnored, hnmid'⟩
    have hheight : BlackHeight (Frame.fill ⟨side, .black, e, mid'⟩ t) (1 + m) :=
      blackHeight_frame.mpr ⟨m, rfl, hm, hmid'⟩
    refine ⟨_, rfl, ⟨?_, by simp [isRed_frame], ?_⟩, ?_⟩
    · calc (Frame.fill ⟨side, c, e'', far'.setBlack⟩ (Frame.fill ⟨side, .black, e, mid'⟩ t)).toList
          = (Frame.fill ⟨side, c, e'', far'⟩ (Frame.fill ⟨side, .black, e, mid'⟩ t)).toList :=
            toList_frame_congr rfl toList_setBlack
        _ = (Frame.fill ⟨side, c, e, Frame.fill ⟨side, .black, e'', far'⟩ mid'⟩ t).toList :=
            toList_turned
        _ = (Frame.fill ⟨side, c, e, Frame.fill ⟨side, .black, e', far⟩ mid⟩ t).toList :=
            toList_frame_congr rfl hlist
    · rw [Nat.add_comm m 1]
      exact blackHeight_frame.mpr ⟨1 + m, rfl, hheight, hfar'⟩
    · exact noRedRed_frame.mpr ⟨fun _ => ⟨isRed_frame.trans rfl, isRed_setBlack⟩, htop, hnfar'⟩

/-- Below a red node, a turn that does not end has a red root. -/
theorem isRed_up (h : deleteTurn t parent = some (.up t')) (hred : parent.color = .red) :
    t'.isRed = true := by
  obtain ⟨sibling, -, hturn⟩ := Option.bind_eq_some_iff.mp h
  split_ifs at hturn
  · obtain rfl := Turn.up.inj (Option.some.inj hturn)
    exact isRed_frame.trans (decide_eq_true hred)
  · obtain ⟨top, -, htop⟩ := Option.map_eq_some_iff.mp hturn
    cases htop

/-- The parent that is lowered under its red child becomes red. -/
theorem color_lower {g : Frame α} (h : lower parent = some (f, g)) : f.color = .red := by
  obtain ⟨sibling, -, hlower⟩ := Option.map_eq_some_iff.mp h
  rw [← (Prod.mk.inj hlower).1]

/-! ## The loop -/

/-- A tree of the right height below a path. -/
theorem redBlack_fill (hroot : ∀ g ∈ (f :: path).getLast?, g.color = .black) (ht : NoRedRed t)
    (hred : t.isRed = true → f.color = .black) (hpath : NoRedRed (fill leaf (f :: path)))
    (hm : BlackHeight t m) (hhole : HoleHeight (f :: path) m n) : RedBlack (fill t (f :: path)) where
  black := isRed_fill_cons hroot
  noRedRed := noRedRed_fill.mpr ⟨ht, fun h _ hg => Option.some.inj hg ▸ hred h, hpath⟩
  blackHeight := ⟨n, blackHeight_fill.mpr ⟨m, hm, hhole⟩⟩

/-- A tree of the right height below a path, when the root becomes black in the end. -/
theorem redBlack_setBlack_fill (ht : NoRedRed t)
    (hred : t.isRed = true → ∀ g ∈ path.head?, g.color = .black)
    (hpath : NoRedRed (fill leaf path)) (hm : BlackHeight t m) (hhole : HoleHeight path m n) :
    RedBlack (fill t path).setBlack where
  black := isRed_setBlack
  noRedRed := (noRedRed_fill.mpr ⟨ht, hred, hpath⟩).setBlack
  blackHeight := BlackHeight.setBlack (blackHeight_fill.mpr ⟨m, hm, hhole⟩)

/-- What a path has beside its hole, and above its first node. -/
theorem NoRedRed.head (h : NoRedRed (fill leaf (f :: path))) :
    NoRedRed f.sibling ∧ NoRedRed (fill leaf path) ∧
      (f.color = .red → f.sibling.isRed = false ∧ ∀ g ∈ path.head?, g.color = .black) := by
  obtain ⟨hf, hhead, hpath⟩ := noRedRed_fill.mp (show NoRedRed (fill (f.fill leaf) path) from h)
  obtain ⟨hchildren, -, hsibling⟩ := noRedRed_frame.mp hf
  refine ⟨hsibling, hpath, fun hred => ⟨(hchildren hred).2, hhead ?_⟩⟩
  rw [isRed_frame, hred]
  rfl

/-- The path behind a rotation at a red sibling: its first node is red, with a black sibling. -/
theorem lower_spec (hred : parent.sibling.isRed = true)
    (hnored : NoRedRed (fill leaf (parent :: path))) (hhole : HoleHeight (parent :: path) m n) :
    ∃ f g, lower parent = some (f, g) ∧ f.color = .red ∧ f.sibling.isRed = false ∧
      g.color = .black ∧ NoRedRed (fill leaf (f :: g :: path)) ∧ HoleHeight (f :: g :: path) m n ∧
      ∀ t, (g.fill (f.fill t)).toList = (parent.fill t).toList := by
  obtain ⟨side, c, e, s⟩ := parent
  obtain ⟨hs, hpath, hcolor⟩ := hnored.head
  obtain ⟨hheight, hhole⟩ := hhole
  -- the parent of a red node is black
  obtain rfl : c = .black := by
    cases c with
    | black => rfl
    | red => exact absurd hred (by simp [(hcolor rfl).1])
  obtain ⟨c', e', far, mid, rfl⟩ : ∃ c' e' far mid, s = Frame.fill ⟨side, c', e', far⟩ mid := by
    cases s with
    | leaf => cases hred
    | node c l e r => cases side <;> exact ⟨_, _, _, _, rfl⟩
  obtain rfl : c' = .red := of_decide_eq_true (isRed_frame.symm.trans hred)
  obtain ⟨hblack, hmid, hfar⟩ := noRedRed_frame.mp hs
  obtain ⟨k, rfl, hkmid, hkfar⟩ := blackHeight_frame.mp hheight
  simp only [weight, zero_add] at hhole hkmid hkfar ⊢
  refine ⟨⟨side, .red, e, mid⟩, ⟨side, .black, e', far⟩, by simp [lower], rfl, (hblack rfl).1, rfl,
    ?_, ⟨hkmid, ?_⟩, fun t => toList_turned⟩
  · have hfront :
        NoRedRed (Frame.fill ⟨side, .black, e', far⟩ (Frame.fill ⟨side, .red, e, mid⟩ leaf)) :=
      noRedRed_frame_black.mpr
        ⟨noRedRed_frame.mpr ⟨fun _ => ⟨rfl, (hblack rfl).1⟩, trivial, hmid⟩, hfar⟩
    change NoRedRed (fill (Frame.fill ⟨side, .black, e', far⟩ _) path)
    refine noRedRed_fill.mpr ⟨hfront, fun h => ?_, hpath⟩
    rw [isRed_frame] at h
    cases h
  · simpa [HoleHeight, weight] using And.intro hkfar hhole

/-- Behind a turn that is not the last, the red node that has come up makes up for the black one. -/
theorem redBlack_of_up {g : Frame α} (hf : f.color = .red) (hg : g.color = .black)
    (hroot : ∀ x ∈ (g :: path).getLast?, x.color = .black)
    (hpath : NoRedRed (fill leaf (f :: g :: path)))
    (hhole : HoleHeight (f :: g :: path) (m + 1) n) (h : Turned t f m t')
    (hblack : NoRedRed t'.setBlack) : RedBlack (fill t'.setBlack (g :: path)) := by
  obtain ⟨-, hhole'⟩ := hhole
  have hheight := h.height.setBlack_of_isRed (h.isRed.mp hf)
  rw [hf, weight, Nat.zero_add] at hhole'
  rw [hf, weight, Nat.zero_add, Nat.add_comm] at hheight
  exact redBlack_fill hroot hblack (fun _ => hg) hpath.head.2.1 hheight hhole'

/-- Behind the last turn below a red node, the tree has its height. -/
theorem redBlack_of_done {g : Frame α} (hf : f.color = .red)
    (hpath : NoRedRed (fill leaf (f :: g :: path)))
    (hhole : HoleHeight (f :: g :: path) (m + 1) n) (h : Turned t f (m + 1) t')
    (hnored : NoRedRed t') : RedBlack (fill t' (g :: path)).setBlack := by
  obtain ⟨-, hng, hcolor⟩ := hpath.head
  obtain ⟨-, hhole'⟩ := hhole
  have hheight := h.height
  rw [hf, weight, Nat.zero_add] at hhole' hheight
  exact redBlack_setBlack_fill hnored (fun _ => (hcolor hf).2) hng hheight hhole'

/-- A tree that is too low by one: behind the loop the balance is there, and the entries are what
they were. -/
theorem deleteColor_spec (hroot : ∀ f ∈ path.getLast?, f.color = .black)
    (hnored : NoRedRed t.setBlack)
    (hpath : NoRedRed (fill leaf path)) (hm : BlackHeight t m) (hhole : HoleHeight path (m + 1) n) :
    ∃ t', deleteColor t path = some t' ∧ RedBlack t' ∧ t'.toList = (fill t path).toList := by
  induction path generalizing t m with
  | nil => exact ⟨_, rfl, ⟨isRed_setBlack, hnored, hm.setBlack⟩, toList_setBlack⟩
  | cons parent path ih =>
    obtain ⟨hsibling, hpath', hcolor⟩ := hpath.head
    rw [deleteColor]
    cases hred : t.isRed with
    | true =>
      -- a red node can make up for the black one
      refine ⟨_, if_pos rfl, redBlack_fill hroot hnored (fun h => ?_) hpath
        (hm.setBlack_of_isRed hred) (Nat.add_comm m 1 ▸ hhole), toList_fill_congr toList_setBlack⟩
      rw [isRed_setBlack] at h
      cases h
    | false =>
      rw [setBlack_of_not_isRed hred] at hnored
      rw [if_neg (by simp)]
      cases hs : parent.sibling.isRed with
      | true =>
        -- behind the rotation the parent is red, so that one turn is enough
        obtain ⟨f, g, hlower, hf, hfs, hg, hnored', hhole', hlist⟩ := lower_spec hs hpath hhole
        obtain ⟨r, hr, hspec⟩ := deleteTurn_spec hnored hnored'.head.1 hfs hm hhole'.1
        rw [if_pos rfl, hlower, Option.bind_some, hr, Option.map_some]
        have hroot' : ∀ x ∈ (g :: path).getLast?, x.color = .black := by
          intro x hx
          cases path with
          | nil => exact Option.some.inj hx ▸ hg
          | cons y path => exact hroot x (by simpa using hx)
        have hturnedList : ∀ {t' k}, Turned t f k t' →
            (fill t' (g :: path)).toList = (fill t (parent :: path)).toList := by
          intro t' k h
          refine (toList_fill_congr h.toList).trans (@toList_fill_congr _ _ _ path ?_)
          exact hlist t
        cases r with
        | up t' =>
          obtain ⟨hturned, hblack⟩ := hspec
          refine ⟨_, rfl, redBlack_of_up hf hg hroot' hnored' hhole' hturned hblack, ?_⟩
          exact (toList_fill_congr toList_setBlack).trans (hturnedList hturned)
        | done t' =>
          obtain ⟨hturned, hnored''⟩ := hspec
          refine ⟨_, rfl, redBlack_of_done hf hnored' hhole' hturned hnored'', ?_⟩
          exact toList_setBlack.trans (hturnedList hturned)
      | false =>
        obtain ⟨r, hr, hspec⟩ := deleteTurn_spec hnored hsibling hs hm hhole.1
        rw [if_neg (by simp), hr, Option.bind_some]
        cases r with
        | up t' =>
          obtain ⟨hturned, hblack⟩ := hspec
          have hroot' : ∀ f ∈ path.getLast?, f.color = .black := by
            intro f hf
            refine hroot f ?_
            cases path with
            | nil => cases hf
            | cons g path => simpa using hf
          obtain ⟨t'', ht'', hbalance, hlist⟩ := ih hroot' hblack hpath' hturned.height
            (Nat.add_assoc _ _ _ ▸ hhole.2)
          exact ⟨t'', ht'', hbalance, hlist.trans (toList_fill_congr hturned.toList)⟩
        | done t' =>
          obtain ⟨hturned, hnored'⟩ := hspec
          refine ⟨_, rfl, redBlack_setBlack_fill hnored' (fun h => ?_) hpath' hturned.height hhole.2,
            toList_setBlack.trans (toList_fill_congr hturned.toList)⟩
          exact (hcolor (hturned.isRed.mpr h)).2

/-! ## Taking a node out -/

/-- A node with one child goes, and its child comes to its place. -/
theorem splice_spec (h : RedBlack (fill t (f :: path))) (hf : f.sibling = leaf) :
    ∃ t', splice f.color t path = some t' ∧ RedBlack t' ∧ t'.toList = (fill t path).toList := by
  obtain ⟨n, hn⟩ := h.blackHeight
  obtain ⟨m, hm, hs, hhole⟩ := blackHeight_fill.mp hn
  obtain ⟨hnored, hred, hpath⟩ := noRedRed_fill.mp h.noRedRed
  obtain ⟨-, hpath', hcolor⟩ := hpath.head
  have hroot := isRed_fill h.black
  -- beside the child there is no node
  obtain rfl : m = 0 := by
    rw [hf] at hs
    exact hs
  rw [splice]
  cases hc : f.color with
  | black =>
    have hroot' : ∀ g ∈ path.getLast?, g.color = .black := by
      intro g hg
      cases path with
      | nil => cases hg
      | cons x path => exact hroot g (by simpa using hg)
    rw [hc] at hhole
    exact deleteColor_spec hroot' hnored.setBlack hpath' hm hhole
  | red =>
    have ht : t.isRed = false := by
      cases ht : t.isRed with
      | false => rfl
      | true => exact absurd (hred ht f rfl) (by simp [hc])
    rw [hc] at hhole
    cases path with
    | nil => exact absurd (hroot f rfl) (by simp [hc])
    | cons g path =>
      refine ⟨_, if_neg (by simp), redBlack_fill (fun x hx => hroot x (by simpa using hx)) hnored
        (fun h => ?_) hpath' hm hhole, rfl⟩
      rw [ht] at h
      cases h

/-- A path in two parts. -/
theorem fill_append : fill t (inner ++ path) = fill (fill t inner) path := List.foldl_append

/-- The elements before a path in two parts. -/
theorem before_append : before (inner ++ path) = before path ++ before inner := by
  induction inner with
  | nil => simp [before]
  | cons f inner ih =>
    obtain ⟨side, c, e, s⟩ := f
    cases side <;> simp [before, ih]

/-- The elements after a path in two parts. -/
theorem after_append : after (inner ++ path) = after inner ++ after path := by
  induction inner with
  | nil => simp [after]
  | cons f inner ih =>
    obtain ⟨side, c, e, s⟩ := f
    cases side <;> simp [after, ih]

/-- The first node of a tree has nothing on its left side, and nothing before its path. -/
theorem leftmost_spec (path : List (Frame α)) (ht : t ≠ leaf) : ∃ inner c e r,
    leftmost t path = some (inner ++ path, c, e, r) ∧ t = fill (node c leaf e r) inner ∧
      before inner = [] := by
  induction t generalizing path with
  | leaf => exact absurd rfl ht
  | node c l e r ihl _ =>
    cases l with
    | leaf => exact ⟨[], c, e, r, rfl, rfl, rfl⟩
    | node c' l' e' r' =>
      obtain ⟨inner, c₁, e₁, r₁, h, hfill, hbefore⟩ :=
        ihl (⟨.left, c, e, r⟩ :: path) nofun
      refine ⟨inner ++ [⟨.left, c, e, r⟩], c₁, e₁, r₁, ?_, ?_, ?_⟩
      · rw [List.append_assoc]
        exact h
      · rw [fill_append, ← hfill]
        rfl
      · rw [before_append, hbefore]
        rfl

/-- With nothing before it a path goes to the left only. -/
theorem side_of_before (h : before (f :: path) = []) : f.side = .left ∧ before path = [] := by
  obtain ⟨side, c, e, s⟩ := f
  cases side with
  | left => exact ⟨rfl, h⟩
  | right => simp [before] at h

/-- The entries without the one that is deleted, in a tree with the balance. -/
theorem delete_spec (h : RedBlack (fill (node c l e r) path)) :
    ∃ t', delete path c l r = some t' ∧ RedBlack t' ∧
      t'.toList = before path ++ (l.toList ++ r.toList) ++ after path := by
  match l, r with
  | leaf, r =>
    obtain ⟨t', ht', hbalance, hlist⟩ :=
      splice_spec (t := r) (f := ⟨.right, c, e, leaf⟩) h rfl
    exact ⟨t', ht', hbalance, hlist.trans toList_fill⟩
  | node c₁ l₁ e₁ r₁, leaf =>
    obtain ⟨t', ht', hbalance, hlist⟩ :=
      splice_spec (t := node c₁ l₁ e₁ r₁) (f := ⟨.left, c, e, leaf⟩) h rfl
    exact ⟨t', ht', hbalance, by simpa using hlist.trans toList_fill⟩
  | node c₁ l₁ e₁ r₁, node c₂ l₂ e₂ r₂ =>
    -- the next entry comes to the place of the one that goes
    obtain ⟨inner, c', e', r', hnext, hr, hbefore⟩ :=
      leftmost_spec (t := node c₂ l₂ e₂ r₂) [] nofun
    have hbalanced := h.entry e'
    rw [hr] at hbalanced
    -- seen from its old place, which has no left child
    have hfill : fill (node c (node c₁ l₁ e₁ r₁) e' (fill (node c' leaf e' r') inner)) path =
        fill r' (⟨.right, c', e', leaf⟩ :: (inner ++ ⟨.right, c, e', node c₁ l₁ e₁ r₁⟩ :: path)) := by
      change _ = fill (node c' leaf e' r') (inner ++ _)
      rw [fill_append]
      rfl
    rw [hfill] at hbalanced
    obtain ⟨t', ht', hbalance, hlist⟩ := splice_spec hbalanced rfl
    refine ⟨t', ?_, hbalance, hlist.trans ?_⟩
    · change (leftmost (node c₂ l₂ e₂ r₂) []).bind _ = _
      rw [hnext, Option.bind_some, List.append_nil]
      exact ht'
    · rw [toList_fill, before_append, after_append, hr, toList_fill, hbefore]
      simp [before, after]

/-! ## The order -/

end

section

variable {κ : Type} [Ord κ] {key : α → κ} {t t' l r : RbTree α} {path : List (Frame α)} {c : RbColor}
  {e a : α}

/-- What is left behind a deletion is in the order that it was. -/
theorem sorted_delete (h : Sorted key (fill (node c l e r) path))
    (hlist : t'.toList = before path ++ (l.toList ++ r.toList) ++ after path) : Sorted key t' := by
  refine List.Pairwise.sublist ?_ h
  rw [hlist, toList_fill, toList_node]
  refine List.Sublist.append (List.Sublist.append (List.Sublist.refl _) ?_) (List.Sublist.refl _)
  exact List.Sublist.append (List.Sublist.refl _) (List.sublist_cons_self e _)

/-- The entries behind a deletion are those that were there, without the one that is deleted. -/
theorem mem_delete [Std.LawfulEqOrd κ] (h : Sorted key (fill (node c l e r) path))
    (hlist : t'.toList = before path ++ (l.toList ++ r.toList) ++ after path) :
    a ∈ t'.toList ↔ a ∈ (fill (node c l e r) path).toList ∧ a ≠ e := by
  have hnodup : (fill (node c l e r) path).toList.Nodup :=
    h.imp fun hlt heq => compare_ne_eq hlt (congrArg key heq)
  rw [hlist]
  simp only [toList_fill, toList_node, List.nodup_append, List.nodup_cons, List.mem_append,
    List.mem_cons] at hnodup ⊢
  grind

omit [Ord κ] in
/-- The node of an entry, with the path to it. -/
theorem exists_fill_of_mem (h : a ∈ t.toList) : ∃ path c l r, t = fill (node c l a r) path := by
  induction t with
  | leaf => cases h
  | node c l e r ihl ihr =>
    rw [toList_node, List.mem_append, List.mem_cons] at h
    rcases h with h | rfl | h
    · obtain ⟨path, c', l', r', rfl⟩ := ihl h
      exact ⟨path ++ [⟨.left, c, e, r⟩], c', l', r', by rw [fill_append]; rfl⟩
    · exact ⟨[], c, l, r, rfl⟩
    · obtain ⟨path, c', l', r', rfl⟩ := ihr h
      exact ⟨path ++ [⟨.right, c, e, l⟩], c', l', r', by rw [fill_append]; rfl⟩

/-- A search for a key that is there does not end at a hole. -/
theorem descend_of_mem [Std.TransOrd κ] (h : Sorted key t) (ha : a ∈ t.toList) :
    t.descend key (key a) [] = none := by
  cases hd : t.descend key (key a) [] with
  | none => rfl
  | some path =>
    have hself : compare (key a) (key a) = .eq := Std.ReflCmp.compare_self
    obtain ⟨-, hlist, hbefore, hafter, -⟩ := toList_of_descend hd h
    rw [hlist] at ha
    rcases List.mem_append.mp ha with ha | ha
    · exact absurd (hself.symm.trans (hbefore a ha)) nofun
    · exact absurd (hself.symm.trans (hafter a ha)) nofun

end

end RbTree
