import AdxDsp.Lib.RedBlackDelete
import AdxDsp.Tracker.Rbtree

/-!
# Deletion from the red-black trees of the tracker

The second half of `adx_rbtree.c`: a node is unlinked, and the tree is recolored and rotated upwards
when a black node has gone.  The two halves of the loop differ in the side only.

* **The functions**: `adxRbtreeDeleteColor`, `adxRbtreeDelete`.
* `runs_adxRbtreeDelete`: a deletion in memory is `RbTree.delete` on the tree.
* `rbtree_history`: the tree behind any additions and deletions.
-/

namespace AdxDsp

open CText OwnedCells ParentTrees

open RbTree (Side Frame)

namespace Rbtree

section

variable {δ : Type}

/-! ## The functions -/

/-- `adx_rbtree_set_color` -/
def adxRbtreeSetColor (color : Word) (rb : Node δ) : Node δ :=
  { rb with rbParentColor := (rb.rbParentColor &&& ~~~1) ||| color }

/-- `!node || rb_is_black(node)` -/
def isNullOrBlack : Option Addr → RbProg δ Bool
  | none => pure true
  | some node => do
    let n ← deref node
    pure (rbColor n ≠ 0)

/-- The condition that both children of a node are black, or `NULL`. -/
def bothBlack (other : Node δ) : RbProg δ Bool := do
  let left ← isNullOrBlack other.rbLeft
  if left then isNullOrBlack other.rbRight else pure false

/-- The branch of a red `other`, which comes up; the result is the next `other`, on the other side
of `parent`. -/
def raiseOther (side : Side) (parent rbOther : Addr) : RbProg δ Addr := do
  let o ← deref rbOther
  if rbIsRed o then do
    modify rbOther rbSetBlack
    modify parent rbSetRed
    rotateTo side parent
    let p ← deref parent
    nonNull (child (other side) p)
  else pure rbOther

/-- The inner child of `other` comes up if the outer one is not red; the result is the next
`other`. -/
def raiseInner (side : Side) (parent rbOther : Addr) : RbProg δ Addr := do
  let o ← deref rbOther
  let black ← isNullOrBlack (child (other side) o)
  if black then do
    let inner ← nonNull (child side o)
    modify inner rbSetBlack
    modify rbOther rbSetRed
    rotateTo (other side) rbOther
    let p ← deref parent
    nonNull (child (other side) p)
  else pure rbOther

/-- What a turn does below a black `other`; the result is whether the loop goes on. -/
def turnBelow (side : Side) (parent rbOther : Addr) : RbProg δ Bool := do
  let o ← deref rbOther
  let black ← bothBlack o
  if black then do
    modify rbOther rbSetRed
    pure true
  else do
    let rbOther ← raiseInner side parent rbOther
    let p ← deref parent
    modify rbOther (adxRbtreeSetColor (rbColor p))
    modify parent rbSetBlack
    let o ← deref rbOther
    let outer ← nonNull (child (other side) o)
    modify outer rbSetBlack
    rotateTo side parent
    pure false

/-- One turn of the loop of `adx_rbtree_delete_color`, where `node` is the child of `parent` on a
side; the result is whether the loop goes on at `parent`. -/
def deleteTurn (side : Side) (parent : Addr) : RbProg δ Bool := do
  let p ← deref parent
  let rbOther ← nonNull (child (other side) p)
  let rbOther ← raiseOther side parent rbOther
  turnBelow side parent rbOther

/-- The loop of `adx_rbtree_delete_color`; the result is `node`. -/
def deleteColorLoop : ℕ → (node parent : Option Addr) → RbProg δ (Option Addr)
  | 0, _, _ => fail
  | fuel + 1, node, parent => do
    let black ← isNullOrBlack node
    let rbNode ← vars
    if black ∧ node ≠ rbNode then do
      let parent ← nonNull parent
      let p ← deref parent
      let side := if p.rbLeft = node then Side.left else Side.right
      let up ← deleteTurn side parent
      if up then do
        let p ← deref parent
        deleteColorLoop fuel (some parent) (rbParent p)
      else vars
    else pure node

/-- `adx_rbtree_delete_color` -/
def adxRbtreeDeleteColor (fuel : ℕ) (node parent : Option Addr) : RbProg δ Unit := do
  let node ← deleteColorLoop fuel node parent
  match node with
  | none => pure ()
  | some node => modify node rbSetBlack

/-- `if (child) adx_rbtree_set_parent(child, parent)` -/
def setParentOf (parent : Option Addr) : Option Addr → RbProg δ Unit
  | none => pure ()
  | some child => modify child (adxRbtreeSetParent parent)

/-- `top`, or no node, comes to the place of `node`, below `parent` or at the root. -/
def replaceIn (node : Addr) (top : Option Addr) : Option Addr → RbProg δ Unit
  | none => assign top
  | some parent => do
    let p ← deref parent
    if p.rbLeft = some node then modify parent (setChild .left top)
    else modify parent (setChild .right top)

/-- `while ((left = node->rb_left) != NULL) node = left` -/
def leftmostLoop : ℕ → Addr → RbProg δ Addr
  | 0, _ => fail
  | fuel + 1, node => do
    let n ← deref node
    match n.rbLeft with
    | none => pure node
    | some left => leftmostLoop fuel left

/-- `node` is taken out of the right subtree of `old`; the result is `parent`. -/
def takeNext (old node : Addr) : RbProg δ Addr := do
  let n ← deref node
  if rbParent n = some old then pure node
  else do
    let parent ← nonNull (rbParent n)
    setParentOf (some parent) n.rbRight
    modify parent (setChild .left n.rbRight)
    let o ← deref old
    modify node (setChild .right o.rbRight)
    let right ← nonNull o.rbRight
    modify right (adxRbtreeSetParent (some node))
    pure parent

/-- The branch of `adx_rbtree_delete` for a node with two children. -/
def deleteBetween (fuel : ℕ) (old right : Addr) : RbProg δ Unit := do
  let node ← leftmostLoop fuel right
  let o ← deref old
  replaceIn old (some node) (rbParent o)
  let n ← deref node
  let parent ← takeNext old node
  let o ← deref old
  modify node fun n => { n with rbParentColor := o.rbParentColor }
  modify node (setChild .left o.rbLeft)
  let left ← nonNull o.rbLeft
  modify left (adxRbtreeSetParent (some node))
  if rbColor n = 1 then adxRbtreeDeleteColor fuel n.rbRight (some parent) else pure ()

/-- The branch of `adx_rbtree_delete` for a node with at most one child. -/
def deleteAbove (fuel : ℕ) (node : Addr) (child : Option Addr) : RbProg δ Unit := do
  let n ← deref node
  setParentOf (rbParent n) child
  replaceIn node child (rbParent n)
  if rbColor n = 1 then adxRbtreeDeleteColor fuel child (rbParent n) else pure ()

/-- `adx_rbtree_delete` -/
def adxRbtreeDelete (fuel : ℕ) (node : Addr) : RbProg δ Unit := do
  let n ← deref node
  match n.rbLeft, n.rbRight with
  | none, child => deleteAbove fuel node child
  | child, none => deleteAbove fuel node child
  | some _, some right => deleteBetween fuel node right

end

/-! ## The colors -/

section

variable {δ β : Type} {side : Side} {c c' : RbColor} {e e' : Addr × δ}
  {t mid far sibling : RbTree (Addr × δ)} {path : List (Frame (Addr × δ))} {r q p q' p' : Option Addr}
  {R : Multiset (Addr × Node δ)} {S : β → State (Option Addr) Addr (Node δ) → Prop}

/-- The bit of the colour. -/
@[simp] theorem rbColor_frameCell :
    rbColor (frameCell (layout δ) q p ⟨side, c, e, sibling⟩) = colorBit c := by
  cases side <;> exact pack_and_one

/-- Another colour. -/
@[simp] theorem adxRbtreeSetColor_frameCell :
    adxRbtreeSetColor (colorBit c') (frameCell (layout δ) q p ⟨side, c, e, sibling⟩) =
      frameCell (layout δ) q p ⟨side, c', e, sibling⟩ := by
  have hword : (pack q c &&& ~~~1) ||| colorBit c' = pack q c' := by
    rw [pack_and_not_one]
    exact congrArg (· ||| colorBit c') BitVec.or_zero
  cases side <;> simp only [adxRbtreeSetColor, frameCell, layout, hword]

/-- The color of a tree below a node is read. -/
theorem runs_isNullOrBlack {f : Bool → RbProg δ β}
    (h : Runs (Owns r (cells (layout δ) q t + R)) (f !t.isRed) S) :
    Runs (Owns r (cells (layout δ) q t + R)) (isNullOrBlack (ptr (layout δ) t) >>= f) S := by
  cases t with
  | leaf => exact h
  | node c l a s =>
    have hroot : RbTree.node c l a s = Frame.fill ⟨.left, c, a, s⟩ l := rfl
    rw [hroot, RbTree.isRed_frame] at h
    rw [hroot, ptr_frame, isNullOrBlack, bind_assoc]
    rw [cells_frame, add_assoc] at h ⊢
    refine Runs.deref_bind ?_
    rw [rbColor_frameCell]
    cases c <;> exact h

/-- The color of a child of the tree in the hole is read. -/
theorem runs_isNullOrBlack_child {f : Bool → RbProg δ β}
    (h : Runs (Owns r (zip (layout δ) (Frame.fill ⟨side, c, e, far⟩ t) path + R)) (f !t.isRed) S) :
    Runs (Owns r (zip (layout δ) (Frame.fill ⟨side, c, e, far⟩ t) path + R))
      (isNullOrBlack (ptr (layout δ) t) >>= f) S := by
  have hsplit : zip (layout δ) (Frame.fill ⟨side, c, e, far⟩ t) path + R =
      cells (layout δ) (some e.1) t + ({(e.1, frameCell (layout δ) (parentOf (layout δ) path)
        (ptr (layout δ) t) ⟨side, c, e, far⟩)} + (cells (layout δ) (some e.1) far +
          pathCells (layout δ) (some e.1) path + R)) := by
    rw [zip_root]
    abel
  rw [hsplit] at h ⊢
  exact runs_isNullOrBlack h

/-- Both children of the tree in the hole are read. -/
theorem runs_bothBlack {f : Bool → RbProg δ β} {n : Node δ} {l u : RbTree (Addr × δ)}
    (hleft : n.rbLeft = ptr (layout δ) l) (hright : n.rbRight = ptr (layout δ) u)
    (h : Runs (Owns r (zip (layout δ) (.node c l e u) path + R)) (f (!l.isRed && !u.isRed)) S) :
    Runs (Owns r (zip (layout δ) (.node c l e u) path + R)) (bothBlack n >>= f) S := by
  have hl : RbTree.node c l e u = Frame.fill ⟨.left, c, e, u⟩ l := rfl
  have hu : RbTree.node c l e u = Frame.fill ⟨.right, c, e, l⟩ u := rfl
  rw [bothBlack, bind_assoc, hleft, hright]
  rw [hl] at h ⊢
  refine runs_isNullOrBlack_child ?_
  cases hred : l.isRed with
  | true =>
    rw [hred] at h
    exact h
  | false =>
    rw [hred] at h
    rw [← hl, hu] at h ⊢
    exact runs_isNullOrBlack_child h

/-- The same, seen from a side. -/
theorem runs_bothBlack_frame {f : Bool → RbProg δ β}
    (h : Runs (Owns r (zip (layout δ) (Frame.fill ⟨side, c, e, far⟩ mid) path + R))
      (f (!mid.isRed && !far.isRed)) S) :
    Runs (Owns r (zip (layout δ) (Frame.fill ⟨side, c, e, far⟩ mid) path + R))
      (bothBlack (frameCell (layout δ) (parentOf (layout δ) path) (ptr (layout δ) mid)
        ⟨side, c, e, far⟩) >>= f) S := by
  cases side with
  | left => exact runs_bothBlack rfl rfl h
  | right =>
    rw [Bool.and_comm] at h
    exact runs_bothBlack rfl rfl h

/-- The other child of a node, with the node on its path. -/
theorem zip_sibling : zip (layout δ) (Frame.fill ⟨side, c, e, sibling⟩ t) path =
    zip (layout δ) sibling (⟨other side, c, e, t⟩ :: path) := by
  rw [← fill_other, zip_frame]

/-! ## One turn -/

variable {c'' : RbColor} {e'' : Addr × δ} {mid' far' : RbTree (Addr × δ)} {a : Addr}

/-- Behind it, the outer child of the sibling is red. -/
theorem runs_raiseInner (h : RbTree.outward side c' mid e' far = some (mid', c'', e'', far')) :
    Runs (Owns (rootOf (layout δ) (some e.1) path)
        (zip (layout δ) (Frame.fill ⟨side, c, e, Frame.fill ⟨side, c', e', far⟩ mid⟩ t) path + R))
      (raiseInner side e.1 e'.1) fun next s => next = e''.1 ∧
        Owns (rootOf (layout δ) (some e.1) path)
          (zip (layout δ) (Frame.fill ⟨side, c, e, Frame.fill ⟨side, c'', e'', far'⟩ mid'⟩ t) path +
            R) s := by
  rw [RbTree.outward] at h
  rw [zip_sibling]
  refine runs_deref_zip ?_
  rw [child_other_frameCell, ← fill_other]
  refine runs_isNullOrBlack_child ?_
  rw [fill_other]
  cases hred : far.isRed with
  | true =>
    rw [if_pos hred] at h
    cases h
    rw [if_neg (by simp), ← zip_sibling]
    exact Runs.pure fun s hs => ⟨rfl, hs⟩
  | false =>
    rw [if_neg (by simp [hred])] at h
    obtain ⟨⟨a, c₁, e₁, b⟩, hchildren, hout⟩ := Option.map_eq_some_iff.mp h
    obtain rfl := RbTree.eq_frame_of_children hchildren
    cases hout
    rw [if_pos (by simp), child_frameCell, ptr_frame]
    refine Runs.nonNull_bind ?_
    -- the inner child becomes black, and the node above it red
    rw [zip_frame]
    refine runs_modify_zip rbSetBlack_frameCell ?_
    rw [← zip_frame]
    refine runs_modify_zip rbSetRed_frameCell ?_
    have hflip : Frame.fill ⟨side, .red, e', far⟩ (Frame.fill ⟨side, .black, e₁, b⟩ a) =
        Frame.fill ⟨other side, .red, e', Frame.fill ⟨other side, .black, e₁, a⟩ b⟩ far := by
      rw [fill_other, fill_other]
    rw [rotateTo_eq, hflip]
    have hroot : rootOf (layout δ) (some e.1) path =
        rootOf (layout δ) (some e'.1) (⟨other side, c, e, t⟩ :: path) := rfl
    rw [hroot]
    refine Runs.bind runs_rotate fun _ => ?_
    rw [fill_other, fill_other, ← zip_sibling]
    refine runs_deref_zip ?_
    rw [child_other_frameCell, ptr_frame]
    exact Runs.nonNull_bind (Runs.pure fun s hs => ⟨rfl, hs⟩)

/-- The memory behind a turn: the loop goes on at the parent, or ends. -/
def BehindTurn (parent : Addr) (path : List (Frame (Addr × δ))) (R : Multiset (Addr × Node δ)) :
    RbTree.Turn (Addr × δ) → Bool → State (Option Addr) Addr (Node δ) → Prop
  | .up t, up, s => up = true ∧ ptr (layout δ) t = some parent ∧
    Owns (rootOf (layout δ) (ptr (layout δ) t) path) (zip (layout δ) t path + R) s
  | .done t, up, s => up = false ∧
    Owns (rootOf (layout δ) (ptr (layout δ) t) path) (zip (layout δ) t path + R) s

/-- A turn below a black sibling is one of the tree. -/
theorem runs_turnBelow {u : RbTree.Turn (Addr × δ)} {a : Addr} (ha : ptr (layout δ) sibling = some a)
    (h : RbTree.deleteTurn t ⟨side, c, e, sibling⟩ = some u) :
    Runs (Owns (rootOf (layout δ) (some e.1) path)
        (zip (layout δ) (Frame.fill ⟨side, c, e, sibling⟩ t) path + R))
      (turnBelow side e.1 a) (BehindTurn e.1 path R u) := by
  obtain ⟨⟨mid, c', e', far⟩, hchildren, hturn⟩ := Option.bind_eq_some_iff.mp h
  obtain rfl : sibling = Frame.fill ⟨side, c', e', far⟩ mid :=
    RbTree.eq_frame_of_children hchildren
  obtain rfl : e'.1 = a := Option.some.inj (ptr_frame.symm.trans ha)
  rw [turnBelow, zip_sibling]
  refine runs_deref_zip (runs_bothBlack_frame ?_)
  by_cases hboth : mid.isRed = false ∧ far.isRed = false
  · rw [if_pos hboth] at hturn
    obtain rfl := Option.some.inj hturn
    rw [hboth.1, hboth.2]
    refine runs_modify_zip rbSetRed_frameCell (Runs.pure fun s hs => ⟨rfl, ptr_frame, ?_⟩)
    rw [RbTree.setRed_frame, ptr_frame, zip_sibling]
    exact hs
  · rw [if_neg hboth] at hturn
    obtain ⟨⟨mid', c'', e'', far'⟩, hout, hdone⟩ := Option.map_eq_some_iff.mp hturn
    obtain rfl := hdone
    rw [if_neg (by simpa using hboth), ← zip_sibling]
    refine (runs_raiseInner hout).bind fun next => Runs.of_fact ?_
    rintro rfl
    refine runs_deref_zip ?_
    rw [rbColor_frameCell, zip_sibling]
    refine runs_modify_zip adxRbtreeSetColor_frameCell ?_
    rw [← zip_sibling]
    refine runs_modify_zip rbSetBlack_frameCell ?_
    rw [zip_sibling]
    refine runs_deref_zip ?_
    -- the outer child is red, so that it is a node
    obtain ⟨a, ha⟩ : ∃ a, ptr (layout δ) far' = some a := by
      apply exists_ptr
      rintro rfl
      have hred := RbTree.isRed_outward hout
      cases hred
    rw [child_other_frameCell, ha, zip_sibling]
    obtain ⟨c₁, e₁, s, t', rfl, rfl⟩ := exists_frame ha side
    refine Runs.nonNull_bind (runs_modify_zip rbSetBlack_frameCell ?_)
    rw [← zip_sibling, ← zip_sibling, rotateTo_eq]
    refine Runs.bind runs_rotate fun _ => Runs.pure fun s hs => ⟨rfl, ?_⟩
    rw [ptr_frame, RbTree.setBlack_frame]
    exact hs

/-- Behind the branch of a red sibling, the parent is red. -/
theorem runs_raiseOther {f g : Frame (Addr × δ)} {a : Addr} (ha : ptr (layout δ) sibling = some a)
    (hred : sibling.isRed = true) (h : RbTree.lower ⟨side, c, e, sibling⟩ = some (f, g))
    (hf : f.sibling ≠ .leaf) :
    Runs (Owns (rootOf (layout δ) (some e.1) path)
        (zip (layout δ) (Frame.fill ⟨side, c, e, sibling⟩ t) path + R))
      (raiseOther side e.1 a) fun next s => ptr (layout δ) f.sibling = some next ∧
        Owns (rootOf (layout δ) (some e.1) (g :: path))
          (zip (layout δ) (f.fill t) (g :: path) + R) s := by
  obtain ⟨⟨mid, c', e', far⟩, hchildren, hlower⟩ := Option.map_eq_some_iff.mp h
  obtain rfl : sibling = Frame.fill ⟨side, c', e', far⟩ mid :=
    RbTree.eq_frame_of_children hchildren
  obtain rfl : e'.1 = a := Option.some.inj (ptr_frame.symm.trans ha)
  obtain ⟨rfl, rfl⟩ := Prod.mk.inj hlower
  rw [RbTree.isRed_frame] at hred
  rw [raiseOther, zip_sibling]
  refine runs_deref_zip ?_
  rw [rbIsRed_frameCell, if_pos hred]
  refine runs_modify_zip rbSetBlack_frameCell ?_
  rw [← zip_sibling]
  refine runs_modify_zip rbSetRed_frameCell ?_
  rw [rotateTo_eq]
  refine Runs.bind runs_rotate fun _ => ?_
  obtain ⟨a, hmid⟩ := exists_ptr (δ := δ) hf
  rw [zip_frame]
  refine runs_deref_zip ?_
  rw [child_other_frameCell, hmid]
  exact Runs.nonNull_bind (Runs.pure fun s hs => ⟨rfl, hs⟩)

/-- The first steps of a turn: the sibling is a node. -/
theorem runs_deleteTurn_bind {a : Addr} {S : Bool → State (Option Addr) Addr (Node δ) → Prop}
    (ha : ptr (layout δ) sibling = some a)
    (h : Runs (Owns (rootOf (layout δ) (some e.1) path)
        (zip (layout δ) (Frame.fill ⟨side, c, e, sibling⟩ t) path + R))
      (raiseOther side e.1 a >>= turnBelow side e.1) S) :
    Runs (Owns (rootOf (layout δ) (some e.1) path)
        (zip (layout δ) (Frame.fill ⟨side, c, e, sibling⟩ t) path + R)) (deleteTurn side e.1) S := by
  refine runs_deref_zip ?_
  rw [child_other_frameCell, ha]
  exact Runs.nonNull_bind h

/-- The whole turn, with a black sibling. -/
theorem runs_deleteTurn_black {u : RbTree.Turn (Addr × δ)} (hblack : sibling.isRed = false)
    (h : RbTree.deleteTurn t ⟨side, c, e, sibling⟩ = some u) :
    Runs (Owns (rootOf (layout δ) (some e.1) path)
        (zip (layout δ) (Frame.fill ⟨side, c, e, sibling⟩ t) path + R))
      (deleteTurn side e.1) (BehindTurn e.1 path R u) := by
  obtain ⟨⟨mid, c', e', far⟩, hchildren, -⟩ := Option.bind_eq_some_iff.mp h
  have hfill : sibling = Frame.fill ⟨side, c', e', far⟩ mid :=
    RbTree.eq_frame_of_children hchildren
  have ha : ptr (layout δ) sibling = some e'.1 := by
    rw [hfill]
    exact ptr_frame
  refine runs_deleteTurn_bind ha ?_
  rw [raiseOther, bind_assoc, zip_sibling]
  refine runs_deref_node ha fun n _ hn => ?_
  rw [hn, if_neg (by simp [hblack]), pure_bind, ← zip_sibling]
  exact runs_turnBelow ha h

/-- The whole turn, with a red sibling. -/
theorem runs_deleteTurn_red {u : RbTree.Turn (Addr × δ)} {f g : Frame (Addr × δ)}
    (hred : sibling.isRed = true) (hlower : RbTree.lower ⟨side, c, e, sibling⟩ = some (f, g))
    (h : RbTree.deleteTurn t f = some u) :
    Runs (Owns (rootOf (layout δ) (some e.1) path)
        (zip (layout δ) (Frame.fill ⟨side, c, e, sibling⟩ t) path + R))
      (deleteTurn side e.1) (BehindTurn e.1 (g :: path) R u) := by
  obtain ⟨a, ha⟩ : ∃ a, ptr (layout δ) sibling = some a := by
    apply exists_ptr
    rintro rfl
    cases hred
  have hf : f.side = side ∧ f.entry = e := by
    obtain ⟨top, -, htop⟩ := Option.map_eq_some_iff.mp hlower
    obtain ⟨rfl, -⟩ := Prod.mk.inj htop
    exact ⟨rfl, rfl⟩
  obtain ⟨side', c', e', s⟩ := f
  obtain ⟨rfl, rfl⟩ : side' = side ∧ e' = e := hf
  have hs : s ≠ .leaf := by
    rintro rfl
    obtain ⟨top, htop, -⟩ := Option.bind_eq_some_iff.mp h
    cases side' <;> cases htop
  refine runs_deleteTurn_bind ha ((runs_raiseOther ha hred hlower hs).bind fun next => ?_)
  exact Runs.of_fact fun hnext => runs_turnBelow hnext h

/-! ## The loop -/

/-- The root of a path is a node of the path. -/
theorem exists_root {hole : Option Addr} {f : Frame (Addr × δ)} : ∃ b y,
    rootOf (layout δ) hole (f :: path) = some b ∧ (b, y) ∈ pathCells (layout δ) hole (f :: path) := by
  induction path generalizing f hole with
  | nil => exact ⟨f.entry.1, _, rfl, Multiset.mem_add.mpr (.inl (Multiset.mem_singleton_self _))⟩
  | cons g path ih =>
    obtain ⟨b, y, hb, hy⟩ := @ih (some f.entry.1) g
    refine ⟨b, y, hb, ?_⟩
    exact Multiset.mem_add.mpr (.inr (Multiset.mem_add.mpr (.inr hy)))

/-- What is below a path is not the root. -/
theorem ptr_ne_rootOf {f : Frame (Addr × δ)}
    (h : ((zip (layout δ) t (f :: path) + R).map Prod.fst).Nodup) :
    ptr (layout δ) t ≠ rootOf (layout δ) (ptr (layout δ) t) (f :: path) := by
  intro heq
  obtain ⟨b, y, hb, hy⟩ := @exists_root δ path (ptr (layout δ) t) f
  obtain ⟨x, hx⟩ : ∃ x, (b, x) ∈ cells (layout δ) (parentOf (layout δ) (f :: path)) t :=
    exists_mem_cells (heq.trans hb)
  rw [zip, add_assoc] at h
  exact ne_of_nodup_map h hx (Multiset.mem_add.mpr (.inl hy)) rfl

/-- The loop ends at a red node, or at the root. -/
theorem runs_deleteColorLoop_end {fuel : ℕ} (h : t.isRed = true ∨ path = []) :
    Runs (Owns (rootOf (layout δ) (ptr (layout δ) t) path) (zip (layout δ) t path + R))
      (deleteColorLoop (fuel + 1) (ptr (layout δ) t) (parentOf (layout δ) path)) fun node s =>
        node = ptr (layout δ) t ∧
        Owns (rootOf (layout δ) (ptr (layout δ) t) path) (zip (layout δ) t path + R) s := by
  rw [zip, add_assoc, deleteColorLoop]
  refine runs_isNullOrBlack (Runs.vars_bind ?_)
  rw [if_neg]
  · exact Runs.pure fun s hs => ⟨rfl, hs⟩
  · rintro ⟨hblack, hne⟩
    rcases h with hred | rfl
    · rw [hred] at hblack
      cases hblack
    · exact hne rfl

/-- At a black node below a path, the loop takes a turn. -/
theorem runs_deleteColorLoop_turn {fuel : ℕ}
    {S : Option Addr → State (Option Addr) Addr (Node δ) → Prop}
    (hred : t.isRed = false) (hsibling : sibling ≠ .leaf)
    (h : Runs (Owns (rootOf (layout δ) (some e.1) path)
        (zip (layout δ) (Frame.fill ⟨side, c, e, sibling⟩ t) path + R))
      (deleteTurn side e.1 >>= fun up =>
        if up then (do
          let p ← deref e.1
          deleteColorLoop fuel (some e.1) (rbParent p))
        else vars) S) :
    Runs (Owns (rootOf (layout δ) (ptr (layout δ) t) (⟨side, c, e, sibling⟩ :: path))
        (zip (layout δ) t (⟨side, c, e, sibling⟩ :: path) + R))
      (deleteColorLoop (fuel + 1) (ptr (layout δ) t)
        (parentOf (layout δ) (⟨side, c, e, sibling⟩ :: path))) S := by
  refine Runs.of_owns fun hapart => ?_
  have hroot := ptr_ne_rootOf hapart
  have hne : ptr (layout δ) sibling ≠ ptr (layout δ) t := by
    obtain ⟨a, ha⟩ := exists_ptr (δ := δ) hsibling
    rw [ha]
    rw [← zip_frame] at hapart
    exact fun heq => ptr_sibling_ne hapart heq.symm ha
  rw [zip, add_assoc, deleteColorLoop]
  refine runs_isNullOrBlack (Runs.vars_bind ?_)
  rw [if_pos ⟨by simp [hred], hroot⟩, ← add_assoc, ← zip, ← zip_frame]
  refine Runs.nonNull_bind (runs_deref_zip ?_)
  -- the side on which the node is
  have hside : (if (frameCell (layout δ) (parentOf (layout δ) path) (ptr (layout δ) t)
      ⟨side, c, e, sibling⟩).rbLeft = ptr (layout δ) t then Side.left else Side.right) = side := by
    cases side with
    | left => exact if_pos rfl
    | right => exact if_neg hne
  rw [hside]
  exact h

/-- Where the loop has ended, the root of the tree has to become black. -/
def LoopEnds (t' : RbTree (Addr × δ)) (R : Multiset (Addr × Node δ)) (node : Option Addr)
    (s : State (Option Addr) Addr (Node δ)) : Prop :=
  ∃ t path, node = ptr (layout δ) t ∧ t' = RbTree.fill t.setBlack path ∧
    Owns (rootOf (layout δ) (ptr (layout δ) t) path) (zip (layout δ) t path + R) s

/-- Behind the last turn, `node` is the root. -/
theorem runs_vars_root : Runs (Owns (rootOf (layout δ) (ptr (layout δ) t) path)
    (zip (layout δ) t path + R)) vars (LoopEnds (RbTree.fill t path).setBlack R) := by
  refine Runs.congr (Runs.vars_bind (Runs.pure fun s hs => ?_)) (bind_pure _).symm
  refine ⟨RbTree.fill t path, [], ptr_fill.symm, rfl, ?_⟩
  rw [zip_fill] at hs
  rw [rootOf, ptr_fill, zip_fill]
  exact hs

/-- Behind a turn that is not the last, the loop goes on at the parent. -/
theorem runs_up {fuel : ℕ} {a : Addr} {up : Bool}
    {S : Option Addr → State (Option Addr) Addr (Node δ) → Prop}
    (h : Runs (Owns (rootOf (layout δ) (ptr (layout δ) t) path) (zip (layout δ) t path + R))
      (deleteColorLoop fuel (ptr (layout δ) t) (parentOf (layout δ) path)) S) :
    Runs (BehindTurn a path R (.up t) up)
      (if up then (do
        let p ← deref a
        deleteColorLoop fuel (some a) (rbParent p))
      else vars) S := by
  refine Runs.of_fact ?_
  rintro rfl
  refine Runs.of_fact fun ha => ?_
  rw [if_pos rfl]
  refine runs_deref_node ha fun n hparent _ => ?_
  rwa [hparent, ← ha]

/-- Behind the last turn, the loop ends. -/
theorem runs_done {fuel : ℕ} {a : Addr} {up : Bool} :
    Runs (BehindTurn a path R (.done t) up)
      (if up then (do
        let p ← deref a
        deleteColorLoop fuel (some a) (rbParent p))
      else vars) (LoopEnds (RbTree.fill t path).setBlack R) := by
  refine Runs.of_fact ?_
  rintro rfl
  exact runs_vars_root

/-- The loop does what the library does, up to a color. -/
theorem runs_deleteColorLoop {fuel : ℕ} {t' : RbTree (Addr × δ)}
    (h : RbTree.deleteColor t path = some t') (hfuel : path.length + 2 < fuel) :
    Runs (Owns (rootOf (layout δ) (ptr (layout δ) t) path) (zip (layout δ) t path + R))
      (deleteColorLoop fuel (ptr (layout δ) t) (parentOf (layout δ) path)) (LoopEnds t' R) := by
  obtain ⟨fuel, rfl⟩ : ∃ n, fuel = n + 1 := ⟨fuel - 1, by omega⟩
  induction path generalizing t fuel with
  | nil =>
    obtain rfl := Option.some.inj h
    refine (runs_deleteColorLoop_end (.inr rfl)).mono (fun _ h => h) fun node s hs => ?_
    exact ⟨t, [], hs.1, rfl, hs.2⟩
  | cons parent path ih =>
    obtain ⟨side, c, e, sibling⟩ := parent
    rw [RbTree.deleteColor] at h
    split_ifs at h with hred hsred
    · obtain rfl := Option.some.inj h
      refine (runs_deleteColorLoop_end (.inl hred)).mono (fun _ h => h) fun node s hs => ?_
      exact ⟨t, _, hs.1, rfl, hs.2⟩
    · obtain ⟨⟨f, g⟩, hlower, h⟩ := Option.bind_eq_some_iff.mp h
      obtain ⟨u, hturn, rfl⟩ := Option.map_eq_some_iff.mp h
      have hsibling : sibling ≠ .leaf := by
        rintro rfl
        cases hsred
      refine runs_deleteColorLoop_turn (Bool.eq_false_iff.mpr hred) hsibling ?_
      refine (runs_deleteTurn_red hsred hlower hturn).bind fun up => ?_
      rw [List.length_cons] at hfuel
      cases u with
      | up t₁ =>
        -- the parent is red, so that the loop ends there
        obtain ⟨fuel, rfl⟩ : ∃ n, fuel = n + 1 := ⟨fuel - 1, by omega⟩
        have hred₁ := RbTree.isRed_up hturn (RbTree.color_lower hlower)
        refine runs_up ((runs_deleteColorLoop_end (.inl hred₁)).mono (fun _ h => h) fun node s hs => ?_)
        exact ⟨t₁, _, hs.1, rfl, hs.2⟩
      | done t₁ => exact runs_done
    · obtain ⟨u, hturn, h⟩ := Option.bind_eq_some_iff.mp h
      have hsibling : sibling ≠ .leaf := by
        rintro rfl
        obtain ⟨top, htop, -⟩ := Option.bind_eq_some_iff.mp hturn
        cases side <;> cases htop
      refine runs_deleteColorLoop_turn (Bool.eq_false_iff.mpr hred) hsibling ?_
      refine (runs_deleteTurn_black (Bool.eq_false_iff.mpr hsred) hturn).bind fun up => ?_
      rw [List.length_cons] at hfuel
      cases u with
      | up t₁ =>
        obtain ⟨fuel, rfl⟩ : ∃ n, fuel = n + 1 := ⟨fuel - 1, by omega⟩
        exact runs_up (ih h fuel (by omega))
      | done t₁ =>
        obtain rfl := Option.some.inj h
        exact runs_done

/-- `adx_rbtree_delete_color` below a path. -/
theorem runs_adxRbtreeDeleteColor {fuel : ℕ} {t' : RbTree (Addr × δ)}
    (h : RbTree.deleteColor t path = some t') (hfuel : path.length + 2 < fuel) :
    Runs (Owns (rootOf (layout δ) (ptr (layout δ) t) path) (zip (layout δ) t path + R))
      (adxRbtreeDeleteColor fuel (ptr (layout δ) t) (parentOf (layout δ) path)) fun _ =>
      Owns (ptr (layout δ) t') (cells (layout δ) none t' + R) := by
  refine (runs_deleteColorLoop h hfuel).bind fun node s hs => ?_
  obtain ⟨t₁, path₁, rfl, rfl, hs⟩ := hs
  revert s
  rw [ptr_fill, ← zip_fill, ptr_setBlack]
  cases t₁ with
  | leaf => exact Runs.pure fun s hs => hs
  | node c l a r =>
    have hroot : RbTree.node c l a r = Frame.fill ⟨.left, c, a, r⟩ l := rfl
    rw [hroot, ptr_frame, RbTree.setBlack_frame]
    exact Runs.congr (runs_modify_zip rbSetBlack_frameCell (Runs.pure fun s hs => hs))
      (bind_pure _).symm

/-! ## Unlinking a node -/

/-- The root of a tree gets another parent. -/
theorem runs_setParentOf : Runs (Owns r (cells (layout δ) q t + R))
    (setParentOf q' (ptr (layout δ) t)) fun _ => Owns r (cells (layout δ) q' t + R) := by
  cases t with
  | leaf => exact Runs.pure fun s hs => hs
  | node c l a u =>
    have hroot : RbTree.node c l a u = Frame.fill ⟨.left, c, a, u⟩ l := rfl
    simp only [hroot, ptr_frame, cells_frame, add_assoc,
      ← @adxRbtreeSetParent_frameCell δ .left c a u q q']
    exact @Runs.modify _ _ _ _ _ a.1 _ _ _

/-- Another parent for the root of a subtree. -/
theorem runs_setParent {a : Addr} (ha : ptr (layout δ) t = some a) :
    Runs (Owns r (cells (layout δ) q t + R)) (modify a (adxRbtreeSetParent q')) fun _ =>
      Owns r (cells (layout δ) q' t + R) := by
  have h := @runs_setParentOf δ t r q q' R
  rw [ha] at h
  exact h

/-- What a path has of its hole is changed to another tree, or to none. -/
theorem runs_replaceIn {x : Node δ} :
    Runs (Owns (rootOf (layout δ) (some e.1) path)
      (pathCells (layout δ) (some e.1) path + ({(e.1, x)} + R)))
      (replaceIn e.1 p (parentOf (layout δ) path)) fun _ =>
      Owns (rootOf (layout δ) p path) (pathCells (layout δ) p path + ({(e.1, x)} + R)) := by
  cases path with
  | nil => exact Runs.assign
  | cons g path =>
    obtain ⟨side, c, a, sibling⟩ := g
    simp only [pathCells_frame, rootOf]
    refine Runs.of_owns fun hapart => ?_
    -- the node is not the other child
    have hne : ptr (layout δ) sibling ≠ some e.1 := by
      intro h
      obtain ⟨y, hy⟩ : ∃ y, (e.1, y) ∈ cells (layout δ) (some a.1) sibling := exists_mem_cells h
      exact ne_of_nodup_map hapart
        (Multiset.mem_add.mpr (.inr (Multiset.mem_add.mpr (.inl hy))))
        (Multiset.mem_add.mpr (.inl (Multiset.mem_singleton_self (e.1, x)))) rfl
    simp only [add_assoc]
    refine Runs.deref_bind ?_
    cases side with
    | left => exact Runs.congr Runs.modify (if_pos rfl)
    | right => exact Runs.congr Runs.modify (if_neg hne)

/-- The last step: without a black node, the tree is recolored. -/
theorem runs_spliced {fuel : ℕ} {t' : RbTree (Addr × δ)} (h : RbTree.splice c t path = some t')
    (hfuel : path.length + 2 < fuel) :
    Runs (Owns (rootOf (layout δ) (ptr (layout δ) t) path) (zip (layout δ) t path + R))
      (if colorBit c = 1 then adxRbtreeDeleteColor fuel (ptr (layout δ) t) (parentOf (layout δ) path)
        else pure ()) fun _ => Owns (ptr (layout δ) t') (cells (layout δ) none t' + R) := by
  cases c with
  | black => exact runs_adxRbtreeDeleteColor h hfuel
  | red =>
    obtain rfl := Option.some.inj h
    rw [ptr_fill, ← zip_fill]
    exact Runs.pure fun s hs => hs

/-- A node with one child is unlinked, and has its pointers still. -/
theorem runs_deleteAbove {fuel : ℕ} {t' : RbTree (Addr × δ)} (h : RbTree.splice c t path = some t')
    (hfuel : path.length + 2 < fuel) :
    Runs (Owns (rootOf (layout δ) (some e.1) path)
        (zip (layout δ) (Frame.fill ⟨side, c, e, .leaf⟩ t) path + R))
      (deleteAbove fuel e.1 (ptr (layout δ) t)) fun _ s => ∃ n : Node δ, n.data = e.2 ∧
        Owns (ptr (layout δ) t') (cells (layout δ) none t' + ({(e.1, n)} + R)) s := by
  refine runs_deref_zip ?_
  rw [zip_root, cells_leaf, add_zero, rbParent_frameCell, rbColor_frameCell]
  have hdata : (frameCell (layout δ) (parentOf (layout δ) path) (ptr (layout δ) t)
      ⟨side, c, e, .leaf⟩).data = e.2 := by
    cases side <;> rfl
  generalize frameCell (layout δ) (parentOf (layout δ) path) (ptr (layout δ) t)
    ⟨side, c, e, .leaf⟩ = x at hdata ⊢
  refine Runs.pre (Runs.bind (runs_setParentOf (t := t) (R := {(e.1, x)} +
    (pathCells (layout δ) (some e.1) path + R))) fun _ => ?_) (by abel)
  refine Runs.pre (Runs.bind (runs_replaceIn (R := cells (layout δ) (parentOf (layout δ) path) t +
    R)) fun _ => ?_) (by abel)
  refine Runs.pre ((runs_spliced (R := {(e.1, x)} + R) h hfuel).mono (fun _ h => h)
    fun _ s hs => ⟨x, hdata, hs⟩) ?_
  rw [zip]
  abel

/-- The loop goes to the first node of a tree. -/
theorem leftmostLoop_eq {s : State (Option Addr) Addr (Node δ)} {fuel : ℕ} {a : Addr}
    {inner inner' : List (Frame (Addr × δ))} (hs : Owns r (cells (layout δ) q t + R) s)
    (ha : ptr (layout δ) t = some a) (h : RbTree.leftmost t inner = some (inner', c', e', far))
    (hfuel : t.toList.length < fuel) : leftmostLoop fuel a s = some (e'.1, s) := by
  induction t generalizing a q R inner fuel with
  | leaf => cases ha
  | node c l e u ihl _ =>
    obtain ⟨fuel, rfl⟩ : ∃ n, fuel = n + 1 := ⟨fuel - 1, by omega⟩
    rw [RbTree.toList_node, List.length_append, List.length_cons] at hfuel
    obtain rfl : e.1 = a := Option.some.inj ha
    have hroot : cells (layout δ) q (.node c l e u) =
        {(e.1, ⟨pack q c, ptr (layout δ) u, ptr (layout δ) l, e.2⟩)} +
          (cells (layout δ) (some e.1) l + cells (layout δ) (some e.1) u) := rfl
    rw [hroot, add_assoc] at hs
    refine (bind_apply hs.deref).trans ?_
    cases l with
    | leaf =>
      cases h
      rfl
    | node c₁ l₁ e₁ u₁ =>
      refine ihl (q := some e.1) (R := {(e.1, ⟨pack q c, ptr (layout δ) u,
        ptr (layout δ) (.node c₁ l₁ e₁ u₁), e.2⟩)} + (cells (layout δ) (some e.1) u + R)) ?_ rfl h
          (by omega)
      convert hs using 1
      abel

/-- A node without a left child. -/
theorem cells_first : cells (layout δ) q (.node c .leaf e t) =
    {(e.1, (⟨pack q c, ptr (layout δ) t, none, e.2⟩ : Node δ))} + cells (layout δ) (some e.1) t :=
  congrArg ({(e.1, (⟨pack q c, ptr (layout δ) t, none, e.2⟩ : Node δ))} + ·) (zero_add _)

/-- A tree that begins with an entry, seen from the node above it. -/
theorem exists_cells_first (q : Option Addr) (g : Frame (Addr × δ)) (inner : List (Frame (Addr × δ))) :
    ∃ q' M,
      (∀ c e t, cells (layout δ) q (RbTree.fill (.node c .leaf e t) (g :: inner)) =
        {(e.1, (⟨pack (some g.entry.1) c, ptr (layout δ) t, none, e.2⟩ : Node δ))} +
          (cells (layout δ) (some e.1) t +
            ({(g.entry.1, frameCell (layout δ) q' (some e.1) g)} + M))) ∧
      ∀ t, cells (layout δ) q (RbTree.fill t (g :: inner)) =
        cells (layout δ) (some g.entry.1) t +
          ({(g.entry.1, frameCell (layout δ) q' (ptr (layout δ) t) g)} + M) := by
  obtain ⟨q', M, hM⟩ := exists_cells_fill (L := layout δ) q g inner
  refine ⟨q', M, fun c e t => ?_, fun t => ?_⟩
  · have hptr : ptr (layout δ) (.node c .leaf e t) = some e.1 := rfl
    rw [hM, hptr, layout_addr, cells_first]
    abel
  · rw [hM, layout_addr]
    abel

/-- The next entry is taken out of the right subtree, which comes below it. -/
theorem runs_takeNext {inner : List (Frame (Addr × δ))} {l : RbTree (Addr × δ)} {O : Node δ}
    (hinner : RbTree.before inner = [])
    (hright : O.rbRight = ptr (layout δ) (RbTree.fill (.node c' .leaf e' t) inner)) :
    Runs (Owns r (cells (layout δ) (some e.1) (RbTree.fill (.node c' .leaf e' t) inner) +
        ({(e.1, O)} + R)))
      (takeNext e.1 e'.1) fun parent s =>
        some parent = parentOf (layout δ) (inner ++ ⟨.right, c, e', l⟩ :: path) ∧
        ∃ w, Owns r ({(e'.1, ⟨w, ptr (layout δ) (RbTree.fill t inner), none, e'.2⟩)} +
          (cells (layout δ) (some e'.1) (RbTree.fill t inner) + ({(e.1, O)} + R))) s := by
  cases inner with
  | nil =>
    change Runs (Owns r (cells (layout δ) (some e.1) (.node c' .leaf e' t) + ({(e.1, O)} + R))) _ _
    rw [cells_first, add_assoc]
    refine Runs.deref_bind ?_
    have hparent : rbParent (⟨pack (some e.1) c', ptr (layout δ) t, none, e'.2⟩ : Node δ) = some e.1 :=
      toPointer_pack
    rw [if_pos hparent]
    exact Runs.pure fun s hs => ⟨rfl, _, hs⟩
  | cons g inner =>
    obtain ⟨q', M, hfirst, hrest⟩ := exists_cells_first (some e.1) g inner
    obtain ⟨side, gc, ge, gs⟩ := g
    obtain ⟨rfl, -⟩ : side = .left ∧ _ := RbTree.side_of_before hinner
    -- the root of the right subtree is not the node that is taken
    have hptr : ptr (layout δ) (RbTree.fill (.node c' .leaf e' t) (⟨.left, gc, ge, gs⟩ :: inner)) =
        ptr (layout δ) (RbTree.fill t (⟨.left, gc, ge, gs⟩ :: inner)) := by
      rw [ptr_fill, ptr_fill]
      rfl
    obtain ⟨a, ha⟩ : ∃ a, ptr (layout δ) (RbTree.fill t (⟨.left, gc, ge, gs⟩ :: inner)) = some a := by
      rw [ptr_fill]
      obtain ⟨b, -, hb, -⟩ := @exists_root δ inner (ptr (layout δ) t) ⟨.left, gc, ge, gs⟩
      exact ⟨b, hb⟩
    rw [hptr] at hright
    rw [hfirst, add_assoc]
    generalize hE : (⟨pack (some ge.1) c', ptr (layout δ) t, none, e'.2⟩ : Node δ) = E
    obtain ⟨hparent, hchild⟩ : rbParent E = some ge.1 ∧ E.rbRight = ptr (layout δ) t := by
      rw [← hE]
      exact ⟨toPointer_pack, rfl⟩
    refine Runs.deref_bind (Runs.of_owns fun hapart => ?_)
    generalize hF : frameCell (layout δ) q' (some e'.1) ⟨.left, gc, ge, gs⟩ = F at hapart ⊢
    have hne : ge.1 ≠ e.1 := by
      have hsplit : {(e'.1, E)} +
          (cells (layout δ) (some e'.1) t + ({(ge.1, F)} + M) + ({(e.1, O)} + R)) =
          {(ge.1, F)} + ({(e.1, O)} + ({(e'.1, E)} +
            (cells (layout δ) (some e'.1) t + (M + R)))) := by abel
      rw [hsplit] at hapart
      exact ne_of_nodup_map hapart (Multiset.mem_singleton_self _)
        (Multiset.mem_add.mpr (.inl (Multiset.mem_singleton_self _)))
    rw [hparent, if_neg (by simpa using hne)]
    refine Runs.nonNull_bind ?_
    -- the right child of the node comes to its place
    rw [hchild]
    refine Runs.pre (Runs.bind (runs_setParentOf (t := t)
      (R := {(ge.1, F)} + (M + ({(e'.1, E)} + ({(e.1, O)} + R))))) fun _ => ?_) (by abel)
    refine Runs.pre (Runs.modify_bind (a := ge.1) (c := F) (N := cells (layout δ) (some ge.1) t +
      (M + ({(e'.1, E)} + ({(e.1, O)} + R)))) ?_) (by abel)
    rw [← hF, setChild_frameCell]
    have hbelow := hrest t
    generalize frameCell (layout δ) q' (ptr (layout δ) t) ⟨.left, gc, ge, gs⟩ = F' at hbelow ⊢
    refine Runs.pre (Runs.deref_bind (a := e.1) (c := O) (N := {(e'.1, E)} +
      (cells (layout δ) (some ge.1) t + ({(ge.1, F')} + M) + R)) ?_) (by abel)
    refine Runs.pre (Runs.modify_bind (a := e'.1) ?_) (add_left_comm _ _ _)
    rw [hright, ha]
    refine Runs.nonNull_bind ?_
    generalize hN : setChild .right (some a) E = N
    refine Runs.pre (Runs.bind (runs_setParent ha) fun _ => ?_) (N := cells (layout δ) (some e.1)
      (RbTree.fill t (⟨.left, gc, ge, gs⟩ :: inner)) + ({(e'.1, N)} + ({(e.1, O)} + R)))
        (by rw [hbelow]; abel)
    refine Runs.pure fun s hs => ⟨rfl, pack (some ge.1) c', ?_⟩
    rw [← hN, ← hE, add_left_comm] at hs
    exact hs

/-- What is read of the next entry. -/
theorem exists_cell_next {inner : List (Frame (Addr × δ))} (q : Option Addr) : ∃ w M,
    cells (layout δ) q (RbTree.fill (.node c' .leaf e' t) inner) =
      {(e'.1, (⟨pack w c', ptr (layout δ) t, none, e'.2⟩ : Node δ))} + M := by
  cases inner with
  | nil => exact ⟨q, _, cells_first⟩
  | cons g inner =>
    obtain ⟨q', M, hfirst, -⟩ := exists_cells_first q g inner
    exact ⟨some g.entry.1, _, hfirst c' e' t⟩

/-- A node with two children is unlinked, and the next one has its place. -/
theorem runs_deleteBetween {fuel : ℕ} {inner : List (Frame (Addr × δ))} {l u t' : RbTree (Addr × δ)}
    {a : Addr} (hl : l ≠ .leaf) (ha : ptr (layout δ) u = some a)
    (hnext : RbTree.leftmost u [] = some (inner, c', e', t))
    (hu : u = RbTree.fill (.node c' .leaf e' t) inner) (hinner : RbTree.before inner = [])
    (h : RbTree.splice c' t (inner ++ ⟨.right, c, e', l⟩ :: path) = some t')
    (hfuel : (inner ++ ⟨.right, c, e', l⟩ :: path).length + 2 < fuel)
    (hlength : u.toList.length < fuel) :
    Runs (Owns (rootOf (layout δ) (some e.1) path) (zip (layout δ) (.node c l e u) path + R))
      (deleteBetween fuel e.1 a) fun _ s => ∃ n : Node δ, n.data = e.2 ∧
        Owns (ptr (layout δ) t') (cells (layout δ) none t' + ({(e.1, n)} + R)) s := by
  generalize hO : (⟨pack (parentOf (layout δ) path) c, ptr (layout δ) u, ptr (layout δ) l, e.2⟩ :
    Node δ) = O
  have hroot : zip (layout δ) (.node c l e u) path = {(e.1, O)} + (cells (layout δ) (some e.1) l +
      cells (layout δ) (some e.1) u) + pathCells (layout δ) (some e.1) path := by
    rw [← hO]
    rfl
  rw [hroot]
  refine Runs.reads_bind (x := e'.1) (fun s hs => ?_) ?_
  · have hs' : Owns (rootOf (layout δ) (some e.1) path) (cells (layout δ) (some e.1) u + ({(e.1, O)} +
        (cells (layout δ) (some e.1) l + (pathCells (layout δ) (some e.1) path + R)))) s := by
      convert hs using 1
      abel
    exact leftmostLoop_eq hs' ha hnext hlength
  -- what is above the node leads to the next one
  rw [hu] at *
  generalize hT : RbTree.fill (.node c' .leaf e' t) inner = T at *
  obtain ⟨hparent, hright, hleft⟩ : rbParent O = parentOf (layout δ) path ∧
      O.rbRight = ptr (layout δ) T ∧ O.rbLeft = ptr (layout δ) l := by
    rw [← hO]
    exact ⟨toPointer_pack, rfl, rfl⟩
  refine Runs.pre (Runs.deref_bind (a := e.1) (c := O) (N := cells (layout δ) (some e.1) l +
    cells (layout δ) (some e.1) T + pathCells (layout δ) (some e.1) path + R) ?_) (by abel)
  rw [hparent]
  refine Runs.pre (Runs.bind (runs_replaceIn (p := some e'.1) (R := cells (layout δ) (some e.1) l +
    (cells (layout δ) (some e.1) T + R))) fun _ => ?_) (by abel)
  -- what is read of the next one, before it is taken
  obtain ⟨w, M, hM⟩ := @exists_cell_next δ c' e' t inner (some e.1)
  rw [hT] at hM
  refine Runs.pre (Runs.deref_bind (a := e'.1) (c := ⟨pack w c', ptr (layout δ) t, none, e'.2⟩)
    (N := M + (pathCells (layout δ) (some e'.1) path + ({(e.1, O)} +
      (cells (layout δ) (some e.1) l + R)))) ?_) (by rw [hM]; abel)
  have hcolor : rbColor (⟨pack w c', ptr (layout δ) t, none, e'.2⟩ : Node δ) = colorBit c' :=
    pack_and_one
  rw [hcolor]
  have htake := @runs_takeNext δ c c' e e' t path (rootOf (layout δ) (some e'.1) path)
    (cells (layout δ) (some e.1) l + (pathCells (layout δ) (some e'.1) path + R)) inner l O hinner
    (by rw [hT]; exact hright)
  rw [hT] at htake
  refine Runs.pre (Runs.bind htake fun parent => Runs.of_fact fun hparent' => ?_)
    (by rw [hM]; abel)
  rintro s ⟨w', hs⟩
  revert s
  generalize hV : RbTree.fill t inner = V
  -- the next one gets the color, the parent and the left child
  refine Runs.pre (Runs.deref_bind (a := e.1) (c := O) (N := {(e'.1,
    ⟨w', ptr (layout δ) V, none, e'.2⟩)} + (cells (layout δ) (some e'.1) V +
      (cells (layout δ) (some e.1) l + (pathCells (layout δ) (some e'.1) path + R)))) ?_) (by abel)
  refine Runs.pre (Runs.modify_bind (a := e'.1) (Runs.modify_bind ?_)) (add_left_comm _ _ _)
  have hcell : setChild .left O.rbLeft { (⟨w', ptr (layout δ) V, none, e'.2⟩ : Node δ) with
      rbParentColor := O.rbParentColor } =
        frameCell (layout δ) (parentOf (layout δ) path) (ptr (layout δ) V) ⟨.right, c, e', l⟩ := by
    rw [← hO]
    rfl
  obtain ⟨b, hb⟩ := exists_ptr (δ := δ) hl
  rw [hcell, hleft, hb]
  refine Runs.nonNull_bind ?_
  generalize hX : frameCell (layout δ) (parentOf (layout δ) path) (ptr (layout δ) V)
    ⟨.right, c, e', l⟩ = X
  refine Runs.pre (Runs.bind (runs_setParent hb) fun _ => ?_) (N := cells (layout δ) (some e.1) l +
    ({(e'.1, X)} + ({(e.1, O)} + (cells (layout δ) (some e'.1) V +
      (pathCells (layout δ) (some e'.1) path + R))))) (by abel)
  -- the tree behind it, seen from the old place of the next one
  have hzip : zip (layout δ) t (inner ++ ⟨.right, c, e', l⟩ :: path) = {(e'.1, X)} +
      (cells (layout δ) (some e'.1) V + cells (layout δ) (some e'.1) l +
        pathCells (layout δ) (some e'.1) path) := by
    rw [← zip_append, hV, ← zip_frame, zip_root, hX]
  have hroot' : rootOf (layout δ) (some e'.1) path =
      rootOf (layout δ) (ptr (layout δ) t) (inner ++ ⟨.right, c, e', l⟩ :: path) := by
    rw [← ptr_fill, RbTree.fill_append, ptr_fill]
    rfl
  rw [hroot', hparent']
  refine Runs.pre ((runs_spliced (R := {(e.1, O)} + R) h hfuel).mono (fun _ h => h)
    fun _ s hs => ⟨O, by rw [← hO], hs⟩) ?_
  rw [hzip]
  abel

/-- A deletion in memory is one of the tree; the node is unlinked, and its data is what it was. -/
theorem runs_adxRbtreeDelete {fuel : ℕ} {l u t' : RbTree (Addr × δ)}
    (h : RbTree.delete path c l u = some t')
    (hfuel : (RbTree.fill (.node c l e u) path).toList.length + 2 < fuel) :
    Runs (Owns (rootOf (layout δ) (some e.1) path) (zip (layout δ) (.node c l e u) path + R))
      (adxRbtreeDelete fuel e.1) fun _ s => ∃ n : Node δ, n.data = e.2 ∧
        Owns (ptr (layout δ) t') (cells (layout δ) none t' + ({(e.1, n)} + R)) s := by
  have hlength := lt_of_le_of_lt (Nat.add_le_add_right
    (@RbTree.length_le_toList_fill _ (.node c l e u) path) 2) hfuel
  rw [RbTree.toList_node, List.length_append, List.length_cons] at hlength
  have hpath : path.length + 2 < fuel := by omega
  have hl : RbTree.node c l e u = Frame.fill ⟨.left, c, e, u⟩ l := rfl
  have hu : RbTree.node c l e u = Frame.fill ⟨.right, c, e, l⟩ u := rfl
  rw [hl]
  refine runs_deref_zip ?_
  rw [← hl]
  match l, u with
  | .leaf, u =>
    exact @runs_deleteAbove δ .right c e u path R fuel t' h hpath
  | .node c₁ l₁ e₁ r₁, .leaf =>
    exact @runs_deleteAbove δ .left c e (.node c₁ l₁ e₁ r₁) path R fuel t' h hpath
  | .node c₁ l₁ e₁ r₁, .node c₂ l₂ e₂ r₂ =>
    obtain ⟨inner, c', e', t, hnext, hfill, hbefore⟩ :=
      RbTree.leftmost_spec (t := .node c₂ l₂ e₂ r₂) [] nofun
    rw [List.append_nil] at hnext
    have hsplice : RbTree.splice c' t (inner ++ ⟨.right, c, e', .node c₁ l₁ e₁ r₁⟩ :: path) =
        some t' := by
      change (RbTree.leftmost (.node c₂ l₂ e₂ r₂) []).bind _ = _ at h
      rw [hnext] at h
      exact h
    have hinner := @RbTree.length_le_toList_fill _ (.node c' .leaf e' t) inner
    rw [← hfill, RbTree.toList_node, List.length_append, List.length_cons] at hinner
    refine runs_deleteBetween nofun rfl hnext hfill hbefore hsplice ?_ (by omega)
    rw [List.length_append, List.length_cons]
    omega

end

/-! ## Additions and deletions -/

section

variable {δ ι : Type} [Ord ι] {key : δ → Option ι} {k : ι} {t : RbTree (Addr × δ)} {e : Addr × δ}
  {linked : List (Addr × δ)} {nodes : List (Addr × Node δ)} {r : Option Addr}
  {R : Multiset (Addr × Node δ)} {s : State (Option Addr) Addr (Node δ)} {fuel : ℕ}

/-- A call of one of the functions that change a tree, for a node with its data. -/
inductive Call (δ : Type) where
  | add (node : Addr × δ)
  | delete (node : Addr × δ)

/-- The calls, one after the other; the results are not used. -/
def runCalls (key : δ → Option ι) (fuel : ℕ) : List (Call δ) → RbProg δ Unit
  | [] => pure ()
  | .add node :: calls => do
    let _ ← add key fuel node.1
    runCalls key fuel calls
  | .delete node :: calls => do
    adxRbtreeDelete fuel node.1
    runCalls key fuel calls

/-- The nodes that are linked behind a call: a node with the key of another one is not linked, nor
one without a key. -/
def Call.effect [DecidableEq ι] (key : δ → Option ι) (nodes : List (Addr × δ)) : Call δ → List (Addr × δ)
  | .add node =>
    if (key node.2).isNone || nodes.any fun other => key other.2 = key node.2 then nodes
    else node :: nodes
  | .delete node => nodes.filter fun other => other.1 ≠ node.1

/-- The nodes with their data. -/
def entries (nodes : List (Addr × Node δ)) : List (Addr × δ) :=
  nodes.map fun node => (node.1, node.2.data)

/-- A node that is added is one of the given ones, and a node that is deleted is linked. -/
def Call.Allowed (nodes : List (Addr × Node δ)) (linked : List (Addr × δ)) : Call δ → Prop
  | .add node => node ∈ entries nodes
  | .delete node => node ∈ linked

/-- All calls of a history are allowed, each behind the ones before it. -/
def AllAllowed [DecidableEq ι] (key : δ → Option ι) (nodes : List (Addr × Node δ)) :
    List (Addr × δ) → List (Call δ) → Prop
  | _, [] => True
  | linked, call :: calls =>
    call.Allowed nodes linked ∧ AllAllowed key nodes (call.effect key linked) calls

/-- The nodes that are linked behind a history. -/
def linkedBehind [DecidableEq ι] (key : δ → Option ι) (calls : List (Call δ)) : List (Addr × δ) :=
  calls.foldl (fun linked call => call.effect key linked) []

variable (key) in
/-- What the memory is between two calls: the linked nodes are those of a red-black tree in the
order of the keys, and the others have their data. -/
structure Holds (nodes : List (Addr × Node δ)) (linked : List (Addr × δ))
    (R : Multiset (Addr × Node δ)) (s : State (Option Addr) Addr (Node δ)) (t : RbTree (Addr × δ)) :
    Prop where
  redBlack : t.RedBlack
  sorted : RbTree.Sorted (entryKey key) t
  mem : ∀ e, e ∈ t.toList ↔ e ∈ linked
  memory : ∃ M, Owns (ptr (layout δ) t) (cells (layout δ) none t + (M + R)) s ∧
    ∀ e ∈ entries nodes, e ∉ linked → ∃ n : Node δ, n.data = e.2 ∧ (e.1, n) ∈ M

variable (key) in
/-- The linked nodes are given ones, with keys. -/
def Known (nodes : List (Addr × Node δ)) (linked : List (Addr × δ)) : Prop :=
  ∀ e ∈ linked, e ∈ entries nodes ∧ (entryKey key e).isSome

/-- A node has its data in its cell. -/
theorem exists_cell {q : Option Addr} (h : e ∈ t.toList) :
    ∃ n : Node δ, n.data = e.2 ∧ (e.1, n) ∈ cells (layout δ) q t := by
  induction t generalizing q with
  | leaf => cases h
  | node c l a u ihl ihr =>
    rw [RbTree.toList_node, List.mem_append, List.mem_cons] at h
    rcases h with h | rfl | h
    · obtain ⟨n, hn, hmem⟩ := ihl (q := some a.1) h
      exact ⟨n, hn, Multiset.mem_add.mpr (.inr (Multiset.mem_add.mpr (.inl hmem)))⟩
    · exact ⟨_, rfl, Multiset.mem_add.mpr (.inl (Multiset.mem_singleton_self _))⟩
    · obtain ⟨n, hn, hmem⟩ := ihr (q := some a.1) h
      exact ⟨n, hn, Multiset.mem_add.mpr (.inr (Multiset.mem_add.mpr (.inr hmem)))⟩

/-- Two given nodes at one address are one node. -/
theorem eq_of_addr {e e' : Addr × δ} (hnodup : (nodes.map Prod.fst).Nodup) (he : e ∈ entries nodes)
    (he' : e' ∈ entries nodes) (h : e.1 = e'.1) : e = e' := by
  obtain ⟨n, hn, rfl⟩ := List.mem_map.mp he
  obtain ⟨n', hn', rfl⟩ := List.mem_map.mp he'
  rw [List.inj_on_of_nodup_map hnodup hn hn' h]

/-- Each of the nodes can be read, linked or not. -/
theorem Holds.deref (h : Holds key nodes linked R s t) (he : e ∈ entries nodes) :
    ∃ n : Node δ, n.data = e.2 ∧ OwnedCells.deref e.1 s = some (n, s) := by
  obtain ⟨M, hs, hrest⟩ := h.memory
  have hcell : ∃ n : Node δ, n.data = e.2 ∧ (e.1, n) ∈ cells (layout δ) none t + (M + R) := by
    by_cases hl : e ∈ linked
    · obtain ⟨n, hn, hmem⟩ := @exists_cell δ t e none ((h.mem e).mpr hl)
      exact ⟨n, hn, Multiset.mem_add.mpr (.inl hmem)⟩
    · obtain ⟨n, hn, hmem⟩ := hrest e he hl
      exact ⟨n, hn, Multiset.mem_add.mpr (.inr (Multiset.mem_add.mpr (.inl hmem)))⟩
  obtain ⟨n, hn, hmem⟩ := hcell
  refine ⟨n, hn, ?_⟩
  rw [OwnedCells.deref, hs.cells (e.1, n) hmem]
  rfl

/-- Every node in the tree has a key. -/
theorem Holds.keys (h : Holds key nodes linked R s t) (hknown : Known key nodes linked) :
    ∀ a ∈ t.toList, (entryKey key a).isSome :=
  fun a ha => (hknown a ((h.mem a).mp ha)).2

variable [Std.TransOrd ι]

/-- Where a node with the key is linked, an addition changes nothing. -/
theorem add_unchanged (h : Holds key nodes linked R s t) (hknown : Known key nodes linked)
    (he : e ∈ entries nodes) {b : Addr × δ} (hb : b ∈ linked) (hkey : key b.2 = key e.2)
    (hfuel : t.toList.length < fuel) : add key fuel e.1 s = some (none, s) := by
  obtain ⟨n, hn, hderef⟩ := h.deref he
  obtain ⟨M, hs, -⟩ := h.memory
  obtain ⟨k, hk⟩ := Option.isSome_iff_exists.mp (hknown b hb).2
  have hdescend := RbTree.descend_of_mem h.sorted ((h.mem b).mpr hb)
  have hs' : Owns (rootOf (layout δ) (ptr (layout δ) t) []) (zip (layout δ) t [] + (M + R)) s := by
    rw [zip_fill]
    exact hs
  have hloop : addLoop key k fuel none .head s = some (none, s) := by
    refine (addLoop_eq hs' (h.keys hknown) hfuel).trans ?_
    rw [← hk, hdescend]
    rfl
  refine (bind_apply hderef).trans ?_
  rw [hn, ← hkey, show key b.2 = some k from hk]
  exact (bind_apply hloop).trans rfl

variable [Std.LawfulEqOrd ι] [DecidableEq ι]

/-- One addition. -/
theorem holds_add (h : Holds key nodes linked R s t) (hknown : Known key nodes linked)
    (he : e ∈ entries nodes) (hfuel : t.toList.length + 2 < fuel) : ∃ x s' t',
    add key fuel e.1 s = some (x, s') ∧
      Holds key nodes ((Call.add e).effect key linked) R s' t' := by
  obtain ⟨n, hn, hderef⟩ := h.deref he
  rw [Call.effect]
  split_ifs with hcond
  · rw [Bool.or_eq_true, Option.isNone_iff_eq_none, List.any_eq_true] at hcond
    rcases hcond with hnone | ⟨b, hb, hkey⟩
    · -- a node without a key
      refine ⟨none, s, t, (bind_apply hderef).trans ?_, h⟩
      rw [hn, hnone]
      rfl
    · exact ⟨none, s, t, add_unchanged h hknown he hb (of_decide_eq_true hkey) (by omega), h⟩
  · rw [Bool.or_eq_true, Option.isNone_iff_eq_none, List.any_eq_true, not_or, not_exists] at hcond
    obtain ⟨hsome, hclash⟩ := hcond
    obtain ⟨k, hk⟩ := Option.ne_none_iff_exists'.mp hsome
    have hfresh : ∀ b ∈ linked, entryKey key b ≠ entryKey key e :=
      fun b hb hkey => hclash b ⟨hb, decide_eq_true hkey⟩
    have hel : e ∉ linked := fun hel => hfresh e hel rfl
    obtain ⟨M, hs, hrest⟩ := h.memory
    obtain ⟨n', hn', hmem⟩ := hrest e he hel
    obtain ⟨M', rfl⟩ := Multiset.exists_cons_of_mem hmem
    have htree : Tree key t := ⟨h.redBlack, h.sorted, h.keys hknown⟩
    obtain ⟨t', hadd, htree', hruns⟩ := runs_add (a := e.1) (n := n') htree
      (show key n'.data = some k by rw [hn', hk]) hfuel
    obtain ⟨x, s', hrun, M₁, hM₁, hs'⟩ := hruns (M' + R) s (by
      rwa [Multiset.singleton_add, ← Multiset.cons_add])
    have hentry : (e.1, n'.data) = e := by rw [hn']
    rw [hentry] at hadd
    -- the tree of the library has the new entry
    have hvalid : RbTree.Valid (entryKey key) t := ⟨h.redBlack.black, h.sorted⟩
    obtain ⟨t'', hadd', -, hmem'⟩ := RbTree.add_spec hvalid e
    obtain rfl := Option.some.inj (hadd.symm.trans hadd')
    refine ⟨x, s', t', hrun, htree'.redBlack, htree'.sorted, fun a => ?_, M₁ + M', ?_, ?_⟩
    · rw [hmem', h.mem, List.mem_cons, and_iff_left fun b hb => hfresh b ((h.mem b).mp hb)]
      exact or_comm
    · rwa [add_assoc]
    · intro a ha hal
      obtain ⟨n₂, hn₂, hmem₂⟩ := hrest a ha fun hl => hal (List.mem_cons_of_mem _ hl)
      refine ⟨n₂, hn₂, Multiset.mem_add.mpr (.inr ?_)⟩
      rcases Multiset.mem_cons.mp hmem₂ with heq | hmem₂
      · -- another node would have the data of this one
        obtain ⟨haddr, rfl⟩ := Prod.mk.inj heq
        exact absurd (List.mem_cons.mpr (.inl (Prod.ext haddr (hn₂.symm.trans hn')))) hal
      · exact hmem₂

omit [Std.TransOrd ι] in
/-- One deletion. -/
theorem holds_delete (h : Holds key nodes linked R s t) (hknown : Known key nodes linked)
    (hnodup : (nodes.map Prod.fst).Nodup) (he : e ∈ linked) (hfuel : t.toList.length + 2 < fuel) :
    ∃ s' t', adxRbtreeDelete fuel e.1 s = some ((), s') ∧
      Holds key nodes ((Call.delete e).effect key linked) R s' t' := by
  obtain ⟨path, c, l, u, rfl⟩ := RbTree.exists_fill_of_mem ((h.mem e).mpr he)
  obtain ⟨t', hdelete, hbalance, hlist⟩ := RbTree.delete_spec h.redBlack
  obtain ⟨M, hs, hrest⟩ := h.memory
  rw [ptr_fill, ← zip_fill] at hs
  obtain ⟨⟨⟩, s', hrun, n, hn, hs'⟩ := runs_adxRbtreeDelete (R := M + R) hdelete hfuel s hs
  refine ⟨s', t', hrun, hbalance, RbTree.sorted_delete h.sorted hlist, fun a => ?_,
    {(e.1, n)} + M, by rwa [add_assoc], fun a ha hal => ?_⟩
  · rw [RbTree.mem_delete h.sorted hlist, h.mem, Call.effect, List.mem_filter, decide_eq_true_iff]
    refine and_congr_right fun hal => not_congr ⟨congrArg Prod.fst, ?_⟩
    exact eq_of_addr hnodup (hknown a hal).1 (hknown e he).1
  · by_cases hae : a = e
    · subst hae
      exact ⟨n, hn, Multiset.mem_add.mpr (.inl (Multiset.mem_singleton_self _))⟩
    · obtain ⟨n', hn', hmem⟩ := hrest a ha fun hl => hal (List.mem_filter.mpr ⟨hl, by
        refine decide_eq_true fun haddr => hae ?_
        exact eq_of_addr hnodup ha (hknown e he).1 haddr⟩)
      exact ⟨n', hn', Multiset.mem_add.mpr (.inr hmem)⟩

omit [Ord ι] [Std.TransOrd ι] [Std.LawfulEqOrd ι] in
/-- A call keeps the keys of the linked nodes known. -/
theorem known_effect {call : Call δ} (h : Known key nodes linked) (hcall : call.Allowed nodes linked) :
    Known key nodes (call.effect key linked) := by
  cases call with
  | add e =>
    rw [Call.effect]
    split_ifs with hcond
    · exact h
    · intro a ha
      rcases List.mem_cons.mp ha with rfl | ha
      · refine ⟨hcall, ?_⟩
        rw [Bool.or_eq_true, not_or, Option.isNone_iff_eq_none] at hcond
        exact Option.isSome_iff_ne_none.mpr hcond.1
      · exact h a ha
  | delete e => exact fun a ha => h a (List.mem_filter.mp ha).1

omit [DecidableEq ι] [Std.TransOrd ι] in
/-- There are not more linked nodes than nodes. -/
theorem Holds.length_le (h : Holds key nodes linked R s t) (hknown : Known key nodes linked) :
    t.toList.length ≤ nodes.length := by
  have hnodup : t.toList.Nodup :=
    h.sorted.imp fun hlt heq => RbTree.compare_ne_eq hlt (congrArg (entryKey key) heq)
  have hsub : t.toList ⊆ entries nodes := fun a ha => (hknown a ((h.mem a).mp ha)).1
  exact (hnodup.subperm hsub).length_le.trans (List.length_map _).le

/-- A history of allowed calls. -/
theorem holds_runCalls {calls : List (Call δ)} (h : Holds key nodes linked R s t)
    (hknown : Known key nodes linked) (hnodup : (nodes.map Prod.fst).Nodup)
    (hcalls : AllAllowed key nodes linked calls) (hfuel : nodes.length + 2 < fuel) : ∃ s' t',
    runCalls key fuel calls s = some ((), s') ∧
      Holds key nodes (calls.foldl (fun linked call => call.effect key linked) linked) R s' t' ∧
      Known key nodes (calls.foldl (fun linked call => call.effect key linked) linked) := by
  induction calls generalizing linked s t with
  | nil => exact ⟨s, t, rfl, h, hknown⟩
  | cons call calls ih =>
    obtain ⟨hcall, hcalls⟩ := hcalls
    have hlength := h.length_le hknown
    cases call with
    | add e =>
      obtain ⟨x, s₁, t₁, hrun, h₁⟩ := holds_add h hknown hcall (show _ < fuel by omega)
      obtain ⟨s', t', hruns, h'⟩ := ih h₁ (known_effect hknown hcall) hcalls
      exact ⟨s', t', (bind_apply hrun).trans hruns, h'⟩
    | delete e =>
      obtain ⟨s₁, t₁, hrun, h₁⟩ := holds_delete h hknown hnodup hcall (show _ < fuel by omega)
      obtain ⟨s', t', hruns, h'⟩ := ih h₁ (known_effect hknown hcall) hcalls
      exact ⟨s', t', (bind_apply hrun).trans hruns, h'⟩

/-- A search finds the linked node with the key. -/
theorem find_linked (h : Holds key nodes linked R s t) (hknown : Known key nodes linked)
    (hfuel : nodes.length < fuel) (k : Option ι) : find key fuel k s =
      some (k.bind fun k => (linked.find? fun e => key e.2 = some k).map Prod.fst, s) := by
  obtain ⟨M, hs, -⟩ := h.memory
  have hvars : OwnedCells.vars s = some (ptr (layout δ) t, s) := by
    rw [OwnedCells.vars, hs.vars]
  have hlength := h.length_le hknown
  rw [find, bind_apply hvars]
  cases k with
  | none => rfl
  | some k =>
    have hfind : t.find (entryKey key) (some k) = linked.find? fun e => key e.2 = some k := by
      cases hl : linked.find? fun e => key e.2 = some k with
      | some e =>
        have he : key e.2 = some k := by simpa using List.find?_some hl
        exact h.sorted.find_eq_some_iff.mpr ⟨(h.mem e).mpr (List.mem_of_find?_eq_some hl), he⟩
      | none =>
        rw [Option.eq_none_iff_forall_ne_some]
        intro e he
        obtain ⟨het, hk⟩ := h.sorted.find_eq_some_iff.mp he
        exact List.find?_eq_none.mp hl e ((h.mem e).mp het) (decide_eq_true hk)
    rw [Option.bind_some, ← hfind]
    exact findLoop_eq hs (h.keys hknown) (by omega)

/-- A history that begins with an empty tree. -/
theorem history_holds (key : δ → Option ι) {calls : List (Call δ)} (hfuel : nodes.length + 2 < fuel)
    (hs : Owns none (Multiset.ofList nodes + R) s) (hcalls : AllAllowed key nodes [] calls) :
    ∃ s' t, runCalls key fuel calls s = some ((), s') ∧
      Holds key nodes (linkedBehind key calls) R s' t ∧
      ∀ k, find key fuel k s' = some (k.bind fun k =>
        ((linkedBehind key calls).find? fun e => key e.2 = some k).map Prod.fst, s') := by
  have hnodup : (nodes.map Prod.fst).Nodup := by
    have h := hs.apart
    rw [Multiset.map_add, Multiset.nodup_add] at h
    exact Multiset.coe_nodup.mp h.1
  have hempty : Holds key nodes [] R s .leaf := by
    refine ⟨RbTree.redBlack_leaf, RbTree.valid_leaf.sorted, fun e => Iff.rfl, nodes,
      by rwa [cells_leaf, zero_add], fun e he _ => ?_⟩
    obtain ⟨n, hn, rfl⟩ := List.mem_map.mp he
    exact ⟨n.2, rfl, hn⟩
  obtain ⟨s', t, hrun, h, hknown⟩ := holds_runCalls hempty nofun hnodup hcalls hfuel
  exact ⟨s', t, hrun, h, find_linked h hknown (by omega)⟩

end

/-- For every history of additions and deletions that begins with an empty tree, of strings as of
numbers, where only linked nodes are deleted: the calls end, the linked nodes are those of a
red-black tree in the order of the keys, the others have their data, and a search finds the linked
node with the key, or `NULL`. -/
theorem rbtree_history :
    (∀ (fuel : ℕ) (nodes : List (Addr × Node (Option Bytes)))
        (R : Multiset (Addr × Node (Option Bytes))) s calls,
      nodes.length + 2 < fuel → Owns none (Multiset.ofList nodes + R) s →
      AllAllowed stringKey nodes [] calls → ∃ s' t,
        runCalls stringKey fuel calls s = some ((), s') ∧
        Holds stringKey nodes (linkedBehind stringKey calls) R s' t ∧
        ∀ key, adxRbtreeStringFind fuel key s' = some (key.bind fun key =>
          ((linkedBehind stringKey calls).find? fun e => stringKey e.2 = some (cstr key)).map
            Prod.fst, s')) ∧
    (∀ (fuel : ℕ) (nodes : List (Addr × Node ℤ)) (R : Multiset (Addr × Node ℤ)) s calls,
      nodes.length + 2 < fuel → Owns none (Multiset.ofList nodes + R) s →
      AllAllowed numberKey nodes [] calls → ∃ s' t,
        runCalls numberKey fuel calls s = some ((), s') ∧
        Holds numberKey nodes (linkedBehind numberKey calls) R s' t ∧
        ∀ key, adxRbtreeNumberFind fuel key s' =
          some (((linkedBehind numberKey calls).find? fun e => numberKey e.2 = some key).map
            Prod.fst, s')) := by
  constructor
  · intro fuel nodes R s calls hfuel hs hcalls
    obtain ⟨s', t, hrun, h, hfind⟩ := history_holds stringKey hfuel hs hcalls
    refine ⟨s', t, hrun, h, fun key => (hfind (key.map cstr)).trans ?_⟩
    rw [Option.bind_map]
    rfl
  · intro fuel nodes R s calls hfuel hs hcalls
    obtain ⟨s', t, hrun, h, hfind⟩ := history_holds numberKey hfuel hs hcalls
    exact ⟨s', t, hrun, h, fun key => hfind (some key)⟩

/-- Three nodes with two keys: the last one can be linked when the first one is deleted. -/
theorem rbtree_history_three :
    let a : Addr := ⟨8, by decide, by decide⟩
    let b : Addr := ⟨16, by decide, by decide⟩
    let c : Addr := ⟨24, by decide, by decide⟩
    let strings : List (Addr × Node (Option Bytes)) :=
      [(a, ⟨0, none, none, some [98]⟩), (b, ⟨0, none, none, some [97]⟩),
        (c, ⟨0, none, none, some [98]⟩)]
    let numbers : List (Addr × Node ℤ) :=
      [(a, ⟨0, none, none, 2⟩), (b, ⟨0, none, none, 1⟩), (c, ⟨0, none, none, 2⟩)]
    (∃ s' t, runCalls stringKey 6 [.add (a, some [98]), .add (b, some [97]), .add (c, some [98]),
        .delete (a, some [98]), .add (c, some [98])] ⟨none, fun a => strings.lookup a⟩ = some ((), s') ∧
      Holds stringKey strings [(c, some [98]), (b, some [97])] 0 s' t) ∧
    (∃ s' t, runCalls numberKey 6 [.add (a, 2), .add (b, 1), .add (c, 2), .delete (a, 2), .add (c, 2)]
        ⟨none, fun a => numbers.lookup a⟩ = some ((), s') ∧
      Holds numberKey numbers [(c, 2), (b, 1)] 0 s' t) := by
  intro a b c strings numbers
  constructor
  · obtain ⟨s', t, hrun, h, -⟩ := rbtree_history.1 6 strings 0 ⟨none, fun a => strings.lookup a⟩
      [.add (a, some [98]), .add (b, some [97]), .add (c, some [98]), .delete (a, some [98]),
        .add (c, some [98])] (by decide) ⟨rfl, by decide, by decide⟩
      ⟨.head _, .tail _ (.head _), .tail _ (.tail _ (.head _)), .tail _ (.head _),
        .tail _ (.tail _ (.head _)), trivial⟩
    exact ⟨s', t, hrun, h⟩
  · obtain ⟨s', t, hrun, h, -⟩ := rbtree_history.2 6 numbers 0 ⟨none, fun a => numbers.lookup a⟩
      [.add (a, 2), .add (b, 1), .add (c, 2), .delete (a, 2), .add (c, 2)] (by decide)
      ⟨rfl, by decide, by decide⟩
      ⟨.head _, .tail _ (.head _), .tail _ (.tail _ (.head _)), .tail _ (.head _),
        .tail _ (.tail _ (.head _)), trivial⟩
    exact ⟨s', t, hrun, h⟩

end Rbtree

end AdxDsp
