import AdxDsp.Lib.Bytes
import AdxDsp.Lib.OwnedCells
import AdxDsp.Lib.ParentTrees

/-!
# The red-black trees of the tracker in memory

`adx_rbtree.c` keeps the color of a node in the lowest bit of the pointer to its parent.  The two
kinds of tree, for strings and for numbers, differ in the key of a node only.

* **The functions**: `rotate`, `adxRbtreeInsertColor`, `add`, `find`.
* `runs_rotate`, `runs_fixUp`: what they do to the cells of a tree.
* `runs_add`: an addition is `RbTree.add` on the tree.
* `rbtree_adds`: the tree behind any additions.
-/

namespace AdxDsp

open CText OwnedCells ParentTrees

open RbTree (Side Frame)

namespace Rbtree

/-! ## Nodes -/

/-- `unsigned long` -/
abbrev Word := BitVec 64

/-- The address of a node: it is not `NULL`, and aligned. -/
structure Addr where
  word : Word
  ne_zero : word ≠ 0
  aligned : word &&& 3 = 0
  deriving DecidableEq

/-- A pointer as a word. -/
def toWord : Option Addr → Word
  | none => 0
  | some a => a.word

/-- `(adx_rbtree_node *)(word & ~3)` -/
def toPointer (word : Word) : Option Addr :=
  if h : word &&& ~~~3 = 0 then none
  else some ⟨word &&& ~~~3, h, by rw [BitVec.and_assoc, show ~~~(3 : Word) &&& 3 = 0 from rfl]; simp⟩

/-- `adx_rbtree_node`; `data` is its union, a number or a pointer to a string. -/
structure Node (δ : Type) where
  rbParentColor : Word
  rbRight : Option Addr
  rbLeft : Option Addr
  data : δ
  deriving DecidableEq

section

variable {δ : Type}

/-- `rb_parent` -/
def rbParent (r : Node δ) : Option Addr := toPointer r.rbParentColor

/-- `rb_color` -/
def rbColor (r : Node δ) : Word := r.rbParentColor &&& 1

/-- `rb_is_red` -/
def rbIsRed (r : Node δ) : Bool := rbColor r = 0

/-- `rb_set_red` -/
def rbSetRed (r : Node δ) : Node δ := { r with rbParentColor := r.rbParentColor &&& ~~~1 }

/-- `rb_set_black` -/
def rbSetBlack (r : Node δ) : Node δ := { r with rbParentColor := r.rbParentColor ||| 1 }

/-- `adx_rbtree_set_parent` -/
def adxRbtreeSetParent (p : Option Addr) (rb : Node δ) : Node δ :=
  { rb with rbParentColor := (rb.rbParentColor &&& 3) ||| toWord p }

/-- `rb_left` or `rb_right` -/
def child (side : Side) (node : Node δ) : Option Addr :=
  match side with
  | .left => node.rbLeft
  | .right => node.rbRight

/-- `rb_left` or `rb_right` is changed. -/
def setChild (side : Side) (p : Option Addr) (node : Node δ) : Node δ :=
  match side with
  | .left => { node with rbLeft := p }
  | .right => { node with rbRight := p }

/-! ## The functions -/

variable (δ) in
/-- A program on the nodes of a memory; its variable is `head->rb_node`. -/
abbrev RbProg := OwnedCells.Prog (Option Addr) Addr (Node δ)

/-- `if (p) adx_rbtree_set_parent(p, node)` -/
def adopt (node : Addr) : Option Addr → RbProg δ Unit
  | none => pure ()
  | some p => modify p (adxRbtreeSetParent (some node))

/-- `top` comes to the place of `node`, below `parent` or at the root. -/
def replaceChild (side : Side) (node top : Addr) : Option Addr → RbProg δ Unit
  | none => assign (some top)
  | some parent => do
    let p ← deref parent
    if child side p = some node then modify parent (setChild side (some top))
    else modify parent (setChild (other side) (some top))

/-- A node goes down to a side, and its child on the other side comes to its place. -/
def rotate (side : Side) (node : Addr) : RbProg δ Unit := do
  let n ← deref node
  let top ← nonNull (child (other side) n)
  let parent := rbParent n
  let t ← deref top
  modify node (setChild (other side) (child side t))
  adopt node (child side t)
  modify top (setChild side (some node))
  modify top (adxRbtreeSetParent parent)
  replaceChild side node top parent
  modify node (adxRbtreeSetParent (some top))

/-- `adx_rbtree_rotate_left` -/
def adxRbtreeRotateLeft (node : Addr) : RbProg δ Unit := rotate .left node

/-- `adx_rbtree_rotate_right` -/
def adxRbtreeRotateRight (node : Addr) : RbProg δ Unit := rotate .right node

/-- The rotation to a side. -/
def rotateTo : Side → Addr → RbProg δ Unit
  | .left => adxRbtreeRotateLeft
  | .right => adxRbtreeRotateRight

/-- `uncle && rb_is_red(uncle)` -/
def uncleIsRed : Option Addr → RbProg δ Bool
  | none => pure false
  | some uncle => do
    let u ← deref uncle
    pure (rbIsRed u)

/-- The branch of a red uncle; the result is `node`. -/
def recolor (uncle : Option Addr) (parent gparent : Addr) : RbProg δ Addr := do
  let uncle ← nonNull uncle
  modify uncle rbSetBlack
  modify parent rbSetBlack
  modify gparent rbSetRed
  pure gparent

/-- `parent` is turned below `node` if `node` is its child on the other side, and the two variables
change their places. -/
def straighten (side : Side) (node parent : Addr) : RbProg δ (Addr × Addr) := do
  let p ← deref parent
  if child (other side) p = some node then do
    rotateTo side parent
    pure (parent, node)
  else pure (node, parent)

/-- One turn of the loop of `adx_rbtree_insert_color`, where `parent` is the child of `gparent` on a
side; the result is `node`. -/
def fixUp (side : Side) (node parent gparent : Addr) : RbProg δ Addr := do
  let g ← deref gparent
  let uncle := child (other side) g
  let red ← uncleIsRed uncle
  if red then recolor uncle parent gparent
  else do
    let (node, parent) ← straighten side node parent
    modify parent rbSetBlack
    modify gparent rbSetRed
    rotateTo (other side) gparent
    pure node

/-- The loop of `adx_rbtree_insert_color`. -/
def insertColorLoop : ℕ → Addr → RbProg δ Unit
  | 0, _ => fail
  | fuel + 1, node => do
    let n ← deref node
    match rbParent n with
    | none => pure ()
    | some parent => do
      let p ← deref parent
      if rbIsRed p then do
        let gparent ← nonNull (rbParent p)
        let g ← deref gparent
        let side := if some parent = g.rbLeft then Side.left else Side.right
        let node ← fixUp side node parent gparent
        insertColorLoop fuel node
      else pure ()

/-- `adx_rbtree_insert_color` -/
def adxRbtreeInsertColor (fuel : ℕ) (node : Addr) : RbProg δ Unit := do
  insertColorLoop fuel node
  let rbNode ← vars
  let root ← nonNull rbNode
  modify root rbSetBlack

/-- What `adx_rbtree_node **p` points to. -/
inductive Slot where
  | head
  | child (node : Addr) (side : Side)

/-- `*p` -/
def Slot.read : Slot → RbProg δ (Option Addr)
  | .head => vars
  | .child node side => do
    let n ← deref node
    pure (Rbtree.child side n)

/-- `*p = node` -/
def Slot.write (node : Addr) : Slot → RbProg δ Unit
  | .head => assign (some node)
  | .child parent side => modify parent (setChild side (some node))

/-- `adx_rbtree_link_node` -/
def adxRbtreeLinkNode (node : Addr) (parent : Option Addr) (rbLink : Slot) : RbProg δ Unit := do
  modify node fun n => { n with rbParentColor := toWord parent }
  modify node fun n => { n with rbLeft := none, rbRight := none }
  rbLink.write node

variable {ι : Type} [Ord ι]

/-- The loop that goes down to the place of a key, with the key of a node; without a place, the
result of the function is `NULL`.  The variables `parent` and `node` of the source are always the
same. -/
def addLoop (key : δ → Option ι) (k : ι) :
    ℕ → (parent : Option Addr) → (p : Slot) → RbProg δ (Option (Option Addr × Slot))
  | 0, _, _ => fail
  | fuel + 1, parent, p => do
    let node ← p.read
    match node with
    | none => pure (some (parent, p))
    | some node => do
      let n ← deref node
      match key n.data with
      | none => pure none
      | some k' =>
        match compare k k' with
        | .lt => addLoop key k fuel (some node) (.child node .left)
        | .gt => addLoop key k fuel (some node) (.child node .right)
        | .eq => pure none

/-- The two functions that add a node. -/
def add (key : δ → Option ι) (fuel : ℕ) (newNode : Addr) : RbProg δ (Option Addr) := do
  let n ← deref newNode
  match key n.data with
  | none => pure none
  | some k => do
    let place ← addLoop key k fuel none .head
    match place with
    | none => pure none
    | some (parent, p) => do
      adxRbtreeLinkNode newNode parent p
      adxRbtreeInsertColor fuel newNode
      pure parent

/-- The loop that goes down to a key. -/
def findLoop (key : δ → Option ι) (k : ι) : ℕ → Option Addr → RbProg δ (Option Addr)
  | 0, _ => fail
  | _ + 1, none => pure none
  | fuel + 1, some p => do
    let n ← deref p
    match key n.data with
    | none => pure none
    | some k' =>
      match compare k k' with
      | .lt => findLoop key k fuel n.rbLeft
      | .gt => findLoop key k fuel n.rbRight
      | .eq => pure (some p)

/-- The two functions that find a node. -/
def find (key : δ → Option ι) (fuel : ℕ) (k : Option ι) : RbProg δ (Option Addr) := do
  let rbNode ← vars
  match k with
  | none => pure none
  | some k => findLoop key k fuel rbNode

end

/-- The key of a node in a tree of strings: what `strcmp` sees of `string`, unless that is
`NULL`. -/
def stringKey (string : Option Bytes) : Option Bytes := string.map cstr

/-- The key of a node in a tree of numbers. -/
def numberKey (number : ℤ) : Option ℤ := some number

/-- `adx_rbtree_string_add` -/
def adxRbtreeStringAdd (fuel : ℕ) (newNode : Addr) : RbProg (Option Bytes) (Option Addr) :=
  add stringKey fuel newNode

/-- `adx_rbtree_string_find` -/
def adxRbtreeStringFind (fuel : ℕ) (key : Option Bytes) : RbProg (Option Bytes) (Option Addr) :=
  find stringKey fuel (key.map cstr)

/-- `adx_rbtree_number_add` -/
def adxRbtreeNumberAdd (fuel : ℕ) (newNode : Addr) : RbProg ℤ (Option Addr) :=
  add numberKey fuel newNode

/-- `adx_rbtree_number_find` -/
def adxRbtreeNumberFind (fuel : ℕ) (key : ℤ) : RbProg ℤ (Option Addr) :=
  find numberKey fuel (some key)

/-! ## The words -/

section

variable {w : Word} {q p : Option Addr} {c : RbColor}

/-- The color in the lowest bit. -/
def colorBit : RbColor → Word
  | .red => 0
  | .black => 1

/-- `rb_parent_color` for a parent and a color. -/
def pack (q : Option Addr) (c : RbColor) : Word := toWord q ||| colorBit c

/-- An address has no low bits. -/
theorem toWord_and_three : toWord q &&& 3 = 0 := by
  cases q with
  | none => rfl
  | some a => exact a.aligned

/-- A word with two free bits is what a mask leaves. -/
theorem and_of_and_three {w m : Word} (h : w &&& 3 = 0) (hm : 3 ||| m = BitVec.allOnes 64) :
    w &&& m = w := by
  calc w &&& m = (w &&& 3) ||| (w &&& m) := by rw [h]; exact BitVec.zero_or.symm
    _ = w &&& (3 ||| m) := BitVec.and_or_distrib_left.symm
    _ = w := by rw [hm, BitVec.and_allOnes]

/-- An address comes back from its word. -/
theorem toPointer_toWord : toPointer (toWord q) = q := by
  have hword : toWord q &&& ~~~3 = toWord q := and_of_and_three toWord_and_three rfl
  cases q with
  | none => rfl
  | some a =>
    have hne : ¬ toWord (some a) &&& ~~~3 = 0 := by
      rw [hword]
      exact a.ne_zero
    rw [toPointer, dif_neg hne, Option.some.injEq, Addr.mk.injEq]
    exact hword

/-- The pointer to the parent, out of the word. -/
theorem toPointer_pack : toPointer (pack q c) = q := by
  have hbit : colorBit c &&& ~~~3 = 0 := by cases c <;> rfl
  have hword : pack q c &&& ~~~3 = toWord q &&& ~~~3 := by
    rw [pack, BitVec.and_or_distrib_right, hbit]
    exact BitVec.or_zero
  have hpointer : ∀ {w w' : Word}, w &&& ~~~3 = w' &&& ~~~3 → toPointer w = toPointer w' := by
    intro w w' h
    simp only [toPointer, h]
  rw [hpointer hword, toPointer_toWord]

/-- The low bit is the colour. -/
theorem pack_and_one : pack q c &&& 1 = colorBit c := by
  have hword : toWord q &&& 1 = 0 := by
    calc toWord q &&& 1 = toWord q &&& (3 &&& 1) := rfl
      _ = (toWord q &&& 3) &&& 1 := (BitVec.and_assoc _ _ _).symm
      _ = 0 := by rw [toWord_and_three]; rfl
  rw [pack, BitVec.and_or_distrib_right, hword]
  cases c <;> rfl

/-- The two low bits are the colour. -/
theorem pack_and_three : pack q c &&& 3 = colorBit c := by
  rw [pack, BitVec.and_or_distrib_right, toWord_and_three]
  cases c <;> rfl

/-- Clearing the low bit makes the node red. -/
theorem pack_and_not_one : pack q c &&& ~~~1 = pack q .red := by
  have hbit : colorBit c &&& ~~~1 = 0 := by cases c <;> rfl
  rw [pack, BitVec.and_or_distrib_right, hbit, and_of_and_three toWord_and_three rfl]
  rfl

/-- Setting the low bit makes the node black. -/
theorem pack_or_one : pack q c ||| 1 = pack q .black := by
  rw [pack, BitVec.or_assoc]
  cases c <;> rfl

end

/-! ## The cells of the nodes -/

section

variable {δ : Type} {side : Side} {c : RbColor} {e : Addr × δ} {s s' : RbTree (Addr × δ)}
  {q q' p p' : Option Addr}

variable (δ) in
/-- How the nodes of a tree are kept; an entry is the address of a node with its data. -/
def layout : Layout Addr (Node δ) (Addr × δ) where
  addr := Prod.fst
  cell q c l r e := ⟨pack q c, r, l, e.2⟩

@[simp] theorem layout_addr : (layout δ).addr e = e.1 := rfl

/-- The parent of a node. -/
@[simp] theorem rbParent_frameCell :
    rbParent (frameCell (layout δ) q p ⟨side, c, e, s⟩) = q := by
  cases side <;> exact toPointer_pack

/-- The colour of a node. -/
@[simp] theorem rbIsRed_frameCell :
    rbIsRed (frameCell (layout δ) q p ⟨side, c, e, s⟩) = decide (c = .red) := by
  have hcolor : rbColor (frameCell (layout δ) q p ⟨side, c, e, s⟩) = colorBit c := by
    cases side <;> exact pack_and_one
  rw [rbIsRed, hcolor]
  cases c <;> rfl

/-- Another parent. -/
@[simp] theorem adxRbtreeSetParent_frameCell :
    adxRbtreeSetParent q' (frameCell (layout δ) q p ⟨side, c, e, s⟩) =
      frameCell (layout δ) q' p ⟨side, c, e, s⟩ := by
  have hword : (pack q c &&& 3) ||| toWord q' = pack q' c := by
    rw [pack_and_three, BitVec.or_comm, pack]
  cases side <;> simp only [adxRbtreeSetParent, frameCell, layout, hword]

/-- Reddening a node. -/
@[simp] theorem rbSetRed_frameCell :
    rbSetRed (frameCell (layout δ) q p ⟨side, c, e, s⟩) =
      frameCell (layout δ) q p ⟨side, .red, e, s⟩ := by
  cases side <;> simp only [rbSetRed, frameCell, layout, pack_and_not_one]

/-- Blackening a node. -/
@[simp] theorem rbSetBlack_frameCell :
    rbSetBlack (frameCell (layout δ) q p ⟨side, c, e, s⟩) =
      frameCell (layout δ) q p ⟨side, .black, e, s⟩ := by
  cases side <;> simp only [rbSetBlack, frameCell, layout, pack_or_one]

/-- The child on the side of the hole. -/
@[simp] theorem child_frameCell :
    child side (frameCell (layout δ) q p ⟨side, c, e, s⟩) = p := by
  cases side <;> rfl

/-- The child on the other side. -/
@[simp] theorem child_other_frameCell :
    child (other side) (frameCell (layout δ) q p ⟨side, c, e, s⟩) = ptr (layout δ) s := by
  cases side <;> rfl

/-- The child of a node whose hole is on the other side. -/
@[simp] theorem child_frameCell_other :
    child side (frameCell (layout δ) q p ⟨other side, c, e, s⟩) = ptr (layout δ) s := by
  cases side <;> rfl

/-- Another child in the hole. -/
@[simp] theorem setChild_frameCell :
    setChild side p' (frameCell (layout δ) q p ⟨side, c, e, s⟩) =
      frameCell (layout δ) q p' ⟨side, c, e, s⟩ := by
  cases side <;> rfl

/-- Another child on the other side. -/
@[simp] theorem setChild_other_frameCell :
    setChild (other side) (ptr (layout δ) s') (frameCell (layout δ) q p ⟨side, c, e, s⟩) =
      frameCell (layout δ) q p ⟨side, c, e, s'⟩ := by
  cases side <;> rfl

end

/-! ## Rotating and recoloring -/

section

variable {δ β : Type} {side : Side} {c c' : RbColor} {e e' : Addr × δ}
  {t near mid far : RbTree (Addr × δ)} {path : List (Frame (Addr × δ))} {r : Option Addr}
  {R : Multiset (Addr × Node δ)} {x : Node δ}

/-- The child, where there is one, gets its new parent. -/
theorem runs_adopt :
    Runs (Owns r (cells (layout δ) (some e'.1) t + R)) (adopt e.1 (ptr (layout δ) t))
      fun _ => Owns r (cells (layout δ) (some e.1) t + R) := by
  cases t with
  | leaf => exact Runs.pure fun s hs => hs
  | node c l a r =>
    -- only the root has another parent then
    have hroot : ∀ q, cells (layout δ) q (.node c l a r) = cells (layout δ) q
      (Frame.fill ⟨.left, c, a, r⟩ l) := fun q => rfl
    simp only [hroot, cells_frame, add_assoc,
      ← @adxRbtreeSetParent_frameCell δ .left c a r (some e'.1) (some e.1)]
    exact @Runs.modify _ _ _ _ _ a.1 _ _ _

/-- What a path has of its hole is changed to another node. -/
theorem runs_replaceChild {f : Unit → RbProg δ β} {S : β → State (Option Addr) Addr (Node δ) → Prop}
    (h : Runs (Owns (rootOf (layout δ) (some e'.1) path)
      (pathCells (layout δ) (some e'.1) path + ({(e.1, x)} + R))) (f ()) S) :
    Runs (Owns (rootOf (layout δ) (some e.1) path)
      (pathCells (layout δ) (some e.1) path + ({(e.1, x)} + R)))
      (replaceChild side e.1 e'.1 (parentOf (layout δ) path) >>= f) S := by
  cases path with
  | nil => exact Runs.assign.bind fun _ => h
  | cons g path =>
    obtain ⟨side', c, a, sibling⟩ := g
    rw [pathCells_frame, rootOf] at h ⊢
    refine Runs.of_owns fun hapart => ?_
    -- the node is not the other child
    have hne : ptr (layout δ) sibling ≠ some e.1 := by
      intro h
      obtain ⟨y, hy⟩ : ∃ y, (e.1, y) ∈ cells (layout δ) (some a.1) sibling := exists_mem_cells h
      exact ne_of_nodup_map hapart
        (Multiset.mem_add.mpr (.inr (Multiset.mem_add.mpr (.inl hy))))
        (Multiset.mem_add.mpr (.inl (Multiset.mem_singleton_self (e.1, x)))) rfl
    rw [parentOf, replaceChild, bind_assoc, add_assoc] at *
    refine Runs.deref_bind ?_
    by_cases hside : side' = side
    · subst hside
      rw [child_frameCell, if_pos rfl]
      refine Runs.modify_bind ?_
      rwa [setChild_frameCell]
    · obtain rfl := eq_other_of_ne hside
      rw [child_frameCell_other, if_neg hne]
      refine Runs.modify_bind ?_
      rwa [setChild_frameCell]

/-- A rotation in memory is one of the tree. -/
theorem runs_rotate :
    Runs (Owns (rootOf (layout δ) (some e.1) path)
        (zip (layout δ) (Frame.fill ⟨side, c, e, Frame.fill ⟨side, c', e', far⟩ mid⟩ near) path + R))
      (rotate side e.1) fun _ =>
      Owns (rootOf (layout δ) (some e'.1) path)
        (zip (layout δ) (Frame.fill ⟨side, c', e', far⟩ (Frame.fill ⟨side, c, e, mid⟩ near)) path +
          R) := by
  simp only [zip, cells_frame, ptr_frame, layout_addr]
  generalize hq : parentOf (layout δ) path = q
  -- what the node has on its side, and its other grandchild, stay where they are
  generalize hS : cells (layout δ) (some e.1) near + cells (layout δ) (some e'.1) far + R = S
  refine Runs.pre (Runs.deref_bind (a := e.1) (c := frameCell (layout δ) q (ptr (layout δ) near)
      ⟨side, c, e, Frame.fill ⟨side, c', e', far⟩ mid⟩)
    (N := {(e'.1, frameCell (layout δ) (some e.1) (ptr (layout δ) mid) ⟨side, c', e', far⟩)} +
      (cells (layout δ) (some e'.1) mid + (pathCells (layout δ) (some e.1) path + S))) ?_)
    (by rw [← hS]; abel)
  rw [child_other_frameCell, ptr_frame, layout_addr, rbParent_frameCell]
  refine Runs.nonNull_bind (Runs.pre (Runs.deref_bind (a := e'.1) ?_) (add_left_comm _ _ _))
  rw [child_frameCell]
  refine Runs.pre (Runs.modify_bind (a := e.1) ?_) (add_left_comm _ _ _)
  rw [setChild_other_frameCell]
  -- the inner grandchild gets another parent
  generalize hx : frameCell (layout δ) q (ptr (layout δ) near) ⟨side, c, e, mid⟩ = x
  refine Runs.pre (Runs.bind (@runs_adopt _ e e' mid _ ({(e.1, x)} +
    ({(e'.1, frameCell (layout δ) (some e.1) (ptr (layout δ) mid) ⟨side, c', e', far⟩)} +
      (pathCells (layout δ) (some e.1) path + S)))) fun _ => ?_) (by abel)
  refine Runs.pre (Runs.modify_bind (a := e'.1) (c := frameCell (layout δ) (some e.1)
    (ptr (layout δ) mid) ⟨side, c', e', far⟩) (N := cells (layout δ) (some e.1) mid + ({(e.1, x)} +
      (pathCells (layout δ) (some e.1) path + S))) (Runs.modify_bind ?_)) (by abel)
  rw [setChild_frameCell, adxRbtreeSetParent_frameCell, ← hq]
  refine Runs.pre (runs_replaceChild (x := x) (R := cells (layout δ) (some e.1) mid +
    ({(e'.1, frameCell (layout δ) q (some e.1) ⟨side, c', e', far⟩)} + S)) ?_) (by rw [hq]; abel)
  refine Runs.pre (Runs.modify (a := e.1) (c := x) (N := cells (layout δ) (some e.1) mid +
    (pathCells (layout δ) (some e'.1) path +
      ({(e'.1, frameCell (layout δ) q (some e.1) ⟨side, c', e', far⟩)} + S)))) (by abel) |>.mono
    (fun _ h => h) fun _ s hs => ?_
  rw [← hx, adxRbtreeSetParent_frameCell, ← hS] at hs
  rw [hq]
  convert hs using 1
  abel

/-- The two rotations are one, with the side as a parameter. -/
@[simp] theorem rotateTo_eq : (rotateTo side : Addr → RbProg δ Unit) = rotate side := by
  cases side <;> rfl

/-- The two children of a node are at different addresses. -/
theorem ptr_sibling_ne {a : Addr} {s : RbTree (Addr × δ)}
    (h : ((zip (layout δ) (Frame.fill ⟨side, c, e, s⟩ t) path + R).map Prod.fst).Nodup)
    (ht : ptr (layout δ) t = some a) : ptr (layout δ) s ≠ some a := by
  intro hs
  obtain ⟨y, hy⟩ : ∃ y, (a, y) ∈ cells (layout δ) (some e.1) t := exists_mem_cells ht
  obtain ⟨z, hz⟩ : ∃ z, (a, z) ∈ cells (layout δ) (some e.1) s := exists_mem_cells hs
  have hsplit : zip (layout δ) (Frame.fill ⟨side, c, e, s⟩ t) path + R =
      cells (layout δ) (some e.1) t + (cells (layout δ) (some e.1) s +
        ({(e.1, frameCell (layout δ) (parentOf (layout δ) path) (ptr (layout δ) t)
          ⟨side, c, e, s⟩)} + pathCells (layout δ) (some e.1) path + R)) := by
    rw [zip, cells_frame, ptr_frame, layout_addr]
    abel
  rw [hsplit] at h
  exact ne_of_nodup_map h hy (Multiset.mem_add.mpr (.inl hz)) rfl

/-- The root of the tree in the hole, with what is below and above it. -/
theorem zip_root : zip (layout δ) (Frame.fill ⟨side, c, e, far⟩ t) path =
    {(e.1, frameCell (layout δ) (parentOf (layout δ) path) (ptr (layout δ) t) ⟨side, c, e, far⟩)} +
      (cells (layout δ) (some e.1) t + cells (layout δ) (some e.1) far +
        pathCells (layout δ) (some e.1) path) := by
  rw [zip, cells_frame, ptr_frame, layout_addr, add_assoc]

/-- The root of the tree in the hole is read. -/
theorem runs_deref_zip {f : Node δ → RbProg δ β}
    {S : β → State (Option Addr) Addr (Node δ) → Prop}
    (h : Runs (Owns r (zip (layout δ) (Frame.fill ⟨side, c, e, far⟩ t) path + R))
      (f (frameCell (layout δ) (parentOf (layout δ) path) (ptr (layout δ) t) ⟨side, c, e, far⟩))
      S) :
    Runs (Owns r (zip (layout δ) (Frame.fill ⟨side, c, e, far⟩ t) path + R)) (deref e.1 >>= f)
      S := by
  rw [zip_root, add_assoc] at h ⊢
  exact Runs.deref_bind h

/-- The root of the tree in the hole is changed, but not its children. -/
theorem runs_modify_zip {g : Node δ → Node δ} {f : Unit → RbProg δ β}
    {S : β → State (Option Addr) Addr (Node δ) → Prop}
    (hg : g (frameCell (layout δ) (parentOf (layout δ) path) (ptr (layout δ) t) ⟨side, c, e, far⟩) =
      frameCell (layout δ) (parentOf (layout δ) path) (ptr (layout δ) t) ⟨side, c', e, far⟩)
    (h : Runs (Owns r (zip (layout δ) (Frame.fill ⟨side, c', e, far⟩ t) path + R)) (f ()) S) :
    Runs (Owns r (zip (layout δ) (Frame.fill ⟨side, c, e, far⟩ t) path + R))
      (modify e.1 g >>= f) S := by
  rw [zip_root, add_assoc] at h ⊢
  exact Runs.modify_bind (hg ▸ h)

/-- After it, the two red nodes are on one side. -/
theorem runs_straighten {parent : Frame (Addr × δ)} {node : Addr}
    (ht : ptr (layout δ) t = some node) :
    Runs (Owns (rootOf (layout δ) (some parent.entry.1) path)
        (zip (layout δ) (parent.fill t) path + R))
      (straighten side node parent.entry.1) fun r s => ∃ c e mid near,
        RbTree.straighten side t parent = some (Frame.fill ⟨side, c, e, mid⟩ near) ∧
        ptr (layout δ) near = some r.1 ∧ r.2 = e.1 ∧
        Owns (rootOf (layout δ) (some e.1) path)
          (zip (layout δ) (Frame.fill ⟨side, c, e, mid⟩ near) path + R) s := by
  obtain ⟨side', c, e, sibling⟩ := parent
  refine Runs.of_owns fun hapart => ?_
  have hne := ptr_sibling_ne hapart ht
  rw [straighten, straighten_eq]
  by_cases hside : side' = side
  · subst hside
    rw [if_pos rfl]
    refine runs_deref_zip ?_
    rw [child_other_frameCell, if_neg hne]
    exact Runs.pure fun s hs => ⟨c, e, sibling, t, rfl, ht, rfl, hs⟩
  · obtain rfl := eq_other_of_ne hside
    rw [if_neg other_ne]
    refine runs_deref_zip ?_
    rw [child_frameCell, if_pos ht, rotateTo_eq]
    -- the lower node comes up, and its inner child goes to the other one
    obtain ⟨c', e', far, mid, rfl, rfl⟩ := exists_frame ht side
    rw [fill_other, rotate_frame]
    refine runs_rotate.bind fun _ => Runs.pure fun s hs => ?_
    exact ⟨c', e', far, _, rfl, ptr_frame, rfl, hs⟩

/-- Whether the other child is red. -/
theorem runs_uncleIsRed {f : Bool → RbProg δ β} {S : β → State (Option Addr) Addr (Node δ) → Prop}
    {q : Option Addr} (h : Runs (Owns r (cells (layout δ) q t + R)) (f t.isRed) S) :
    Runs (Owns r (cells (layout δ) q t + R)) (uncleIsRed (ptr (layout δ) t) >>= f) S := by
  cases t with
  | leaf => exact h
  | node c l a s =>
    have hroot : RbTree.node c l a s = Frame.fill ⟨.left, c, a, s⟩ l := rfl
    rw [hroot, RbTree.isRed_frame] at h
    rw [hroot, ptr_frame, uncleIsRed, bind_assoc]
    rw [cells_frame, add_assoc] at h ⊢
    refine Runs.deref_bind ?_
    rwa [rbIsRed_frameCell]

/-- The root of a tree becomes black. -/
theorem runs_setBlack {f : Unit → RbProg δ β} {S : β → State (Option Addr) Addr (Node δ) → Prop}
    {q : Option Addr} {a : Addr} (ht : ptr (layout δ) t = some a)
    (h : Runs (Owns r (cells (layout δ) q t.setBlack + R)) (f ()) S) :
    Runs (Owns r (cells (layout δ) q t + R)) (modify a rbSetBlack >>= f) S := by
  obtain ⟨c, e, s, t, rfl, rfl⟩ := exists_frame ht .left
  rw [RbTree.setBlack_frame, cells_frame, add_assoc] at h
  rw [cells_frame, add_assoc]
  refine Runs.modify_bind ?_
  rwa [rbSetBlack_frameCell]

variable {top uncle : RbTree (Addr × δ)} {node parent a : Addr}

/-- The pointer to a tree with a node is not `NULL`. -/
theorem exists_ptr (h : t ≠ .leaf) : ∃ a, ptr (layout δ) t = some a := by
  cases t with
  | leaf => exact absurd rfl h
  | node c l a r => exact ⟨_, rfl⟩

/-- The turn of the loop below a red uncle. -/
theorem runs_fixUp_red (htop : ptr (layout δ) top = some parent) (huncle : uncle.isRed = true) :
    Runs (Owns r (zip (layout δ) (Frame.fill ⟨side, c, e, uncle⟩ top) path + R))
      (fixUp side node parent e.1) fun next s => next = e.1 ∧
        Owns r (zip (layout δ) (Frame.fill ⟨side, .red, e, uncle.setBlack⟩ top.setBlack) path + R)
          s := by
  obtain ⟨a, ha⟩ : ∃ a, ptr (layout δ) uncle = some a := by
    apply exists_ptr
    rintro rfl
    cases huncle
  have hcell : frameCell (layout δ) (parentOf (layout δ) path) (ptr (layout δ) top.setBlack)
      ⟨side, .red, e, uncle.setBlack⟩ = frameCell (layout δ) (parentOf (layout δ) path)
        (ptr (layout δ) top) ⟨side, .red, e, uncle⟩ := by
    rw [ptr_setBlack]
    exact frameCell_congr ptr_setBlack
  refine runs_deref_zip ?_
  rw [child_other_frameCell]
  simp only [zip_root, hcell]
  generalize pathCells (layout δ) (some e.1) path = P
  refine Runs.pre (runs_uncleIsRed (t := uncle) (q := some e.1) (R := {(e.1, frameCell (layout δ)
    (parentOf (layout δ) path) (ptr (layout δ) top) ⟨side, c, e, uncle⟩)} +
      (cells (layout δ) (some e.1) top + P + R)) ?_) (by abel)
  rw [huncle, if_pos rfl, recolor, ha]
  refine Runs.nonNull_bind (runs_setBlack ha ?_)
  refine Runs.pre (runs_setBlack (t := top) (q := some e.1) (R := {(e.1, frameCell (layout δ)
    (parentOf (layout δ) path) (ptr (layout δ) top) ⟨side, c, e, uncle⟩)} +
      (cells (layout δ) (some e.1) uncle.setBlack + P + R)) htop ?_) (by abel)
  refine Runs.pre (Runs.modify_bind (a := e.1) (c := frameCell (layout δ)
    (parentOf (layout δ) path) (ptr (layout δ) top) ⟨side, c, e, uncle⟩)
    (N := cells (layout δ) (some e.1) top.setBlack + (cells (layout δ) (some e.1) uncle.setBlack +
      P + R)) ?_) (by abel)
  refine Runs.pure fun s hs => ⟨rfl, ?_⟩
  rw [rbSetRed_frameCell] at hs
  convert hs using 1
  abel

/-- The turn of the loop with a black uncle, or none. -/
theorem runs_fixUp_black {parent gparent : Frame (Addr × δ)} (ht : ptr (layout δ) t = some node)
    (huncle : ¬ gparent.sibling.isRed = true) :
    Runs (Owns (rootOf (layout δ) (some gparent.entry.1) path)
        (zip (layout δ) (gparent.fill (parent.fill t)) path + R))
      (fixUp gparent.side node parent.entry.1 gparent.entry.1) fun next s => ∃ side e s' near,
        RbTree.turn t parent gparent = some (Frame.fill ⟨side, .black, e, s'⟩ near) ∧
        ptr (layout δ) near = some next ∧
        Owns (rootOf (layout δ) (some e.1) path)
          (zip (layout δ) (Frame.fill ⟨side, .black, e, s'⟩ near) path + R) s := by
  obtain ⟨side, gc, ge, uncle⟩ := gparent
  have hstraighten := @runs_straighten δ side t (⟨side, gc, ge, uncle⟩ :: path) R parent node ht
  rw [← zip_frame] at hstraighten
  generalize parent.fill t = top at hstraighten
  refine runs_deref_zip ?_
  rw [child_other_frameCell]
  refine Runs.pre (runs_uncleIsRed (t := uncle) (q := some ge.1) (R := {(ge.1, frameCell (layout δ)
    (parentOf (layout δ) path) (ptr (layout δ) top) ⟨side, gc, ge, uncle⟩)} +
      (cells (layout δ) (some ge.1) top + pathCells (layout δ) (some ge.1) path + R)) ?_)
    (by rw [zip_root]; abel)
  rw [if_neg huncle]
  -- the two red nodes are seen below the upper one
  refine Runs.bind (hstraighten.pre (by rw [zip_root]; abel)) fun next s hs => ?_
  obtain ⟨c, e, mid, near, hstr, hnext, hparent, hs⟩ := hs
  obtain ⟨node', parent'⟩ := next
  obtain rfl : parent' = e.1 := hparent
  revert s
  refine runs_modify_zip rbSetBlack_frameCell ?_
  rw [← zip_frame]
  refine runs_modify_zip rbSetRed_frameCell ?_
  -- turned to the other side, the upper node is below them
  have hflip : Frame.fill ⟨side, .red, ge, uncle⟩ (Frame.fill ⟨side, .black, e, mid⟩ near) =
      Frame.fill ⟨other side, .red, ge, Frame.fill ⟨other side, .black, e, near⟩ mid⟩ uncle := by
    rw [fill_other, fill_other]
  rw [rotateTo_eq, hflip, rootOf, layout_addr]
  refine runs_rotate.bind fun _ => Runs.pure fun s hs => ?_
  rw [fill_other, fill_other] at hs
  exact ⟨side, e, _, near, turn_straighten hstr, hnext, hs⟩

/-- A node of the tree has its address, its parent and its color. -/
theorem runs_deref_node {f : Node δ → RbProg δ β} {S : β → State (Option Addr) Addr (Node δ) → Prop}
    (ht : ptr (layout δ) t = some node)
    (h : ∀ n, rbParent n = parentOf (layout δ) path → rbIsRed n = t.isRed →
      Runs (Owns r (zip (layout δ) t path + R)) (f n) S) :
    Runs (Owns r (zip (layout δ) t path + R)) (deref node >>= f) S := by
  obtain ⟨c, e, s, t, rfl, rfl⟩ := exists_frame ht .left
  refine runs_deref_zip (h _ rbParent_frameCell ?_)
  rw [rbIsRed_frameCell, RbTree.isRed_frame]

/-- The loop ends below a black node, or at the root. -/
theorem runs_insertColorLoop_end {fuel : ℕ} (ht : ptr (layout δ) t = some node)
    (hblack : ∀ f ∈ path.head?, f.color = .black) :
    Runs (Owns (rootOf (layout δ) (some node) path) (zip (layout δ) t path + R))
      (insertColorLoop (fuel + 1) node) fun _ =>
      Owns (ptr (layout δ) (RbTree.fill t path)) (cells (layout δ) none (RbTree.fill t path) + R) := by
  rw [← ht, ← ptr_fill, insertColorLoop, ← zip_fill]
  refine runs_deref_node ht fun n hparent _ => ?_
  rw [hparent]
  cases path with
  | nil => exact Runs.pure fun s hs => hs
  | cons f path =>
    obtain ⟨side, c, e, s⟩ := f
    obtain rfl : c = .black := hblack _ rfl
    rw [parentOf, ← zip_frame]
    refine runs_deref_node ptr_frame fun p _ hred => ?_
    rw [hred, RbTree.isRed_frame, if_neg (by simp)]
    exact Runs.pure fun s hs => hs

/-- Below a red node, the loop takes a turn. -/
theorem runs_insertColorLoop_turn {fuel : ℕ} {parent gparent : Frame (Addr × δ)}
    {S : Unit → State (Option Addr) Addr (Node δ) → Prop}
    (ht : ptr (layout δ) t = some node) (hred : parent.color = .red)
    (h : Runs (Owns (rootOf (layout δ) (some gparent.entry.1) path)
        (zip (layout δ) (gparent.fill (parent.fill t)) path + R))
      (fixUp gparent.side node parent.entry.1 gparent.entry.1 >>= insertColorLoop fuel) S) :
    Runs (Owns (rootOf (layout δ) (some node) (parent :: gparent :: path))
        (zip (layout δ) t (parent :: gparent :: path) + R))
      (insertColorLoop (fuel + 1) node) S := by
  rw [insertColorLoop]
  refine runs_deref_node ht fun n hparent _ => ?_
  obtain ⟨pside, pc, pe, ps⟩ := parent
  obtain ⟨side, c, e, s⟩ := gparent
  rw [hparent, parentOf, ← zip_frame]
  refine runs_deref_node ptr_frame fun p hgparent hpred => ?_
  rw [hpred, RbTree.isRed_frame, if_pos (by simpa using hred), hgparent, parentOf]
  refine Runs.nonNull_bind ?_
  rw [← zip_frame]
  refine Runs.of_owns fun hapart => ?_
  have hne := ptr_sibling_ne hapart ptr_frame
  refine runs_deref_zip ?_
  -- the side on which the parent is
  have hside : (if some pe.1 = (frameCell (layout δ) (parentOf (layout δ) path)
      (ptr (layout δ) (Frame.fill ⟨pside, pc, pe, ps⟩ t)) ⟨side, c, e, s⟩).rbLeft
      then Side.left else Side.right) = side := by
    cases side with
    | left =>
      refine if_pos ?_
      change some pe.1 = ptr (layout δ) (Frame.fill ⟨pside, pc, pe, ps⟩ t)
      rw [ptr_frame, layout_addr]
    | right =>
      refine if_neg ?_
      exact fun h => hne h.symm
  rw [layout_addr, hside]
  exact h

/-- The loop does what the library does, up to the color of the root. -/
theorem runs_insertColorLoop {fuel : ℕ} {t' : RbTree (Addr × δ)}
    (h : RbTree.insertColor t path = some t') (ht : ptr (layout δ) t = some node)
    (hfuel : path.length + 1 < fuel) :
    Runs (Owns (rootOf (layout δ) (some node) path) (zip (layout δ) t path + R))
      (insertColorLoop fuel node) fun _ s => ∃ t'', t''.setBlack = t' ∧
        Owns (ptr (layout δ) t'') (cells (layout δ) none t'' + R) s := by
  obtain ⟨fuel, rfl⟩ : ∃ n, fuel = n + 1 := ⟨fuel - 1, by omega⟩
  induction t, path using RbTree.insertColor.induct generalizing node fuel with
  | case1 t =>
    obtain rfl := Option.some.inj h
    refine (runs_insertColorLoop_end ht (by simp)).mono (fun _ h => h) fun _ s hs => ?_
    exact ⟨t, rfl, hs⟩
  | case2 t parent hblack =>
    rw [RbTree.insertColor, if_pos hblack] at h
    obtain rfl := Option.some.inj h
    refine (runs_insertColorLoop_end ht (by simpa using hblack)).mono (fun _ h => h) fun _ s hs => ?_
    exact ⟨_, rfl, hs⟩
  | case3 t parent hred =>
    rw [RbTree.insertColor, if_neg hred] at h
    cases h
  | case4 t parent gparent path hblack =>
    rw [RbTree.insertColor, if_pos hblack] at h
    obtain rfl := Option.some.inj h
    refine (runs_insertColorLoop_end ht (by simpa using hblack)).mono (fun _ h => h) fun _ s hs => ?_
    exact ⟨_, rfl, hs⟩
  | case5 t parent gparent path hred huncle gparent' =>
    rename_i ih
    rw [RbTree.insertColor, if_neg hred, if_pos huncle] at h
    obtain ⟨side, c, e, uncle⟩ := gparent
    obtain ⟨pside, pc, pe, ps⟩ := parent
    rw [List.length_cons, List.length_cons] at hfuel
    refine runs_insertColorLoop_turn ht (RbTree.eq_red_of_ne_black hred) ?_
    refine (runs_fixUp_red ptr_frame huncle).bind fun next => Runs.of_fact ?_
    rintro rfl
    -- the upper node is red now, and the loop goes on there
    obtain ⟨fuel, rfl⟩ : ∃ n, fuel = n + 1 := ⟨fuel - 1, by omega⟩
    exact ih h ptr_frame _ (by omega)
  | case6 t parent gparent path hred huncle =>
    rw [RbTree.insertColor, if_neg hred, if_neg huncle] at h
    obtain ⟨t'', hturn, rfl⟩ := Option.map_eq_some_iff.mp h
    rw [List.length_cons, List.length_cons] at hfuel
    refine runs_insertColorLoop_turn ht (RbTree.eq_red_of_ne_black hred) ?_
    refine (runs_fixUp_black ht huncle).bind fun next s hs => ?_
    obtain ⟨side, e, s', near, hturn', hnext, hs⟩ := hs
    obtain rfl := Option.some.inj (hturn.symm.trans hturn')
    -- the node is below a black one now, and the loop ends
    obtain ⟨fuel, rfl⟩ : ∃ n, fuel = n + 1 := ⟨fuel - 1, by omega⟩
    rw [zip_frame] at hs
    change Owns (rootOf (layout δ) (some next) (⟨side, .black, e, s'⟩ :: path)) _ s at hs
    obtain ⟨x, s'', hrun, hs''⟩ := runs_insertColorLoop_end hnext (by simp) s hs
    exact ⟨x, s'', hrun, _, rfl, hs''⟩

/-- `adx_rbtree_insert_color` on a red node. -/
theorem runs_adxRbtreeInsertColor {fuel : ℕ} {t' : RbTree (Addr × δ)}
    (h : RbTree.insertColor t path = some t') (ht : ptr (layout δ) t = some node)
    (hfuel : path.length + 1 < fuel) :
    Runs (Owns (rootOf (layout δ) (some node) path) (zip (layout δ) t path + R))
      (adxRbtreeInsertColor fuel node) fun _ =>
      Owns (ptr (layout δ) t') (cells (layout δ) none t' + R) := by
  refine (runs_insertColorLoop h ht hfuel).bind fun _ s hs => ?_
  obtain ⟨t'', rfl, hs⟩ := hs
  revert s
  -- the root is that of the tree, which has the node
  obtain ⟨root, hroot⟩ : ∃ root, ptr (layout δ) t'' = some root := by
    apply exists_ptr
    rintro rfl
    have hlist := RbTree.toList_insertColor h
    rw [RbTree.toList_fill] at hlist
    obtain ⟨c, e, s, t, rfl, rfl⟩ := exists_frame ht .left
    simp [RbTree.setBlack, Frame.fill] at hlist
  refine Runs.vars_bind ?_
  rw [hroot]
  refine Runs.nonNull_bind (Runs.congr (runs_setBlack hroot (Runs.pure fun s hs => ?_))
    (bind_pure _).symm)
  rwa [ptr_setBlack, hroot]

end

/-! ## Adding and finding -/

section

variable {δ ι β : Type} [Ord ι] {key : δ → Option ι} {k : ι} {t : RbTree (Addr × δ)}
  {path path' : List (Frame (Addr × δ))} {r : Option Addr} {R : Multiset (Addr × Node δ)}
  {s : State (Option Addr) Addr (Node δ)} {fuel : ℕ}

variable (key) in
/-- The key of an entry. -/
def entryKey (e : Addr × δ) : Option ι := key e.2

/-- Where a path leads to. -/
def slotOf : List (Frame (Addr × δ)) → Slot
  | [] => .head
  | f :: _ => .child f.entry.1 f.side

/-- A program that finds a key in the tree does not change the memory. -/
theorem findLoop_eq {q : Option Addr} (hs : Owns r (cells (layout δ) q t + R) s)
    (hkeys : ∀ e ∈ t.toList, (entryKey key e).isSome) (hfuel : t.toList.length < fuel) :
    findLoop key k fuel (ptr (layout δ) t) s =
      some ((t.find (entryKey key) (some k)).map Prod.fst, s) := by
  induction t generalizing q R fuel with
  | leaf =>
    obtain ⟨fuel, rfl⟩ : ∃ n, fuel = n + 1 := ⟨fuel - 1, by omega⟩
    rfl
  | node c l e u ihl ihr =>
    obtain ⟨fuel, rfl⟩ : ∃ n, fuel = n + 1 := ⟨fuel - 1, by omega⟩
    rw [RbTree.toList_node, List.length_append, List.length_cons] at hfuel
    obtain ⟨k', hk'⟩ := Option.isSome_iff_exists.mp (hkeys e (by simp))
    have hcompare : compare (some k) (entryKey key e) = compare k k' := by rw [hk']; rfl
    have hbelow : ∃ M, cells (layout δ) q (.node c l e u) =
        M + (cells (layout δ) (some e.1) l + cells (layout δ) (some e.1) u) := ⟨_, rfl⟩
    have hcell : deref e.1 s =
        some (⟨pack q c, ptr (layout δ) u, ptr (layout δ) l, e.2⟩, s) := by
      rw [cells, add_assoc] at hs
      exact hs.deref
    refine (bind_apply hcell).trans ?_
    rw [RbTree.find, hcompare]
    simp only [show key e.2 = some k' from hk']
    obtain ⟨M, hM⟩ := hbelow
    rw [hM] at hs
    -- the three outcomes of the comparison
    cases compare k k' with
    | lt =>
      refine ihl (q := some e.1) (R := M + cells (layout δ) (some e.1) u + R) ?_
        (fun a ha => hkeys a (by simp [ha])) (by omega)
      convert hs using 1
      abel
    | eq => rfl
    | gt =>
      refine ihr (q := some e.1) (R := M + cells (layout δ) (some e.1) l + R) ?_
        (fun a ha => hkeys a (by simp [ha])) (by omega)
      convert hs using 1
      abel

/-- At the end of a path, there is the pointer to what is in its hole. -/
theorem read_slotOf (hs : Owns (rootOf (layout δ) (ptr (layout δ) t) path)
    (zip (layout δ) t path + R) s) : (slotOf path).read s = some (ptr (layout δ) t, s) := by
  cases path with
  | nil => exact congrArg (fun p => some (p, s)) hs.vars
  | cons f path =>
    obtain ⟨side, c, e, u⟩ := f
    rw [← zip_frame, zip_root, add_assoc] at hs
    refine (bind_apply hs.deref).trans ?_
    rw [child_frameCell]
    rfl

/-- The loop goes down as the library does, and does not change the memory. -/
theorem addLoop_eq (hs : Owns (rootOf (layout δ) (ptr (layout δ) t) path)
    (zip (layout δ) t path + R) s) (hkeys : ∀ e ∈ t.toList, (entryKey key e).isSome)
    (hfuel : t.toList.length < fuel) :
    addLoop key k fuel (parentOf (layout δ) path) (slotOf path) s =
      some ((t.descend (entryKey key) (some k) path).map
        fun path => (parentOf (layout δ) path, slotOf path), s) := by
  induction t generalizing path fuel with
  | leaf =>
    obtain ⟨fuel, rfl⟩ : ∃ n, fuel = n + 1 := ⟨fuel - 1, by omega⟩
    exact (bind_apply (read_slotOf hs)).trans rfl
  | node c l e u ihl ihr =>
    obtain ⟨fuel, rfl⟩ : ∃ n, fuel = n + 1 := ⟨fuel - 1, by omega⟩
    rw [RbTree.toList_node, List.length_append, List.length_cons] at hfuel
    obtain ⟨k', hk'⟩ := Option.isSome_iff_exists.mp (hkeys e (by simp))
    have hcompare : compare (some k) (entryKey key e) = compare k k' := by rw [hk']; rfl
    have hleft : RbTree.node c l e u = Frame.fill ⟨.left, c, e, u⟩ l := rfl
    have hright : RbTree.node c l e u = Frame.fill ⟨.right, c, e, l⟩ u := rfl
    have hcell : ∃ n, n.data = e.2 ∧ deref e.1 s = some (n, s) := by
      rw [hleft, zip_root, add_assoc] at hs
      exact ⟨_, rfl, hs.deref⟩
    obtain ⟨n, hn, hderef⟩ := hcell
    refine (bind_apply (read_slotOf hs)).trans ?_
    refine (bind_apply hderef).trans ?_
    rw [RbTree.descend, hcompare, hn]
    simp only [show key e.2 = some k' from hk']
    -- the three outcomes of the comparison
    cases compare k k' with
    | lt =>
      rw [hleft, zip_frame, rootOf_frame] at hs
      exact ihl hs (fun a ha => hkeys a (by simp [ha])) (by omega)
    | eq => rfl
    | gt =>
      rw [hright, zip_frame, rootOf_frame] at hs
      exact ihr hs (fun a ha => hkeys a (by simp [ha])) (by omega)

/-- A node comes to the end of a path, as a red leaf. -/
theorem runs_adxRbtreeLinkNode {a : Addr} {n : Node δ} :
    Runs (Owns (rootOf (layout δ) none path) (zip (layout δ) .leaf path + ({(a, n)} + R)))
      (adxRbtreeLinkNode a (parentOf (layout δ) path) (slotOf path)) fun _ =>
      Owns (rootOf (layout δ) (some a) path)
        (zip (layout δ) (.node .red .leaf (a, n.data) .leaf) path + R) := by
  have hnode : RbTree.node .red .leaf (a, n.data) .leaf =
      Frame.fill ⟨.left, .red, (a, n.data), .leaf⟩ .leaf := rfl
  have hcell : (⟨toWord (parentOf (layout δ) path), none, none, n.data⟩ : Node δ) =
      frameCell (layout δ) (parentOf (layout δ) path) none
        ⟨.left, .red, (a, n.data), .leaf⟩ := by
    have hword : toWord (parentOf (layout δ) path) = pack (parentOf (layout δ) path) .red := by
      rw [pack]
      exact BitVec.or_zero.symm
    rw [hword]
    rfl
  refine Runs.pre (Runs.modify_bind (a := a) (Runs.modify_bind ?_)) (add_left_comm _ _ _)
  rw [hcell, hnode, zip_root]
  simp only [cells_leaf, ptr_leaf, zip, zero_add]
  -- the pointer to the new node
  cases path with
  | nil =>
    refine Runs.assign.mono (fun _ h => h) fun _ s hs => ?_
    simpa [pathCells, rootOf] using hs
  | cons f path =>
    obtain ⟨side, c, e, u⟩ := f
    generalize frameCell (layout δ) (parentOf (layout δ) (⟨side, c, e, u⟩ :: path)) none
      ⟨.left, .red, (a, n.data), .leaf⟩ = x
    simp only [pathCells_frame, rootOf, layout_addr]
    refine Runs.pre (Runs.modify (a := e.1) (c := frameCell (layout δ) (parentOf (layout δ) path)
      none ⟨side, c, e, u⟩) (N := {(a, x)} + (cells (layout δ) (some e.1) u +
        pathCells (layout δ) (some e.1) path + R))) (by abel) |>.mono (fun _ h => h) fun _ s hs => ?_
    rw [setChild_frameCell] at hs
    convert hs using 1
    abel

variable [Std.TransOrd ι] [Std.LawfulEqOrd ι]

variable (key) in
/-- A tree as it is between two additions. -/
structure Tree (t : RbTree (Addr × δ)) : Prop where
  redBlack : t.RedBlack
  sorted : RbTree.Sorted (entryKey key) t
  keys : ∀ e ∈ t.toList, (entryKey key e).isSome

/-- An addition in memory is one of the tree; a node that is not linked stays as it is. -/
theorem runs_add {a : Addr} {n : Node δ} (ht : Tree key t) (hkey : key n.data = some k)
    (hfuel : t.toList.length + 2 < fuel) : ∃ t',
    RbTree.add (entryKey key) (a, n.data) t = some t' ∧ Tree key t' ∧
    ∀ R, Runs (Owns (ptr (layout δ) t) (cells (layout δ) none t + ({(a, n)} + R))) (add key fuel a)
      fun _ s => ∃ M ≤ {(a, n)},
        Owns (ptr (layout δ) t') (cells (layout δ) none t' + (M + R)) s := by
  have hvalid : RbTree.Valid (entryKey key) t := ⟨ht.redBlack.black, ht.sorted⟩
  obtain ⟨t', hadd, hvalid', hmem⟩ := RbTree.add_spec hvalid (a, n.data)
  have hkeys : ∀ e ∈ t'.toList, (entryKey key e).isSome := by
    intro e he
    rcases (hmem e).mp he with he | ⟨rfl, -⟩
    · exact ht.keys e he
    · exact Option.isSome_iff_exists.mpr ⟨k, hkey⟩
  refine ⟨t', hadd, ⟨RbTree.redBlack_add ht.redBlack ht.sorted hadd, hvalid'.sorted, hkeys⟩,
    fun R => ?_⟩
  -- the place of the key, if it is not in the tree
  have hentry : entryKey key (a, n.data) = some k := hkey
  rw [RbTree.add] at hadd
  refine Runs.pre (Runs.deref_bind (a := a) ?_) (add_left_comm _ _ _)
  rw [hkey]
  have htree : {(a, n)} + (cells (layout δ) none t + R) =
      zip (layout δ) t [] + ({(a, n)} + R) := by
    rw [zip_fill]
    exact add_left_comm _ _ _
  rw [htree]
  have hloop : ∀ s, Owns (ptr (layout δ) t) (zip (layout δ) t [] + ({(a, n)} + R)) s →
      addLoop key k fuel none .head s =
        some ((t.descend (entryKey key) (entryKey key (a, n.data)) []).map
          fun path => (parentOf (layout δ) path, slotOf path), s) := by
    intro s hs
    rw [hentry]
    exact @addLoop_eq _ _ _ _ k _ [] _ _ fuel hs ht.keys (by omega)
  refine Runs.reads_bind hloop ?_
  cases hd : t.descend (entryKey key) (entryKey key (a, n.data)) [] with
  | none =>
    -- a node with the key is there
    rw [hd] at hadd
    obtain rfl := Option.some.inj hadd
    refine Runs.pure fun s hs => ⟨{(a, n)}, le_rfl, ?_⟩
    rwa [← add_left_comm, htree]
  | some path =>
    rw [hd] at hadd
    obtain ⟨hfill, -⟩ := RbTree.toList_of_descend hd ht.sorted
    have hlength : path.length ≤ t.toList.length := by
      have hle := @RbTree.length_le_toList_fill _ .leaf path
      rwa [hfill] at hle
    -- the tree, seen from the hole
    have hhole : ptr (layout δ) t = rootOf (layout δ) none path ∧
        zip (layout δ) t [] = zip (layout δ) .leaf path := by
      rw [zip_fill, zip_fill, hfill, ← ptr_leaf, ← ptr_fill, hfill]
      exact ⟨rfl, rfl⟩
    rw [hhole.1, hhole.2]
    refine Runs.bind runs_adxRbtreeLinkNode fun _ => ?_
    refine Runs.bind (runs_adxRbtreeInsertColor hadd rfl (by omega)) fun _ => ?_
    refine Runs.pure fun s hs => ⟨0, Multiset.zero_le _, ?_⟩
    rwa [zero_add]

omit [Std.TransOrd ι] [Std.LawfulEqOrd ι] in
/-- A node without a key is not linked. -/
theorem runs_add_none {a : Addr} {n : Node δ} (hkey : key n.data = none) :
    Runs (Owns r ({(a, n)} + R)) (add key fuel a) fun _ => Owns r ({(a, n)} + R) := by
  refine Runs.deref_bind ?_
  rw [hkey]
  exact Runs.pure fun s hs => hs

/-- Nodes are added, one after the other; the results are not used. -/
def addAll (add : Addr → RbProg δ (Option Addr)) : List Addr → RbProg δ Unit
  | [] => pure ()
  | newNode :: nodes => do
    let _ ← add newNode
    addAll add nodes

variable [DecidableEq ι]

omit [Std.TransOrd ι] [Std.LawfulEqOrd ι] [Ord ι] in
variable (key) in
/-- The first node with a key, with its data. -/
def firstWith (nodes : List (Addr × Node δ)) (k : ι) : Option (Addr × δ) :=
  (nodes.map fun node => (node.1, node.2.data)).find? fun e => key e.2 = some k

/-- Additions in memory: the tree is still one, and finds the first node with a key. -/
theorem runs_addAll {nodes : List (Addr × Node δ)} (ht : Tree key t)
    (hfuel : t.toList.length + nodes.length + 1 < fuel) : ∃ t', Tree key t' ∧
    t'.toList.length ≤ t.toList.length + nodes.length ∧
    (∀ k, t'.find (entryKey key) (some k) =
      (t.find (entryKey key) (some k)).or (firstWith key nodes k)) ∧
    ∀ R, Runs (Owns (ptr (layout δ) t) (cells (layout δ) none t + (Multiset.ofList nodes + R)))
      (addAll (add key fuel) (nodes.map Prod.fst)) fun _ s => ∃ M ≤ (nodes : Multiset _),
        Owns (ptr (layout δ) t') (cells (layout δ) none t' + (M + R)) s := by
  induction nodes generalizing t with
  | nil =>
    refine ⟨t, ht, le_rfl, fun k => by simp [firstWith], fun R => ?_⟩
    exact Runs.pure fun s hs => ⟨0, le_rfl, hs⟩
  | cons node nodes ih =>
    obtain ⟨a, n⟩ := node
    rw [List.length_cons] at hfuel
    have hnodes : (((a, n) :: nodes : List _) : Multiset (Addr × Node δ)) = {(a, n)} + nodes := rfl
    cases hkey : key n.data with
    | none =>
      -- the node stays beside the tree
      obtain ⟨t', ht', hlength, hfind, hruns⟩ := ih ht (by omega)
      refine ⟨t', ht', hlength.trans (by simp), fun k => ?_, fun R => ?_⟩
      · rw [hfind]
        simp [firstWith, hkey]
      · rw [hnodes]
        refine Runs.pre (Runs.bind (runs_add_none (R := cells (layout δ) none t +
          (Multiset.ofList nodes + R)) hkey) fun _ =>
            Runs.pre (hruns ({(a, n)} + R)) (by abel)) (by abel) |>.mono (fun _ h => h)
              fun _ s hs => ?_
        obtain ⟨M, hM, hs⟩ := hs
        refine ⟨{(a, n)} + M, add_le_add_right hM _, ?_⟩
        convert hs using 2
        abel
    | some k =>
      obtain ⟨t₁, hadd, ht₁, hruns₁⟩ := runs_add (a := a) ht hkey
        (show t.toList.length + 2 < fuel by omega)
      have hlength₁ := RbTree.length_add_le ht.sorted hadd
      obtain ⟨t', ht', hlength, hfind, hruns⟩ := ih ht₁ (by omega)
      refine ⟨t', ht', hlength.trans (by rw [List.length_cons]; omega), fun k' => ?_, fun R => ?_⟩
      · -- the new node is found where there was none
        have hfind₁ := (RbTree.find_add ⟨ht.redBlack.black, ht.sorted⟩ hadd).2 (some k')
        rw [hfind, hfind₁, Option.or_assoc]
        congr 1
        simp only [firstWith, entryKey, hkey, List.map_cons, List.find?_cons]
        split_ifs with h <;> simp [h]
      · -- what has not been linked so far is part of the rest of the memory
        refine Runs.pre (Runs.bind (hruns₁ (Multiset.ofList nodes + R))
          fun _ s hs => ?_) (by rw [hnodes, add_assoc])
        obtain ⟨M₁, hM₁, hs⟩ := hs
        obtain ⟨x, s', hrun, M, hM, hs'⟩ := hruns (M₁ + R) s (by convert hs using 1; abel)
        refine ⟨x, s', hrun, M₁ + M, add_le_add hM₁ hM, ?_⟩
        convert hs' using 1
        abel

/-! ## The caches of the tracker -/

omit [Std.TransOrd ι] [Std.LawfulEqOrd ι] in
variable (key) in
/-- What the memory is behind the additions of some nodes, with the tree of the head: it is a
red-black tree in the order of the keys, with the parents of its nodes, and has the first node with
each key; the other nodes, and the other cells, are what they were. -/
structure Indexed (nodes : List (Addr × Node δ)) (R : Multiset (Addr × Node δ))
    (s : State (Option Addr) Addr (Node δ)) (t : RbTree (Addr × δ)) : Prop where
  memory : ∃ M ≤ (nodes : Multiset _),
    Owns (ptr (layout δ) t) (cells (layout δ) none t + (M + R)) s
  sorted : RbTree.Sorted (entryKey key) t
  redBlack : t.RedBlack
  mem : ∀ e, e ∈ t.toList ↔ ∃ k, key e.2 = some k ∧ firstWith key nodes k = some e

/-- Additions to an empty tree, and what is found then. -/
theorem adds_indexed (key : δ → Option ι) {nodes : List (Addr × Node δ)} (hfuel : nodes.length + 1 < fuel)
    (hs : Owns none (Multiset.ofList nodes + R) s) : ∃ s' t,
    addAll (add key fuel) (nodes.map Prod.fst) s = some ((), s') ∧ Indexed key nodes R s' t ∧
    ∀ k, find key fuel k s' = some (k.bind fun k => (firstWith key nodes k).map Prod.fst, s') := by
  have hleaf : Tree key (.leaf : RbTree (Addr × δ)) :=
    ⟨RbTree.redBlack_leaf, RbTree.valid_leaf.sorted, nofun⟩
  obtain ⟨t, ht, hlength, hfind, hruns⟩ := runs_addAll hleaf (by simpa using hfuel)
  have hfirst : ∀ k, t.find (entryKey key) (some k) = firstWith key nodes k := fun k => hfind k
  obtain ⟨⟨⟩, s', hrun, M, hM, hs'⟩ := hruns R s (by rwa [cells_leaf, zero_add])
  refine ⟨s', t, hrun, ⟨⟨M, hM, hs'⟩, ht.sorted, ht.redBlack, fun e => ?_⟩, fun k => ?_⟩
  · simp only [← hfirst, ht.sorted.find_eq_some_iff]
    constructor
    · intro he
      obtain ⟨k, hk⟩ := Option.isSome_iff_exists.mp (ht.keys e he)
      exact ⟨k, hk, he, hk⟩
    · exact fun ⟨k, _, he, _⟩ => he
  · have hvars : OwnedCells.vars s' = some (ptr (layout δ) t, s') := by
      rw [OwnedCells.vars, hs'.vars]
    rw [find, bind_apply hvars]
    cases k with
    | none => rfl
    | some k =>
      simp only [Option.bind_some, ← hfirst]
      exact findLoop_eq hs' ht.keys (by simp at hlength; omega)

end

/-- For every sequence of additions to an empty tree, of strings as of numbers: the tree is a
red-black tree in the order of the keys with the first node for each key, and a search finds this
node, or `NULL`. -/
theorem rbtree_adds :
    (∀ (fuel : ℕ) (nodes : List (Addr × Node (Option Bytes)))
        (R : Multiset (Addr × Node (Option Bytes))) s,
      nodes.length + 1 < fuel → Owns none (Multiset.ofList nodes + R) s → ∃ s' t,
        addAll (adxRbtreeStringAdd fuel) (nodes.map Prod.fst) s = some ((), s') ∧
        Indexed stringKey nodes R s' t ∧
        ∀ key, adxRbtreeStringFind fuel key s' =
          some (key.bind fun key => (firstWith stringKey nodes (cstr key)).map Prod.fst, s')) ∧
    (∀ (fuel : ℕ) (nodes : List (Addr × Node ℤ)) (R : Multiset (Addr × Node ℤ)) s,
      nodes.length + 1 < fuel → Owns none (Multiset.ofList nodes + R) s → ∃ s' t,
        addAll (adxRbtreeNumberAdd fuel) (nodes.map Prod.fst) s = some ((), s') ∧
        Indexed numberKey nodes R s' t ∧
        ∀ key, adxRbtreeNumberFind fuel key s' =
          some ((firstWith numberKey nodes key).map Prod.fst, s')) := by
  constructor
  · intro fuel nodes R s hfuel hs
    obtain ⟨s', t, hrun, hindexed, hfind⟩ := adds_indexed stringKey hfuel hs
    refine ⟨s', t, hrun, hindexed, fun key => (hfind (key.map cstr)).trans ?_⟩
    rw [Option.bind_map]
    rfl
  · intro fuel nodes R s hfuel hs
    obtain ⟨s', t, hrun, hindexed, hfind⟩ := adds_indexed numberKey hfuel hs
    exact ⟨s', t, hrun, hindexed, fun key => hfind (some key)⟩

/-- Seven nodes with six keys, as strings and as numbers.  The keys ascend, so that a node is
recoloured or the tree is turned at each node from the third on; the last key is there already. -/
theorem rbtree_adds_seven :
    let addrs : List Addr :=
      [⟨8, by decide, by decide⟩, ⟨16, by decide, by decide⟩, ⟨24, by decide, by decide⟩,
        ⟨32, by decide, by decide⟩, ⟨40, by decide, by decide⟩, ⟨48, by decide, by decide⟩,
        ⟨56, by decide, by decide⟩]
    let strings : List (Addr × Node (Option Bytes)) :=
      addrs.zip ([97, 98, 99, 100, 101, 102, 98].map fun c => ⟨0, none, none, some [c]⟩)
    let numbers : List (Addr × Node ℤ) :=
      addrs.zip ([1, 2, 3, 4, 5, 6, 2].map fun number => ⟨0, none, none, number⟩)
    (∃ s' t, addAll (adxRbtreeStringAdd 9) addrs ⟨none, fun a => strings.lookup a⟩ = some ((), s') ∧
      Indexed stringKey strings 0 s' t) ∧
    (∃ s' t, addAll (adxRbtreeNumberAdd 9) addrs ⟨none, fun a => numbers.lookup a⟩ = some ((), s') ∧
      Indexed numberKey numbers 0 s' t) := by
  intro addrs strings numbers
  constructor
  · obtain ⟨s', t, hrun, hindexed, -⟩ := rbtree_adds.1 9 strings 0 ⟨none, fun a => strings.lookup a⟩
      (by decide) ⟨rfl, by decide, by decide⟩
    exact ⟨s', t, hrun, hindexed⟩
  · obtain ⟨s', t, hrun, hindexed, -⟩ := rbtree_adds.2 9 numbers 0 ⟨none, fun a => numbers.lookup a⟩
      (by decide) ⟨rfl, by decide, by decide⟩
    exact ⟨s', t, hrun, hindexed⟩

end Rbtree

end AdxDsp
