import AdxDsp.Lib.RedBlack

/-!
# Trees of cells with parents

The cells of a red-black tree whose nodes point to their children and to their parent.  With a path
to one of its places, the cells are those of the tree at this place and those of the path, so that a
program that goes through the tree has the cells that it reads and changes at hand.

* `cells`, `pathCells`: the cells of a tree and those of a path.
* `zip_frame`: going one step up or down.
* `cells_fill`, `ptr_fill`: the whole tree.
* `rotate_frame`, `exists_straighten`, `turn_straighten`: the rotations, for both sides at once.
-/

namespace ParentTrees

open RbTree

variable {ω γ α : Type}

/-- How an entry is kept: the address of its node, and the cell for a parent, a color, and the two
children. -/
structure Layout (ω γ α : Type) where
  addr : α → ω
  cell : (parent : Option ω) → RbColor → (left right : Option ω) → α → γ

variable (L : Layout ω γ α)

/-- The pointer to a tree. -/
def ptr : RbTree α → Option ω
  | leaf => none
  | node _ _ entry _ => some (L.addr entry)

/-- The cells of a tree below a parent. -/
def cells (parent : Option ω) : RbTree α → Multiset (ω × γ)
  | leaf => 0
  | node color left entry right =>
    {(L.addr entry, L.cell parent color (ptr L left) (ptr L right) entry)} +
      (cells (some (L.addr entry)) left + cells (some (L.addr entry)) right)

/-- The cell of a node of a path, with a pointer to what is in the hole. -/
def frameCell (parent hole : Option ω) (f : Frame α) : γ :=
  match f.side with
  | .left => L.cell parent f.color hole (ptr L f.sibling) f.entry
  | .right => L.cell parent f.color (ptr L f.sibling) hole f.entry

/-- The node that a path starts from. -/
def parentOf : List (Frame α) → Option ω
  | [] => none
  | f :: _ => some (L.addr f.entry)

/-- The cells of a path. -/
def pathCells (hole : Option ω) : List (Frame α) → Multiset (ω × γ)
  | [] => 0
  | f :: path =>
    {(L.addr f.entry, frameCell L (parentOf L path) hole f)} +
      (cells L (some (L.addr f.entry)) f.sibling + pathCells (some (L.addr f.entry)) path)

/-- The root above a path. -/
def rootOf (hole : Option ω) : List (Frame α) → Option ω
  | [] => hole
  | f :: path => rootOf (some (L.addr f.entry)) path

/-- The cells of a tree and of the path to it. -/
def zip (t : RbTree α) (path : List (Frame α)) : Multiset (ω × γ) :=
  cells L (parentOf L path) t + pathCells L (ptr L t) path

/-- The other side. -/
def other : Side → Side
  | .left => .right
  | .right => .left

/-- Turn a node downwards to a side. -/
def rotate : Side → RbTree α → Option (RbTree α)
  | .left => rotateLeft
  | .right => rotateRight

/-! ## The cells -/

section

variable {L} {parent hole : Option ω} {f : Frame α} {t s : RbTree α} {path : List (Frame α)}
  {side : Side} {c : RbColor} {e : α}

@[simp] theorem ptr_leaf : ptr L leaf = none := rfl

@[simp] theorem cells_leaf : cells L parent leaf = 0 := rfl

/-- A frame points to its own node. -/
@[simp] theorem ptr_frame : ptr L (Frame.fill ⟨side, c, e, s⟩ t) = some (L.addr e) := by
  cases side <;> rfl

/-- The cells of a frame: its node, the tree in its hole and its sibling. -/
theorem cells_frame : cells L parent (Frame.fill ⟨side, c, e, s⟩ t) =
    {(L.addr e, frameCell L parent (ptr L t) ⟨side, c, e, s⟩)} +
      (cells L (some (L.addr e)) t + cells L (some (L.addr e)) s) := by
  cases side with
  | left => rfl
  | right =>
    simp only [Frame.fill, cells, frameCell]
    abel

/-- Another colour leaves the root where it is. -/
theorem ptr_setBlack : ptr L t.setBlack = ptr L t := by
  cases t <;> rfl

/-- Of the other child, a node has the pointer only. -/
theorem frameCell_congr {s' : RbTree α} (h : ptr L s = ptr L s') :
    frameCell L parent hole ⟨side, c, e, s⟩ = frameCell L parent hole ⟨side, c, e, s'⟩ := by
  cases side <;> simp only [frameCell, h]

/-- A tree with a root, seen from one of its sides. -/
theorem exists_frame {a : ω} (h : ptr L t = some a) (side : Side) :
    ∃ c e s t', L.addr e = a ∧ t = Frame.fill ⟨side, c, e, s⟩ t' := by
  cases t with
  | leaf => cases h
  | node c l e r =>
    obtain rfl := Option.some.inj h
    cases side with
    | left => exact ⟨c, e, r, l, rfl, rfl⟩
    | right => exact ⟨c, e, l, r, rfl, rfl⟩

/-- A pointer to a tree leads to one of its cells. -/
theorem exists_mem_cells {a : ω} (h : ptr L t = some a) : ∃ x, (a, x) ∈ cells L parent t := by
  cases t with
  | leaf => cases h
  | node c l e r =>
    obtain rfl := Option.some.inj h
    exact ⟨_, Multiset.mem_add.mpr (.inl (Multiset.mem_singleton_self _))⟩

/-- The cells of a path with one node more. -/
theorem pathCells_frame : pathCells L hole (⟨side, c, e, s⟩ :: path) =
    {(L.addr e, frameCell L (parentOf L path) hole ⟨side, c, e, s⟩)} +
      (cells L (some (L.addr e)) s + pathCells L (some (L.addr e)) path) := rfl

/-- A step up, or down. -/
theorem zip_frame : zip L (f.fill t) path = zip L t (f :: path) := by
  obtain ⟨side, c, e, s⟩ := f
  rw [zip, zip, cells_frame, ptr_frame, pathCells_frame, parentOf]
  abel

/-- A frame is the first step of the path to the root. -/
theorem rootOf_frame : rootOf L (ptr L (f.fill t)) path = rootOf L hole (f :: path) := by
  obtain ⟨side, c, e, s⟩ := f
  rw [ptr_frame, rootOf]

/-- A zipper has the cells of the tree it stands for. -/
theorem zip_fill : zip L t path = cells L none (fill t path) := by
  induction path generalizing t with
  | nil => simp [zip, parentOf, pathCells, fill]
  | cons f path ih => rw [← zip_frame, ih]; rfl

/-- The root of the tree that a zipper stands for. -/
theorem ptr_fill : ptr L (fill t path) = rootOf L (ptr L t) path := by
  induction path generalizing t with
  | nil => rfl
  | cons f path ih =>
    exact ih.trans rootOf_frame

/-- A step over several nodes. -/
theorem zip_append {inner : List (Frame α)} : zip L (fill t inner) path = zip L t (inner ++ path) := by
  rw [zip_fill, zip_fill, fill, fill, fill, List.foldl_append]

/-- Below the root of a path, a tree is read off by what is in its hole; the other cells do not
depend on that. -/
theorem exists_cells_fill (parent : Option ω) (f : Frame α) (path : List (Frame α)) :
    ∃ q M, ∀ t, cells L parent (fill t (f :: path)) =
      {(L.addr f.entry, frameCell L q (ptr L t) f)} + (cells L (some (L.addr f.entry)) t + M) := by
  induction path using List.reverseRecOn generalizing parent with
  | nil =>
    obtain ⟨side, c, e, s⟩ := f
    exact ⟨parent, cells L (some (L.addr e)) s, fun t => cells_frame⟩
  | append_singleton path g ih =>
    obtain ⟨side, c, e, s⟩ := g
    obtain ⟨q, M, hM⟩ := ih (some (L.addr e))
    -- of what is in the hole, the upper node has the address of the first one only
    refine ⟨q, M + ({(L.addr e, frameCell L parent (rootOf L (some (L.addr f.entry)) path)
      ⟨side, c, e, s⟩)} + cells L (some (L.addr e)) s), fun t => ?_⟩
    have hfill : fill t (f :: (path ++ [⟨side, c, e, s⟩])) =
        Frame.fill ⟨side, c, e, s⟩ (fill t (f :: path)) := by
      rw [fill, ← List.cons_append, List.foldl_append]
      rfl
    have hptr : ptr L (fill t (f :: path)) = rootOf L (some (L.addr f.entry)) path := ptr_fill
    rw [hfill, cells_frame, hptr, hM]
    abel

end

/-! ## The rotations -/

section

variable {side : Side} {c c' : RbColor} {e e' : α} {near mid far sibling t top : RbTree α}
  {parent gparent : Frame α}

/-- The other side of the other side. -/
@[simp] theorem other_other : other (other side) = side := by
  cases side <;> rfl

/-- The other side is another one. -/
theorem other_ne : other side ≠ side := by
  cases side <;> exact nofun

/-- There are two sides only. -/
theorem eq_other_of_ne {side' : Side} (h : side' ≠ side) : side' = other side := by
  cases side <;> cases side' <;> simp_all [other]

/-- A node has two children. -/
theorem fill_other : Frame.fill ⟨other side, c, e, sibling⟩ t = Frame.fill ⟨side, c, e, t⟩ sibling := by
  cases side <;> rfl

/-- A rotation, in terms of frames. -/
theorem rotate_frame :
    rotate side (Frame.fill ⟨side, c, e, Frame.fill ⟨side, c', e', far⟩ mid⟩ near) =
      some (Frame.fill ⟨side, c', e', far⟩ (Frame.fill ⟨side, c, e, mid⟩ near)) := by
  cases side <;> rfl

/-- A node on the inner side is rotated out first. -/
theorem straighten_eq : straighten side t parent =
    if parent.side = side then some (parent.fill t) else rotate side (parent.fill t) := by
  cases side <;> rfl

/-- A turn, once the two red nodes are on the side of the upper one. -/
theorem turn_straighten
    (h : straighten gparent.side t parent = some (Frame.fill ⟨gparent.side, c, e, mid⟩ near)) :
    turn t parent gparent = some (Frame.fill ⟨gparent.side, .black, e,
      Frame.fill ⟨gparent.side, .red, gparent.entry, gparent.sibling⟩ mid⟩ near) := by
  obtain ⟨side, c', e', s⟩ := gparent
  cases side <;> rw [turn, h] <;> rfl

end

end ParentTrees
