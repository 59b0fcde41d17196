import Mathlib

/-!
# Trees of linked cells

A store of cells, each with pointers to its parent, to the cells before and behind it, and to its
first and last child.  Cells are made one at a time, and a cell is linked behind the children of
another one.

* `Layout`: the cells at their addresses are linked as a tree says.
* `Holds`: the new cells of a store hold some trees that have no cell in common.
* **The rules**: `Holds.new`, `Holds.link`, `Holds.frame`, `Holds.perm`, `Holds.sublist`.
* `Reaches`, `not_layout_of_loop`: where a cell points to itself there is no tree.
* `Runs`: a program that ends, with what is known of the store before and behind it.
-/

namespace LinkedTrees

universe u

variable {α β γ : Type}

/-! ## Cells -/

/-- A cell, which may have no parent, no neighbours and no children. -/
structure Cell (α : Type) where
  value : α
  parent : Option ℕ
  previous : Option ℕ
  next : Option ℕ
  child : Option ℕ
  childEnd : Option ℕ
  deriving DecidableEq

/-- A cell that is linked to nothing. -/
def Cell.new (v : α) : Cell α := ⟨v, none, none, none, none, none⟩

/-- The cells by their addresses; a new one gets the next address. -/
abbrev Store (α : Type) := List (Cell α)

/-- The cell at `c` becomes the last child of the one at `p`. -/
def link (s : Store α) (p c : ℕ) : Option (Store α) := do
  let cell ← s[p]?
  let s := s.modify c fun cell => { cell with parent := some p }
  if cell.child.isNone then
    return s.modify p fun cell => { cell with child := some c, childEnd := some c }
  else
    let last ← cell.childEnd
    let s := s.modify c fun cell => { cell with previous := some last }
    let s := s.modify last fun cell => { cell with next := some c }
    return s.modify p fun cell => { cell with childEnd := some c }

section

variable {s s' : Store α} {p c e a b : ℕ} {cell : Cell α}

/-- The first child. -/
theorem link_first (hp : s[p]? = some cell) (hchild : cell.child = none) (hne : p ≠ c) :
    ∃ s', link s p c = some s' ∧ s'.length = s.length ∧ ∀ a, s'[a]? = s[a]?.map fun x : Cell α =>
      { x with
        parent := if a = c then some p else x.parent
        child := if a = p then some c else x.child
        childEnd := if a = p then some c else x.childEnd } := by
  refine ⟨_, by rw [link, hp]; simp only [Option.bind_eq_bind, Option.bind_some, hchild]; rfl,
    by simp, fun a => ?_⟩
  simp only [List.getElem?_modify, Option.map_eq_map, Option.map_map]
  congr 1
  funext x
  rcases eq_or_ne a c with rfl | hc
  · simp [hne, hne.symm]
  · rcases eq_or_ne a p with rfl | hp
    · simp [hc, hc.symm]
    · simp [hc, hc.symm, hp, hp.symm]

/-- A child behind the last one. -/
theorem link_behind (hp : s[p]? = some cell) (hchild : cell.child ≠ none)
    (hend : cell.childEnd = some e) (hne : p ≠ c) (hep : e ≠ p) :
    ∃ s', link s p c = some s' ∧ s'.length = s.length ∧ ∀ a, s'[a]? = s[a]?.map fun x : Cell α =>
      { x with
        parent := if a = c then some p else x.parent
        previous := if a = c then some e else x.previous
        next := if a = e then some c else x.next
        childEnd := if a = p then some c else x.childEnd } := by
  have hnone : cell.child.isNone = false := by
    rw [Option.isNone_eq_false_iff, Option.isSome_iff_ne_none]
    exact hchild
  refine ⟨_, by rw [link, hp]; simp only [Option.bind_eq_bind, Option.bind_some, hnone, hend]; rfl,
    by simp, fun a => ?_⟩
  simp only [List.getElem?_modify, Option.map_eq_map, Option.map_map]
  congr 1
  funext x
  rcases eq_or_ne a p with rfl | hp
  · simp [hne, hne.symm, hep, hep.symm]
  · rcases eq_or_ne a c with rfl | hc
    · rcases eq_or_ne a e with rfl | he
      · simp [hp, hp.symm]
      · simp [hp, hp.symm, he, he.symm]
    · rcases eq_or_ne a e with rfl | he
      · simp [hp, hp.symm, hc, hc.symm]
      · simp [hp, hp.symm, hc, hc.symm, he, he.symm]

end

/-! ## Trees -/

/-- Siblings, each with its children. -/
inductive Trees (α : Type) where
  | nil
  | cons (value : α) (children siblings : Trees α)
  deriving DecidableEq

namespace Trees

/-- Siblings behind the last sibling. -/
def append : Trees α → Trees α → Trees α
  | nil, u => u
  | cons v children siblings, u => cons v children (siblings.append u)

/-- The same shape with other values. -/
def map (f : α → β) : Trees α → Trees β
  | nil => nil
  | cons v children siblings => cons (f v) (children.map f) (siblings.map f)

/-- All values. -/
def values : Trees α → List α
  | nil => []
  | cons v children siblings => v :: (children.values ++ siblings.values)

/-- The siblings, each with its children. -/
def roots : Trees α → List (α × Trees α)
  | nil => []
  | cons v children siblings => (v, children) :: siblings.roots

/-- The trees with these roots. -/
def ofRoots (l : List (α × Trees α)) : Trees α := l.foldr (fun r t => cons r.1 r.2 t) nil

/-- One tree. -/
def single (v : α) (children : Trees α) : Trees α := cons v children nil

/-- Trees with a first one are not empty. -/
theorem cons_ne_nil (v : α) (children siblings : Trees α) : cons v children siblings ≠ nil :=
  fun h => nomatch h

@[simp] theorem nil_append (t : Trees α) : nil.append t = t := rfl

/-- No siblings behind the last one. -/
@[simp] theorem append_nil (t : Trees α) : t.append nil = t := by
  induction t with
  | nil => rfl
  | cons v children siblings _ ih => rw [append, ih]

/-- Appending is associative. -/
theorem append_assoc (t u w : Trees α) : (t.append u).append w = t.append (u.append w) := by
  induction t with
  | nil => rfl
  | cons v children siblings _ ih => rw [append, append, append, ih]

/-- Appended trees are mapped each by itself. -/
@[simp] theorem map_append (f : α → β) (t u : Trees α) :
    (t.append u).map f = (t.map f).append (u.map f) := by
  induction t with
  | nil => rfl
  | cons v children siblings _ ih => rw [append, map, map, append, ih]

/-- The values of appended trees, in their order. -/
@[simp] theorem values_append (t u : Trees α) : (t.append u).values = t.values ++ u.values := by
  induction t with
  | nil => rfl
  | cons v children siblings _ ih =>
    rw [append, values, values, ih, List.cons_append, List.append_assoc]

/-- The roots of appended trees, in their order. -/
@[simp] theorem roots_append (t u : Trees α) : (t.append u).roots = t.roots ++ u.roots := by
  induction t with
  | nil => rfl
  | cons v children siblings _ ih => rw [append, roots, roots, ih, List.cons_append]

@[simp] theorem roots_single (v : α) (children : Trees α) :
    (single v children).roots = [(v, children)] := rfl

/-- Trees that are built of roots have them. -/
@[simp] theorem roots_ofRoots (l : List (α × Trees α)) : (ofRoots l).roots = l := by
  induction l with
  | nil => rfl
  | cons r l ih =>
    show (r.1, r.2) :: (ofRoots l).roots = r :: l
    rw [ih]

/-- The address of the first sibling. -/
def first : Trees (ℕ × α) → Option ℕ
  | nil => none
  | cons v _ _ => some v.1

/-- The address of the last sibling. -/
def last : Trees (ℕ × α) → Option ℕ
  | nil => none
  | cons v _ nil => some v.1
  | cons _ _ (cons w children siblings) => (cons w children siblings).last

/-- All addresses. -/
def addrs (t : Trees (ℕ × α)) : List ℕ := t.values.map Prod.fst

/-- The trees without the addresses. -/
def erase (t : Trees (ℕ × α)) : Trees α := t.map Prod.snd

@[simp] theorem addrs_nil : (nil : Trees (ℕ × α)).addrs = [] := rfl

/-- The addresses of a tree: its root, the children, the siblings. -/
@[simp] theorem addrs_cons (a : ℕ) (v : α) (children siblings : Trees (ℕ × α)) :
    (cons (a, v) children siblings).addrs = a :: (children.addrs ++ siblings.addrs) := by
  simp [addrs, values]

/-- The addresses of appended trees, in their order. -/
@[simp] theorem addrs_append (t u : Trees (ℕ × α)) :
    (t.append u).addrs = t.addrs ++ u.addrs := by
  simp [addrs]

/-- Appended trees without their addresses. -/
@[simp] theorem erase_append (t u : Trees (ℕ × α)) :
    (t.append u).erase = t.erase.append u.erase :=
  map_append _ _ _

/-- Only the empty trees have no first address. -/
theorem first_eq_none {t : Trees (ℕ × α)} : t.first = none ↔ t = nil := by
  cases t with
  | nil => simp [first]
  | cons v children siblings => simp [first]

/-- Erasing the addresses empties no tree. -/
@[simp] theorem erase_eq_nil {t : Trees (ℕ × α)} : t.erase = nil ↔ t = nil := by
  cases t with
  | nil => simp [erase, map]
  | cons v children siblings => simp [erase, map]

/-- Siblings behind the last one do not change the first address. -/
theorem first_append (t : Trees (ℕ × α)) (u : Trees (ℕ × α)) (h : t ≠ nil) :
    (t.append u).first = t.first := by
  cases t with
  | nil => exact absurd rfl h
  | cons v children siblings => rfl

/-- A single sibling behind the others is the last one. -/
theorem last_append_single (t : Trees (ℕ × α)) (v : ℕ × α) (children : Trees (ℕ × α)) :
    (t.append (single v children)).last = some v.1 := by
  induction t with
  | nil => rfl
  | cons w children' siblings _ ih =>
    cases siblings with
    | nil => rfl
    | cons w' children'' siblings' => exact ih

/-- Trees that are not empty have a last address, which is one of theirs. -/
theorem exists_last {t : Trees (ℕ × α)} (h : t ≠ nil) : ∃ e ∈ t.addrs, t.last = some e := by
  induction t with
  | nil => exact absurd rfl h
  | cons v children siblings _ ih =>
    cases siblings with
    | nil => exact ⟨v.1, by simp [addrs, values], rfl⟩
    | cons w children' siblings' =>
      obtain ⟨e, hmem, hlast⟩ := ih (fun heq => nomatch heq)
      refine ⟨e, ?_, hlast⟩
      obtain ⟨a, x⟩ := v
      rw [addrs_cons]
      exact List.mem_cons_of_mem _ (List.mem_append_right _ hmem)

end Trees

open Trees

/-! ## Stores that hold trees -/

/-- The cells of siblings, with their parent and the cell before them. -/
def Layout (s : Store α) : Option ℕ → Option ℕ → Trees (ℕ × α) → Prop
  | _, _, nil => True
  | parent, previous, cons (a, v) children siblings =>
    s[a]? = some ⟨v, parent, previous, siblings.first, children.first, children.last⟩ ∧
      Layout s (some a) none children ∧ Layout s parent (some a) siblings

section

variable {s s' s'' : Store α} {parent previous : Option ℕ} {a b c p : ℕ} {v w : α}

/-- A layout depends on the nodes at its own addresses only. -/
theorem Layout.congr {t : Trees (ℕ × α)} (h : Layout s parent previous t)
    (hsame : ∀ a ∈ t.addrs, s'[a]? = s[a]?) : Layout s' parent previous t := by
  induction t generalizing parent previous with
  | nil => trivial
  | cons r children siblings ihc ihs =>
    obtain ⟨a, v⟩ := r
    obtain ⟨hcell, hchildren, hsiblings⟩ := h
    rw [addrs_cons] at hsame
    refine ⟨?_, ihc hchildren fun b hb => ?_, ihs hsiblings fun b hb => ?_⟩
    · rw [hsame a List.mem_cons_self]
      exact hcell
    · exact hsame b (List.mem_cons_of_mem _ (List.mem_append_left _ hb))
    · exact hsame b (List.mem_cons_of_mem _ (List.mem_append_right _ hb))

/-- The trees are those that the pointers say. -/
theorem Layout.unique {t u : Trees (ℕ × α)} (ht : Layout s parent previous t)
    (hu : Layout s parent previous u) (hfirst : t.first = u.first) : t = u := by
  induction t generalizing parent previous u with
  | nil =>
    cases u with
    | nil => rfl
    | cons r children siblings => cases hfirst
  | cons r children siblings ihc ihs =>
    cases u with
    | nil => cases hfirst
    | cons r' children' siblings' =>
      obtain ⟨a, v⟩ := r
      obtain ⟨b, w⟩ := r'
      obtain rfl : a = b := Option.some.inj hfirst
      obtain ⟨hcell, hchildren, hsiblings⟩ := ht
      obtain ⟨hcell', hchildren', hsiblings'⟩ := hu
      have hsame := Option.some.inj (hcell.symm.trans hcell')
      injection hsame with hvalue _ _ hnext hchild _
      subst hvalue
      rw [ihc hchildren hchildren' hchild, ihs hsiblings hsiblings' hnext]

/-- The addresses of a layout are in the store. -/
theorem Layout.lt {t : Trees (ℕ × α)} (h : Layout s parent previous t) (ha : a ∈ t.addrs) :
    a < s.length := by
  induction t generalizing parent previous with
  | nil => cases ha
  | cons r children siblings ihc ihs =>
    obtain ⟨b, v⟩ := r
    obtain ⟨hcell, hchildren, hsiblings⟩ := h
    rw [addrs_cons, List.mem_cons, List.mem_append] at ha
    rcases ha with rfl | ha | ha
    · exact (List.getElem?_eq_some_iff.mp hcell).1
    · exact ihc hchildren ha
    · exact ihs hsiblings ha

/-- A store that grows keeps its nodes. -/
theorem getElem?_of_grown (h : s <+: s') (ha : a < s.length) : s'[a]? = s[a]? := by
  obtain ⟨rest, rfl⟩ := h
  exact List.getElem?_append_left ha

/-- A layout stays in a store that grows. -/
theorem Layout.mono {t : Trees (ℕ × α)} (h : Layout s parent previous t) (hs : s <+: s') :
    Layout s' parent previous t :=
  h.congr fun _ ha => getElem?_of_grown hs (h.lt ha)

/-- Siblings behind others: the last of the others has to point to them. -/
theorem Layout.append {t u : Trees (ℕ × α)} (ht : Layout s parent previous t) (hne : t ≠ nil)
    (hnodup : t.addrs.Nodup) (hother : ∀ a ∈ t.addrs, some a ≠ t.last → s'[a]? = s[a]?)
    (hlast : ∀ a, t.last = some a → s'[a]? = s[a]?.map fun x : Cell α => { x with next := u.first })
    (hu : Layout s' parent t.last u) : Layout s' parent previous (t.append u) := by
  induction t generalizing previous with
  | nil => exact absurd rfl hne
  | cons r children siblings _ ih =>
    obtain ⟨a, v⟩ := r
    obtain ⟨hcell, hchildren, hsiblings⟩ := ht
    rw [addrs_cons, List.nodup_cons, List.nodup_append] at hnodup
    obtain ⟨hnotin, -, hsib, hdisjoint⟩ := hnodup
    rw [List.mem_append, not_or] at hnotin
    -- the last cell is none of the children's
    have hkeep : ∀ b ∈ children.addrs, s'[b]? = s[b]? := by
      intro b hb
      refine hother b (by rw [addrs_cons]; simp [hb]) fun heq => ?_
      cases siblings with
      | nil =>
        obtain rfl : b = a := Option.some.inj heq
        exact hnotin.1 hb
      | cons w children' siblings' =>
        obtain ⟨e, hmem, he⟩ := exists_last (t := cons w children' siblings') (fun h => nomatch h)
        have hbe : some b = some e := heq.trans he
        exact hdisjoint b hb e hmem (Option.some.inj hbe)
    cases siblings with
    | nil =>
      -- the last one, which gets its new neighbour
      refine ⟨?_, hchildren.congr hkeep, hu⟩
      rw [hlast a rfl, hcell]
      rfl
    | cons w children' siblings' =>
      obtain ⟨e, hmem, he⟩ := exists_last (t := cons w children' siblings') (fun h => nomatch h)
      -- further siblings follow, and the last one is among them
      refine ⟨?_, hchildren.congr hkeep, ih hsiblings (fun h => nomatch h) hsib ?_ hlast hu⟩
      · rw [hother a (by rw [addrs_cons]; exact List.mem_cons_self) ?_, hcell]
        · rfl
        · intro heq
          have hae : some a = some e := heq.trans he
          exact hnotin.2 (Option.some.inj hae ▸ hmem)
      · intro b hb hbe
        exact hother b (by rw [addrs_cons]; simp [hb]) hbe

end

/-- A tree with the addresses of its cells. -/
structure Root (α : Type) where
  addr : ℕ
  value : α
  children : Trees (ℕ × α)

namespace Root

/-- The tree of a root. -/
def tree (r : Root α) : Trees (ℕ × α) := single (r.addr, r.value) r.children

/-- A tree with another one behind its children. -/
def add (p c : Root α) : Root α := ⟨p.addr, p.value, p.children.append c.tree⟩

/-- The addresses of a root's tree. -/
theorem mem_addrs {r : Root α} {a : ℕ} : a ∈ r.tree.addrs ↔ a = r.addr ∨ a ∈ r.children.addrs := by
  simp [tree, single]

/-- An added child brings its addresses. -/
theorem addrs_add (p c : Root α) : (p.add c).tree.addrs = p.tree.addrs ++ c.tree.addrs := by
  simp [tree, single, add]

@[simp] theorem erase_tree (r : Root α) : r.tree.erase = single r.value r.children.erase := rfl

/-- The children with an added one, without the addresses. -/
@[simp] theorem erase_children_add (p c : Root α) :
    (p.add c).children.erase = p.children.erase.append (single c.value c.children.erase) :=
  erase_append _ _

/-- A root is in its own tree. -/
theorem addr_mem (r : Root α) : r.addr ∈ r.tree.addrs := mem_addrs.mpr (.inl rfl)

end Root

/-- The cells behind those of `base` hold the trees, which have no cell in common. -/
structure Holds (base : Store α) (roots : List (Root α)) (s : Store α) : Prop where
  grown : base <+: s
  layout : ∀ r ∈ roots, Layout s none none r.tree
  apart : (roots.flatMap fun r => r.tree.addrs).Nodup
  fresh : ∀ r ∈ roots, ∀ a ∈ r.tree.addrs, base.length ≤ a

namespace Holds

variable {base s s' : Store α} {roots roots' : List (Root α)} {p c r : Root α} {v : α}

/-- No roots hold nothing new. -/
theorem nil (s : Store α) : Holds s [] s :=
  ⟨List.prefix_rfl, fun _ h => (List.not_mem_nil h).elim, List.nodup_nil,
    fun _ h => (List.not_mem_nil h).elim⟩

/-- The order of the roots does not matter. -/
theorem perm (h : Holds base roots s) (hperm : roots.Perm roots') : Holds base roots' s where
  grown := h.grown
  layout r hr := h.layout r (hperm.mem_iff.mpr hr)
  apart := (hperm.flatMap_right _).nodup_iff.mp h.apart
  fresh r hr := h.fresh r (hperm.mem_iff.mpr hr)

/-- Trees that are not used any more. -/
theorem sublist (h : Holds base roots s) (hsub : roots'.Sublist roots) : Holds base roots' s where
  grown := h.grown
  layout r hr := h.layout r (hsub.subset hr)
  apart := h.apart.sublist (hsub.flatMap _)
  fresh r hr := h.fresh r (hsub.subset hr)

/-- The addresses of the roots are in the store. -/
theorem lt (h : Holds base roots s) (hr : r ∈ roots) {a : ℕ} (ha : a ∈ r.tree.addrs) :
    a < s.length :=
  (h.layout r hr).lt ha

/-- What has been made behind a store is apart from what the store holds. -/
theorem frame (h : Holds base roots s) (h' : Holds s roots' s') :
    Holds base (roots' ++ roots) s' where
  grown := h.grown.trans h'.grown
  layout r hr := by
    rcases List.mem_append.mp hr with hr | hr
    · exact h'.layout r hr
    · exact (h.layout r hr).mono h'.grown
  apart := by
    rw [List.flatMap_append, List.nodup_append]
    refine ⟨h'.apart, h.apart, ?_⟩
    intro a ha b hb hab
    obtain ⟨r, hr, ha⟩ := List.mem_flatMap.mp ha
    obtain ⟨r', hr', hb⟩ := List.mem_flatMap.mp hb
    have hge := h'.fresh r hr a ha
    have hlt := h.lt hr' hb
    omega
  fresh r hr a ha := by
    rcases List.mem_append.mp hr with hr | hr
    · exact h.grown.length_le.trans (h'.fresh r hr a ha)
    · exact h.fresh r hr a ha

/-- A longer prefix holds more than is asked for. -/
theorem of_prefix (h : Holds s roots s') (hs : base <+: s) : Holds base roots s' where
  grown := hs.trans h.grown
  layout := h.layout
  apart := h.apart
  fresh r hr a ha := hs.length_le.trans (h.fresh r hr a ha)

/-- A new cell. -/
theorem new (s : Store α) (v : α) : Holds s [⟨s.length, v, .nil⟩] (s ++ [Cell.new v]) where
  grown := List.prefix_append _ _
  layout r hr := by
    obtain rfl := List.mem_singleton.mp hr
    refine ⟨?_, trivial, trivial⟩
    rw [List.getElem?_append_right le_rfl, Nat.sub_self]
    rfl
  apart := by simp [Root.tree, single]
  fresh r hr a ha := by
    obtain rfl := List.mem_singleton.mp hr
    rcases Root.mem_addrs.mp ha with rfl | ha
    · exact le_rfl
    · cases ha

/-- The cell of a tree that has no parent. -/
theorem root_cell (h : Holds base roots s) (hr : r ∈ roots) :
    s[r.addr]? = some ⟨r.value, none, none, none, r.children.first, r.children.last⟩ :=
  (h.layout r hr).1

/-- A store that agrees on the old addresses begins with the old store. -/
theorem prefix_of_same (h : base <+: s) (hsame : ∀ a < base.length, s'[a]? = s[a]?) :
    base <+: s' := by
  rw [List.prefix_iff_eq_take] at h ⊢
  refine List.ext_getElem? fun a => ?_
  rw [List.getElem?_take]
  split_ifs with ha
  · rw [hsame a ha]
    conv_lhs => rw [h]
    rw [List.getElem?_take, if_pos ha]
  · exact List.getElem?_eq_none (not_lt.mp ha)

/-- A store that has changed only behind another one holds what that one holds. -/
theorem congr (h : Holds base roots s) (hsame : ∀ a < s.length, s'[a]? = s[a]?) :
    Holds base roots s' where
  grown := prefix_of_same h.grown fun a ha => hsame a (ha.trans_le h.grown.length_le)
  layout r hr := (h.layout r hr).congr fun a ha => hsame a (h.lt hr ha)
  apart := h.apart
  fresh := h.fresh

/-- The trees of two roots, and the others, have no address in common. -/
theorem apart_two (h : Holds base (p :: c :: roots) s) :
    p.tree.addrs.Nodup ∧ (∀ a ∈ p.tree.addrs, a ∉ c.tree.addrs) ∧ c.tree.addrs.Nodup ∧
      ∀ r ∈ roots, ∀ a ∈ r.tree.addrs, a ∉ p.tree.addrs ∧ a ∉ c.tree.addrs := by
  have hapart := h.apart
  rw [List.flatMap_cons, List.flatMap_cons, List.nodup_append, List.nodup_append] at hapart
  obtain ⟨hp, ⟨hc, -, hcr⟩, hpr⟩ := hapart
  refine ⟨hp, fun a ha hmem => hpr a ha a (List.mem_append_left _ hmem) rfl, hc, ?_⟩
  intro r hr a ha
  have hrest : a ∈ roots.flatMap fun r => r.tree.addrs := List.mem_flatMap.mpr ⟨r, hr, ha⟩
  exact ⟨fun hmem => hpr a hmem a (List.mem_append_right _ hrest) rfl,
    fun hmem => hcr a hmem a hrest rfl⟩

/-- What is known of the store behind a link is enough. -/
theorem of_link (h : Holds base (p :: c :: roots) s)
    (hroot : s'[p.addr]? = some ⟨p.value, none, none, none, (p.add c).children.first,
      (p.add c).children.last⟩)
    (hchildren : Layout s' (some p.addr) none (p.add c).children)
    (hsame : ∀ a, a ∉ p.tree.addrs → a ∉ c.tree.addrs → s'[a]? = s[a]?) :
    Holds base (p.add c :: roots) s' := by
  obtain ⟨-, -, -, hrest⟩ := h.apart_two
  refine ⟨prefix_of_same h.grown fun a ha => ?_, ?_, ?_, ?_⟩
  · refine hsame a (fun hmem => ?_) fun hmem => ?_
    · exact absurd (h.fresh p (by simp) a hmem) (not_le.mpr ha)
    · exact absurd (h.fresh c (by simp) a hmem) (not_le.mpr ha)
  · intro r hr
    rcases List.mem_cons.mp hr with rfl | hr
    · exact ⟨hroot, hchildren, trivial⟩
    · refine (h.layout r (by simp [hr])).congr fun a ha => ?_
      exact hsame a (hrest r hr a ha).1 (hrest r hr a ha).2
  · have hapart := h.apart
    rw [List.flatMap_cons, List.flatMap_cons] at hapart
    rwa [List.flatMap_cons, Root.addrs_add, List.append_assoc]
  · intro r hr a ha
    rcases List.mem_cons.mp hr with rfl | hr
    · rw [Root.addrs_add, List.mem_append] at ha
      rcases ha with ha | ha
      · exact h.fresh p (by simp) a ha
      · exact h.fresh c (by simp) a ha
    · exact h.fresh r (by simp [hr]) a ha

/-- Linking one of two trees behind the children of the other. -/
theorem link (h : Holds base (p :: c :: roots) s) :
    ∃ s', LinkedTrees.link s p.addr c.addr = some s' ∧ Holds base (p.add c :: roots) s' := by
  obtain ⟨hp, hpc, hc, -⟩ := h.apart_two
  have hpcell := h.root_cell (r := p) (by simp)
  have hccell := h.root_cell (r := c) (by simp)
  have hplayout := h.layout p (by simp)
  have hclayout := h.layout c (by simp)
  -- the two trees have no cell in common
  have hne : p.addr ≠ c.addr := fun heq => hpc p.addr p.addr_mem (heq ▸ c.addr_mem)
  have hpchild : p.addr ∉ p.children.addrs := by
    have hnodup := hp
    rw [Root.tree, single, addrs_cons, List.nodup_cons] at hnodup
    exact fun hmem => hnodup.1 (List.mem_append_left _ hmem)
  have hcchild : c.addr ∉ c.children.addrs := by
    have hnodup := hc
    rw [Root.tree, single, addrs_cons, List.nodup_cons] at hnodup
    exact fun hmem => hnodup.1 (List.mem_append_left _ hmem)
  rcases eq_or_ne p.children .nil with hnil | hcons
  · -- only the two roots are written
    obtain ⟨s', hs', -, hcells⟩ := link_first hpcell (by rw [hnil]; rfl) hne
    have hsame : ∀ a, a ≠ p.addr → a ≠ c.addr → s'[a]? = s[a]? := by
      intro a hap hac
      simp [hcells a, hap, hac]
    refine ⟨s', hs', h.of_link ?_ ?_ fun a hap hac => ?_⟩
    · simp [hcells, hpcell, hne, Root.add, hnil, Root.tree, single, first, last]
    · have hadd : (p.add c).children = c.tree := by
        rw [Root.add, hnil]
        rfl
      rw [hadd]
      refine ⟨?_, hclayout.2.1.congr fun a ha => hsame a ?_ ?_, trivial⟩
      · simp [hcells, hccell, hne.symm]
        rfl
      · rintro rfl
        exact hpc p.addr p.addr_mem (Root.mem_addrs.mpr (.inr ha))
      · rintro rfl
        exact hcchild ha
    · exact hsame a (fun heq => hap (heq ▸ p.addr_mem)) fun heq => hac (heq ▸ c.addr_mem)
  · -- the last child is written as well, which is a cell of the first tree
    obtain ⟨e, hmem, hlast⟩ := exists_last hcons
    have hep : e ≠ p.addr := fun heq => hpchild (heq ▸ hmem)
    have hec : e ≠ c.addr := by
      rintro rfl
      exact hpc c.addr (Root.mem_addrs.mpr (.inr hmem)) c.addr_mem
    have hfirst : p.children.first ≠ none := by
      cases hchildren : p.children with
      | nil => exact absurd hchildren hcons
      | cons v children siblings => exact fun heq => nomatch heq
    obtain ⟨s', hs', -, hcells⟩ := link_behind hpcell hfirst hlast hne hep
    have hsame : ∀ a, a ≠ p.addr → a ≠ c.addr → a ≠ e → s'[a]? = s[a]? := by
      intro a hap hac hae
      simp [hcells a, hap, hac, hae]
    refine ⟨s', hs', h.of_link ?_ ?_ fun a hap hac => ?_⟩
    · rw [Root.add, first_append _ _ hcons, Root.tree, last_append_single]
      simp [hcells, hpcell, hne, hep.symm]
    · rw [Root.add]
      have hnodup := hp
      rw [Root.tree, single, addrs_cons, addrs_nil, List.append_nil, List.nodup_cons] at hnodup
      refine hplayout.2.1.append hcons hnodup.2 (fun a ha hae => hsame a ?_ ?_ ?_) ?_ ?_
      · rintro rfl
        exact hpchild ha
      · rintro rfl
        exact hpc c.addr (Root.mem_addrs.mpr (.inr ha)) c.addr_mem
      · rintro rfl
        exact hae hlast.symm
      · intro a ha
        obtain rfl : e = a := Option.some.inj (hlast.symm.trans ha)
        simp [hcells, hep, hec]
        rfl
      · rw [hlast]
        refine ⟨?_, hclayout.2.1.congr fun a ha => hsame a ?_ ?_ ?_, trivial⟩
        · simp [hcells, hccell, hne.symm, hec.symm]
          rfl
        · rintro rfl
          exact hpc p.addr p.addr_mem (Root.mem_addrs.mpr (.inr ha))
        · rintro rfl
          exact hcchild ha
        · rintro rfl
          exact hpc a (Root.mem_addrs.mpr (.inr hmem)) (Root.mem_addrs.mpr (.inr ha))
    · refine hsame a (fun heq => hap (heq ▸ p.addr_mem)) (fun heq => hac (heq ▸ c.addr_mem)) ?_
      rintro rfl
      exact hap (Root.mem_addrs.mpr (.inr hmem))

end Holds

/-! ## Ways along the pointers -/

/-- A pointer to the first child or to the cell behind. -/
def Edge (s : Store α) (a b : ℕ) : Prop :=
  ∃ cell, s[a]? = some cell ∧ (cell.child = some b ∨ cell.next = some b)

/-- A way along pointers. -/
def Reaches (s : Store α) : ℕ → ℕ → Prop := Relation.ReflTransGen (Edge s)

section

variable {s s' : Store α} {parent previous : Option ℕ} {a b c e p : ℕ} {cell : Cell α}

/-- An edge stays in a store that grows. -/
theorem Edge.mono (h : Edge s a b) (hs : s <+: s') : Edge s' a b := by
  obtain ⟨cell, hcell, hb⟩ := h
  refine ⟨cell, ?_, hb⟩
  rw [getElem?_of_grown hs (List.getElem?_eq_some_iff.mp hcell).1, hcell]

/-- With the edges the paths stay. -/
theorem Reaches.of_edges (h : Reaches s a b) (hedge : ∀ a b, Edge s a b → Edge s' a b) :
    Reaches s' a b := by
  induction h with
  | refl => exact .refl
  | tail _ hab ih => exact ih.tail (hedge _ _ hab)

/-- A path stays in a store that grows. -/
theorem Reaches.mono (h : Reaches s a b) (hs : s <+: s') : Reaches s' a b :=
  h.of_edges fun _ _ hedge => hedge.mono hs

/-- A link behind a last child that points nowhere, or to the new child, takes no pointer away. -/
theorem Edge.link (h : Edge s a b) (hs : link s p c = some s') (hne : p ≠ c)
    (hp : s[p]? = some cell) (hend : cell.child ≠ none → ∃ e last, cell.childEnd = some e ∧
      s[e]? = some last ∧ e ≠ p ∧ (last.next = none ∨ last.next = some c)) : Edge s' a b := by
  obtain ⟨x, hx, hb⟩ := h
  -- the root had no child, and gets a first one
  by_cases hchild : cell.child = none
  · obtain ⟨s'', hs'', -, hcells⟩ := link_first hp hchild hne
    obtain rfl := Option.some.inj (hs.symm.trans hs'')
    refine ⟨_, by rw [hcells, hx]; rfl, ?_⟩
    refine hb.imp (fun hb => ?_) id
    rcases eq_or_ne a p with rfl | hap
    · rw [hp] at hx
      obtain rfl := Option.some.inj hx
      rw [hchild] at hb
      cases hb
    · exact (if_neg hap).trans hb
  -- the last child gets a neighbour, where it had none or the same one
  · obtain ⟨e, last, hlast, hcell, hep, hnext⟩ := hend hchild
    obtain ⟨s'', hs'', -, hcells⟩ := link_behind hp hchild hlast hne hep
    obtain rfl := Option.some.inj (hs.symm.trans hs'')
    refine ⟨_, by rw [hcells, hx]; rfl, ?_⟩
    refine hb.imp id fun hb => ?_
    rcases eq_or_ne a e with rfl | hae
    · rw [hcell] at hx
      obtain rfl := Option.some.inj hx
      rcases hnext with hnext | hnext
      · rw [hnext] at hb
        cases hb
      · exact (if_pos rfl).trans (hnext.symm.trans hb)
    · exact (if_neg hae).trans hb

/-- The way to the cells of a tree. -/
theorem Layout.reaches {t : Trees (ℕ × α)} (h : Layout s parent previous t) {f : ℕ}
    (hf : t.first = some f) (ha : a ∈ t.addrs) : Reaches s f a := by
  induction t generalizing parent previous f with
  | nil => cases ha
  | cons r children siblings ihc ihs =>
    obtain ⟨i, v⟩ := r
    obtain rfl : i = f := Option.some.inj hf
    obtain ⟨hcell, hchildren, hsiblings⟩ := h
    rw [addrs_cons, List.mem_cons, List.mem_append] at ha
    rcases ha with rfl | ha | ha
    · exact .refl
    · cases children with
      | nil => cases ha
      | cons r' children' siblings' =>
        exact .head ⟨_, hcell, .inl rfl⟩ (ihc hchildren rfl ha)
    · cases siblings with
      | nil => cases ha
      | cons r' children' siblings' =>
        exact .head ⟨_, hcell, .inr rfl⟩ (ihs hsiblings rfl ha)

/-- All ways from a tree without neighbours stay in it. -/
theorem Layout.mem_of_edge {t : Trees (ℕ × α)} (h : Layout s parent previous t)
    (ha : a ∈ t.addrs) (hedge : Edge s a b) : b ∈ t.addrs := by
  induction t generalizing parent previous with
  | nil => cases ha
  | cons r children siblings ihc ihs =>
    obtain ⟨i, v⟩ := r
    obtain ⟨hcell, hchildren, hsiblings⟩ := h
    rw [addrs_cons, List.mem_cons, List.mem_append] at ha
    rw [addrs_cons]
    rcases ha with rfl | ha | ha
    -- the root leads to its first child and to the next tree
    · obtain ⟨cell, hcell', hb⟩ := hedge
      obtain rfl := Option.some.inj (hcell.symm.trans hcell')
      refine List.mem_cons_of_mem _ (List.mem_append.mpr ?_)
      rcases hb with hb | hb
      · left
        cases children with
        | nil => cases hb
        | cons r' children' siblings' =>
          obtain rfl := Option.some.inj hb
          simp [addrs, values]
      · right
        cases siblings with
        | nil => cases hb
        | cons r' children' siblings' =>
          obtain rfl := Option.some.inj hb
          simp [addrs, values]
    · exact List.mem_cons_of_mem _ (List.mem_append_left _ (ihc hchildren ha))
    · exact List.mem_cons_of_mem _ (List.mem_append_right _ (ihs hsiblings ha))

/-- No pointer leaves a layout: what is reached from it is in it. -/
theorem Layout.mem_of_reaches {t : Trees (ℕ × α)} (h : Layout s parent previous t)
    (ha : a ∈ t.addrs) (hreach : Reaches s a b) : b ∈ t.addrs := by
  induction hreach with
  | refl => exact ha
  | tail _ hedge ih => exact h.mem_of_edge ih hedge

/-- No cell of a tree points to itself. -/
theorem Layout.not_loop {t : Trees (ℕ × α)} (h : Layout s parent previous t) (ha : a ∈ t.addrs) :
    ¬ Edge s a a := by
  induction t generalizing parent previous with
  | nil => cases ha
  | cons r children siblings ihc ihs =>
    obtain ⟨i, v⟩ := r
    obtain ⟨hi, hchildren, hsiblings⟩ := h
    rw [addrs_cons, List.mem_cons, List.mem_append] at ha
    have hmem : ∀ {t : Trees (ℕ × α)}, t.first = some a → a ∈ t.addrs := by
      intro t hfirst
      cases t with
      | nil => cases hfirst
      | cons r children siblings =>
        obtain rfl := Option.some.inj hfirst
        simp [addrs, values]
    rcases ha with rfl | ha | ha
    · rintro ⟨cell, hcell, hloop⟩
      obtain rfl := Option.some.inj (hi.symm.trans hcell)
      -- then the same address is further down, or among the siblings
      rcases hloop with hchild | hnext
      · exact ihc hchildren (hmem hchild) ⟨_, hcell, .inl hchild⟩
      · exact ihs hsiblings (hmem hnext) ⟨_, hcell, .inr hnext⟩
    · exact ihc hchildren ha
    · exact ihs hsiblings ha

/-- A tree has no way to a cell that points to itself. -/
theorem not_layout_of_loop {t : Trees (ℕ × α)} (ha : a ∈ t.addrs) (hreach : Reaches s a b)
    (hloop : Edge s b b) : ¬ Layout s parent previous t :=
  fun h => h.not_loop (h.mem_of_reaches ha hreach) hloop

/-- Nothing is behind the last sibling. -/
theorem Layout.cell_last {t : Trees (ℕ × α)} (h : Layout s parent previous t)
    (he : t.last = some e) : ∃ cell, s[e]? = some cell ∧ cell.next = none := by
  induction t generalizing parent previous with
  | nil => cases he
  | cons r children siblings _ ih =>
    obtain ⟨i, v⟩ := r
    cases siblings with
    | nil =>
      obtain rfl : i = e := Option.some.inj he
      exact ⟨_, h.1, rfl⟩
    | cons r' children' siblings' => exact ih h.2.2 he

/-- A link under the root of a tree takes no pointer away, and leads from the root to the new cell,
which need not be the root of a tree. -/
theorem Layout.link_reaches {r : Root α} (h : Layout s none none r.tree)
    (hnodup : r.tree.addrs.Nodup) (hfresh : c ∉ r.tree.addrs) :
    ∃ s', LinkedTrees.link s r.addr c = some s' ∧ (∀ a b, Edge s a b → Edge s' a b) ∧
      Reaches s' r.addr c ∧ (∀ a : ℕ, s'[a]?.map Cell.value = s[a]?.map Cell.value) ∧
      ∀ a ∉ r.tree.addrs, a ≠ c → s'[a]? = s[a]? := by
  have hroot := h.1
  have hne : r.addr ≠ c := fun heq => hfresh (heq ▸ r.addr_mem)
  have hother : ∀ a ∉ r.tree.addrs, a ≠ r.addr := fun a ha heq => ha (heq ▸ r.addr_mem)
  by_cases hchildren : r.children = .nil
  -- the first child hangs on the root
  · have hfirst : r.children.first = none := first_eq_none.mpr hchildren
    obtain ⟨s', hs', -, hcells⟩ := link_first hroot hfirst hne
    refine ⟨s', hs', fun a b hedge => ?_, .single ⟨_, by rw [hcells, hroot]; rfl, .inl ?_⟩,
      fun a => ?_, fun a ha hac => ?_⟩
    · exact hedge.link hs' hne hroot fun hsome => absurd hfirst hsome
    · exact if_pos rfl
    · rw [hcells, Option.map_map]
      rfl
    · simp [hcells, hac, hother a ha]
  · obtain ⟨e, hmem, hlast⟩ := exists_last hchildren
    -- the last child is reached from the root, and the new one from it
    obtain ⟨last, hcell, hnone⟩ := h.2.1.cell_last hlast
    have hmem' : e ∈ r.tree.addrs := Root.mem_addrs.mpr (.inr hmem)
    have her : e ≠ r.addr := by
      rintro rfl
      rw [Root.tree, single, addrs_cons, addrs_nil, List.append_nil, List.nodup_cons] at hnodup
      exact hnodup.1 hmem
    obtain ⟨s', hs', -, hcells⟩ :=
      link_behind hroot (fun hnone => hchildren (first_eq_none.mp hnone)) hlast hne her
    have hkeep : ∀ a b, Edge s a b → Edge s' a b := fun a b hedge =>
      hedge.link hs' hne hroot fun _ => ⟨e, last, hlast, hcell, her, .inl hnone⟩
    have hreach : Reaches s' r.addr e := (h.reaches rfl hmem').of_edges hkeep
    refine ⟨s', hs', hkeep, hreach.tail ⟨_, by rw [hcells, hcell]; rfl, .inr ?_⟩,
      fun a => ?_, fun a ha hac => ?_⟩
    · exact if_pos rfl
    · rw [hcells, Option.map_map]
      rfl
    · have hae : a ≠ e := fun heq => ha (heq ▸ hmem')
      simp [hcells, hac, hother a ha, hae]

end

/-! ## Programs -/

/-- A program that reads and changes a store, and may end without a result. -/
abbrev Prog (α : Type) := StateT (Store α) Option

/-- The program ends with a result, and what is known before it gives what is known behind. -/
def Runs (P : Store α → Prop) (m : Prog α β) (Q : β → Store α → Prop) : Prop :=
  ∀ s, P s → ∃ b s', m s = some (b, s') ∧ Q b s'

section

variable {P : Store α → Prop} {Q : β → Store α → Prop} {R : γ → Store α → Prop}

/-- A program after one that has ended. -/
theorem bind_apply {m : Prog α β} {f : β → Prog α γ} {s s' : Store α} {b : β}
    (h : m s = some (b, s')) : (m >>= f) s = f b s' := by
  show (m s).bind (fun r => f r.1 r.2) = _
  rw [h]
  rfl

/-- A result that meets the postcondition. -/
theorem Runs.pure {b : β} (h : ∀ s, P s → Q b s) : Runs P (Pure.pure b : Prog α β) Q :=
  fun s hs => ⟨b, s, rfl, h s hs⟩

/-- Two programs in a row. -/
theorem Runs.bind {m : Prog α β} {f : β → Prog α γ} (hm : Runs P m Q)
    (hf : ∀ b, Runs (Q b) (f b) R) : Runs P (m >>= f) R := by
  intro s hs
  obtain ⟨b, s', hb, hs'⟩ := hm s hs
  obtain ⟨c, s'', hc, hs''⟩ := hf b s' hs'
  refine ⟨c, s'', ?_, hs''⟩
  rw [bind_apply hb]
  exact hc

/-- The rule of consequence. -/
theorem Runs.mono {P' : Store α → Prop} {Q' : β → Store α → Prop} {m : Prog α β}
    (h : Runs P m Q) (hP : ∀ s, P' s → P s) (hQ : ∀ b s, Q b s → Q' b s) : Runs P' m Q' := by
  intro s hs
  obtain ⟨b, s', hb, hs'⟩ := h s (hP s hs)
  exact ⟨b, s', hb, hQ b s' hs'⟩

/-- What is known behind a run that has ended. -/
theorem Runs.of_eq {m : Prog α β} {s s' : Store α} {b : β} (h : Runs P m Q) (hs : P s)
    (hm : m s = some (b, s')) : Q b s' := by
  obtain ⟨b', s'', hb, hQ⟩ := h s hs
  obtain ⟨rfl, rfl⟩ := Prod.mk.inj (Option.some.inj (hm.symm.trans hb))
  exact hQ

/-- Two programs in a row that have ended, taken apart. -/
theorem bind_eq_some {m : Prog α β} {f : β → Prog α γ} {s : Store α} {r : γ × Store α}
    (h : (m >>= f) s = some r) : ∃ b s', m s = some (b, s') ∧ f b s' = some r := by
  obtain ⟨⟨b, s'⟩, hb, hf⟩ := Option.bind_eq_some_iff.mp h
  exact ⟨b, s', hb, hf⟩

end

end LinkedTrees
