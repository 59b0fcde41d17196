import AdxDsp.Lib.Bytes
import AdxDsp.Lib.LinkedTrees

/-!
# The JSON trees of the bidders

The cells from which the bidders build a JSON document, and the text of the document (`json.c`,
`json_util.cpp`).

* **Building**: `jsonNewValue`, `jsonInsertChild`, `jsonInsertString`, `jsonInsertFloat`,
  `jsonInsertPairIntoObject`.
* **The text**: `jsonTreeToString` goes from cell to cell along the pointers; `printTrees` is the
  text of a tree.
* `Has`: what the new cells hold, as trees without addresses.
* `runs_jsonInsertString`, `runs_jsonInsertFloat`, `runs_jsonInsertPairIntoObject`: a field behind
  the fields of an object.
* `jsonTreeToString_eq`: the text of a store that holds a tree is the text of the tree.
-/

namespace AdxDsp

open CText

namespace JsonTree

open LinkedTrees LinkedTrees.Trees

/-! ## The cells -/

/-- `json_value_type`, with the text that only strings and numbers have. -/
inductive JsonValue where
  | string (text : Bytes)
  | number (text : Bytes)
  | object
  | array
  | true
  | false
  | null
  deriving DecidableEq

/-- A program that builds a document; it may be aborted by an assertion. -/
abbrev Build := Prog JsonValue

/-- `json_new_object`, `json_new_array`: a cell that is linked to nothing. -/
def jsonNewValue (v : JsonValue) : Build (Option ℕ) :=
  fun s => some (some s.length, s ++ [Cell.new v])

/-- `json_new_string` -/
def jsonNewString (text : Bytes) : Build (Option ℕ) := jsonNewValue (.string (cstr text))

/-- `json_new_number` -/
def jsonNewNumber (text : Bytes) : Build (Option ℕ) := jsonNewValue (.number (cstr text))

/-- Which children a cell takes; a string and a number must not have children themselves. -/
def accepts (parent child : JsonValue) (childless : Bool) : Bool :=
  match parent, child with
  | .string _, .object | .string _, .array | .array, .object | .array, .array => Bool.true
  | .string _, _ | .array, _ => childless
  | .object, .string _ => Bool.true
  | _, _ => Bool.false

/-- `json_insert_child`; its callers do not look at the error for a child that is not taken. -/
def jsonInsertChild (parent child : Option ℕ) : Build Unit := fun s => do
  let parent ← parent
  let child ← child
  if parent = child then none
  else
    let parentCell ← s[parent]?
    let childCell ← s[child]?
    if accepts parentCell.value childCell.value childCell.child.isNone then
      (link s parent child).map fun s => ((), s)
    else some ((), s)

/-- `jsonInsertString` -/
def jsonInsertString (entry : Option ℕ) (label value : Bytes) : Build Unit := do
  let jLabel ← jsonNewString label
  let jValue ← jsonNewString value
  jsonInsertChild jLabel jValue
  jsonInsertChild entry jLabel

/-- `sprintf` with `%.2lf` of an `int`, which a `double` holds exactly. -/
def twoPlaces (value : ℤ) : Bytes := decimal value ++ [46, 48, 48]

/-- `jsonInsertFloat` of an `int`, with its default of two places. -/
def jsonInsertFloat (entry : Option ℕ) (label : Bytes) (value : ℤ) : Build Unit := do
  let jLabel ← jsonNewString label
  let jValue ← jsonNewNumber (twoPlaces value)
  jsonInsertChild jLabel jValue
  jsonInsertChild entry jLabel

/-- The type of a value, which an assertion looks at. -/
def valueAt (p : Option ℕ) : Build JsonValue := fun s => do
  let a ← p
  let cell ← s[a]?
  some (cell.value, s)

/-- Whether `json_insert_child` takes a child. -/
def takes (parent child : Option ℕ) : Build Bool := fun s => do
  let parent ← parent
  let child ← child
  let parentCell ← s[parent]?
  let childCell ← s[child]?
  some (accepts parentCell.value childCell.value childCell.child.isNone, s)

/-- `json_insert_pair_into_object`; its callers do not look at the error. -/
def jsonInsertPairIntoObject (parent : Option ℕ) (textLabel : Bytes) (value : Option ℕ) :
    Build Unit := do
  let parentValue ← valueAt parent
  let _ ← valueAt value
  if parent = value ∨ parentValue ≠ .object then fun _ => none
  else do
    let label ← jsonNewString textLabel
    let ok ← takes label value
    jsonInsertChild label value
    if ok then jsonInsertChild parent label else pure ()

/-- What `jsonInsertInt` and `jsonInsertFloat` do with the text that `sprintf` has written. -/
def jsonInsertNumber (entry : Option ℕ) (label str : Bytes) : Build Unit := do
  let jLabel ← jsonNewString label
  let jValue ← jsonNewNumber str
  jsonInsertChild jLabel jValue
  jsonInsertChild entry jLabel

/-- `jsonInsertInt`, whose argument becomes an `int`. -/
def jsonInsertInt (entry : Option ℕ) (label : Bytes) (value : ℤ) : Build Unit :=
  jsonInsertNumber entry label (decimal (toInt32 value))

/-! ## The text -/

/-- What is written when a value is opened; a label has a colon behind it. -/
def openText (label : Bool) : JsonValue → Bytes
  | .string text => 34 :: text ++ 34 :: if label then [58] else []
  | .number text => text
  | .object => [123]
  | .array => [91]
  | .true => [116, 114, 117, 101]
  | .false => [102, 97, 108, 115, 101]
  | .null => [110, 117, 108, 108]

/-- What is written when a value is closed. -/
def closeText : JsonValue → Bytes
  | .object => [125]
  | .array => [93]
  | _ => []

/-- A value is a string. -/
def isString : JsonValue → Bool
  | .string _ => Bool.true
  | _ => Bool.false

/-- Only the children of these are written. -/
def opens : JsonValue → Bool
  | .string _ | .object | .array => Bool.true
  | _ => Bool.false

/-- The two places that `json_tree_to_string` jumps to. -/
inductive Phase where
  | opening
  | closing
  deriving DecidableEq

/-- A string is a label if its parent is an object, or if it has none. -/
def isLabel (s : Store JsonValue) (cell : Cell JsonValue) : Option Bool :=
  match cell.parent with
  | none => some Bool.true
  | some parent => s[parent]?.map fun parent => parent.value = .object

/-- `json_tree_to_string`; there is no text if a label has no value. -/
def jsonTreeToString (s : Store JsonValue) (root : ℕ) : ℕ → Phase → ℕ → Bytes → Option Bytes
  | 0, _, _, _ => none
  | fuel + 1, .opening, cursor, output => do
    let cell ← s[cursor]?
    let label ← isLabel s cell
    let comma := if cell.previous.isSome ∧ cursor ≠ root then [44] else []
    let output := output ++ comma ++ openText label cell.value
    match cell.child with
    | some child =>
      if opens cell.value then jsonTreeToString s root fuel .opening child output
      else jsonTreeToString s root fuel .closing cursor output
    | none =>
      if label ∧ isString cell.value then none
      else jsonTreeToString s root fuel .closing cursor output
  | fuel + 1, .closing, cursor, output => do
    let cell ← s[cursor]?
    let output := output ++ closeText cell.value
    match cell.parent with
    | none => some output
    | some parent =>
      if cursor = root then some output
      else
        match cell.next with
        | some next => jsonTreeToString s root fuel .opening next output
        | none => jsonTreeToString s root fuel .closing parent output

/-- The text of trees, of which the first one has no comma before it; in an object the roots are
labels. -/
def printTrees : Bool → Bool → Trees JsonValue → Bytes
  | _, _, .nil => []
  | label, first, .cons v children siblings =>
    (if first then [] else [44]) ++ openText label v ++
      (if opens v then printTrees (v = .object) Bool.true children else []) ++ closeText v ++
      printTrees label Bool.false siblings

/-- The text of a document. -/
def print (v : JsonValue) (children : Trees JsonValue) : Bytes :=
  printTrees Bool.true Bool.true (single v children)

/-- All labels have a value. -/
def Printable : Bool → Trees JsonValue → Prop
  | _, .nil => True
  | label, .cons v children siblings =>
    (label ∧ isString v → children ≠ .nil) ∧ Printable (v = .object) children ∧
      Printable label siblings

section

variable {s : Store JsonValue} {root a p c : ℕ} {parent previous : Option ℕ} {label : Bool}
  {v : JsonValue} {cell : Cell JsonValue}

/-- A value with children is opened, and the first of them is next. -/
theorem open_child (hcell : s[a]? = some cell) (hlabel : isLabel s cell = some label)
    (hchild : cell.child = some c) (hopens : opens cell.value = Bool.true) (fuel : ℕ)
    (output : Bytes) :
    jsonTreeToString s root (fuel + 1) .opening a output =
      jsonTreeToString s root fuel .opening c
        (output ++ (if cell.previous.isSome ∧ a ≠ root then [44] else []) ++
          openText label cell.value) := by
  simp [jsonTreeToString, hcell, hlabel, hchild, hopens]

/-- A value without children is opened and closed. -/
theorem open_leaf (hcell : s[a]? = some cell) (hlabel : isLabel s cell = some label)
    (hleaf : opens cell.value = Bool.false ∨
      cell.child = none ∧ ¬ (label = Bool.true ∧ isString cell.value = Bool.true)) (fuel : ℕ)
    (output : Bytes) :
    jsonTreeToString s root (fuel + 1) .opening a output =
      jsonTreeToString s root fuel .closing a
        (output ++ (if cell.previous.isSome ∧ a ≠ root then [44] else []) ++
          openText label cell.value) := by
  have hstring : opens cell.value = Bool.false → isString cell.value = Bool.false := by
    cases cell.value <;> simp [opens, isString]
  rcases hleaf with hopens | ⟨hchild, hvalue⟩
  · cases hchild : cell.child with
    | none => simp [jsonTreeToString, hcell, hlabel, hchild, hstring hopens]
    | some c => simp [jsonTreeToString, hcell, hlabel, hchild, hopens]
  · rw [not_and, Bool.not_eq_true] at hvalue
    simp only [jsonTreeToString, hcell, hlabel, hchild, Option.bind_eq_bind, Option.bind_some]
    rw [if_neg (by rw [not_and, Bool.not_eq_true]; exact hvalue)]

/-- Behind a closed value the next one is opened. -/
theorem close_next (hcell : s[a]? = some cell) (hparent : cell.parent = some p)
    (hroot : a ≠ root) (hnext : cell.next = some c) (fuel : ℕ) (output : Bytes) :
    jsonTreeToString s root (fuel + 1) .closing a output =
      jsonTreeToString s root fuel .opening c (output ++ closeText cell.value) := by
  simp [jsonTreeToString, hcell, hparent, hroot, hnext]

/-- Behind the last one the parent is closed. -/
theorem close_last (hcell : s[a]? = some cell) (hparent : cell.parent = some p)
    (hroot : a ≠ root) (hnext : cell.next = none) (fuel : ℕ) (output : Bytes) :
    jsonTreeToString s root (fuel + 1) .closing a output =
      jsonTreeToString s root fuel .closing p (output ++ closeText cell.value) := by
  simp [jsonTreeToString, hcell, hparent, hroot, hnext]

/-- From the opening of a cell to its end, given how its children are written. -/
theorem jsonTreeToString_cell {children : Trees (ℕ × JsonValue)}
    (hcell : s[a]? = some cell) (hlabel : isLabel s cell = some label)
    (hchild : cell.child = children.first)
    (hvalue : label = Bool.true ∧ isString cell.value = Bool.true → children ≠ .nil)
    (hchildren : ∀ c, children.first = some c → ∃ k, ∀ fuel output,
      jsonTreeToString s root (fuel + k) .opening c output =
        jsonTreeToString s root fuel .closing a
          (output ++ printTrees (cell.value = .object) Bool.true children.erase)) :
    ∃ k, ∀ fuel output, jsonTreeToString s root (fuel + k) .opening a output =
      jsonTreeToString s root fuel .closing a
        (output ++ (if cell.previous.isSome ∧ a ≠ root then [44] else []) ++
          openText label cell.value ++
          (if opens cell.value then printTrees (cell.value = .object) Bool.true children.erase
            else [])) := by
  by_cases hopens : opens cell.value = Bool.true
  · cases hc : children.first with
    | none =>
      obtain rfl := first_eq_none.mp hc
      refine ⟨1, fun fuel output => ?_⟩
      rw [open_leaf hcell hlabel (.inr ⟨hchild.trans hc, fun h => hvalue h rfl⟩)]
      simp [erase, Trees.map, printTrees]
    | some c =>
      obtain ⟨k, hk⟩ := hchildren c hc
      refine ⟨k + 1, fun fuel output => ?_⟩
      rw [← Nat.add_assoc, open_child hcell hlabel (hchild.trans hc) hopens, hk, if_pos hopens]
  · refine ⟨1, fun fuel output => ?_⟩
    rw [open_leaf hcell hlabel (.inl (Bool.not_eq_true _ ▸ hopens)), if_neg hopens, List.append_nil]

/-- From the first of some siblings to the end of their parent. -/
theorem jsonTreeToString_trees {t : Trees (ℕ × JsonValue)} {parentCell : Cell JsonValue}
    (h : Layout s (some p) previous t) (hp : s[p]? = some parentCell)
    (hprint : Printable (parentCell.value = .object) t.erase) (hfirst : t.first = some a)
    (hroot : root ∉ t.addrs) :
    ∃ k, ∀ fuel output, jsonTreeToString s root (fuel + k) .opening a output =
      jsonTreeToString s root fuel .closing p
        (output ++ printTrees (parentCell.value = .object) previous.isNone t.erase) := by
  -- by induction over the tree: the children, then the siblings behind
  induction t generalizing p previous a parentCell with
  | nil => cases hfirst
  | cons r children siblings ihc ihs =>
    obtain ⟨i, v⟩ := r
    obtain rfl : i = a := Option.some.inj hfirst
    obtain ⟨hcell, hchildren, hsiblings⟩ := h
    obtain ⟨hvalue, hpchildren, hpsiblings⟩ := hprint
    rw [addrs_cons, List.mem_cons, List.mem_append, not_or, not_or] at hroot
    obtain ⟨hne, hrootc, hroots⟩ := hroot
    have hlabel : isLabel s ⟨v, some p, previous, siblings.first, children.first, children.last⟩ =
        some (decide (parentCell.value = .object)) := by
      show s[p]?.map (fun parent => decide (parent.value = .object)) = _
      rw [hp]
      rfl
    obtain ⟨k, hk⟩ := jsonTreeToString_cell hcell hlabel rfl
      (fun h => erase_eq_nil.not.mp (hvalue h)) fun c hc => ihc hchildren hcell hpchildren hc hrootc
    -- behind the last one the way goes up, else to the next one
    cases hs : siblings.first with
    | none =>
      obtain rfl := first_eq_none.mp hs
      refine ⟨1 + k, fun fuel output => ?_⟩
      rw [← Nat.add_assoc, hk, close_last hcell rfl (Ne.symm hne) rfl]
      cases previous <;> simp [erase, Trees.map, printTrees, Ne.symm hne]
    | some b =>
      obtain ⟨m, hm⟩ := ihs hsiblings hp hpsiblings hs hroots
      refine ⟨(m + 1) + k, fun fuel output => ?_⟩
      rw [← Nat.add_assoc, hk, ← Nat.add_assoc, close_next hcell rfl (Ne.symm hne) hs, hm]
      cases previous <;> simp [erase, Trees.map, printTrees, Ne.symm hne]

/-- The text of a tree. -/
theorem jsonTreeToString_eq {children : Trees (ℕ × JsonValue)}
    (h : Layout s none none (single (root, v) children)) (hroot : root ∉ children.addrs)
    (hprint : Printable Bool.true (single v children.erase)) :
    ∃ k, ∀ fuel, jsonTreeToString s root (fuel + k) .opening root [] =
      some (print v children.erase) := by
  obtain ⟨hcell, hchildren, -⟩ := h
  obtain ⟨hvalue, hpchildren, -⟩ := hprint
  obtain ⟨k, hk⟩ := @jsonTreeToString_cell s root root Bool.true _ children hcell rfl rfl
    (fun h => erase_eq_nil.not.mp (hvalue h)) fun c hc =>
      jsonTreeToString_trees hchildren hcell hpchildren hc hroot
  refine ⟨1 + k, fun fuel => ?_⟩
  rw [← Nat.add_assoc, hk]
  simp [jsonTreeToString, hcell, print, printTrees, single]

end

/-! ## What the programs build -/

/-- A tree without the addresses of its inner cells. -/
abbrev Item := Option ℕ × JsonValue × Trees JsonValue

/-- A root without its addresses. -/
def item (r : Root JsonValue) : Item := (some r.addr, r.value, r.children.erase)

/-- The new cells hold these trees. -/
def Has (base : Store JsonValue) (items : List Item) (s : Store JsonValue) : Prop :=
  ∃ roots, Holds base roots s ∧ (roots.map item).Perm items

/-- A field of an object. -/
def field (label : Bytes) (v : JsonValue) (children : Trees JsonValue) : Trees JsonValue :=
  single (.string (cstr label)) (single v children)

section

variable {base s s' : Store JsonValue} {items items' : List Item} {p c : Option ℕ}
  {v w : JsonValue} {children grandchildren : Trees JsonValue}

/-- A reordering of the images is one of the elements. -/
theorem exists_perm_of_map {α β : Type} {f : α → β} {l : List α} {l' : List β}
    (h : (l.map f).Perm l') : ∃ k, l.Perm k ∧ k.map f = l' := by
  generalize hm : l.map f = m at h
  induction h generalizing l with
  | nil =>
    obtain rfl := List.map_eq_nil_iff.mp hm
    exact ⟨[], .rfl, rfl⟩
  | cons b _ ih =>
    obtain ⟨a, k, rfl, rfl, hk⟩ := List.map_eq_cons_iff.mp hm
    obtain ⟨k', hperm, rfl⟩ := ih hk
    exact ⟨a :: k', hperm.cons a, rfl⟩
  | swap b b' _ =>
    obtain ⟨a, k, rfl, rfl, hk⟩ := List.map_eq_cons_iff.mp hm
    obtain ⟨a', k', rfl, rfl, rfl⟩ := List.map_eq_cons_iff.mp hk
    exact ⟨a' :: a :: k', .swap _ _ _, rfl⟩
  | trans _ _ ih₁ ih₂ =>
    obtain ⟨k, hk, hm₁⟩ := ih₁ hm
    obtain ⟨k', hk', hm₂⟩ := ih₂ hm₁
    exact ⟨k', hk.trans hk', hm₂⟩

/-- The trees in the order in which they are asked for. -/
theorem Has.exists_holds (h : Has base items s) :
    ∃ roots, Holds base roots s ∧ roots.map item = items := by
  obtain ⟨roots, hholds, hperm⟩ := h
  obtain ⟨roots', hperm', rfl⟩ := exists_perm_of_map hperm
  exact ⟨roots', hholds.perm hperm', rfl⟩

/-- The memory as it is holds no new trees. -/
theorem Has.nil (s : Store JsonValue) : Has s [] s := ⟨[], Holds.nil s, .rfl⟩

/-- The order of the trees does not matter. -/
theorem Has.perm (h : Has base items s) (hperm : items.Perm items') : Has base items' s := by
  obtain ⟨roots, hholds, hroots⟩ := h
  exact ⟨roots, hholds, hroots.trans hperm⟩

/-- The memory has only grown. -/
theorem Has.grown (h : Has base items s) : base <+: s := by
  obtain ⟨roots, hholds, -⟩ := h
  exact hholds.grown

/-- What is built later is held beside what was there. -/
theorem Has.frame (h : Has base items s) (h' : Has s items' s') :
    Has base (items' ++ items) s' := by
  obtain ⟨roots, hholds, hroots⟩ := h
  obtain ⟨roots', hholds', hroots'⟩ := h'
  refine ⟨roots' ++ roots, hholds.frame hholds', ?_⟩
  rw [List.map_append]
  exact hroots'.append hroots

/-- The trees may be counted from an earlier memory. -/
theorem Has.of_prefix (h : Has s items s') (hs : base <+: s) : Has base items s' := by
  obtain ⟨roots, hholds, hroots⟩ := h
  exact ⟨roots, hholds.of_prefix hs, hroots⟩

/-- Trees may be forgotten. -/
theorem Has.tail {i : Item} (h : Has base (i :: items) s) : Has base items s := by
  obtain ⟨roots, hholds, hroots⟩ := h.exists_holds
  obtain ⟨r, roots', rfl, -, rfl⟩ := List.map_eq_cons_iff.mp hroots
  exact ⟨roots', hholds.sublist (List.sublist_cons_self _ _), .rfl⟩

/-- One tree lies in the store by itself. -/
theorem Has.exists_layout (h : Has base [(p, v, children)] s) : ∃ a t, p = some a ∧
    Layout s none none (single (a, v) t) ∧ a ∉ t.addrs ∧ t.erase = children := by
  obtain ⟨roots, hholds, hroots⟩ := h.exists_holds
  obtain ⟨r, rest, rfl, hr, hrest⟩ := List.map_eq_cons_iff.mp hroots
  obtain ⟨hr₁, hr⟩ := Prod.mk.inj hr
  obtain ⟨hr₂, hr₃⟩ := Prod.mk.inj hr
  have hlayout := hholds.layout r (by simp)
  have hroot : r.addr ∉ r.children.addrs := by
    have hnodup := hholds.apart
    rw [List.flatMap_cons, List.nodup_append] at hnodup
    have htree := hnodup.1
    rw [Root.tree, single, addrs_cons, List.nodup_cons] at htree
    exact fun hmem => htree.1 (List.mem_append_left _ hmem)
  rw [Root.tree, hr₂] at hlayout
  exact ⟨r.addr, r.children, hr₁.symm, hlayout, hroot, hr₃⟩

/-- Two trees have two roots. -/
theorem Has.ne (h : Has base ((p, v, children) :: (c, w, grandchildren) :: items) s) : p ≠ c := by
  obtain ⟨roots, hholds, hroots⟩ := h.exists_holds
  obtain ⟨r, roots', rfl, hr, hroots⟩ := List.map_eq_cons_iff.mp hroots
  obtain ⟨q, roots, rfl, hq, -⟩ := List.map_eq_cons_iff.mp hroots
  obtain ⟨-, hapart, -, -⟩ := hholds.apart_two
  obtain ⟨rfl, -⟩ := Prod.mk.inj hr
  obtain ⟨rfl, -⟩ := Prod.mk.inj hq
  intro heq
  exact hapart r.addr r.addr_mem (Option.some.inj heq ▸ q.addr_mem)

/-- In a program, the trees can be put in any order. -/
theorem runs_perm {β : Type} {m : Build β} {Q : β → Store JsonValue → Prop}
    (hperm : items.Perm items') (h : Runs (Has base items') m Q) : Runs (Has base items) m Q :=
  h.mono (fun _ hs => hs.perm hperm) fun _ _ hQ => hQ

/-- A new value is a tree of its own. -/
theorem runs_jsonNewValue (v : JsonValue) :
    Runs (Has base items) (jsonNewValue v) fun a => Has base ((a, v, .nil) :: items) := by
  intro s hs
  obtain ⟨roots, hholds, hroots⟩ := hs
  refine ⟨_, _, rfl, _, hholds.frame (Holds.new s v), ?_⟩
  exact hroots.cons _

/-- The insertion links the child behind the last one. -/
theorem jsonInsertChild_eq_link {a b : ℕ} {cell child : Cell JsonValue} (hne : a ≠ b)
    (ha : s[a]? = some cell) (hb : s[b]? = some child)
    (haccepts : accepts cell.value child.value child.child.isNone = Bool.true) :
    jsonInsertChild (some a) (some b) s = (link s a b).map fun s => ((), s) := by
  simp [jsonInsertChild, hne, ha, hb, haccepts]

/-- The first child. -/
theorem jsonInsertChild_first {a b : ℕ} {cell child : Cell JsonValue} (hne : a ≠ b)
    (ha : s[a]? = some cell) (hb : s[b]? = some child)
    (haccepts : accepts cell.value child.value child.child.isNone = Bool.true)
    (hnone : cell.child = none) :
    ∃ s', jsonInsertChild (some a) (some b) s = some ((), s') ∧
      (∀ x, s'[x]? = s[x]?.map fun y : Cell JsonValue =>
        { y with
          parent := if x = b then some a else y.parent
          child := if x = a then some b else y.child
          childEnd := if x = a then some b else y.childEnd }) ∧
      ∀ x y, Edge s x y → Edge s' x y := by
  obtain ⟨s', hs', -, hcells⟩ := link_first ha hnone hne
  refine ⟨s', ?_, hcells, fun x y hedge => ?_⟩
  · rw [jsonInsertChild_eq_link hne ha hb haccepts, hs']
    rfl
  · exact hedge.link hs' hne ha fun hsome => absurd hnone hsome

/-- A child behind the last one, which points nowhere or to the new one. -/
theorem jsonInsertChild_behind {a b e : ℕ} {cell child last : Cell JsonValue} (hne : a ≠ b)
    (ha : s[a]? = some cell) (hb : s[b]? = some child)
    (haccepts : accepts cell.value child.value child.child.isNone = Bool.true)
    (hsome : cell.child ≠ none) (hend : cell.childEnd = some e) (he : s[e]? = some last)
    (hea : e ≠ a) (hnext : last.next = none ∨ last.next = some b) :
    ∃ s', jsonInsertChild (some a) (some b) s = some ((), s') ∧
      (∀ x, s'[x]? = s[x]?.map fun y : Cell JsonValue =>
        { y with
          parent := if x = b then some a else y.parent
          previous := if x = b then some e else y.previous
          next := if x = e then some b else y.next
          childEnd := if x = a then some b else y.childEnd }) ∧
      ∀ x y, Edge s x y → Edge s' x y := by
  obtain ⟨s', hs', -, hcells⟩ := link_behind ha hsome hend hne hea
  refine ⟨s', ?_, hcells, fun x y hedge => ?_⟩
  · rw [jsonInsertChild_eq_link hne ha hb haccepts, hs']
    rfl
  · exact hedge.link hs' hne ha fun _ => ⟨e, last, hend, he, hea, hnext⟩

/-- A child of the root of a tree, which need not be the root of another one. -/
theorem jsonInsertChild_reaches {r : Root JsonValue} {b : ℕ} {child : Cell JsonValue}
    (h : Layout s none none r.tree) (hnodup : r.tree.addrs.Nodup) (hb : s[b]? = some child)
    (hfresh : b ∉ r.tree.addrs)
    (haccepts : accepts r.value child.value child.child.isNone = Bool.true) :
    ∃ s', jsonInsertChild (some r.addr) (some b) s = some ((), s') ∧
      (∀ x y, Edge s x y → Edge s' x y) ∧ Reaches s' r.addr b ∧
      (∀ x : ℕ, s'[x]?.map Cell.value = s[x]?.map Cell.value) ∧
      ∀ x ∉ r.tree.addrs, x ≠ b → s'[x]? = s[x]? := by
  obtain ⟨s', hs', hrest⟩ := h.link_reaches hnodup hfresh
  refine ⟨s', ?_, hrest⟩
  have hne : r.addr ≠ b := fun heq => hfresh (heq ▸ r.addr_mem)
  rw [jsonInsertChild_eq_link hne h.1 hb haccepts, hs']
  rfl

/-- A tree becomes the last child of another one. -/
theorem jsonInsertChild_holds {roots : List (Root JsonValue)} {p c : Root JsonValue}
    (h : Holds base (p :: c :: roots) s)
    (haccepts : accepts p.value c.value c.children.first.isNone = Bool.true) :
    ∃ s', jsonInsertChild (some p.addr) (some c.addr) s = some ((), s') ∧
      Holds base (p.add c :: roots) s' := by
  obtain ⟨s', hs', hholds⟩ := h.link
  obtain ⟨-, hapart, -, -⟩ := h.apart_two
  have hne : p.addr ≠ c.addr := fun heq => hapart p.addr p.addr_mem (heq ▸ c.addr_mem)
  refine ⟨s', ?_, hholds⟩
  rw [jsonInsertChild_eq_link hne (h.root_cell (by simp)) (h.root_cell (by simp)) haccepts, hs']
  rfl

/-- The inserted tree is the last child. -/
theorem runs_jsonInsertChild
    (haccepts : ∀ childless, (grandchildren = .nil → childless = Bool.true) →
      accepts v w childless = Bool.true) :
    Runs (Has base ((p, v, children) :: (c, w, grandchildren) :: items)) (jsonInsertChild p c)
      fun _ => Has base ((p, v, children.append (single w grandchildren)) :: items) := by
  intro s hs
  obtain ⟨roots, hholds, hroots⟩ := hs.exists_holds
  obtain ⟨r, roots', rfl, hr, hroots⟩ := List.map_eq_cons_iff.mp hroots
  obtain ⟨q, roots, rfl, hq, rfl⟩ := List.map_eq_cons_iff.mp hroots
  obtain ⟨rfl, rfl, rfl⟩ := by simpa [item] using hr
  obtain ⟨rfl, rfl, rfl⟩ := by simpa [item] using hq
  obtain ⟨s', hs', hholds'⟩ := jsonInsertChild_holds hholds <| haccepts _ fun hnil => by
    rw [erase_eq_nil.mp hnil]
    rfl
  refine ⟨(), s', hs', _, hholds', ?_⟩
  simp [item, Root.add, Root.tree, erase, Trees.map, single]

/-- The two cells of a field, and the object that gets it. -/
theorem runs_field {m : Build (Option ℕ)} {label : Bytes}
    (hm : ∀ base items, Runs (Has base items) m fun a => Has base ((a, w, .nil) :: items))
    (haccepts : ∀ text, accepts (.string text) w Bool.true = Bool.true) :
    Runs (Has base ((p, .object, children) :: items))
      (do
        let jLabel ← jsonNewString label
        let jValue ← m
        jsonInsertChild jLabel jValue
        jsonInsertChild p jLabel)
      fun _ => Has base ((p, .object, children.append (field label w .nil)) :: items) := by
  refine (runs_jsonNewValue _).bind fun jLabel => (hm _ _).bind fun jValue => ?_
  refine runs_perm (.swap _ _ _) ?_
  refine (runs_jsonInsertChild fun childless h => ?_).bind fun _ => ?_
  · rw [h rfl]
    exact haccepts _
  · exact runs_perm (.swap _ _ _) (runs_jsonInsertChild fun _ _ => rfl)

/-- A string under a label. -/
theorem runs_jsonInsertString (label value : Bytes) :
    Runs (Has base ((p, .object, children) :: items)) (jsonInsertString p label value)
      fun _ => Has base
        ((p, .object, children.append (field label (.string (cstr value)) .nil)) :: items) :=
  runs_field (fun _ _ => runs_jsonNewValue _) fun _ => rfl

/-- A number with two places under a label. -/
theorem runs_jsonInsertFloat (label : Bytes) (value : ℤ) :
    Runs (Has base ((p, .object, children) :: items)) (jsonInsertFloat p label value)
      fun _ => Has base
        ((p, .object, children.append (field label (.number (cstr (twoPlaces value))) .nil)) ::
          items) :=
  runs_field (fun _ _ => runs_jsonNewValue _) fun _ => rfl

/-- A number, as the text that `sprintf` has written. -/
theorem runs_jsonInsertNumber (label str : Bytes) :
    Runs (Has base ((p, .object, children) :: items)) (jsonInsertNumber p label str)
      fun _ => Has base
        ((p, .object, children.append (field label (.number (cstr str)) .nil)) :: items) :=
  runs_field (fun _ _ => runs_jsonNewValue _) fun _ => rfl

/-- Reading the value of a root. -/
theorem runs_valueAt : Runs (Has base ((p, v, children) :: items)) (valueAt p) fun value s =>
    value = v ∧ Has base ((p, v, children) :: items) s := by
  intro s hs
  obtain ⟨roots, hholds, hroots⟩ := hs.exists_holds
  obtain ⟨r, roots, rfl, hr, -⟩ := List.map_eq_cons_iff.mp hroots
  obtain ⟨rfl, rfl, rfl⟩ := by simpa [item] using hr
  refine ⟨r.value, s, ?_, rfl, hs⟩
  simp [valueAt, hholds.root_cell (r := r) (by simp)]

/-- Two trees have different cells, and the type of the child decides. -/
theorem runs_takes : Runs (Has base ((p, v, children) :: (c, w, grandchildren) :: items))
    (takes p c) fun ok s =>
      (∃ childless, (grandchildren = .nil → childless = Bool.true) ∧ ok = accepts v w childless) ∧
        Has base ((p, v, children) :: (c, w, grandchildren) :: items) s := by
  intro s hs
  obtain ⟨roots, hholds, hroots⟩ := hs.exists_holds
  obtain ⟨r, roots', rfl, hr, hroots⟩ := List.map_eq_cons_iff.mp hroots
  obtain ⟨q, roots, rfl, hq, -⟩ := List.map_eq_cons_iff.mp hroots
  obtain ⟨rfl, rfl, rfl⟩ := by simpa [item] using hr
  obtain ⟨rfl, rfl, rfl⟩ := by simpa [item] using hq
  refine ⟨_, s, ?_, ⟨q.children.first.isNone, fun hnil => ?_, rfl⟩, hs⟩
  · simp [takes, hholds.root_cell (r := r) (by simp), hholds.root_cell (r := q) (by simp)]
  · rw [erase_eq_nil.mp hnil]
    rfl

/-- An array becomes a field of an object. -/
theorem runs_jsonInsertPairIntoObject (label : Bytes) :
    Runs (Has base ((p, .object, children) :: (c, .array, grandchildren) :: items))
      (jsonInsertPairIntoObject p label c)
      fun _ => Has base
        ((p, .object, children.append (field label .array grandchildren)) :: items) := by
  refine runs_valueAt.bind fun parentValue s ⟨hparent, hs⟩ => ?_
  refine (runs_perm (.swap _ _ _) (runs_valueAt.bind fun _ s ⟨_, hs⟩ => ?_)) s hs
  have hs := hs.perm (.swap _ _ _)
  rw [if_neg (by rw [hparent]; exact not_or.mpr ⟨hs.ne, not_not.mpr rfl⟩)]
  refine ((runs_jsonNewValue _).bind fun jLabel => runs_perm (.cons _ (.swap _ _ _)) ?_) s hs
  refine runs_takes.bind fun ok s ⟨⟨childless, _, hok⟩, hs⟩ => ?_
  refine ((runs_jsonInsertChild fun _ _ => rfl).bind fun _ => ?_) s hs
  -- a label takes any array
  have htaken : ok = Bool.true := hok
  rw [if_pos htaken]
  exact runs_perm (.swap _ _ _) (runs_jsonInsertChild fun _ _ => rfl)

end

end JsonTree

end AdxDsp
