import AdxDsp.Json.Buffer
import AdxDsp.Json.Decode
import AdxDsp.Json.Safety

/-!
# Parsing what has been printed

The printer leaves out empty strings, arrays and objects, so that their members are lost and the
places of elements change; a comma before the last of them is left behind.

* **The text**: `written`, the text that the printer writes, with its tokens; `printChildren_eq`.
* **Its tree**: `treeOf_written` for a tree without empty nodes; `nodes_add_empties` for any tree.
* `roundTrips_iff`: when the tree that is printed is the tree that is parsed again.
-/

namespace AdxDsp

open CText JsonText

namespace Json

open Buffer

/-! ## Escapes -/

section

variable {v : Bytes}

/-- An escaped byte is a body. -/
theorem isBody_escapeByte (c : UInt8) : isBody (escapeByte c) := by
  unfold escapeByte
  split_ifs with h₁ h₂ h₃ h₄ h₅ h₆ h₇ h₈
  case neg =>
    rw [isBody_of_ne h₆, decide_eq_true h₇]
    rfl
  all_goals rfl

/-- The copy of an escaped byte is the byte. -/
theorem strdupLoop_escapeByte (c : UInt8) :
    strdupLoop (escapeByte c).length (escapeByte c) = [c] := by
  unfold escapeByte
  split_ifs with h₁ h₂ h₃ h₄ h₅ h₆ h₇ h₈
  case neg => exact strdupLoop_of_notMem (by simpa using Ne.symm h₆)
  all_goals
    subst c
    rfl

/-- An escaped text is a body. -/
theorem isBody_escape_text (v : Bytes) : isBody (escape v) := by
  induction v with
  | nil => rfl
  | cons c v ih => exact isBody_append (isBody_escapeByte c) ih

/-- Undoing the escapes gives the text back. -/
theorem strdupLoop_escape_text (v : Bytes) : strdupLoop (escape v).length (escape v) = v := by
  induction v with
  | nil => rfl
  | cons c v ih =>
    change strdupLoop (escapeByte c ++ escape v).length (escapeByte c ++ escape v) = c :: v
    rw [List.length_append, strdupLoop_append_add (isBody_escapeByte c), strdupLoop_escapeByte, ih]
    rfl

/-- Escaping empties no text. -/
theorem escape_ne_nil (h : v ≠ []) : escape v ≠ [] := by
  obtain ⟨c, v, rfl⟩ := List.exists_cons_of_ne_nil h
  have := (length_escapeByte c).1
  rw [← List.length_pos_iff]
  change 0 < (escapeByte c ++ escape v).length
  rw [List.length_append]
  omega

/-- Escaping adds no zero byte. -/
theorem zero_notMem_escape (h : 0 ∉ v) : 0 ∉ escape v := by
  intro hmem
  obtain ⟨c, hc, h0⟩ := List.mem_flatMap.mp hmem
  unfold escapeByte at h0
  split_ifs at h0
  case neg => exact h (List.mem_singleton.mp h0 ▸ hc)
  all_goals exact absurd h0 (by decide)

/-- A short escaped text is copied back. -/
theorem copied_escape (h : Short (escape v)) : copied (escape v) = some v := by
  rw [copied_of_short h, strdupLoop_escape_text]

end

/-! ## The text with its tokens -/

/-- What is written with a key. -/
def nameOf (key : Option Bytes) : Option (Name Bytes Bytes) :=
  key.map fun key => ⟨escape key, [], []⟩

/-- Behind a child that was written, a comma stands before children that are left out. -/
def orGap (printed : Bool) : Text Bytes Bytes Bytes → Text Bytes Bytes Bytes
  | .nil => if printed then .gap else .nil
  | .gap => .gap
  | .leaf before name value after next => .leaf before name value after next
  | .node before name keyed child after next => .node before name keyed child after next

/-- An object or an array, which is empty if none of its children is written. -/
def listText (keyed : Bool) (key : Option Bytes) (child next : Text Bytes Bytes Bytes) :
    Text Bytes Bytes Bytes :=
  match child with
  | .nil => .leaf [] (nameOf key) (.emptyList keyed []) [] next
  | child => .node [] (nameOf key) keyed child [] next

/-- The literal name of a value. -/
def literalOf (val : Option Bytes) : Literal :=
  if val = some (bytes "true") then .true
  else if val = some (bytes "false") then .false else .null

/-- The text that the printer writes for children; `printed` says whether a child was written before
them. -/
def written : Bool → JsonList → Text Bytes Bytes Bytes
  | _, .nil => .nil
  | printed, .cons type key val child next =>
    match type with
    | .object => listText true key (written false child) (written true next)
    | .array => listText false key (written false child) (written true next)
    | .string => .leaf [] (nameOf key) (.string (escape (val.getD []))) [] (written true next)
    | .number => .leaf [] (nameOf key) (.number (val.getD [])) [] (written true next)
    | .bool => .leaf [] (nameOf key) (.literal (literalOf val)) [] (written true next)
    | .null => .leaf [] (nameOf key) (.literal .null) [] (written true next)
    | .empty => orGap printed (written printed next)
    | .unset => .nil

section

variable {keyed printed : Bool} {key : Option Bytes} {l : JsonList} {P : Bytes → Prop}
  {child next t : Text Bytes Bytes Bytes}

/-- A gap prints nothing. -/
theorem render_orGap : (orGap printed t).render = t.render := by
  cases t with
  | nil => cases printed <;> rfl
  | gap => rfl
  | leaf => rfl
  | node => rfl

/-- Behind a child that was printed there is a comma. -/
theorem comma_orGap_true : (orGap true t).comma = [44] := by
  cases t <;> rfl

/-- The first child is no gap. -/
theorem written_ne_gap (l : JsonList) : written false l ≠ .gap := by
  induction l with
  | nil => exact nofun
  | cons type key val child next ihc ih =>
    have hlist : ∀ keyed, listText keyed key (written false child) (written true next) ≠ .gap := by
      intro keyed
      cases written false child <;> exact nofun
    cases type with
    | unset => exact nofun
    | object => exact hlist true
    | array => exact hlist false
    | empty =>
      change orGap false (written false next) ≠ .gap
      cases hnext : written false next with
      | nil => exact nofun
      | gap => exact absurd hnext ih
      | leaf => exact nofun
      | node => exact nofun
    | string => exact nofun
    | number => exact nofun
    | bool => exact nofun
    | null => exact nofun

/-- The head is the name and the byte behind it. -/
theorem printHead_eq (key : Option Bytes) (after : Bytes) :
    printHead key after = (nameOf key).elim [] Name.render ++ after := by
  cases key with
  | none => rfl
  | some key => simp [printHead, nameOf, Name.render]

/-- The text of a list and of what follows. -/
theorem render_listText (hchild : child ≠ .gap) :
    (listText keyed key child next).render = printHead key [openBracket keyed] ++
      (child.render ++ [closeBracket keyed]) ++ (next.comma ++ next.render) ∧
      (listText keyed key child next).comma = [44] := by
  rw [printHead_eq]
  cases child with
  | nil => exact ⟨by simp [listText, Text.render, Scalar.render], rfl⟩
  | gap => exact absurd rfl hchild
  | leaf => exact ⟨by simp [listText, Text.render], rfl⟩
  | node => exact ⟨by simp [listText, Text.render], rfl⟩

/-- A literal prints its value. -/
theorem render_literalOf {val : Option Bytes}
    (h : val = some (bytes "true") ∨ val = some (bytes "false")) :
    (literalOf val).render = val.getD [] := by
  rcases h with rfl | rfl <;> rfl

/-- The printer writes this text: without a comma before it or, behind a child that was written,
with one. -/
theorem printChildren_eq (h : Shaped P keyed l) :
    (∀ printed, printChildren false l = (written printed l).render) ∧
      printChildren true l = (written true l).comma ++ (written true l).render := by
  induction l generalizing keyed with
  | nil => exact ⟨fun _ => rfl, rfl⟩
  | cons type key val child next ihc ih =>
    obtain ⟨-, hshape, hnext⟩ := h
    obtain ⟨hfalse, htrue⟩ := ih hnext
    -- a child that is written
    have hentry : ∀ t : Text Bytes Bytes Bytes, type ≠ .empty →
        (∀ printed, written printed (.cons type key val child next) = t) →
        t.render = printEntry type key val (printChildren false child) ++
          ((written true next).comma ++ (written true next).render) → t.comma = [44] →
        (∀ printed, printChildren false (.cons type key val child next) =
          (written printed (.cons type key val child next)).render) ∧
          printChildren true (.cons type key val child next) =
            (written true (.cons type key val child next)).comma ++
              (written true (.cons type key val child next)).render := by
      intro t hne hwritten hrender hcomma
      have hprint : ∀ comma : Bool, printChildren comma (.cons type key val child next) =
          (if comma then [44] else []) ++ (printEntry type key val (printChildren false child) ++
            printChildren true next) := by
        intro comma
        rw [printChildren, decide_eq_true hne]
      rw [hprint, hprint, htrue, ← hrender]
      refine ⟨fun printed => by rw [hwritten]; rfl, ?_⟩
      rw [hwritten, hcomma]
      rfl
    cases type with
    | unset => exact hshape.elim
    | object =>
      obtain ⟨hrender, hcomma⟩ :=
        @render_listText true key _ (written true next) (written_ne_gap child)
      refine hentry _ (by decide) (fun _ => rfl) (hrender.trans ?_) hcomma
      rw [← (ihc hshape.2.2).1 false]
      rfl
    | array =>
      obtain ⟨hrender, hcomma⟩ :=
        @render_listText false key _ (written true next) (written_ne_gap child)
      refine hentry _ (by decide) (fun _ => rfl) (hrender.trans ?_) hcomma
      rw [← (ihc hshape.2.2).1 false]
      rfl
    | empty =>
      have hprint : ∀ comma : Bool, printChildren comma (.cons .empty key val child next) =
          (if comma then [44] else []) ++ printChildren false next := fun comma => rfl
      rw [hprint, hprint]
      refine ⟨fun printed => ?_, ?_⟩
      · change [] ++ printChildren false next = (orGap printed (written printed next)).render
        rw [render_orGap, ← hfalse printed]
        rfl
      · change [44] ++ printChildren false next = (orGap true (written true next)).comma ++
          (orGap true (written true next)).render
        rw [comma_orGap_true, render_orGap, ← hfalse true]
    | string =>
      refine hentry _ (by decide) (fun _ => rfl) ?_ rfl
      simp [Text.render, Scalar.render, printEntry, printHead_eq]
    | number =>
      refine hentry _ (by decide) (fun _ => rfl) ?_ rfl
      simp [Text.render, Scalar.render, printEntry, printHead_eq]
    | bool =>
      refine hentry _ (by decide) (fun _ => rfl) ?_ rfl
      simp [Text.render, Scalar.render, printEntry, printHead_eq, render_literalOf hshape.2]
    | null =>
      refine hentry _ (by decide) (fun _ => rfl) ?_ rfl
      simp [Text.render, Scalar.render, printEntry, printHead_eq, hshape.2, Literal.render]

/-! ## Its tree -/

/-- The number of nodes. -/
def nodes : JsonList → ℕ
  | .nil => 0
  | .cons _ _ _ child next => 1 + nodes child + nodes next

/-- The number of empty nodes. -/
def empties : JsonList → ℕ
  | .nil => 0
  | .cons type _ _ child next => (if type = .empty then 1 else 0) + empties child + empties next

/-- All keys and values can be printed and are not empty. -/
def Filled (v : Bytes) : Prop := Printable v ∧ v ≠ []

/-- A list is an entry. -/
theorem hasEntry_listText : (listText keyed key child next).HasEntry := by
  cases child <;> trivial

/-- A gap adds nothing to the tree. -/
theorem treeOf_orGap {l' : JsonList} (m : Meaning Bytes Bytes)
    (h : treeOf m (orGap printed t) = some l') : treeOf m t = some l' := by
  cases t with
  | nil =>
    cases printed with
    | true => cases h
    | false => exact h
  | gap => exact h
  | leaf => exact h
  | node => exact h

/-- The tree of a list and of what follows, taken apart. -/
theorem treeOf_listText_eq_some {l' : JsonList} {m : Meaning Bytes Bytes} (hchild : child ≠ .gap)
    (h : treeOf m (listText keyed key child next) = some l') :
    ∃ type key' child' next', l' = .cons type key' none child' next' ∧
      treeOf m child = some child' ∧ treeOf m next = some next' := by
  cases child with
  | nil =>
    obtain ⟨key', hkey, h⟩ := Option.bind_eq_some_iff.mp h
    obtain ⟨next', hnext, rfl⟩ := Option.map_eq_some_iff.mp h
    exact ⟨.empty, key', .nil, next', rfl, rfl, hnext⟩
  | gap => exact absurd rfl hchild
  | leaf before name value after rest =>
    obtain ⟨key', hkey, h⟩ := Option.bind_eq_some_iff.mp h
    obtain ⟨child', hchild', h⟩ := Option.bind_eq_some_iff.mp h
    obtain ⟨next', hnext, rfl⟩ := Option.map_eq_some_iff.mp h
    exact ⟨_, key', child', next', rfl, hchild', hnext⟩
  | node before name keyed' child'' after rest =>
    obtain ⟨key', hkey, h⟩ := Option.bind_eq_some_iff.mp h
    obtain ⟨child', hchild', h⟩ := Option.bind_eq_some_iff.mp h
    obtain ⟨next', hnext, rfl⟩ := Option.map_eq_some_iff.mp h
    exact ⟨_, key', child', next', rfl, hchild', hnext⟩

/-- The tree of a value and of what follows, taken apart. -/
theorem treeOf_leaf_eq_some {name : Option (Name Bytes Bytes)} {value : Scalar Bytes Bytes Bytes}
    {l' : JsonList} {m : Meaning Bytes Bytes}
    (h : treeOf m (.leaf [] name value [] next) = some l') :
    ∃ type key' val' next', l' = .cons type key' val' .nil next' ∧ treeOf m next = some next' := by
  obtain ⟨key', hkey, h⟩ := Option.bind_eq_some_iff.mp h
  obtain ⟨⟨type, val', child'⟩, hvalue, h⟩ := Option.bind_eq_some_iff.mp h
  obtain ⟨next', hnext, rfl⟩ := Option.map_eq_some_iff.mp h
  have hchild : child' = .nil := by
    cases value with
    | string s =>
      obtain ⟨val, -, heq⟩ := Option.map_eq_some_iff.mp hvalue
      cases val with
      | none => exact (Prod.mk.inj (Prod.mk.inj heq).2).2.symm
      | some val => exact (Prod.mk.inj (Prod.mk.inj heq).2).2.symm
    | number n =>
      obtain ⟨val, -, heq⟩ := Option.map_eq_some_iff.mp hvalue
      exact (Prod.mk.inj (Prod.mk.inj heq).2).2.symm
    | literal l =>
      cases l with
      | true => exact (Prod.mk.inj (Prod.mk.inj (Option.some.inj hvalue)).2).2.symm
      | false => exact (Prod.mk.inj (Prod.mk.inj (Option.some.inj hvalue)).2).2.symm
      | null => exact (Prod.mk.inj (Prod.mk.inj (Option.some.inj hvalue)).2).2.symm
    | emptyList keyed blanks => exact (Prod.mk.inj (Prod.mk.inj (Option.some.inj hvalue)).2).2.symm
  exact ⟨type, key', val', next', by rw [hchild], hnext⟩

/-- The tree of the text has no node for the empty ones of the tree that is printed. -/
theorem nodes_add_empties {l' : JsonList} (h : Shaped P keyed l) (m : Meaning Bytes Bytes)
    (htree : treeOf m (written printed l) = some l') : nodes l' + empties l = nodes l := by
  induction l generalizing keyed printed l' with
  | nil =>
    obtain rfl := Option.some.inj htree
    rfl
  | cons type key val child next ihc ih =>
    obtain ⟨-, hshape, hnext⟩ := h
    -- an object or an array, whose children lose their empty nodes
    have hlist : ∀ keyed', type ≠ .empty → (∃ keyed'', Shaped P keyed'' child) →
        treeOf m (listText keyed' key (written false child) (written true next)) = some l' →
          nodes l' + empties (.cons type key val child next) =
            nodes (.cons type key val child next) := by
      rintro keyed' hne ⟨keyed'', hshaped⟩ htree
      obtain ⟨type', key', child', next', rfl, hchild', hnext'⟩ :=
        treeOf_listText_eq_some (written_ne_gap child) htree
      have hc := ihc hshaped hchild'
      have hn := ih hnext hnext'
      simp only [nodes, empties, if_neg hne]
      omega
    have hleaf : ∀ name value, type ≠ .empty → child = .nil →
        treeOf m (.leaf [] name value [] (written true next)) = some l' →
          nodes l' + empties (.cons type key val child next) =
            nodes (.cons type key val child next) := by
      rintro name value hne rfl htree
      obtain ⟨type', key', val', next', rfl, hnext'⟩ := treeOf_leaf_eq_some htree
      have hn := ih hnext hnext'
      simp only [nodes, empties, if_neg hne]
      omega
    cases type with
    | unset => exact hshape.elim
    | object => exact hlist true nofun ⟨_, hshape.2.2⟩ htree
    | array => exact hlist false nofun ⟨_, hshape.2.2⟩ htree
    | empty =>
      obtain rfl := hshape.2
      have hn := ih hnext (treeOf_orGap m htree)
      simp only [nodes, empties, if_true]
      omega
    | string => exact hleaf _ _ nofun hshape.1 htree
    | number => exact hleaf _ _ nofun hshape.1 htree
    | bool => exact hleaf _ _ nofun hshape.1 htree
    | null => exact hleaf _ _ nofun hshape.1 htree

/-! ## Its tokens -/

section

variable {p : Text.Condition Bytes Bytes Bytes}

/-- A condition on what is written with a key. -/
theorem onName_nameOf (hblanks : p.blanks []) :
    p.OnName (nameOf key) ↔ ∀ k ∈ key, p.name (escape k) := by
  cases key with
  | none => exact iff_of_true nofun nofun
  | some k =>
    constructor
    · rintro h k ⟨⟩
      exact (h _ rfl).1
    · rintro h n ⟨⟩
      exact ⟨h k rfl, hblanks, hblanks⟩

/-- A comma that is left behind is a gap. -/
theorem all_orGap :
    (orGap printed t).All p ↔ t.All p ∧ (printed = true → t = .nil → p.gap) := by
  cases t with
  | nil =>
    cases printed with
    | true => exact ⟨fun h => ⟨trivial, fun _ _ => h⟩, fun h => h.2 rfl rfl⟩
    | false => exact iff_of_true trivial ⟨trivial, nofun⟩
  | gap => exact ⟨fun h => ⟨h, nofun⟩, And.left⟩
  | leaf => exact ⟨fun h => ⟨h, nofun⟩, And.left⟩
  | node => exact ⟨fun h => ⟨h, nofun⟩, And.left⟩

/-- A condition on a list, by its parts. -/
theorem all_listText (hblanks : p.blanks []) : (listText keyed key child next).All p ↔
    p.OnName (nameOf key) ∧ child.All p ∧ next.All p := by
  cases child with
  | nil =>
    exact ⟨fun ⟨_, hn, _, _, hnext⟩ => ⟨hn, trivial, hnext⟩,
      fun ⟨hn, _, hnext⟩ => ⟨hblanks, hn, hblanks, hblanks, hnext⟩⟩
  | gap | leaf | node =>
    exact ⟨fun ⟨_, hn, hc, _, hnext⟩ => ⟨hn, hc, hnext⟩,
      fun ⟨hn, hc, hnext⟩ => ⟨hblanks, hn, hc, hblanks, hnext⟩⟩

end

/-- A printed name is lexically a name. -/
theorem lexical_nameOf (key : Option Bytes) : lexical.OnName (nameOf key) :=
  (onName_nameOf (show lexical.blanks [] from nofun)).mpr fun k _ => isBody_escape_text k

/-- There is a printed name where there is a key. -/
theorem isSome_nameOf (key : Option Bytes) : (nameOf key).isSome = key.isSome :=
  Option.isSome_map

/-- A gap has no name. -/
theorem wellKeyed_orGap (h : t.WellKeyed keyed) : (orGap printed t).WellKeyed keyed := by
  cases t with
  | nil => cases printed <;> trivial
  | gap => exact h
  | leaf => exact h
  | node => exact h

/-- The names of a list, by its parts. -/
theorem wellKeyed_listText {keyed' : Bool} (hkey : key.isSome = keyed) (hgap : child ≠ .gap)
    (hchild : child.WellKeyed keyed') (hnext : next.WellKeyed keyed) :
    (listText keyed' key child next).WellKeyed keyed := by
  have hname := (isSome_nameOf key).trans hkey
  cases child with
  | nil => exact ⟨hname, hnext⟩
  | gap => exact absurd rfl hgap
  | leaf => exact ⟨hname, trivial, hchild, hnext⟩
  | node => exact ⟨hname, trivial, hchild, hnext⟩

/-- The tokens of the text can be scanned. -/
theorem all_written (h : Shaped Filled keyed l) : (written printed l).All lexical := by
  have hblanks : lexical.blanks [] := nofun
  induction l generalizing keyed printed with
  | nil => trivial
  | cons type key val child next ihc ih =>
    obtain ⟨-, hshape, hnext⟩ := h
    cases type with
    | unset => exact hshape.elim
    | object => exact (all_listText hblanks).mpr ⟨lexical_nameOf key, ihc hshape.2.2, ih hnext⟩
    | array => exact (all_listText hblanks).mpr ⟨lexical_nameOf key, ihc hshape.2.2, ih hnext⟩
    | empty => exact all_orGap.mpr ⟨ih hnext, fun _ _ => trivial⟩
    | string => exact ⟨hblanks, lexical_nameOf key, isBody_escape_text _, hblanks, ih hnext⟩
    | number =>
      obtain ⟨-, v, rfl, hfilled, hnumber⟩ := hshape
      exact ⟨hblanks, lexical_nameOf key, hnumber.resolve_left hfilled.2, hblanks, ih hnext⟩
    | bool => exact ⟨hblanks, lexical_nameOf key, trivial, hblanks, ih hnext⟩
    | null => exact ⟨hblanks, lexical_nameOf key, trivial, hblanks, ih hnext⟩

/-- What is printed of a parsed tree has names just in objects. -/
theorem wellKeyed_written (h : Shaped P keyed l) : (written printed l).WellKeyed keyed := by
  induction l generalizing keyed printed with
  | nil => trivial
  | cons type key val child next ihc ih =>
    obtain ⟨⟨hkey, -⟩, hshape, hnext⟩ := h
    have hname := (isSome_nameOf key).trans hkey
    cases type with
    | unset => exact hshape.elim
    | object =>
      exact wellKeyed_listText hkey (written_ne_gap child) (ihc hshape.2.2) (ih hnext)
    | array =>
      exact wellKeyed_listText hkey (written_ne_gap child) (ihc hshape.2.2) (ih hnext)
    | empty => exact wellKeyed_orGap (ih hnext)
    | string => exact ⟨hname, ih hnext⟩
    | number => exact ⟨hname, ih hnext⟩
    | bool => exact ⟨hname, ih hnext⟩
    | null => exact ⟨hname, ih hnext⟩

/-- No token of the text has a NUL. -/
theorem zero_notMem_printChildren {comma : Bool} (h : Shaped Printable keyed l) :
    0 ∉ printChildren comma l := by
  have hhead : ∀ {key : Option Bytes} {after : Bytes}, (∀ k ∈ key, Printable k) → 0 ∉ after →
      0 ∉ printHead key after := by
    intro key after hkey hafter
    cases key with
    | none => exact hafter
    | some key => simpa [printHead] using ⟨zero_notMem_escape (hkey key rfl).1, hafter⟩
  -- by induction over the entries, of which no part has a zero byte
  induction l generalizing keyed comma with
  | nil => exact List.not_mem_nil
  | cons type key val child next ihc ih =>
    obtain ⟨⟨-, hkey⟩, hshape, hnext⟩ := h
    have hcomma : (0 : UInt8) ∉ if comma then [44] else [] := by cases comma <;> decide
    have hentry : 0 ∉ printEntry type key val (printChildren false child) := by
      cases type with
      | unset => exact hshape.elim
      | object => simpa [printEntry, hhead hkey] using ihc hshape.2.2
      | array => simpa [printEntry, hhead hkey] using ihc hshape.2.2
      | empty => exact List.not_mem_nil
      | string =>
        obtain ⟨-, v, rfl, hv⟩ := hshape
        simpa [printEntry, hhead hkey] using zero_notMem_escape hv.1
      | number =>
        obtain ⟨-, v, rfl, hv, -⟩ := hshape
        simpa [printEntry, hhead hkey] using hv.1
      | bool => rcases hshape.2 with rfl | rfl <;> simp [printEntry, hhead hkey, bytes]
      | null =>
        rw [hshape.2]
        simp [printEntry, hhead hkey, bytes]
    simp only [printChildren, List.mem_append, not_or]
    exact ⟨hcomma, hentry, ih hnext⟩

/-! ## Trees that are kept -/

/-- No node is empty, and no key and no value is an empty text. -/
def Kept : JsonList → Prop
  | .nil => True
  | .cons type key val child next =>
    (type ≠ .empty ∧ key ≠ some [] ∧ val ≠ some []) ∧ Kept child ∧ Kept next

/-- A tree that is kept has no empty texts. -/
theorem filled_of_kept (h : Shaped Printable keyed l) (hkept : Kept l) : Shaped Filled keyed l := by
  induction l generalizing keyed with
  | nil => trivial
  | cons type key val child next ihc ih =>
    obtain ⟨⟨hname, hkey⟩, hshape, hnext⟩ := h
    obtain ⟨⟨-, hkeyNe, hvalNe⟩, hchild, hkeptNext⟩ := hkept
    refine ⟨⟨hname, fun k hk => ⟨hkey k hk, ?_⟩⟩, ?_, ih hnext hkeptNext⟩
    · rintro rfl
      exact hkeyNe hk
    · have hne : ∀ v, val = some v → v ≠ [] := by
        rintro v rfl rfl
        exact hvalNe rfl
      cases type with
      | unset => exact hshape
      | object => exact ⟨hshape.1, hshape.2.1, ihc hshape.2.2 hchild⟩
      | array => exact ⟨hshape.1, hshape.2.1, ihc hshape.2.2 hchild⟩
      | empty => exact hshape
      | string =>
        obtain ⟨hnil, v, hv, hprint⟩ := hshape
        exact ⟨hnil, v, hv, hprint, hne v hv⟩
      | number =>
        obtain ⟨hnil, v, hv, hprint, hnumber⟩ := hshape
        exact ⟨hnil, v, hv, ⟨hprint, hne v hv⟩, hnumber⟩
      | bool => exact hshape
      | null => exact hshape

/-- A tree without empty texts is kept. -/
theorem kept_of_empties (h : Shaped Filled keyed l) (hempties : empties l = 0) : Kept l := by
  induction l generalizing keyed with
  | nil => trivial
  | cons type key val child next ihc ih =>
    obtain ⟨⟨-, hkey⟩, hshape, hnext⟩ := h
    rw [empties] at hempties
    -- a name that is empty would not be filled
    have hkeyNe : key ≠ some [] := by
      rintro rfl
      exact (hkey [] rfl).2 rfl
    have hkeptNext := ih hnext (by omega)
    have hchild : ∀ keyed', Shaped Filled keyed' child → Kept child :=
      fun keyed' hshaped => ihc hshaped (by omega)
    cases type with
    | unset => exact hshape.elim
    | object =>
      obtain ⟨rfl, -, hshaped⟩ := hshape
      exact ⟨⟨nofun, hkeyNe, nofun⟩, hchild _ hshaped, hkeptNext⟩
    | array =>
      obtain ⟨rfl, -, hshaped⟩ := hshape
      exact ⟨⟨nofun, hkeyNe, nofun⟩, hchild _ hshaped, hkeptNext⟩
    -- an empty list would be counted
    | empty =>
      rw [if_pos rfl] at hempties
      omega
    | string =>
      obtain ⟨rfl, v, rfl, hv⟩ := hshape
      exact ⟨⟨nofun, hkeyNe, fun heq => hv.2 (Option.some.inj heq)⟩, trivial, hkeptNext⟩
    | number =>
      obtain ⟨rfl, v, rfl, hv, -⟩ := hshape
      exact ⟨⟨nofun, hkeyNe, fun heq => hv.2 (Option.some.inj heq)⟩, trivial, hkeptNext⟩
    | bool =>
      obtain ⟨rfl, hval⟩ := hshape
      exact ⟨⟨nofun, hkeyNe, by rcases hval with rfl | rfl <;> decide⟩, trivial, hkeptNext⟩
    | null =>
      obtain ⟨rfl, rfl⟩ := hshape
      exact ⟨⟨nofun, hkeyNe, by decide⟩, trivial, hkeptNext⟩

/-- A kept tree that is not empty prints an entry. -/
theorem hasEntry_written (h : Shaped P keyed l) (hkept : Kept l) (hne : l ≠ .nil) :
    (written printed l).HasEntry := by
  cases l with
  | nil => exact absurd rfl hne
  | cons type key val child next =>
    cases type with
    | unset => exact h.2.1.elim
    | object => exact hasEntry_listText
    | array => exact hasEntry_listText
    | empty => exact absurd rfl hkept.1.1
    | string => trivial
    | number => trivial
    | bool => trivial
    | null => trivial

/-- A printed key reads back. -/
theorem ofName_nameOf {key : Option Bytes} (hkey : ∀ k ∈ key, k ≠ [])
    (hlen : ((nameOf key).elim [] Name.render).length < 2 ^ 31 - 1) :
    read.ofName (nameOf key) = some key := by
  cases key with
  | none => rfl
  | some k =>
    have hpos := List.length_pos_iff.mpr (escape_ne_nil (hkey k rfl))
    simp only [nameOf, Option.map_some, Option.elim_some, Name.render, List.length_cons,
      List.length_append] at hlen
    have hint : toInt32 ((escape k).length : ℤ) = (escape k).length :=
      toInt32_of_bounds (by omega) (by omega)
    have hname : read.name (escape k) = some k := by
      change (if toInt32 ((escape k).length : ℤ) = 0 then none else copied (escape k)) = _
      rw [hint, if_neg (by omega)]
      exact copied_escape (show _ < _ by omega)
    change (read.name (escape k)).map some = _
    rw [hname]
    rfl

/-- The tree of a list with entries. -/
theorem treeOf_listText (m : Meaning Bytes Bytes) (hentry : child.HasEntry) :
    treeOf m (listText keyed key child next) = (m.ofName (nameOf key)).bind fun key =>
      (treeOf m child).bind fun child => (treeOf m next).map fun next =>
        .cons (if keyed then .object else .array) key none child next := by
  cases child with
  | nil => cases hentry
  | gap => cases hentry
  | leaf => rfl
  | node => rfl

/-- Keys, children and what follows them are shorter than the text. -/
theorem length_listText (hentry : child.HasEntry) :
    ((nameOf key).elim [] Name.render).length + child.render.length + next.render.length ≤
      (listText keyed key child next).render.length := by
  have hgap : child ≠ .gap := by
    rintro rfl
    exact hentry
  rw [(render_listText hgap).1, printHead_eq]
  simp only [List.length_append]
  omega

/-- The parts of a value are no longer than its text. -/
theorem length_leaf {name : Option (Name Bytes Bytes)} {value : Scalar Bytes Bytes Bytes} :
    (name.elim [] Name.render).length + value.render.length + next.render.length ≤
      (Text.leaf [] name value [] next).render.length := by
  simp only [Text.render, List.length_append]
  omega

/-- The tree of the text is the tree that is printed: by induction on the list. -/
theorem treeOf_written (h : Shaped Filled keyed l) (hkept : Kept l)
    (hlen : (written printed l).render.length < 2 ^ 31 - 1) :
    treeOf read (written printed l) = some l := by
  induction l generalizing keyed printed with
  | nil => rfl
  | cons type key val child next ihc ih =>
    obtain ⟨⟨-, hkey⟩, hshape, hnext⟩ := h
    obtain ⟨⟨hempty, -, -⟩, hkeptChild, hkeptNext⟩ := hkept
    have hname : _ → read.ofName (nameOf key) = some key :=
      ofName_nameOf fun k hk => (hkey k hk).2
    -- a list of entries, and a leaf, with the entries behind them
    have hlist : ∀ keyed' keyed'', child ≠ .nil → Shaped Filled keyed'' child →
        (listText keyed' key (written false child) (written true next)).render.length <
          2 ^ 31 - 1 →
        treeOf read (listText keyed' key (written false child) (written true next)) =
          some (.cons (if keyed' then .object else .array) key none child next) := by
      intro keyed' keyed'' hne hshaped hlen
      have hentry : (written false child).HasEntry := hasEntry_written hshaped hkeptChild hne
      have hle := @length_listText keyed' key _ (written true next) hentry
      rw [treeOf_listText read hentry, hname (by omega), ihc hshaped hkeptChild (by omega),
        ih hnext hkeptNext (by omega)]
      rfl
    have hleaf : ∀ (value : Scalar Bytes Bytes Bytes) (type : JsonType) (val : Option Bytes),
        (Text.leaf [] (nameOf key) value [] (written true next)).render.length < 2 ^ 31 - 1 →
        (value.render.length < 2 ^ 31 - 1 → read.ofScalar value = some (type, val, .nil)) →
        treeOf read (.leaf [] (nameOf key) value [] (written true next)) =
          some (.cons type key val .nil next) := by
      intro value type val hlen hvalue
      have hle := @length_leaf (written true next) (nameOf key) value
      rw [treeOf, hname (by omega), hvalue (by omega), ih hnext hkeptNext (by omega)]
      rfl
    cases type with
    | unset => exact hshape.elim
    | object =>
      obtain ⟨rfl, hne, hshaped⟩ := hshape
      exact hlist true _ hne hshaped hlen
    | array =>
      obtain ⟨rfl, hne, hshaped⟩ := hshape
      exact hlist false _ hne hshaped hlen
    | empty => exact absurd rfl hempty
    | string =>
      obtain ⟨rfl, v, rfl, hv⟩ := hshape
      refine hleaf _ .string (some v) hlen fun hshort => ?_
      simp only [Scalar.render, Option.getD_some, List.length_cons, List.length_append] at hshort
      have hstring : read.string (escape v) = some (some v) := by
        change (if escape v = [] then some none else (copied (escape v)).map some) = _
        rw [if_neg (escape_ne_nil hv.2), copied_escape (show _ < _ by omega)]
        rfl
      change (read.string (escape v)).map _ = _
      rw [hstring]
      rfl
    | number =>
      obtain ⟨rfl, v, rfl, hv, hnumber⟩ := hshape
      refine hleaf _ .number (some v) hlen fun hshort => ?_
      have hnumber : copied v = some v := by
        rw [copied_of_short (show Short v from hshort), strdupLoop_of_notMem]
        exact notMem_of_isNumberByte (hnumber.resolve_left hv.2).1
      change (copied v).map _ = _
      rw [hnumber]
      rfl
    | bool =>
      obtain ⟨rfl, rfl | rfl⟩ := hshape
      · exact hleaf _ .bool _ hlen fun _ => rfl
      · exact hleaf _ .bool _ hlen fun _ => rfl
    | null =>
      obtain ⟨rfl, rfl⟩ := hshape
      exact hleaf _ .null _ hlen fun _ => rfl

end

/-! ## The parser and the printer -/

/-- The copies can be printed. -/
theorem copies_printable (n : ℕ) : CopiesSatisfy Printable n := by
  intro body val hne hbody hzero hle h
  refine ⟨copies_zero_notMem n body val hne hbody hzero hle h, ?_⟩
  have hlen := (Token.mk body body.length).len_bounds
  unfold copied Token.adxJsonStrdup Token.copy at h
  split_ifs at h
  obtain rfl := Option.some.inj h
  refine (length_strdupLoop_le _ _).trans_lt ?_
  omega

/-- The copies of short tokens are not empty. -/
theorem copies_filled {n : ℕ} (hn : n < 2 ^ 31 - 1) : CopiesSatisfy Filled n := by
  intro body val hne hbody hzero hle h
  refine ⟨copies_printable n body val hne hbody hzero hle h, ?_⟩
  have hpos := List.length_pos_iff.mpr hne
  rw [copied_of_short (hle.trans_lt hn)] at h
  rw [← Option.some.inj h]
  exact strdupLoop_ne_nil hpos hne

/-- The tree is printed, and each parse of the text with enough fuel returns it. -/
def RoundTrips (fuel : ℕ) (t : AdxJson) : Prop :=
  ∃ text, adxJsonToBuffer fuel t = .ok text ∧ ∀ fuel', text.length < fuel' →
    ∃ pos, (adxJsonParse fuel' text).outcome = .ok t pos

section

variable {fuel fuel' : ℕ} {str : Bytes} {t : AdxJson} {pos : Cursor}

/-- The text of a tree that the parser has returned. -/
theorem print_eq {child : JsonList} (h : Shaped Printable true child) :
    print ⟨.unset, none, none, child⟩ = 123 :: ((written false child).render ++ [125]) := by
  unfold print
  rw [(printChildren_eq h).1 false]
  rfl

/-- Parsing the text of a tree. -/
theorem outcome_print {child : JsonList} (h : Shaped Filled true child)
    (hne : written false child ≠ .nil)
    (hfuel : (print ⟨.unset, none, none, child⟩).length < fuel) :
    (adxJsonParse fuel (print ⟨.unset, none, none, child⟩)).outcome =
      .ofOption ((treeOf read (written false child)).map fun child => ⟨.unset, none, none, child⟩)
        (some []) := by
  have hprintable := shaped_mono (fun v (hv : Filled v) => hv.1) h
  have hzero : 0 ∉ printChildren false child := zero_notMem_printChildren hprintable
  have hentry : (written false child).HasEntry := by
    have hgap := written_ne_gap child
    cases hw : written false child with
    | nil => exact hne hw
    | gap => exact hgap hw
    | leaf => trivial
    | node => trivial
  rw [print_eq hprintable] at hfuel ⊢
  rw [(printChildren_eq hprintable).1 false] at hzero
  simp only [List.length_cons, List.length_append] at hfuel
  refine outcome_adxJsonParse (w := []) (s := []) (all_written h) (wellKeyed_written h) hentry nofun
    ?_ (by omega)
  simpa using hzero

/-- The tree of an accepted text is the tree of its own text if and only if its text fits, and no
node, key or value is empty. -/
theorem roundTrips_iff (hfuel : 20 ≤ fuel) (hparse : (adxJsonParse fuel' str).outcome = .ok t pos) :
    RoundTrips fuel t ↔ Kept t.child ∧ Fits t := by
  obtain ⟨hroot, hne, hshaped⟩ := shaped_of_parse (copies_printable _) hparse
  obtain ⟨type, key, val, child⟩ := t
  obtain ⟨rfl, rfl, rfl⟩ : type = .unset ∧ key = none ∧ val = none := by
    injection hroot with h₁ h₂ h₃
    exact ⟨h₁, h₂, h₃⟩
  dsimp only at hne hshaped ⊢
  have hprint := fun text => @adxJsonToBuffer_eq_ok_iff fuel ⟨.unset, none, none, child⟩ text true
    (fun k hk => by cases hk) hshaped hfuel
  constructor
  · rintro ⟨text, htext, hagain⟩
    obtain ⟨rfl, hfits⟩ := (hprint text).mp htext
    refine ⟨?_, hfits⟩
    obtain ⟨pos', hout⟩ := hagain _ (Nat.lt_succ_self _)
    have hzero : 0 ∉ print ⟨.unset, none, none, child⟩ := by
      have : 0 ∉ printChildren false child := zero_notMem_printChildren hshaped
      simpa [print, printHead] using this
    -- the text is short, so that its tokens are copied whole
    have hfilled : Shaped Filled true child := by
      have hlen := hfits.1
      refine (shaped_of_parse (copies_filled ?_) hout).2.2
      rw [cstr_eq_self hzero]
      omega
    by_cases hw : written false child = .nil
    · -- nothing is written between the brackets, which the parser refuses
      rw [print_eq hshaped, hw] at hout
      have hempty := outcome_adxJsonParse_empty (s := [])
        (print ⟨.unset, none, none, child⟩).length.succ (by simp)
      rw [print_eq hshaped, hw] at hempty
      cases hout.symm.trans hempty
    · rw [outcome_print hfilled hw (Nat.lt_succ_self _)] at hout
      cases htree : treeOf read (written false child) with
      | none => rw [htree] at hout; cases hout
      | some l' =>
        rw [htree] at hout
        injection hout with hout
        injection hout with _ _ _ hsame
        -- the same number of nodes leaves none that is empty
        have hnodes := nodes_add_empties hshaped read htree
        rw [hsame] at hnodes
        exact kept_of_empties hfilled (by omega)
  · rintro ⟨hkept, hfits⟩
    refine ⟨_, (hprint _).mpr ⟨rfl, hfits⟩, fun fuel₁ hfuel₁ => ⟨some [], ?_⟩⟩
    have hfilled := filled_of_kept hshaped hkept
    have hentry : (written false child).HasEntry := hasEntry_written hshaped hkept hne
    have hlen : (written false child).render.length < 2 ^ 31 - 1 := by
      have hfit := hfits.1
      rw [print_eq hshaped] at hfit
      simp only [List.length_cons, List.length_append] at hfit
      omega
    rw [outcome_print hfilled (fun h => by rw [h] at hentry; exact hentry) hfuel₁,
      treeOf_written hfilled hkept hlen]
    rfl

end

/-- `{"a":1}` -/
theorem number_roundTrips :
    RoundTrips 20 ⟨.unset, none, none, .cons .number (some [97]) (some [49]) .nil .nil⟩ := by
  have hparse : (adxJsonParse 8 [123, 34, 97, 34, 58, 49, 125]).outcome =
      .ok ⟨.unset, none, none, .cons .number (some [97]) (some [49]) .nil .nil⟩ (some []) := by rfl
  refine (roundTrips_iff (by decide) hparse).mpr
    ⟨⟨⟨nofun, by decide, by decide⟩, trivial, trivial⟩, by decide, ?_, trivial⟩
  -- the first block has room for all of it
  have hblock : 2 ^ 11 ≤ capacity 5 := Nat.pow_le_pow_right (by decide) (le_max_left _ _)
  change 5 + 1 ≤ 2 * capacity 5
  omega

/-- `{"a":""}` is accepted; the text of its tree, `{}`, is not. -/
theorem empty_not_roundTrips :
    (adxJsonParse 9 [123, 34, 97, 34, 58, 34, 34, 125]).outcome =
      .ok ⟨.unset, none, none, .cons .empty (some [97]) none .nil .nil⟩ (some []) ∧
    adxJsonToBuffer 20 ⟨.unset, none, none, .cons .empty (some [97]) none .nil .nil⟩ =
      .ok [123, 125] ∧
    ¬RoundTrips 20 ⟨.unset, none, none, .cons .empty (some [97]) none .nil .nil⟩ := by
  have hshaped : Shaped Printable true (.cons .empty (some [97]) none .nil .nil) := by
    refine ⟨⟨rfl, ?_⟩, ⟨rfl, rfl⟩, trivial⟩
    rintro k ⟨⟩
    exact ⟨by decide, by decide⟩
  have hprint : adxJsonToBuffer 20 ⟨.unset, none, none, .cons .empty (some [97]) none .nil .nil⟩ =
      .ok [123, 125] := by
    refine (adxJsonToBuffer_eq_ok_iff ?_ hshaped (by decide)).mpr ⟨rfl, by decide, trivial, trivial⟩
    exact nofun
  refine ⟨by rfl, hprint, ?_⟩
  rintro ⟨text, htext, hagain⟩
  obtain rfl := Except.ok.inj (hprint.symm.trans htext)
  obtain ⟨pos, hout⟩ := hagain 3 (by decide)
  exact absurd (hout.symm.trans (outcome_adxJsonParse_empty 3 nofun)) nofun

end Json

end AdxDsp
