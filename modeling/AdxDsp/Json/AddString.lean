import AdxDsp.Cache.FromJson
import AdxDsp.Json.Built

/-!
# Strings that are added

`adx_json_add` (`adx_json.c`) copies keys and values with `adx_json_strdup`, which undoes escapes,
but what it is given has none.  The printer escapes backslashes, quotation marks and five control
characters.

* **The functions**: `adxJsonAdd`, `adxJsonAddString`, `adxJsonFindValueString`.
* **Copies**: `strdupString_eq_self_iff`, where the copy is the text.
* `stringAdded_iff`: when a string is found again, in the tree and in the text of the tree.
-/

namespace AdxDsp

open CText JsonText

namespace Json

open Buffer

/-! ## The functions -/

/-- `adx_json_strdup` of a whole C string; a NUL in the copy ends it. -/
def strdupString (str : Bytes) : Option Bytes := (copied str).map cstr

/-- `adx_json_create` copies a key if there is one; `none` is its `NULL`. -/
def createKey : Option Bytes → Option (Option Bytes)
  | none => some none
  | some key => (strdupString key).map some

/-- `adx_list_add`: a node without children behind the others. -/
def JsonList.add (type : JsonType) (key val : Option Bytes) : JsonList → JsonList
  | .nil => .cons type key val .nil .nil
  | .cons type' key' val' child next => .cons type' key' val' child (next.add type key val)

/-- `adx_json_add`: the tree with the new node, which stays in it where only the copy of its value
fails. -/
def adxJsonAdd (root : AdxJson) (type : JsonType) (key val : Option Bytes) :
    AdxJson × Except Failure Unit :=
  match createKey key with
  | none => (root, .error .null)
  | some key =>
    let link (val : Option Bytes) : AdxJson := { root with child := root.child.add type key val }
    match type with
    -- these are added without a value
    | .object | .array | .empty => (link none, .ok ())
    | .string | .number | .bool | .null =>
      match val with
      -- `strlen(NULL)`
      | none => (link none, .error .fault)
      | some val =>
        match strdupString val with
        | none => (link none, .error .null)
        | some val => (link (some val), .ok ())
    | .unset => (link none, .error .null)

/-- `adx_json_add_string` -/
def adxJsonAddString (root : AdxJson) (key : Option Bytes) (val : Bytes) :
    AdxJson × Except Failure Unit :=
  adxJsonAdd root .string key (some val)

/-- `adx_json_find_value_string` -/
def adxJsonFindValueString (root : AdxJson) (key : Bytes) : Option Bytes :=
  (adxJsonFind root key).bind fun json => if json.type = .string then json.val else none

/-! ## What a string should become -/

/-- The text is an object of RFC 8259, and the string is its only value with this name. -/
def HasString (text key val : Bytes) : Prop :=
  ∃ (before after : List Blank) (t : Text (List Piece) Number (List Blank)),
    (t.WellKeyed true ∧ t.All ⟨fun _ => True, fun _ => True, fun _ => True, fun _ => True, False⟩) ∧
    renderBlanks before ++ 123 :: ((t.map renderPieces Number.render renderBlanks).render ++
      125 :: renderBlanks after) = text ∧
    t.valuesAt textOf key = [some val]

/-- The string is added, it is found in the tree, and it is found in the text of the tree. -/
def StringAdded (fuel : ℕ) (root : AdxJson) (key val : Bytes) : Prop :=
  (adxJsonAddString root (some key) val).2 = .ok () ∧
  adxJsonFindValueString (adxJsonAddString root (some key) val).1 key = some val ∧
  ∃ text, adxJsonToBuffer fuel (adxJsonAddString root (some key) val).1 = .ok text ∧
    HasString text key val

/-- The tree with the string as it is. -/
def withString (root : AdxJson) (key val : Bytes) : AdxJson :=
  { root with child := root.child.add .string (some key) (some val) }

/-! ## Copies -/

section

variable {v w : Bytes}

/-- A byte in front makes a C string at most one byte longer. -/
theorem length_cstr_cons_le (c : UInt8) (v : Bytes) :
    (cstr (c :: v)).length ≤ (cstr v).length + 1 := by
  by_cases hc : c = 0
  · subst hc
    exact Nat.zero_le _
  · exact (congrArg List.length (List.takeWhile_cons_of_pos (by simpa using hc))).le

/-- Where there is a backslash, the copy is shorter. -/
theorem length_cstr_strdupLoop (v : Bytes) :
    (cstr (strdupLoop v.length v)).length + (if 92 ∈ v then 1 else 0) ≤ v.length := by
  have hone : ∀ w : Bytes, (if 92 ∈ w then 1 else 0) ≤ 1 := by
    intro w
    split_ifs <;> decide
  -- two bytes at a time, as a backslash takes the next byte with it
  induction v using List.twoStepInduction with
  | nil => simp
  | singleton c =>
    by_cases hc : c = 92
    · subst hc
      decide
    · have hle := length_cstr_le (strdupLoop 1 [c])
      have hlen := length_strdupLoop_le 1 [c]
      simp only [List.mem_singleton, Ne.symm hc, if_false, List.length_singleton]
      omega
  | cons_cons c d v ih ih' =>
    by_cases hc : c = 92
    · -- two bytes become one
      subst hc
      have hcons := length_cstr_cons_le (unescapeByte d) (strdupLoop v.length v)
      have hif := hone (92 :: d :: v)
      change (cstr (unescapeByte d :: strdupLoop v.length v)).length + _ ≤ v.length + 2
      omega
    · have hcons := length_cstr_cons_le c (strdupLoop (d :: v).length (d :: v))
      have htail := ih' d
      have hmem : 92 ∈ c :: d :: v ↔ 92 ∈ d :: v := by simp [Ne.symm hc]
      rw [List.length_cons, strdupLoop_of_ne _ _ hc, if_congr hmem rfl rfl]
      omega

/-- A short text without a backslash is copied as it is. -/
theorem strdupString_eq_self (hzero : 0 ∉ v) (hbackslash : 92 ∉ v) (hshort : Short v) :
    strdupString v = some v := by
  rw [strdupString, copied_of_short hshort, strdupLoop_of_notMem hbackslash, Option.map_some,
    cstr_eq_self hzero]

/-- A copy that is the text is that of a short text without a backslash. -/
theorem of_strdupString_eq_self (h : strdupString v = some v) : 92 ∉ v ∧ Printable v := by
  obtain ⟨w, hw, hcstr⟩ := Option.map_eq_some_iff.mp h
  have hlen := congrArg List.length hcstr
  by_cases hshort : Short v
  · rw [copied_of_short hshort] at hw
    obtain rfl := Option.some.inj hw
    refine ⟨fun hmem => ?_, hcstr ▸ zero_notMem_cstr _, ?_⟩
    · have hle := length_cstr_strdupLoop v
      rw [if_pos hmem] at hle
      omega
    · exact lt_trans hshort (by decide)
  · obtain ⟨n, hn, rfl⟩ := copied_of_not_short hshort hw
    have hle := length_cstr_le (strdupLoop n v)
    have hcopy := length_strdupLoop_le n v
    omega

end

/-! ## The tree with the string -/

section

variable {l : JsonList} {keyed printed comma : Bool} {key val k : Bytes}

/-- A new member is found under its name, and the old ones under theirs. -/
theorem findKey_add (type : JsonType) (v : Option Bytes) (hfresh : l.findKey key = none) :
    (l.add type (some k) v).findKey key =
      if k = key then some ⟨type, some k, v, .nil⟩ else none := by
  induction l with
  | nil => simp [JsonList.add, JsonList.findKey]
  | cons type' key' val' child next _ ih =>
    simp only [JsonList.findKey] at hfresh
    split_ifs at hfresh with hkey
    rw [JsonList.add, JsonList.findKey, if_neg hkey, ih hfresh]

/-- An added member keeps the tree one that was built. -/
theorem built_add (h : Built true l) (hkey : Printable key) (hval : Printable val) :
    Built true (l.add .string (some key) (some val)) := by
  induction l with
  | nil =>
    refine ⟨⟨rfl, ?_⟩, ⟨rfl, val, rfl, hval⟩, trivial⟩
    rintro k ⟨⟩
    exact hkey
  | cons type key' val' child next _ ih => exact ⟨h.1, h.2.1, ih h.2.2⟩

/-- Behind the string no comma is left. -/
theorem not_endsInGap_add : ¬EndsInGap printed (l.add .string (some key) (some val)) := by
  induction l generalizing printed with
  | nil => simp [JsonList.add, EndsInGap]
  | cons type key' val' child next _ ih =>
    have hne : next.add .string (some key) (some val) ≠ .nil := by
      intro hnil
      cases next <;> cases hnil
    rw [JsonList.add, EndsInGap]
    split_ifs with htype
    · rintro (⟨-, hnil⟩ | hgap)
      · exact hne hnil
      · exact ih hgap
    · exact ih

/-- A tree with an added member is JSON just if it was and both texts are clean. -/
theorem isJson_add : IsJson (l.add .string (some key) (some val)) ↔
    IsJson l ∧ Clean key ∧ Clean val := by
  induction l with
  | nil => simp [JsonList.add, IsJson, EntryIsJson]
  | cons type key' val' child next _ ih =>
    rw [JsonList.add, IsJson, ih, IsJson, and_assoc]

/-- Escaping makes no text shorter. -/
theorem length_le_escape (v : Bytes) : v.length ≤ (escape v).length := by
  induction v with
  | nil => exact le_rfl
  | cons c v ih =>
    have hpos := (length_escapeByte c).1
    change v.length + 1 ≤ (escapeByte c ++ escape v).length
    rw [List.length_append]
    omega

/-- Key and value are in the text. -/
theorem length_le_printChildren : key.length + val.length ≤
    (printChildren comma (l.add .string (some key) (some val))).length := by
  induction l generalizing comma with
  | nil =>
    have hkey := length_le_escape key
    have hval := length_le_escape val
    simp only [JsonList.add, printChildren, printEntry, printHead, Option.elim_some,
      Option.getD_some, List.length_append, List.length_cons]
    omega
  | cons type key' val' child next _ ih =>
    have hnext := @ih (type ≠ .empty)
    rw [JsonList.add, printChildren, List.length_append, List.length_append]
    omega

/-! ## The values in the text -/

/-- The text of a string, as `adx_json_strdup` undoes the escapes. -/
def unescaped (s : Bytes) : Option Bytes := some (strdupLoop s.length s)

/-- An escaped text reads back. -/
theorem unescaped_escape (v : Bytes) : unescaped (escape v) = some v :=
  congrArg some (strdupLoop_escape_text v)

/-- A name that was printed reads back. -/
theorem nameText_nameOf (key : Option Bytes) : Text.nameText unescaped (nameOf key) = key := by
  cases key with
  | none => rfl
  | some k => exact unescaped_escape k

/-- A gap has no member. -/
theorem valuesAt_orGap (t : Text Bytes Bytes Bytes) :
    (orGap printed t).valuesAt unescaped key = t.valuesAt unescaped key := by
  cases t with
  | nil => cases printed <;> rfl
  | gap => rfl
  | leaf => rfl
  | node => rfl

/-- A list with another name. -/
theorem valuesAt_listText {key' : Option Bytes} (hkey : key' ≠ some key)
    (child next : Text Bytes Bytes Bytes) :
    (listText keyed key' child next).valuesAt unescaped key = next.valuesAt unescaped key := by
  have hname : Text.nameText unescaped (nameOf key') ≠ some key := by rwa [nameText_nameOf]
  cases child with
  | nil => rw [listText, Text.valuesAt, if_neg hname, List.nil_append]
  | gap | leaf | node => simp only [listText, Text.valuesAt, if_neg hname, List.nil_append]

/-- The string is the only value with its name: by induction on the nodes before it. -/
theorem valuesAt_written (h : Built keyed l) (hfresh : l.findKey key = none) :
    (written printed (l.add .string (some key) (some val))).valuesAt unescaped key =
      [some val] := by
  induction l generalizing keyed printed with
  | nil =>
    change (if Text.nameText unescaped (nameOf (some key)) = some key
      then [unescaped (escape val)] else []) ++ [] = _
    rw [nameText_nameOf, if_pos rfl, unescaped_escape, List.append_nil]
  | cons type key' val' child next _ ih =>
    obtain ⟨-, hshape, hnext⟩ := h
    simp only [JsonList.findKey] at hfresh
    split_ifs at hfresh with hkey
    have hrest : ∀ printed, (written printed
        (next.add .string (some key) (some val))).valuesAt unescaped key = [some val] :=
      fun printed => ih hnext hfresh
    -- a node before it has another name
    have hname : Text.nameText unescaped (nameOf key') ≠ some key := by rwa [nameText_nameOf]
    cases type with
    | unset => exact hshape.elim
    | object => exact (valuesAt_listText hkey _ _).trans (hrest true)
    | array => exact (valuesAt_listText hkey _ _).trans (hrest true)
    | empty => exact (valuesAt_orGap _).trans (hrest printed)
    | string | number | bool | null =>
      simp only [JsonList.add, written, Text.valuesAt, if_neg hname, List.nil_append, hrest]

end

/-! ## When a string is found again -/

/-- A node that is printed as an object. -/
def BuiltObject (node : AdxJson) : Prop :=
  (∀ k ∈ node.key, Printable k) ∧ Built true node.child

section

variable {fuel : ℕ} {root : AdxJson} {key val text : Bytes}

/-- What becomes of the two copies. -/
theorem adxJsonAddString_def : adxJsonAddString root (some key) val =
    match strdupString key, strdupString val with
      | none, _ => (root, .error .null)
      | some k, none => ({ root with child := root.child.add .string (some k) none }, .error .null)
      | some k, some v => (withString root k v, .ok ()) := by
  unfold adxJsonAddString adxJsonAdd
  rw [show createKey (some key) = (strdupString key).map some from rfl]
  cases strdupString key with
  | none => rfl
  | some k =>
    dsimp only [Option.map_some]
    cases strdupString val <;> rfl

/-- The string that is found first is the new one. -/
theorem adxJsonFindValueString_withString {k v : Bytes} (hfresh : adxJsonFind root key = none) :
    adxJsonFindValueString (withString root k v) key = if k = key then some v else none := by
  unfold adxJsonFindValueString adxJsonFind withString
  rw [findKey_add _ _ hfresh]
  split_ifs <;> rfl

/-- The string is found if and only if key and value are copied as they are. -/
theorem found_iff (hfresh : adxJsonFind root key = none) :
    ((adxJsonAddString root (some key) val).2 = .ok () ∧
      adxJsonFindValueString (adxJsonAddString root (some key) val).1 key = some val) ↔
      strdupString key = some key ∧ strdupString val = some val := by
  rw [adxJsonAddString_def]
  cases strdupString key with
  | none => exact iff_of_false (fun h => nomatch h.1) (fun h => nomatch h.1)
  | some k =>
    cases strdupString val with
    | none => exact iff_of_false (fun h => nomatch h.1) (fun h => nomatch h.2)
    | some v =>
      dsimp only
      rw [adxJsonFindValueString_withString hfresh]
      by_cases hk : k = key
      · simp [hk]
      · simp [hk]

/-- A name and a value that are copied as they are. -/
theorem adxJsonAddString_eq (hkey : strdupString key = some key)
    (hval : strdupString val = some val) :
    adxJsonAddString root (some key) val = (withString root key val, .ok ()) := by
  rw [adxJsonAddString_def, hkey, hval]

/-- A text with a value under a name has an entry. -/
theorem hasEntry_of_valuesAt {σ ν ω : Type} {text : σ → Option Bytes} {t : Text σ ν ω}
    {v : Option Bytes} (h : t.valuesAt text key = [v]) : t.HasEntry := by
  cases t with
  | nil => cases h
  | gap => cases h
  | leaf => trivial
  | node => trivial

/-- The text of a root with the string. -/
theorem print_withString (hroot : root.key = none)
    (h : Built true (withString root key val).child) :
    print (withString root key val) =
      123 :: ((written false (withString root key val).child).render ++ [125]) := by
  have hkey : (withString root key val).key = none := hroot
  rw [print, hkey, printChildren_built h]
  rfl

/-- A node with a key is no text of its own. -/
theorem key_eq_none_of_hasString (h : HasString (print root) key val) : root.key = none := by
  obtain ⟨before, after, t, -, htext, -⟩ := h
  cases hroot : root.key with
  | none => rfl
  | some k =>
    rw [print, hroot] at htext
    cases before with
    | nil => exact absurd (List.cons.inj htext).1 (by decide)
    | cons b before =>
      -- a quotation mark is no blank
      have hb : b.byte = 34 := (List.cons.inj htext).1
      exact absurd hb (by cases b <;> decide)

/-- The tokens of RFC 8259 in the text are those that the printer writes. -/
theorem all_of_hasString (h : Built true (withString root key val).child)
    (hfresh : adxJsonFind root key = none) (hbuilt : Built true root.child)
    (hroot : root.key = none) (htext : HasString (print (withString root key val)) key val) :
    (written false (withString root key val).child).All
      (rfcTokens fun s => ∃ ps, renderPieces ps = s) := by
  obtain ⟨before, after, t, ⟨hkeyed, hgap⟩, htext, hvalues⟩ := htext
  rw [print_withString hroot h] at htext
  -- nothing stands before the bracket
  obtain ⟨-, htext⟩ := blanks_inj (blanks_renderBlanks before) (show ¬isBlank 123 by decide)
    htext.symm
  have hentry : (t.map renderPieces Number.render renderBlanks).HasEntry :=
    Text.hasEntry_map.mpr (hasEntry_of_valuesAt hvalues)
  have hentry' : (written false (withString root key val).child).HasEntry :=
    hasEntry_of_valuesAt (valuesAt_written hbuilt hfresh)
  have hcomplete : (t.map renderPieces Number.render renderBlanks).All complete := by
    apply Text.all_map.mpr
    refine hgap.mono ?_ ?_ ?_ ?_ id
    · exact fun s _ => isBody_renderPieces s
    · exact fun s _ => isBody_renderPieces s
    · exact fun n _ => numberText_render n
    · exact fun b _ => blanks_renderBlanks b
  -- the printer leaves no blanks, so that these are its tokens
  obtain ⟨hsame, -⟩ := render_inj (compact_written h) hcomplete (wellKeyed_built h)
    (Text.wellKeyed_map.mpr hkeyed)
    (by rw [comma_eq hentry, comma_eq hentry']; exact congrArg (44 :: ·) (List.cons.inj htext).2)
  rw [hsame]
  apply Text.all_map.mpr
  exact hgap.mono (fun s _ => ⟨s, rfl⟩) (fun s _ => ⟨s, rfl⟩) (fun n _ => ⟨n, rfl⟩)
    (fun b _ => ⟨b, rfl⟩) id

/-- Where all tokens are those of RFC 8259, the string is found. -/
theorem hasString_print (h : Built true (withString root key val).child)
    (hfresh : adxJsonFind root key = none) (hbuilt : Built true root.child)
    (hroot : root.key = none) (hjson : IsJson (withString root key val).child) :
    HasString (print (withString root key val)) key val := by
  -- the tokens that are written are those of the RFC
  have hall : (written false (withString root key val).child).All
      (rfcTokens fun s => ∃ ps, textOf ps = unescaped s ∧ renderPieces ps = s) := by
    refine (all_written_iff (fun v => ?_) h).mpr ⟨hjson, not_endsInGap_add⟩
    rw [unescaped_escape]
    exact ⟨fun ⟨_, _, hrender⟩ => clean_of_render hrender, exists_pieces⟩
  -- so that the whole text is one of pieces, as the RFC reads it
  have hmap : ∃ t : Text (List Piece) Number (List Blank),
      t.map renderPieces Number.render renderBlanks =
        written false (withString root key val).child ∧
      t.All ⟨fun s => textOf s = unescaped (renderPieces s),
        fun s => textOf s = unescaped (renderPieces s), fun _ => True, fun _ => True, False⟩ := by
    refine Text.exists_map (hall.mono ?_ ?_ ?_ ?_ id)
    · rintro s ⟨ps, htext, rfl⟩
      exact ⟨ps, htext, rfl⟩
    · rintro s ⟨ps, htext, rfl⟩
      exact ⟨ps, htext, rfl⟩
    · rintro n ⟨m, rfl⟩
      exact ⟨m, trivial, rfl⟩
    · rintro b ⟨c, rfl⟩
      exact ⟨c, trivial, rfl⟩
  obtain ⟨t, ht, htokens⟩ := hmap
  refine ⟨[], [], t, ⟨?_, htokens.mono ?_ ?_ ?_ ?_ id⟩, ?_, ?_⟩
  · rw [← Text.wellKeyed_map, ht]
    exact wellKeyed_built h
  · exact fun _ _ => trivial
  · exact fun _ _ => trivial
  · exact fun _ _ => trivial
  · exact fun _ _ => trivial
  · rw [ht, print_withString hroot h]
    rfl
  -- the value is looked for by the names as they are read
  · calc t.valuesAt textOf key
        = t.valuesAt (unescaped ∘ renderPieces) key := Text.valuesAt_congr key htokens
      _ = (t.map renderPieces Number.render renderBlanks).valuesAt unescaped key :=
          (Text.valuesAt_map unescaped key t).symm
      _ = [some val] := by rw [ht]; exact valuesAt_written hbuilt hfresh

/-- The tree with the string is printed as any tree. -/
theorem adxJsonToBuffer_withString_iff (hbuilt : BuiltObject root)
    (h : Built true (withString root key val).child) (hfuel : 20 ≤ fuel) :
    adxJsonToBuffer fuel (withString root key val) = .ok text ↔
      text = print (withString root key val) ∧ Fits (withString root key val) := by
  have hkey : ∀ k ∈ (withString root key val).key, Printable k := hbuilt.1
  exact adxJsonToBuffer_built_iff hkey h hfuel

/-- What a string has that is found again in the tree and in its text. -/
theorem of_stringAdded (hbuilt : BuiltObject root) (hfresh : adxJsonFind root key = none)
    (hfuel : 20 ≤ fuel) (h : StringAdded fuel root key val) :
    (92 ∉ key ∧ Clean key) ∧ (92 ∉ val ∧ Clean val) ∧
      (root.key = none ∧ IsJson root.child) ∧ Fits (withString root key val) := by
  obtain ⟨hok, hfind, text, htext, hhas⟩ := h
  -- what is found in the tree tells that both copies are whole
  obtain ⟨hk, hv⟩ := (found_iff hfresh).mp ⟨hok, hfind⟩
  obtain ⟨hkback, hkprint⟩ := of_strdupString_eq_self hk
  obtain ⟨hvback, hvprint⟩ := of_strdupString_eq_self hv
  have hadded : Built true (withString root key val).child := built_add hbuilt.2 hkprint hvprint
  rw [adxJsonAddString_eq hk hv] at htext
  obtain ⟨rfl, hfits⟩ := (adxJsonToBuffer_withString_iff hbuilt hadded hfuel).mp htext
  -- what is found in the text tells that its tokens are those of RFC 8259
  have hroot := key_eq_none_of_hasString hhas
  have hall := all_of_hasString hadded hfresh hbuilt.2 hroot hhas
  obtain ⟨hjson, -⟩ := (all_written_iff (fun v => ⟨fun ⟨_, h⟩ => clean_of_render h, fun h =>
    (exists_pieces h).imp fun _ => And.right⟩) hadded).mp hall
  obtain ⟨hrest, hkclean, hvclean⟩ := isJson_add.mp hjson
  exact ⟨⟨hkback, hkclean⟩, ⟨hvback, hvclean⟩, ⟨hroot, hrest⟩, hfits⟩

/-- A string is found again in the tree and in its text if and only if neither its key nor it has a
backslash or a byte that the printer cannot escape, the rest of the tree can be written as JSON, and
the text fits. -/
theorem stringAdded_iff (hbuilt : BuiltObject root) (hfresh : adxJsonFind root key = none)
    (hkey : 0 ∉ key) (hval : 0 ∉ val) (hfuel : 20 ≤ fuel) :
    StringAdded fuel root key val ↔
      (92 ∉ key ∧ Clean key) ∧ (92 ∉ val ∧ Clean val) ∧
        (root.key = none ∧ IsJson root.child) ∧ Fits (withString root key val) := by
  refine ⟨of_stringAdded hbuilt hfresh hfuel, ?_⟩
  rintro ⟨⟨hkback, hkclean⟩, ⟨hvback, hvclean⟩, ⟨hroot, hrest⟩, hfits⟩
  -- the text is short, so that key and value are copied whole
  have hlen : key.length + val.length + 1 < 2 ^ 30 := by
    have hle := @length_le_printChildren root.child false key val
    have hfit := hfits.1
    simp only [print, List.length_append] at hfit
    change _ + ((printChildren false (root.child.add .string (some key) (some val))).length + _) +
      1 < _ at hfit
    omega
  have hk := strdupString_eq_self hkey hkback (show _ < _ by omega)
  have hv := strdupString_eq_self hval hvback (show _ < _ by omega)
  have hadded : Built true (withString root key val).child :=
    built_add hbuilt.2 (of_strdupString_eq_self hk).2 (of_strdupString_eq_self hv).2
  obtain ⟨hok, hfind⟩ := (found_iff hfresh).mpr ⟨hk, hv⟩
  refine ⟨hok, hfind, _, ?_, hasString_print hadded hfresh hbuilt.2 hroot
    (isJson_add.mpr ⟨hrest, hkclean, hvclean⟩)⟩
  rw [adxJsonAddString_eq hk hv]
  exact (adxJsonToBuffer_withString_iff hbuilt hadded hfuel).mpr ⟨rfl, hfits⟩

end

/-- `{"b":"c"}`, and a string with a quotation mark and a line feed. -/
theorem quoted_stringAdded :
    StringAdded 20 ⟨.unset, none, none, .cons .string (some [98]) (some [99]) .nil .nil⟩ [97]
      [34, 10] := by
  have hprintable : ∀ c : UInt8, c ≠ 0 → Printable [c] := fun c hc =>
    ⟨by simpa using hc.symm, by simp⟩
  have hbuilt : BuiltObject
      ⟨.unset, none, none, .cons .string (some [98]) (some [99]) .nil .nil⟩ := by
    refine ⟨nofun, ⟨rfl, ?_⟩, ⟨rfl, [99], rfl, hprintable 99 (by decide)⟩, trivial⟩
    rintro k ⟨⟩
    exact hprintable 98 (by decide)
  have hletter : ∀ c : UInt8, 32 ≤ c ∧ c < 128 → Clean [c] := fun c hc =>
    clean_of_ascii fun d hd => List.mem_singleton.mp hd ▸ hc
  refine (stringAdded_iff hbuilt rfl (by decide) (by decide) le_rfl).mpr
    ⟨⟨by decide, hletter 97 (by decide)⟩, ⟨by decide, ?_, by simp⟩, ⟨rfl, ?_, trivial⟩,
      by decide, ⟨trivial, trivial, trivial⟩⟩
  · exact ⟨[Char.ofNat 34, Char.ofNat 10], by decide⟩
  · refine .inr ⟨?_, ?_⟩
    · rintro k ⟨⟩
      exact hletter 98 (by decide)
    · rintro v ⟨⟩
      exact hletter 99 (by decide)

/-- A backslash before a `b` becomes a backspace, and the control character 1 stands in the text. -/
theorem backslash_not_stringAdded :
    adxJsonFindValueString (adxJsonAddString ⟨.unset, none, none, .nil⟩ (some [97]) [92, 98]).1
      [97] = some [8] ∧
    ¬StringAdded 20 ⟨.unset, none, none, .nil⟩ [97] [92, 98] ∧
    ¬StringAdded 20 ⟨.unset, none, none, .nil⟩ [97] [1] := by
  have hbuilt : BuiltObject ⟨.unset, none, none, .nil⟩ := ⟨nofun, trivial⟩
  refine ⟨by rfl, fun h => ?_, fun h => ?_⟩
  · obtain ⟨-, ⟨hbackslash, -⟩, -⟩ := of_stringAdded hbuilt rfl le_rfl h
    exact hbackslash (by decide)
  · obtain ⟨-, ⟨-, -, hbytes⟩, -⟩ := of_stringAdded hbuilt rfl le_rfl h
    exact absurd (hbytes 1 (by decide)) (by decide)

end Json

end AdxDsp
