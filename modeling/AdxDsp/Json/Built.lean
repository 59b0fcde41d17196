import AdxDsp.Json.RoundTrip
import AdxDsp.Json.Unambiguous

/-!
# The text of trees that are built

Trees that are built, where objects and arrays may be empty, and when their text is one of RFC 8259.
The printer knows five escapes for control characters, and writes all other bytes as they are.

* **Trees**: `Built`, with `fill`; `adxJsonToBuffer_built_iff`.
* **Strings**: `Clean`, a text that is a string of RFC 8259 behind the escapes of the printer.
* `all_written_iff`: when all tokens of the text are those of RFC 8259.
-/

namespace AdxDsp

open CText JsonText

namespace Json

open Buffer

/-! ## Trees -/

/-- The members of an object, or the elements of an array, as the functions `adx_json_add_*` or the
parser make them; the doubles are finite, and no number has been copied as an empty text. -/
def Built : Bool → JsonList → Prop
  | _, .nil => True
  | keyed, .cons type key val child next =>
    (key.isSome = keyed ∧ ∀ k ∈ key, Printable k) ∧
      (match type with
        | .object => val = none ∧ Built true child
        | .array => val = none ∧ Built false child
        | .number => child = .nil ∧ ∃ v, val = some v ∧ Printable v ∧ NumberText v
        | type => NodeShape Printable type val child False False) ∧ Built keyed next

/-- A list with one empty node, of which nothing is written. -/
def emptyChild (keyed : Bool) : JsonList :=
  .cons .empty (if keyed then some [] else none) none .nil .nil

/-- The child of a list without entries: an empty one. -/
def fillChild (type : JsonType) (child : JsonList) : JsonList :=
  if (type = .object ∨ type = .array) ∧ child = .nil then emptyChild (type = .object) else child

/-- Objects and arrays without children get an empty one, as the parser would leave it. -/
def fill : JsonList → JsonList
  | .nil => .nil
  | .cons type key val child next => .cons type key val (fillChild type (fill child)) (fill next)

section

variable {keyed printed comma : Bool} {key : Option Bytes} {l child : JsonList} {type : JsonType}
  {fuel n : ℕ} {node : AdxJson} {text : Bytes}

/-- What is the same for a list and the filled one is the same for the filled child. -/
theorem apply_fillChild {α : Type} (F : JsonList → α) (hfill : F (fill child) = F child)
    (hempty : ∀ keyed, F (emptyChild keyed) = F .nil) :
    F (fillChild type (fill child)) = F child := by
  unfold fillChild
  split_ifs with h
  · rw [hempty, ← h.2, hfill]
  · exact hfill

/-- The printer does not see the empty children. -/
theorem fromChildren_fill : fromChildren fuel comma (fill l) = fromChildren fuel comma l := by
  induction l generalizing comma with
  | nil => rfl
  | cons type key val child next ihc ih =>
    have hchild : fromChildren fuel false (fillChild type (fill child)) =
        fromChildren fuel false child :=
      apply_fillChild (fromChildren fuel false) ihc fun _ => rfl
    funext b
    rw [fill, fromChildren, hchild, ih]
    rfl

/-- The printed text does not have the empty children. -/
theorem printChildren_fill : printChildren comma (fill l) = printChildren comma l := by
  induction l generalizing comma with
  | nil => rfl
  | cons type key val child next ihc ih =>
    have hchild : printChildren false (fillChild type (fill child)) = printChildren false child :=
      apply_fillChild (printChildren false) ihc fun _ => rfl
    rw [fill, printChildren, hchild, ih, printChildren]

/-- The empty children need no room. -/
theorem othersFit_fill : OthersFit n comma (fill l) = OthersFit n comma l := by
  induction l generalizing n comma with
  | nil => rfl
  | cons type key val child next ihc ih =>
    have hchild : ∀ n, OthersFit n false (fillChild type (fill child)) =
        OthersFit n false child := by
      intro n
      refine apply_fillChild (OthersFit n false) ihc fun _ => ?_
      exact propext (iff_of_true ⟨trivial, trivial⟩ trivial)
    -- what follows starts at a place that the text of the child decides
    have hprint : printChildren false (fillChild type (fill child)) = printChildren false child :=
      apply_fillChild (printChildren false) printChildren_fill fun _ => rfl
    simp only [fill, OthersFit, hchild, hprint, ih]

/-- The text that is written has no empty children. -/
theorem written_fill : written printed (fill l) = written printed l := by
  induction l generalizing printed with
  | nil => rfl
  | cons type key val child next ihc ih =>
    have hchild : written false (fillChild type (fill child)) = written false child :=
      apply_fillChild (written false) ihc fun _ => rfl
    cases type <;> simp only [fill, written, hchild, ih]

/-- The empty child has the shape of a parsed one. -/
theorem shaped_emptyChild (keyed : Bool) : Shaped Printable keyed (emptyChild keyed) := by
  refine ⟨⟨by cases keyed <;> rfl, fun k hk => ?_⟩, ⟨rfl, rfl⟩, trivial⟩
  cases keyed with
  | true =>
    obtain rfl := Option.some.inj hk
    exact ⟨nofun, by decide⟩
  | false => cases hk

/-- A filled child is a list with children. -/
theorem shaped_fillChild (hlist : type = .object ∨ type = .array)
    (h : Shaped Printable (type = .object) child) :
    fillChild type child ≠ .nil ∧ Shaped Printable (type = .object) (fillChild type child) := by
  unfold fillChild
  by_cases hnil : child = .nil
  · rw [if_pos ⟨hlist, hnil⟩]
    exact ⟨nofun, shaped_emptyChild _⟩
  · rw [if_neg fun h => hnil h.2]
    exact ⟨hnil, h⟩

/-- Filled trees are like those of the parser. -/
theorem shaped_fill (h : Built keyed l) : Shaped Printable keyed (fill l) := by
  induction l generalizing keyed with
  | nil => trivial
  | cons type key val child next ihc ih =>
    obtain ⟨hkey, hshape, hnext⟩ := h
    refine ⟨hkey, ?_, ih hnext⟩
    cases type with
    | unset => exact hshape.elim
    | object => exact ⟨hshape.1, shaped_fillChild (.inl rfl) (ihc hshape.2)⟩
    | array => exact ⟨hshape.1, shaped_fillChild (.inr rfl) (ihc hshape.2)⟩
    | empty =>
      obtain ⟨hval, rfl⟩ := hshape
      exact ⟨hval, rfl⟩
    | string =>
      obtain ⟨rfl, hval⟩ := hshape
      exact ⟨rfl, hval⟩
    | number =>
      obtain ⟨rfl, v, hval, hv, hnumber⟩ := hshape
      exact ⟨rfl, v, hval, hv, .inr hnumber⟩
    | bool =>
      obtain ⟨rfl, hval⟩ := hshape
      exact ⟨rfl, hval⟩
    | null =>
      obtain ⟨rfl, hval⟩ := hshape
      exact ⟨rfl, hval⟩

/-- The printer succeeds if and only if the text fits, also where lists are empty. -/
theorem adxJsonToBuffer_built_iff (hkey : ∀ k ∈ node.key, Printable k)
    (h : Built keyed node.child) (hfuel : 20 ≤ fuel) :
    adxJsonToBuffer fuel node = .ok text ↔ text = print node ∧ Fits node := by
  obtain ⟨type, key, val, child⟩ := node
  have hiff := @adxJsonToBuffer_eq_ok_iff fuel ⟨type, key, val, fill child⟩ text keyed hkey
    (shaped_fill h) hfuel
  unfold adxJsonToBuffer Fits print at hiff ⊢
  dsimp only at hiff ⊢
  rwa [fromChildren_fill, printChildren_fill, othersFit_fill] at hiff

/-- What is printed of a built tree is the text that it writes. -/
theorem printChildren_built (h : Built keyed l) :
    printChildren false l = (written printed l).render := by
  have heq := (printChildren_eq (shaped_fill h)).1 printed
  rwa [printChildren_fill, written_fill] at heq

/-- A built tree has names just in its objects. -/
theorem wellKeyed_built (h : Built keyed l) : (written printed l).WellKeyed keyed := by
  have hkeyed := @wellKeyed_written keyed printed _ _ (shaped_fill h)
  rwa [written_fill] at hkeyed

end

/-! ## Strings -/

section

variable {v w : Bytes} {c : Char} {cs : List Char} {ps : List Piece}

/-- The bytes are UTF-8, and the printer escapes all their control characters. -/
def Clean (v : Bytes) : Prop :=
  (∃ cs, utf8 cs = v) ∧ ∀ c ∈ v, 32 ≤ c ∨ c ∈ [8, 9, 10, 12, 13]

/-- The empty text is clean. -/
theorem clean_nil : Clean [] := ⟨⟨[], rfl⟩, nofun⟩

/-- Two clean texts in a row are clean. -/
theorem Clean.append (hv : Clean v) (hw : Clean w) : Clean (v ++ w) := by
  obtain ⟨⟨cs, rfl⟩, hbytes⟩ := hv
  obtain ⟨⟨cs', rfl⟩, hbytes'⟩ := hw
  refine ⟨⟨cs ++ cs', List.flatMap_append⟩, fun c hc => ?_⟩
  rcases List.mem_append.mp hc with hc | hc
  · exact hbytes c hc
  · exact hbytes' c hc

/-- Bytes of ASCII that can be seen. -/
theorem clean_of_ascii (h : ∀ c ∈ v, 32 ≤ c ∧ c < 128) : Clean v := by
  induction v with
  | nil => exact clean_nil
  | cons c v ih =>
    obtain ⟨hlo, hhi⟩ := h c List.mem_cons_self
    have hnat : (Char.ofNat c.toNat).toNat = c.toNat := by
      rw [Char.toNat_ofNat, if_pos]
      have := UInt8.lt_iff_toNat_lt.mp hhi
      left
      simp only [UInt8.reduceToNat] at this
      omega
    have hone : Clean [c] := by
      refine ⟨⟨[Char.ofNat c.toNat], ?_⟩, fun d hd => .inl (List.mem_singleton.mp hd ▸ hlo)⟩
      rw [utf8, List.flatMap_singleton, utf8EncodeChar_ascii, hnat, UInt8.ofNat_toNat]
      rw [hnat]
      exact UInt8.lt_iff_toNat_lt.mp hhi
    exact hone.append (ih fun d hd => h d (List.mem_cons_of_mem c hd))

/-- A hexadecimal digit is an ASCII character that can be seen. -/
theorem hexDigit_ascii (d : HexDigit) : 32 ≤ d.byte ∧ d.byte < 128 := by
  obtain ⟨value, upper⟩ := d
  revert value upper
  decide

/-- An escape stands for one byte, the one the code puts. -/
theorem utf8_escape (e : Escape) : String.utf8EncodeChar e.char = [unescapeByte e.byte] := by
  cases e <;> decide

/-- What is copied of a piece is clean. -/
theorem clean_copyPiece (p : Piece) : Clean (copyPiece p) := by
  cases p with
  | plain c control quote backslash =>
    refine ⟨⟨[c], List.flatMap_singleton _ _⟩, fun b hb => .inl ?_⟩
    rcases mem_utf8EncodeChar hb with hb | hb
    · rw [UInt8.le_iff_toNat_le, hb]
      exact control
    · exact UInt8.le_trans (show (32 : UInt8) ≤ 128 by decide) hb
  | escape e =>
    refine ⟨⟨[e.char], ?_⟩, ?_⟩
    · rw [utf8, List.flatMap_singleton, utf8_escape]
      rfl
    · intro b hb
      obtain rfl := List.mem_singleton.mp hb
      cases e <;> decide
  | unicode a b c d =>
    -- the copy has the letter and the digits
    refine clean_of_ascii fun x hx => ?_
    simp only [copyPiece, List.mem_cons, List.not_mem_nil, or_false] at hx
    rcases hx with rfl | rfl | rfl | rfl | rfl
    · decide
    all_goals exact hexDigit_ascii _

/-- A text whose escapes are a string of RFC 8259 is clean: undoing them gives it back. -/
theorem clean_of_render (h : renderPieces ps = escape v) : Clean v := by
  have hcopy := strdupLoop_renderPieces ps
  rw [h, strdupLoop_escape_text] at hcopy
  rw [hcopy]
  clear h hcopy
  induction ps with
  | nil => exact clean_nil
  | cons p ps ih => exact (clean_copyPiece p).append ih

/-- The bytes that the printer escapes. -/
def escaped : Bytes := [8, 12, 13, 10, 9, 92, 34, 47]

/-- Other bytes are written as they are. -/
theorem escapeByte_eq_self {b : UInt8} (h : b ∉ escaped) : escapeByte b = [b] := by
  unfold escapeByte
  split_ifs
  case neg => rfl
  all_goals
    subst b
    exact absurd (by decide) h

/-- Each byte that is escaped has its escape. -/
theorem exists_escape {b : UInt8} (h : b ∈ escaped) :
    ∃ e : Escape, e.char = Char.ofNat b.toNat := by
  simp only [escaped, List.mem_cons, List.not_mem_nil, or_false] at h
  rcases h with rfl | rfl | rfl | rfl | rfl | rfl | rfl | rfl
  · exact ⟨.backspace, rfl⟩
  · exact ⟨.formFeed, rfl⟩
  · exact ⟨.carriageReturn, rfl⟩
  · exact ⟨.lineFeed, rfl⟩
  · exact ⟨.tab, rfl⟩
  · exact ⟨.backslash, rfl⟩
  · exact ⟨.quote, rfl⟩
  · exact ⟨.slash, rfl⟩

/-- A character is escaped, or it is written as it is. -/
theorem exists_piece (h : ∀ b ∈ String.utf8EncodeChar c, 32 ≤ b ∨ b ∈ [8, 9, 10, 12, 13]) :
    ∃ p, IsPlain p ∧ p.render = escape (String.utf8EncodeChar c) ∧
      copyPiece p = String.utf8EncodeChar c := by
  by_cases hescape : ∃ b ∈ escaped, c.toNat = b.toNat
  · -- one byte, which is escaped
    obtain ⟨b, hb, hc⟩ := hescape
    obtain ⟨e, he⟩ := exists_escape hb
    obtain rfl : e.char = c := by rw [he, ← hc, Char.ofNat_toNat]
    refine ⟨.escape e, trivial, ?_, (utf8_escape e).symm⟩
    cases e <;> decide
  · have hne : ∀ b ∈ escaped, c.toNat ≠ b.toNat := fun b hb hc => hescape ⟨b, hb, hc⟩
    -- a control character is one byte, which would be escaped
    have hcontrol : 32 ≤ c.toNat := by
      by_contra hlt
      have hbyte : (UInt8.ofNat c.toNat).toNat = c.toNat := by
        rw [UInt8.toNat_ofNat']
        omega
      have hmem : UInt8.ofNat c.toNat ∈ String.utf8EncodeChar c := by
        rw [utf8EncodeChar_ascii (by omega)]
        exact List.mem_singleton_self _
      rcases h _ hmem with hle | hin
      · rw [UInt8.le_iff_toNat_le, hbyte] at hle
        exact hlt hle
      · have hsub : ∀ b ∈ ([8, 9, 10, 12, 13] : Bytes), b ∈ escaped := by simp [escaped]
        exact hne _ (hsub _ hin) hbyte.symm
    -- all other characters stay as they are
    have hbytes : ∀ b ∈ String.utf8EncodeChar c, escapeByte b = [b] := by
      refine fun b hb => escapeByte_eq_self fun hin => ?_
      rcases mem_utf8EncodeChar hb with hc | hc
      · exact hne b hin hc.symm
      · have hascii : ∀ b ∈ escaped, ¬128 ≤ b := by simp [escaped]
        exact hascii b hin hc
    refine ⟨.plain c hcontrol (hne 34 (by decide)) (hne 92 (by decide)), trivial, ?_, rfl⟩
    unfold escape
    rw [List.flatMap_congr hbytes]
    simp [Piece.render]

/-- The escapes of a clean text are a string of RFC 8259, with this text. -/
theorem exists_pieces (h : Clean v) : ∃ ps, textOf ps = some v ∧ renderPieces ps = escape v := by
  obtain ⟨⟨cs, rfl⟩, hbytes⟩ := h
  have hall : ∃ ps, (∀ p ∈ ps, IsPlain p) ∧ renderPieces ps = escape (utf8 cs) ∧
      ps.flatMap copyPiece = utf8 cs := by
    induction cs with
    | nil => exact ⟨[], nofun, rfl, rfl⟩
    | cons c cs ih =>
      obtain ⟨ps, hplain, hrender, hcopy⟩ := ih fun b hb => hbytes b (List.mem_append_right _ hb)
      obtain ⟨p, hp, hprender, hpcopy⟩ := exists_piece fun b hb =>
        hbytes b (List.mem_append_left _ hb)
      have hsplit : escape (utf8 (c :: cs)) =
          escape (String.utf8EncodeChar c) ++ escape (utf8 cs) := List.flatMap_append
      refine ⟨p :: ps, List.forall_mem_cons.mpr ⟨hp, hplain⟩, ?_, ?_⟩
      · rw [hsplit, ← hprender, ← hrender]
        rfl
      · rw [List.flatMap_cons, hpcopy, hcopy]
        rfl
  obtain ⟨ps, hplain, hrender, hcopy⟩ := hall
  exact ⟨ps, by rw [textOf_of_plain hplain, hcopy], hrender⟩

end

/-! ## Texts of RFC 8259 -/

/-- A comma is left behind, where an empty node is the last one; `printed` says whether a child was
written before. -/
def EndsInGap : Bool → JsonList → Prop
  | _, .nil => False
  | printed, .cons type _ _ _ next =>
    if type = .empty then printed = true ∧ next = .nil ∨ EndsInGap printed next
    else EndsInGap true next

/-- What is written of a node can stand in a text of RFC 8259, where its children can. -/
def EntryIsJson (type : JsonType) (key val : Option Bytes) (children : Prop) : Prop :=
  type = .empty ∨ (∀ k ∈ key, Clean k) ∧
    match type with
      | .object | .array => children
      | .string => ∀ v ∈ val, Clean v
      | .number => ∃ n : Number, val = some n.render
      | _ => True

/-- All that is written can. -/
def IsJson : JsonList → Prop
  | .nil => True
  | .cons type key val child next =>
    EntryIsJson type key val (IsJson child ∧ ¬EndsInGap false child) ∧ IsJson next

/-- Strings with a condition, numbers and blanks of RFC 8259, and no gaps. -/
def rfcTokens (Q : Bytes → Prop) : Text.Condition Bytes Bytes Bytes :=
  ⟨Q, Q, fun n => ∃ m : Number, m.render = n, fun b => ∃ c, renderBlanks c = b, False⟩

section

variable {keyed printed : Bool} {l : JsonList} {Q : Bytes → Prop}

/-- Only the empty tree writes nothing behind a child. -/
theorem written_true_eq_nil (h : Built keyed l) : written true l = .nil ↔ l = .nil := by
  cases l with
  | nil => exact iff_of_true rfl rfl
  | cons type key val child next =>
    refine iff_of_false ?_ nofun
    have hlist : ∀ keyed',
        listText keyed' key (written false child) (written true next) ≠ .nil := by
      intro keyed'
      cases written false child <;> exact nofun
    cases type with
    | unset => exact h.2.1.elim
    | object => exact hlist true
    | array => exact hlist false
    | empty =>
      change orGap true (written true next) ≠ .nil
      cases written true next <;> exact nofun
    | string | number | bool | null => exact nofun

/-- The tokens of the text have no blanks between them. -/
theorem compact_written (h : Built keyed l) : (written printed l).All compact := by
  have hblanks : compact.blanks [] := rfl
  have hname : ∀ key, compact.OnName (nameOf key) := fun key =>
    (onName_nameOf hblanks).mpr fun k _ => isBody_escape_text k
  induction l generalizing keyed printed with
  | nil => trivial
  | cons type key val child next ihc ih =>
    obtain ⟨-, hshape, hnext⟩ := h
    cases type with
    | unset => exact hshape.elim
    | object => exact (all_listText hblanks).mpr ⟨hname key, ihc hshape.2, ih hnext⟩
    | array => exact (all_listText hblanks).mpr ⟨hname key, ihc hshape.2, ih hnext⟩
    | empty => exact all_orGap.mpr ⟨ih hnext, fun _ _ => trivial⟩
    | string => exact ⟨hblanks, hname key, isBody_escape_text _, hblanks, ih hnext⟩
    | number =>
      obtain ⟨-, v, rfl, -, hnumber⟩ := hshape
      exact ⟨hblanks, hname key, hnumber, hblanks, ih hnext⟩
    | bool => exact ⟨hblanks, hname key, trivial, hblanks, ih hnext⟩
    | null => exact ⟨hblanks, hname key, trivial, hblanks, ih hnext⟩

/-- All tokens of the text are those of RFC 8259 if and only if what is written can stand there. -/
theorem all_written_iff (hQ : ∀ v, Q (escape v) ↔ Clean v) (h : Built keyed l) :
    (written printed l).All (rfcTokens Q) ↔ IsJson l ∧ ¬EndsInGap printed l := by
  have hblanks : (rfcTokens Q).blanks [] := ⟨[], rfl⟩
  have hname : ∀ key, (rfcTokens Q).OnName (nameOf key) ↔ ∀ k ∈ key, Clean k := by
    intro key
    rw [onName_nameOf hblanks]
    exact forall₂_congr fun k _ => hQ k
  induction l generalizing keyed printed with
  | nil => exact iff_of_true trivial ⟨trivial, id⟩
  | cons type key val child next ihc ih =>
    obtain ⟨-, hshape, hnext⟩ := h
    have hrest : ∀ printed, (written printed next).All (rfcTokens Q) ↔
        IsJson next ∧ ¬EndsInGap printed next := fun printed => ih hnext
    have hlist : ∀ keyed', Built keyed' child → ((written false child).All (rfcTokens Q) ↔
        IsJson child ∧ ¬EndsInGap false child) := fun keyed' hchild => ihc hchild
    have hleaf : ∀ (value : Scalar Bytes Bytes Bytes), (Text.leaf [] (nameOf key) value []
        (written true next)).All (rfcTokens Q) ↔ ((∀ k ∈ key, Clean k) ∧
          (rfcTokens Q).OnScalar value) ∧ IsJson next ∧ ¬EndsInGap true next := by
      intro value
      rw [← hname, ← hrest]
      exact ⟨fun ⟨_, hn, hv, _, hnext⟩ => ⟨⟨hn, hv⟩, hnext⟩,
        fun ⟨⟨hn, hv⟩, hnext⟩ => ⟨hblanks, hn, hv, hblanks, hnext⟩⟩
    cases type with
    | unset => exact hshape.elim
    | object =>
      change (listText true key (written false child) (written true next)).All _ ↔ _
      rw [all_listText hblanks, hname, hlist _ hshape.2, hrest]
      simp [IsJson, EntryIsJson, EndsInGap, and_assoc]
    | array =>
      change (listText false key (written false child) (written true next)).All _ ↔ _
      rw [all_listText hblanks, hname, hlist _ hshape.2, hrest]
      simp [IsJson, EntryIsJson, EndsInGap, and_assoc]
    | empty =>
      change (orGap printed (written printed next)).All _ ↔ _
      rw [all_orGap, hrest]
      -- the comma is left behind where nothing at all follows
      have hgap : (printed = true → written printed next = .nil → (rfcTokens Q).gap) ↔
          ¬(printed = true ∧ next = .nil) := by
        cases printed with
        | true =>
          rw [written_true_eq_nil hnext]
          simp [rfcTokens]
        | false => simp
      rw [hgap]
      simp only [IsJson, EntryIsJson, EndsInGap, true_or, true_and, if_true, not_or]
      tauto
    | string =>
      obtain ⟨-, v, rfl, -⟩ := hshape
      change (Text.leaf [] (nameOf key) (.string (escape v)) [] (written true next)).All _ ↔ _
      rw [hleaf]
      simp [IsJson, EntryIsJson, EndsInGap, and_assoc, Text.Condition.OnScalar, rfcTokens, hQ]
    | number =>
      obtain ⟨-, v, rfl, -⟩ := hshape
      change (Text.leaf [] (nameOf key) (.number v) [] (written true next)).All _ ↔ _
      rw [hleaf]
      simp [IsJson, EntryIsJson, EndsInGap, and_assoc, Text.Condition.OnScalar, rfcTokens, eq_comm]
    | bool =>
      change (Text.leaf [] (nameOf key) (.literal _) [] (written true next)).All _ ↔ _
      rw [hleaf]
      simp [IsJson, EntryIsJson, EndsInGap, and_assoc, Text.Condition.OnScalar]
    | null =>
      change (Text.leaf [] (nameOf key) (.literal _) [] (written true next)).All _ ↔ _
      rw [hleaf]
      simp [IsJson, EntryIsJson, EndsInGap, and_assoc, Text.Condition.OnScalar]

end

end Json

end AdxDsp
