import AdxDsp.Lib.Bytes

/-!
# JSON texts

Objects and arrays as they stand in a text, with all their blanks, over any kind of tokens; and the
texts of RFC 8259.

* **Texts**: `Text`, with `Text.render`; `Text.All`, a condition on each token; `Text.map`.
* **Tokens of RFC 8259**: `Piece` of a string, `Number`; `decode`, the characters of a string.
* `Document`: an object with members.
-/

namespace JsonText

open CText

/-! ## Texts -/

/-- A literal name. -/
inductive Literal where
  | true
  | false
  | null
  deriving DecidableEq

/-- The word of a literal. -/
def Literal.render : Literal → Bytes
  | .true => bytes "true"
  | .false => bytes "false"
  | .null => bytes "null"

/-- A value without entries: `σ` are strings, `ν` numbers, `ω` blanks.  `keyed` are objects. -/
inductive Scalar (σ ν ω : Type) where
  | string (s : σ)
  | number (n : ν)
  | literal (l : Literal)
  | emptyList (keyed : Bool) (blanks : ω)

/-- The name of a member, with the blanks before and after its colon. -/
structure Name (σ ω : Type) where
  name : σ
  before : ω
  after : ω

/-- The members of an object, which have names, or the elements of an array.  A `node` is an object
or an array that has entries; a `gap` is what follows a comma behind which nothing stands. -/
inductive Text (σ ν ω : Type) where
  | nil
  | gap
  | leaf (before : ω) (name : Option (Name σ ω)) (value : Scalar σ ν ω) (after : ω)
      (next : Text σ ν ω)
  | node (before : ω) (name : Option (Name σ ω)) (keyed : Bool) (child : Text σ ν ω) (after : ω)
      (next : Text σ ν ω)

/-- What opens a list: a brace for members with names, a bracket for elements. -/
def openBracket (keyed : Bool) : UInt8 := if keyed then 123 else 91

/-- What closes the list. -/
def closeBracket (keyed : Bool) : UInt8 := if keyed then 125 else 93

/-- The text of a value without entries. -/
def Scalar.render : Scalar Bytes Bytes Bytes → Bytes
  | .string s => 34 :: (s ++ [34])
  | .number n => n
  | .literal l => l.render
  | .emptyList keyed blanks => openBracket keyed :: (blanks ++ [closeBracket keyed])

/-- A name in quotation marks with the colon and the white space around it. -/
def Name.render (name : Name Bytes Bytes) : Bytes :=
  34 :: (name.name ++ 34 :: (name.before ++ 58 :: name.after))

namespace Text

variable {σ ν ω σ' ν' ω' : Type}

/-- There is an entry. -/
def HasEntry : Text σ ν ω → Prop
  | .nil => False
  | .gap => False
  | .leaf .. => True
  | .node .. => True

/-- The comma before what follows an entry. -/
def comma : Text σ ν ω → Bytes
  | .nil => []
  | .gap => [44]
  | .leaf .. => [44]
  | .node .. => [44]

/-- The text of the entries of a list, with the commas between them. -/
def render : Text Bytes Bytes Bytes → Bytes
  | .nil => []
  | .gap => []
  | .leaf before name value after next =>
    before ++ (name.elim [] Name.render ++ (value.render ++ (after ++ (next.comma ++ next.render))))
  | .node before name keyed child after next =>
    before ++ (name.elim [] Name.render ++ (openBracket keyed :: (child.render ++
      closeBracket keyed :: (after ++ (next.comma ++ next.render)))))

/-- Members have names, elements have none, and each node has an entry. -/
def WellKeyed : Bool → Text σ ν ω → Prop
  | _, .nil => True
  | _, .gap => True
  | keyed, .leaf _ name _ _ next => name.isSome = keyed ∧ next.WellKeyed keyed
  | keyed, .node _ name keyed' child _ next =>
    name.isSome = keyed ∧ child.HasEntry ∧ child.WellKeyed keyed' ∧ next.WellKeyed keyed

/-- A condition on names, strings, numbers and blanks, and whether there may be gaps. -/
structure Condition (σ ν ω : Type) where
  name : σ → Prop
  string : σ → Prop
  number : ν → Prop
  blanks : ω → Prop
  gap : Prop

variable (p q : Condition σ ν ω)

/-- The condition on a name and on the white space around its colon. -/
def Condition.OnName (name : Option (Name σ ω)) : Prop :=
  ∀ n ∈ name, p.name n.name ∧ p.blanks n.before ∧ p.blanks n.after

/-- The condition on a value without entries. -/
def Condition.OnScalar : Scalar σ ν ω → Prop
  | .string s => p.string s
  | .number n => p.number n
  | .literal _ => True
  | .emptyList _ blanks => p.blanks blanks

/-- All tokens of the text satisfy the condition. -/
def All : Text σ ν ω → Prop
  | .nil => True
  | .gap => p.gap
  | .leaf before name value after next =>
    p.blanks before ∧ p.OnName name ∧ p.OnScalar value ∧ p.blanks after ∧ next.All
  | .node before name _ child after next =>
    p.blanks before ∧ p.OnName name ∧ child.All ∧ p.blanks after ∧ next.All

/-- Weaker conditions hold as well. -/
theorem All.mono {p q : Condition σ ν ω} {t : Text σ ν ω} (h : t.All p)
    (hname : ∀ s, p.name s → q.name s) (hstring : ∀ s, p.string s → q.string s)
    (hnumber : ∀ n, p.number n → q.number n) (hblanks : ∀ b, p.blanks b → q.blanks b)
    (hgap : p.gap → q.gap) : t.All q := by
  have hon : ∀ name, p.OnName name → q.OnName name := fun name h n hn =>
    ⟨hname _ (h n hn).1, hblanks _ (h n hn).2.1, hblanks _ (h n hn).2.2⟩
  induction t with
  | nil => trivial
  | gap => exact hgap h
  | leaf before name value after next ih =>
    obtain ⟨hb, hn, hv, ha, hnext⟩ := h
    refine ⟨hblanks _ hb, hon _ hn, ?_, hblanks _ ha, ih hnext⟩
    cases value with
    | string s => exact hstring s hv
    | number n => exact hnumber n hv
    | literal l => trivial
    | emptyList keyed blanks => exact hblanks _ hv
  | node before name keyed child after next ihc ih =>
    obtain ⟨hb, hn, hc, ha, hnext⟩ := h
    exact ⟨hblanks _ hb, hon _ hn, ihc hc, hblanks _ ha, ih hnext⟩

/-- Two conditions that hold hold together. -/
theorem All.and {p q : Condition σ ν ω} {t : Text σ ν ω} (hp : t.All p) (hq : t.All q) :
    t.All ⟨fun s => p.name s ∧ q.name s, fun s => p.string s ∧ q.string s,
      fun n => p.number n ∧ q.number n, fun b => p.blanks b ∧ q.blanks b, p.gap ∧ q.gap⟩ := by
  have hon : ∀ name, p.OnName name → q.OnName name → Condition.OnName ⟨fun s => p.name s ∧ q.name s,
      fun s => p.string s ∧ q.string s, fun n => p.number n ∧ q.number n,
      fun b => p.blanks b ∧ q.blanks b, p.gap ∧ q.gap⟩ name := fun name h h' n hn =>
    ⟨⟨(h n hn).1, (h' n hn).1⟩, ⟨(h n hn).2.1, (h' n hn).2.1⟩, ⟨(h n hn).2.2, (h' n hn).2.2⟩⟩
  induction t with
  | nil => trivial
  | gap => exact ⟨hp, hq⟩
  | leaf before name value after next ih =>
    obtain ⟨hb, hn, hv, ha, hnext⟩ := hp
    obtain ⟨hb', hn', hv', ha', hnext'⟩ := hq
    refine ⟨⟨hb, hb'⟩, hon _ hn hn', ?_, ⟨ha, ha'⟩, ih hnext hnext'⟩
    cases value with
    | string s => exact ⟨hv, hv'⟩
    | number n => exact ⟨hv, hv'⟩
    | literal l => trivial
    | emptyList keyed blanks => exact ⟨hv, hv'⟩
  | node before name keyed child after next ihc ih =>
    obtain ⟨hb, hn, hc, ha, hnext⟩ := hp
    obtain ⟨hb', hn', hc', ha', hnext'⟩ := hq
    exact ⟨⟨hb, hb'⟩, hon _ hn hn', ihc hc hc', ⟨ha, ha'⟩, ih hnext hnext'⟩

/-- No token has a NUL. -/
def Condition.zeroFree : Condition Bytes Bytes Bytes :=
  ⟨fun s => 0 ∉ s, fun s => 0 ∉ s, fun n => 0 ∉ n, fun b => 0 ∉ b, True⟩

/-- The text of parts without a zero byte has none. -/
theorem zero_notMem_render {t : Text Bytes Bytes Bytes} (h : t.All .zeroFree) : 0 ∉ t.render := by
  have hopen : ∀ keyed, (0 : UInt8) ≠ openBracket keyed := by decide
  have hclose : ∀ keyed, (0 : UInt8) ≠ closeBracket keyed := by decide
  have hcomma : ∀ t : Text Bytes Bytes Bytes, (0 : UInt8) ∉ t.comma := by
    intro t
    cases t <;> simp [comma]
  -- names and commas first
  have hname : ∀ name, Condition.zeroFree.OnName name →
      (0 : UInt8) ∉ name.elim [] Name.render := by
    intro name h
    cases name with
    | none => exact List.not_mem_nil
    | some n =>
      obtain ⟨hn, hb, ha⟩ := h n rfl
      simpa [Name.render] using ⟨hn, hb, ha⟩
  induction t with
  | nil => exact List.not_mem_nil
  | gap => exact List.not_mem_nil
  | leaf before name value after next ih =>
    obtain ⟨hb, hn, hv, ha, hnext⟩ := h
    have hvalue : (0 : UInt8) ∉ value.render := by
      cases value with
      | string s => simpa [Scalar.render] using show 0 ∉ s from hv
      | number n => exact hv
      | literal l => cases l <;> decide
      | emptyList keyed blanks =>
        simpa [Scalar.render, hopen, hclose] using show 0 ∉ blanks from hv
    simpa [render, hname _ hn, hvalue, hcomma, ih hnext] using ⟨hb, ha⟩
  | node before name keyed child after next ihc ih =>
    obtain ⟨hb, hn, hc, ha, hnext⟩ := h
    simpa [render, hname _ hn, hopen, hclose, ihc hc, hcomma, ih hnext] using ⟨hb, ha⟩

section

variable (f : σ → σ') (g : ν → ν') (h : ω → ω')

/-- A name in another representation. -/
def mapName (name : Option (Name σ ω)) : Option (Name σ' ω') :=
  name.map fun n => ⟨f n.name, h n.before, h n.after⟩

/-- A value without entries in another representation. -/
def mapScalar : Scalar σ ν ω → Scalar σ' ν' ω'
  | .string s => .string (f s)
  | .number n => .number (g n)
  | .literal l => .literal l
  | .emptyList keyed blanks => .emptyList keyed (h blanks)

/-- Each token is replaced. -/
def map : Text σ ν ω → Text σ' ν' ω'
  | .nil => .nil
  | .gap => .gap
  | .leaf before name value after next =>
    .leaf (h before) (mapName f h name) (mapScalar f g h value) (h after) next.map
  | .node before name keyed child after next =>
    .node (h before) (mapName f h name) keyed child.map (h after) next.map

variable {f g h}

/-- The representation does not decide whether there is an entry. -/
theorem hasEntry_map {t : Text σ ν ω} : (t.map f g h).HasEntry ↔ t.HasEntry := by
  cases t <;> rfl

/-- The representation does not decide which entries have a name. -/
theorem wellKeyed_map {t : Text σ ν ω} {keyed : Bool} :
    (t.map f g h).WellKeyed keyed ↔ t.WellKeyed keyed := by
  have hname : ∀ name, (mapName f h name).isSome = name.isSome := fun name => Option.isSome_map
  induction t generalizing keyed with
  | nil => rfl
  | gap => rfl
  | leaf before name value after next ih => simp only [map, WellKeyed, hname, ih]
  | node before name keyed' child after next ihc ih =>
    simp only [map, WellKeyed, hname, hasEntry_map, ihc, ih]

/-- A condition on the replaced tokens. -/
theorem all_map {p : Condition σ' ν' ω'} {t : Text σ ν ω} :
    (t.map f g h).All p ↔ t.All ⟨p.name ∘ f, p.string ∘ f, p.number ∘ g, p.blanks ∘ h, p.gap⟩ := by
  have hname : ∀ name, p.OnName (mapName f h name) ↔
      Condition.OnName ⟨p.name ∘ f, p.string ∘ f, p.number ∘ g, p.blanks ∘ h, p.gap⟩ name := by
    intro name
    unfold Condition.OnName mapName
    exact Option.forall_mem_map
  induction t with
  | nil => rfl
  | gap => rfl
  | leaf before name value after next ih =>
    simp only [map, All, hname, ih]
    cases value <;> rfl
  | node before name keyed child after next ihc ih => simp only [map, All, hname, ihc, ih]; rfl

/-- Tokens that are all replacements come from tokens with the condition. -/
theorem exists_map {p : Condition σ ν ω} {t : Text σ' ν' ω'}
    (ht : t.All ⟨fun s => ∃ a, p.name a ∧ f a = s, fun s => ∃ a, p.string a ∧ f a = s,
      fun n => ∃ a, p.number a ∧ g a = n, fun b => ∃ a, p.blanks a ∧ h a = b, p.gap⟩) :
    ∃ t' : Text σ ν ω, t'.map f g h = t ∧ t'.All p := by
  -- a name with the blanks around it
  have hname : ∀ name : Option (Name σ' ω'), Condition.OnName ⟨fun s => ∃ a, p.name a ∧ f a = s,
      fun s => ∃ a, p.string a ∧ f a = s, fun n => ∃ a, p.number a ∧ g a = n,
      fun b => ∃ a, p.blanks a ∧ h a = b, p.gap⟩ name →
        ∃ name', mapName f h name' = name ∧ p.OnName name' := by
    intro name hn
    cases name with
    | none => exact ⟨none, rfl, nofun⟩
    | some n =>
      obtain ⟨k, before, after⟩ := n
      obtain ⟨⟨k, hk, rfl⟩, ⟨before, hb, rfl⟩, ⟨after, ha, rfl⟩⟩ := hn _ rfl
      refine ⟨some ⟨k, before, after⟩, rfl, ?_⟩
      rintro n ⟨⟩
      exact ⟨hk, hb, ha⟩
  induction t with
  | nil => exact ⟨.nil, rfl, trivial⟩
  | gap => exact ⟨.gap, rfl, ht⟩
  | leaf before name value after next ih =>
    obtain ⟨⟨before, hb, rfl⟩, hn, hv, ⟨after, ha, rfl⟩, hnext⟩ := ht
    obtain ⟨name', rfl, hn'⟩ := hname name hn
    obtain ⟨next', rfl, hnext'⟩ := ih hnext
    -- a value by its kind
    have hvalue : ∃ value', mapScalar f g h value' = value ∧ p.OnScalar value' := by
      cases value with
      | string s =>
        obtain ⟨a, hs, rfl⟩ := hv
        exact ⟨.string a, rfl, hs⟩
      | number n =>
        obtain ⟨a, hnumber, rfl⟩ := hv
        exact ⟨.number a, rfl, hnumber⟩
      | literal l => exact ⟨.literal l, rfl, trivial⟩
      | emptyList keyed b =>
        obtain ⟨a, hblanks, rfl⟩ := hv
        exact ⟨.emptyList keyed a, rfl, hblanks⟩
    obtain ⟨value', rfl, hv'⟩ := hvalue
    exact ⟨.leaf before name' value' after next', rfl, hb, hn', hv', ha, hnext'⟩
  | node before name keyed child after next ihc ih =>
    obtain ⟨⟨before, hb, rfl⟩, hn, hc, ⟨after, ha, rfl⟩, hnext⟩ := ht
    obtain ⟨name', rfl, hn'⟩ := hname name hn
    obtain ⟨child', rfl, hc'⟩ := ihc hc
    obtain ⟨next', rfl, hnext'⟩ := ih hnext
    exact ⟨.node before name' keyed child' after next', rfl, hb, hn', hc', ha, hnext'⟩

end

/-! ### Members with a name -/

/-- The text of a string, by a reading of strings. -/
def scalarText (text : σ → Option Bytes) : Scalar σ ν ω → Option Bytes
  | .string s => text s
  | .number _ => none
  | .literal _ => none
  | .emptyList _ _ => none

/-- What a name reads as, where there is one that can be read. -/
def nameText (text : σ → Option Bytes) (name : Option (Name σ ω)) : Option Bytes :=
  name.bind fun n => text n.name

/-- The values of the members with a name, which are `none` where they are no strings. -/
def valuesAt (text : σ → Option Bytes) (key : Bytes) : Text σ ν ω → List (Option Bytes)
  | .nil => []
  | .gap => []
  | .leaf _ name value _ next =>
    (if nameText text name = some key then [scalarText text value] else []) ++
      next.valuesAt text key
  | .node _ name _ _ _ next =>
    (if nameText text name = some key then [none] else []) ++ next.valuesAt text key

/-- The values under a name, in another representation. -/
theorem valuesAt_map {f : σ → σ'} {g : ν → ν'} {h : ω → ω'} (text : σ' → Option Bytes)
    (key : Bytes) (t : Text σ ν ω) :
    (t.map f g h).valuesAt text key = t.valuesAt (text ∘ f) key := by
  have hname : ∀ name : Option (Name σ ω),
      nameText text (mapName f h name) = nameText (text ∘ f) name := by
    intro name
    cases name <;> rfl
  have hvalue : ∀ value : Scalar σ ν ω,
      scalarText text (mapScalar f g h value) = scalarText (text ∘ f) value := by
    intro value
    cases value <;> rfl
  induction t with
  | nil => rfl
  | gap => rfl
  | leaf before name value after next ih => simp only [map, valuesAt, hname, hvalue, ih]
  | node before name keyed child after next _ ih => simp only [map, valuesAt, hname, ih]

/-- Two readings of strings that agree on the text. -/
theorem valuesAt_congr {text text' : σ → Option Bytes} (key : Bytes) {t : Text σ ν ω}
    (ht : t.All ⟨fun s => text s = text' s, fun s => text s = text' s, fun _ => True,
      fun _ => True, False⟩) : t.valuesAt text key = t.valuesAt text' key := by
  have hname : ∀ name : Option (Name σ ω), Condition.OnName ⟨fun s => text s = text' s,
      fun s => text s = text' s, fun _ : ν => True, fun _ => True, False⟩ name →
        nameText text name = nameText text' name := by
    intro name hn
    cases name with
    | none => rfl
    | some n => exact (hn n rfl).1
  induction t with
  | nil => rfl
  | gap => rfl
  | leaf before name value after next ih =>
    obtain ⟨-, hn, hv, -, hnext⟩ := ht
    have hvalue : scalarText text value = scalarText text' value := by
      cases value with
      | string s => exact hv
      | number => rfl
      | literal => rfl
      | emptyList => rfl
    rw [valuesAt, valuesAt, hname name hn, hvalue, ih hnext]
  | node before name keyed child after next _ ih =>
    obtain ⟨-, hn, -, -, hnext⟩ := ht
    rw [valuesAt, valuesAt, hname name hn, ih hnext]

end Text

/-! ## Tokens -/

/-- The blanks of RFC 8259. -/
inductive Blank where
  | space
  | tab
  | lineFeed
  | carriageReturn

/-- The byte of a blank. -/
def Blank.byte : Blank → UInt8
  | .space => 32
  | .tab => 9
  | .lineFeed => 10
  | .carriageReturn => 13

/-- A hexadecimal digit, which may be an upper-case letter. -/
structure HexDigit where
  value : Fin 16
  upper : Bool

/-- The byte of a hexadecimal digit, in either case. -/
def HexDigit.byte (d : HexDigit) : UInt8 :=
  UInt8.ofNat (d.value + if d.value.val < 10 then 48 else if d.upper then 55 else 87)

/-- A byte that may follow a backslash, the `u` of a code unit apart. -/
inductive Escape where
  | quote
  | backslash
  | slash
  | backspace
  | formFeed
  | lineFeed
  | carriageReturn
  | tab

/-- The byte behind the backslash. -/
def Escape.byte : Escape → UInt8
  | .quote => 34
  | .backslash => 92
  | .slash => 47
  | .backspace => 98
  | .formFeed => 102
  | .lineFeed => 110
  | .carriageReturn => 114
  | .tab => 116

/-- The character that an escape stands for. -/
def Escape.char : Escape → Char
  | .quote => Char.ofNat 34
  | .backslash => Char.ofNat 92
  | .slash => Char.ofNat 47
  | .backspace => Char.ofNat 8
  | .formFeed => Char.ofNat 12
  | .lineFeed => Char.ofNat 10
  | .carriageReturn => Char.ofNat 13
  | .tab => Char.ofNat 9

/-- A piece of a string: a character as it is, an escape, or a code unit of UTF-16 by its digits. -/
inductive Piece where
  | plain (c : Char) (control : 32 ≤ c.toNat) (quote : c.toNat ≠ 34) (backslash : c.toNat ≠ 92)
  | escape (e : Escape)
  | unicode (a b c d : HexDigit)

/-- The characters in UTF-8. -/
def utf8 (cs : List Char) : Bytes := cs.flatMap String.utf8EncodeChar

/-- The bytes of one piece of a string. -/
def Piece.render : Piece → Bytes
  | .plain c _ _ _ => String.utf8EncodeChar c
  | .escape e => [92, e.byte]
  | .unicode a b c d => [92, 117, a.byte, b.byte, c.byte, d.byte]

/-- The bytes of a character are its number, or not ASCII. -/
theorem mem_utf8EncodeChar {c : Char} {b : UInt8} (h : b ∈ String.utf8EncodeChar c) :
    b.toNat = c.toNat ∨ 128 ≤ b := by
  unfold String.utf8EncodeChar at h
  dsimp only at h
  rw [UInt8.le_iff_toNat_le]
  split_ifs at h with h1 h2 h3
  · left
    rw [List.mem_singleton.mp h, UInt8.toNat_ofNat']
    exact Nat.mod_eq_of_lt (by omega)
  all_goals
    right
    simp only [List.mem_cons, List.not_mem_nil, or_false] at h
    rcases h with rfl | rfl | rfl | rfl <;>
      simp only [UInt8.toNat_ofNat', UInt8.reduceToNat] <;> omega

/-- An ASCII byte does not stand in the bytes of another character. -/
theorem notMem_utf8EncodeChar {c : Char} {b : UInt8} (hb : b < 128) (hc : c.toNat ≠ b.toNat) :
    b ∉ String.utf8EncodeChar c := by
  intro h
  rcases mem_utf8EncodeChar h with heq | hle
  · exact hc heq.symm
  · rw [UInt8.le_iff_toNat_le] at hle
    rw [UInt8.lt_iff_toNat_lt] at hb
    omega

/-- An ASCII character is one byte. -/
theorem utf8EncodeChar_ascii {c : Char} (h : c.toNat < 128) :
    String.utf8EncodeChar c = [UInt8.ofNat c.toNat] := by
  unfold String.utf8EncodeChar
  rw [if_pos (show c.val.toNat ≤ 127 from Nat.le_of_lt_succ h)]
  rfl

/-- The bytes of a string between its quotation marks. -/
def renderPieces (s : List Piece) : Bytes := s.flatMap Piece.render

/-- A hexadecimal digit is none of the bytes that end a string or begin an escape. -/
theorem hexDigit_byte (d : HexDigit) : d.byte ≠ 0 ∧ d.byte ≠ 34 ∧ d.byte ≠ 92 := by
  obtain ⟨value, upper⟩ := d
  revert value upper
  decide

/-- A string has no zero byte. -/
theorem zero_notMem_renderPieces (s : List Piece) : 0 ∉ renderPieces s := by
  intro h
  obtain ⟨p, -, hp⟩ := List.mem_flatMap.mp h
  cases p with
  | plain c control quote backslash =>
    refine notMem_utf8EncodeChar (by decide) ?_ hp
    change c.toNat ≠ 0
    omega
  | escape e => cases e <;> simp [Piece.render, Escape.byte] at hp
  | unicode a b c d =>
    have hd := fun d : HexDigit => (hexDigit_byte d).1.symm
    simp [Piece.render, hd] at hp

/-- The bytes of white space. -/
def renderBlanks (b : List Blank) : Bytes := b.map Blank.byte

/-- The code unit that four hexadecimal digits write. -/
def codeUnit (a b c d : HexDigit) : ℕ :=
  ((a.value * 16 + b.value) * 16 + c.value) * 16 + d.value

/-- The first code unit of a pair. -/
def IsHigh (u : ℕ) : Prop := 0xD800 ≤ u ∧ u < 0xDC00

/-- The second code unit of a pair. -/
def IsLow (u : ℕ) : Prop := 0xDC00 ≤ u ∧ u < 0xE000

instance (u : ℕ) : Decidable (IsHigh u) := inferInstanceAs (Decidable (_ ∧ _))

instance (u : ℕ) : Decidable (IsLow u) := inferInstanceAs (Decidable (_ ∧ _))

/-- The characters of a string; there are none if a code unit of a pair stands alone. -/
def decode : List Piece → Option (List Char)
  | [] => some []
  | .plain c _ _ _ :: s => (decode s).map (c :: ·)
  | .escape e :: s => (decode s).map (e.char :: ·)
  | .unicode a b c d :: s =>
    if IsHigh (codeUnit a b c d) then
      match s with
      | .unicode a' b' c' d' :: s' =>
        if IsLow (codeUnit a' b' c' d') then
          (decode s').map (Char.ofNat (0x10000 + (codeUnit a b c d - 0xD800) * 0x400 +
            (codeUnit a' b' c' d' - 0xDC00)) :: ·)
        else none
      | _ => none
    else if IsLow (codeUnit a b c d) then none
    else (decode s).map (Char.ofNat (codeUnit a b c d) :: ·)

/-- A code unit that begins no pair stands for itself, the second half of a pair apart. -/
theorem decode_of_not_high {a b c d : HexDigit} (h : ¬IsHigh (codeUnit a b c d)) (s : List Piece) :
    decode (.unicode a b c d :: s) = if IsLow (codeUnit a b c d) then none
      else (decode s).map (Char.ofNat (codeUnit a b c d) :: ·) := by
  cases s with
  | nil => simp only [decode, if_neg h]
  | cons p s => cases p <;> simp only [decode, if_neg h]

/-- The text of a string in UTF-8. -/
def textOf (s : List Piece) : Option Bytes := (decode s).map utf8

/-- The digits before the point: a zero, or digits of which the first one is not zero. -/
inductive IntegerPart where
  | zero
  | digits (first : Fin 9) (rest : List (Fin 10))

/-- At least one digit. -/
structure Digits where
  first : Fin 10
  rest : List (Fin 10)

/-- The exponent of a number, with the case of its letter. -/
structure Exponent where
  upper : Bool
  sign : Option Bool
  digits : Digits

/-- A number of RFC 8259. -/
structure Number where
  minus : Bool
  integer : IntegerPart
  fraction : Option Digits
  exponent : Option Exponent

/-- The digits of the integer part, without a leading zero. -/
def IntegerPart.render : IntegerPart → Bytes
  | .zero => [48]
  | .digits first rest => digitByte (first + 1) :: rest.map fun d => digitByte d.val

/-- At least one digit. -/
def Digits.render (d : Digits) : Bytes := digitByte d.first :: d.rest.map fun d => digitByte d.val

/-- The letter, the sign where there is one, and the digits. -/
def Exponent.render (e : Exponent) : Bytes :=
  (if e.upper then 69 else 101) :: (e.sign.elim [] (fun plus => [if plus then 43 else 45]) ++
    e.digits.render)

/-- The sign, the integer part, the fraction and the exponent. -/
def Number.render (n : Number) : Bytes :=
  (if n.minus then [45] else []) ++ (n.integer.render ++
    (n.fraction.elim [] (fun d => 46 :: d.render) ++ n.exponent.elim [] Exponent.render))

/-- Every natural number has an integer part that writes it. -/
theorem IntegerPart.exists_render_eq (n : ℕ) : ∃ i : IntegerPart, i.render = decimalNat n := by
  rw [decimalNat]
  split_ifs with hn
  · exact ⟨.zero, rfl⟩
  · -- the last of the digits is the first one that is written
    obtain ⟨ds, last, hds⟩ := (List.eq_nil_or_concat' (Nat.digits 10 n)).resolve_left
      (Nat.digits_ne_nil_iff_ne_zero.mpr hn)
    have hlt : ∀ d ∈ Nat.digits 10 n, d < 10 := fun d hd => Nat.digits_lt_base (by norm_num) hd
    have hpos := Nat.getLast_digit_ne_zero 10 hn
    simp only [hds, List.getLast_append_singleton] at hlt hpos
    rw [hds, List.reverse_append, List.reverse_singleton, List.singleton_append, List.map_cons]
    have hlast : last < 10 := hlt last (by simp)
    lift ds to List (Fin 10) using fun d hd => hlt d (List.mem_append_left _ hd)
    refine ⟨.digits ⟨last - 1, by omega⟩ ds.reverse, ?_⟩
    rw [IntegerPart.render, ← List.map_reverse, List.map_map]
    congr 2
    show last - 1 + 1 = last
    omega

/-- Each numeral is a number. -/
theorem Number.exists_render_eq (z : ℤ) : ∃ n : Number, n.render = decimal z := by
  obtain ⟨i, hi⟩ := IntegerPart.exists_render_eq z.natAbs
  refine ⟨⟨decide (z < 0), i, none, none⟩, ?_⟩
  by_cases hneg : z < 0 <;> simp [decimal, Number.render, hi, hneg]
/-! ## Documents -/

/-- A JSON text that is an object with at least one member, in which all names have characters. -/
structure Document where
  before : List Blank
  text : Text (List Piece) Number (List Blank)
  after : List Blank
  hasEntry : text.HasEntry
  wellKeyed : text.WellKeyed true
  named : text.All ⟨(· ≠ []), fun _ => True, fun _ => True, fun _ => True, False⟩

/-- The braces around the members, with the white space outside. -/
def Document.render (doc : Document) : Bytes :=
  renderBlanks doc.before ++
    123 :: ((doc.text.map renderPieces Number.render renderBlanks).render ++
    125 :: renderBlanks doc.after)

end JsonText
