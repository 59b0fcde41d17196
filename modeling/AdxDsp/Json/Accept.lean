import AdxDsp.Json.Parse
import AdxDsp.Lib.JsonText

/-!
# What the parser makes of a text

The parser run on a text that is given with its tokens as bytes (`JsonText.Text`).

* **Trees**: `treeOf`, the tree of a text under a meaning of its tokens.
* **Runs**: `outcome_parseEntries`, `outcome_adxJsonParse`: what is accepted, and as which tree.
-/

namespace AdxDsp

open CText JsonText

namespace Json

/-! ## Trees -/

/-- What names, strings and numbers stand for; a string may stand for no value. -/
structure Meaning (σ ν : Type) where
  name : σ → Option Bytes
  string : σ → Option (Option Bytes)
  number : ν → Option Bytes

namespace Meaning

variable {σ ν ω : Type} (m : Meaning σ ν)

/-- The name of a node; `none` where it cannot be read. -/
def ofName : Option (Name σ ω) → Option (Option Bytes)
  | none => some none
  | some n => (m.name n.name).map some

/-- The node of a value without entries. -/
def ofScalar : Scalar σ ν ω → Option Value
  | .string s => (m.string s).map fun
    | some val => (.string, some val, .nil)
    | none => (.empty, none, .nil)
  | .number n => (m.number n).map fun val => (.number, some val, .nil)
  | .literal .null => some (.null, some (bytes "null"), .nil)
  | .literal l => some (.bool, some l.render, .nil)
  | .emptyList _ _ => some (.empty, none, .nil)

end Meaning

/-- The tree of a text; a gap has none. -/
def treeOf {σ ν ω : Type} (m : Meaning σ ν) : Text σ ν ω → Option JsonList
  | .nil => some .nil
  | .gap => none
  | .leaf _ name value _ next =>
    (m.ofName name).bind fun key => (m.ofScalar value).bind fun (type, val, child) =>
      (treeOf m next).map fun next => .cons type key val child next
  | .node _ name keyed child _ next =>
    (m.ofName name).bind fun key => (treeOf m child).bind fun child =>
      (treeOf m next).map fun next =>
        .cons (if keyed then .object else .array) key none child next

section

variable {σ ν ω σ' ν' ω' : Type}

/-- The meanings of tokens that are replaced. -/
def Meaning.comap (m : Meaning σ' ν') (f : σ → σ') (g : ν → ν') : Meaning σ ν where
  name := m.name ∘ f
  string := m.string ∘ f
  number := m.number ∘ g

/-- The tree of a text in another representation. -/
theorem treeOf_map (m : Meaning σ' ν') (f : σ → σ') (g : ν → ν') (h : ω → ω') (t : Text σ ν ω) :
    treeOf m (t.map f g h) = treeOf (m.comap f g) t := by
  have hname : ∀ name, m.ofName (Text.mapName f h name) = (m.comap f g).ofName name := by
    intro name
    cases name <;> rfl
  have hscalar : ∀ value, m.ofScalar (Text.mapScalar f g h value) =
      (m.comap f g).ofScalar value := by
    intro value
    cases value with
    | string s => rfl
    | number n => rfl
    | literal l => cases l <;> rfl
    | emptyList keyed blanks => rfl
  induction t with
  | nil => rfl
  | gap => rfl
  | leaf before name value after next ih => simp only [Text.map, treeOf, hname, hscalar, ih]
  | node before name keyed child after next ihc ih =>
    simp only [Text.map, treeOf, hname, ihc, ih]

/-- Both meanings give the token the same value. -/
def Agree {α β : Type} (f g : α → Option β) (a : α) : Prop := ∃ b, f a = some b ∧ g a = some b

/-- Two readings of three parts agree just if they agree on each. -/
theorem agree_combine {α β γ δ : Type} {x x' : Option α} {y y' : Option β} {z z' : Option γ}
    {c : α → β → γ → δ}
    (hc : ∀ {a b d a' b' d'}, c a b d = c a' b' d' → a = a' ∧ b = b' ∧ d = d') :
    (∃ r, (x.bind fun a => y.bind fun b => z.map (c a b)) = some r ∧
      (x'.bind fun a => y'.bind fun b => z'.map (c a b)) = some r) ↔
      (∃ a, x = some a ∧ x' = some a) ∧ (∃ b, y = some b ∧ y' = some b) ∧
        ∃ d, z = some d ∧ z' = some d := by
  constructor
  · rintro ⟨r, h, h'⟩
    obtain ⟨a, ha, h⟩ := Option.bind_eq_some_iff.mp h
    obtain ⟨b, hb, h⟩ := Option.bind_eq_some_iff.mp h
    obtain ⟨d, hd, h⟩ := Option.map_eq_some_iff.mp h
    obtain ⟨a', ha', h'⟩ := Option.bind_eq_some_iff.mp h'
    obtain ⟨b', hb', h'⟩ := Option.bind_eq_some_iff.mp h'
    obtain ⟨d', hd', h'⟩ := Option.map_eq_some_iff.mp h'
    -- the two results are one node, and so are its parts
    obtain ⟨rfl, rfl, rfl⟩ := hc (h.trans h'.symm)
    exact ⟨⟨a, ha, ha'⟩, ⟨b, hb, hb'⟩, ⟨d, hd, hd'⟩⟩
  · rintro ⟨⟨a, rfl, rfl⟩, ⟨b, rfl, rfl⟩, ⟨d, rfl, rfl⟩⟩
    exact ⟨_, rfl, rfl⟩

/-- Readings agree just if they agree up to an injective map. -/
theorem agree_map {α β γ : Type} {f f' : α → Option β} {h : β → γ} (hh : Function.Injective h)
    (a : α) : Agree (fun a => (f a).map h) (fun a => (f' a).map h) a ↔ Agree f f' a := by
  constructor
  · rintro ⟨r, hr, hr'⟩
    obtain ⟨b, hb, rfl⟩ := Option.map_eq_some_iff.mp hr
    obtain ⟨b', hb', heq⟩ := Option.map_eq_some_iff.mp hr'
    exact ⟨b, hb, hh heq ▸ hb'⟩
  · rintro ⟨b, hb, hb'⟩
    exact ⟨h b, congrArg (Option.map h) hb, congrArg (Option.map h) hb'⟩

/-- Two meanings give one tree to a text if and only if they agree on all its tokens. -/
theorem agree_treeOf_iff (m m' : Meaning σ ν) (t : Text σ ν ω) :
    Agree (treeOf m) (treeOf m') t ↔ t.All ⟨Agree m.name m'.name, Agree m.string m'.string,
      Agree m.number m'.number, fun _ => True, False⟩ := by
  -- names and values first, whichever tree they are in
  have hname : ∀ name : Option (Name σ ω), Agree m.ofName m'.ofName name ↔
      Text.Condition.OnName ⟨Agree m.name m'.name, Agree m.string m'.string,
        Agree m.number m'.number, fun _ => True, False⟩ name := by
    intro name
    cases name with
    | none => exact iff_of_true ⟨none, rfl, rfl⟩ nofun
    | some n =>
      refine (agree_map (Option.some_injective _) n.name).trans ?_
      simp [Text.Condition.OnName]
  have hscalar : ∀ value : Scalar σ ν ω, Agree m.ofScalar m'.ofScalar value ↔
      Text.Condition.OnScalar ⟨Agree m.name m'.name, Agree m.string m'.string,
        Agree m.number m'.number, fun _ => True, False⟩ value := by
    intro value
    cases value with
    | string s =>
      refine agree_map (fun val val' h => ?_) s
      cases val <;> cases val' <;> simp_all
    | number n => exact agree_map (fun val val' h => by simpa using h) n
    | literal l =>
      cases l with
      | true => exact iff_of_true ⟨_, rfl, rfl⟩ trivial
      | false => exact iff_of_true ⟨_, rfl, rfl⟩ trivial
      | null => exact iff_of_true ⟨_, rfl, rfl⟩ trivial
    | emptyList keyed blanks => exact iff_of_true ⟨_, rfl, rfl⟩ trivial
  induction t with
  | nil => exact iff_of_true ⟨_, rfl, rfl⟩ trivial
  -- a gap has no tree
  | gap => exact iff_of_false (fun ⟨_, h, _⟩ => nomatch h) id
  | leaf before name value after next ih =>
    refine (agree_combine (c := fun key (value : Value) next =>
      JsonList.cons value.1 key value.2.1 value.2.2 next) ?_).trans ?_
    · intro key value next key' value' next' h
      simp only [JsonList.cons.injEq] at h
      exact ⟨h.2.1, Prod.ext h.1 (Prod.ext h.2.2.1 h.2.2.2.1), h.2.2.2.2⟩
    · refine (and_congr (hname name) (and_congr (hscalar value) ih)).trans ?_
      rw [Text.All, true_and, true_and]
  | node before name keyed child after next ihc ih =>
    refine (agree_combine (c := fun key child next =>
      JsonList.cons (if keyed then .object else .array) key none child next) ?_).trans ?_
    · intro key child next key' child' next' h
      simp only [JsonList.cons.injEq] at h
      exact ⟨h.2.1, h.2.2.2.1, h.2.2.2.2⟩
    · refine (and_congr (hname name) (and_congr ihc ih)).trans ?_
      rw [Text.All, true_and, true_and]

end

/-! ## Bytes of tokens -/

/-- The bytes between two quotation marks: none of them is a quotation mark without a backslash, and
the last one is no backslash on its own. -/
def isBody : Bytes → Bool
  | [] => true
  | c :: s =>
    if c = 92 then
      match s with
      | [] => false
      | _ :: s => isBody s
    else c ≠ 34 && isBody s

section

variable {s body : Bytes} {c : UInt8}

/-- The byte behind a backslash is passed. -/
theorem isBody_escape (e : UInt8) (s : Bytes) : isBody (92 :: e :: s) = isBody s := rfl

/-- A byte of a string, the backslash apart. -/
theorem isBody_of_ne (h : c ≠ 92) : isBody (c :: s) = (decide (c ≠ 34) && isBody s) := by
  cases s <;> simp [isBody, h]

/-- The quotation mark behind a body closes it. -/
theorem closingQuote_body (h : isBody body) (s : Bytes) :
    closingQuote (body ++ 34 :: s) = some body.length := by
  induction body using isBody.induct with
  | case1 => exact closingQuote_quote s
  | case2 => cases h
  | case3 e body ih =>
    rw [List.cons_append, List.cons_append, closingQuote_escape, ih h]
    rfl
  | case4 c body hc ih =>
    rw [isBody_of_ne hc, Bool.and_eq_true, decide_eq_true_iff] at h
    rw [List.cons_append, closingQuote_of_ne _ hc h.1, ih h.2]
    rfl

/-- A copy of at most the whole token does not reach what follows it. -/
theorem strdupLoop_append {n : ℕ} (h : isBody body) (hn : n ≤ body.length) (s : Bytes) :
    strdupLoop n (body ++ s) = strdupLoop n body := by
  induction body using isBody.induct generalizing n with
  | case1 =>
    obtain rfl : n = 0 := Nat.le_zero.mp hn
    simp
  | case2 => cases h
  | case3 e body ih =>
    cases n with
    | zero => simp
    | succ n =>
      rw [List.cons_append, List.cons_append, strdupLoop_escape, strdupLoop_escape,
        ih h (by simp only [List.length_cons] at hn; omega)]
  | case4 c body hc ih =>
    rw [isBody_of_ne hc, Bool.and_eq_true] at h
    cases n with
    | zero => simp
    | succ n =>
      rw [List.cons_append, strdupLoop_of_ne _ _ hc, strdupLoop_of_ne _ _ hc,
        ih h.2 (by simp only [List.length_cons] at hn; omega)]

/-- Without backslashes the bytes are copied as they are. -/
theorem strdupLoop_eq_take (h : 92 ∉ body) (n : ℕ) : strdupLoop n body = body.take n := by
  induction body generalizing n with
  | nil => simp
  | cons c body ih =>
    rw [List.mem_cons, not_or] at h
    cases n with
    | zero => simp
    | succ n => rw [strdupLoop_of_ne _ _ fun hc => h.1 hc.symm, ih h.2, List.take_succ_cons]

end

/-- What `adx_json_strdup` makes of a whole token. -/
def copied (body : Bytes) : Option Bytes := (Token.mk body body.length).adxJsonStrdup

/-- What is copied of a token is its body. -/
theorem strdup_eq_copied {body : Bytes} (h : isBody body) (s : Bytes) :
    (Token.mk (body ++ s) body.length).adxJsonStrdup = copied body := by
  unfold copied Token.adxJsonStrdup Token.copy Token.len
  dsimp only
  rw [strdupLoop_append h (toNat_toInt32_le body.length)]

/-- The bytes of a number. -/
def NumberText (n : Bytes) : Prop :=
  (∀ c ∈ n, isNumberByte c) ∧ ∃ c, n.head? = some c ∧ (c = 45 ∨ isDigit c)

/-- Bytes that are skipped. -/
def Blanks (w : Bytes) : Prop := ∀ c ∈ w, isBlank c ∧ c ≠ 0

/-- The tokens of texts that the parser can be run on. -/
def lexical : Text.Condition Bytes Bytes Bytes :=
  ⟨fun s => isBody s, fun s => isBody s, NumberText, Blanks, True⟩

/-- What the parser makes of tokens. -/
def read : Meaning Bytes Bytes where
  name body := if toInt32 body.length = 0 then none else copied body
  string body := if body = [] then some none else (copied body).map some
  number := copied

/-- A number has neither a quotation mark nor a backslash. -/
theorem isBody_of_isNumberByte {n : Bytes} (h : ∀ c ∈ n, isNumberByte c) : isBody n := by
  induction n with
  | nil => rfl
  | cons c n ih =>
    have hc := h c List.mem_cons_self
    have hne : c ≠ 92 ∧ c ≠ 34 := by
      constructor <;> rintro rfl <;> exact absurd hc (by decide)
    rw [isBody_of_ne hne.1, Bool.and_eq_true, decide_eq_true_iff]
    exact ⟨hne.2, ih fun d hd => h d (List.mem_cons_of_mem c hd)⟩

/-! ## Runs of the functions for tokens -/

/-- A computation that may refuse ends at a place. -/
def Outcome.ofOption {α : Type} (value : Option α) (pos : Cursor) : Outcome α :=
  value.elim .error fun value => .ok value pos

section

variable {α β : Type} {x : Scan α} {f : α → Scan β} {pos pos' : Cursor}

/-- After a scan that may fail by its value alone. -/
theorem outcome_bind_of_ofOption {value : Option α}
    (h : (x pos).outcome = .ofOption value pos') :
    ((x >>= f) pos).outcome = value.elim .error fun value => (f value pos').outcome := by
  cases value with
  | none => exact Scan.outcome_bind_of_error h
  | some value => exact Scan.outcome_bind_of_ok h

variable {s t w body : Bytes} {c : UInt8}

/-- White space in front is dropped. -/
theorem dropWhile_blanks (hw : Blanks w) (s : Bytes) :
    (w ++ s).dropWhile isBlank = s.dropWhile isBlank := by
  rw [List.dropWhile_append_of_pos fun c hc => (hw c hc).1]

/-- The white space in front of another byte is passed. -/
theorem skipSpace_blanks (hw : Blanks w) (hc : ¬isBlank c) (s : Bytes) :
    (skipSpace (some (w ++ c :: s))).outcome = .ok () (some (c :: s)) := by
  rw [outcome_skipSpace, dropWhile_blanks hw, List.dropWhile_cons_of_neg hc]

/-- The bytes of a token of which the first one is no quotation mark. -/
theorem headD_body (h : isBody body) (hne : body ≠ []) (s : Bytes) :
    (body ++ s).headD 0 ≠ 34 := by
  cases body with
  | nil => exact absurd rfl hne
  | cons c body =>
    rintro rfl
    rw [isBody_of_ne (by decide)] at h
    cases h

/-- A body that is not empty, between its quotation marks. -/
theorem outcome_parseString_body (h : isBody body) (hne : body ≠ []) (s : Bytes) :
    (parseString (some (34 :: (body ++ 34 :: s)))).outcome =
      .ok (some ⟨body ++ 34 :: s, body.length⟩) (some s) := by
  rw [outcome_parseString (headD_body h hne _) (closingQuote_body h s) (by simp)]
  simp [List.drop_append]

/-- A name is read as its copy. -/
theorem outcome_parseKey (h : isBody body) (s : Bytes) :
    (parseKey (some (34 :: (body ++ 34 :: s)))).outcome = .ofOption (read.name body) (some s) := by
  unfold parseKey
  by_cases hne : body = []
  · -- two quotation marks in a row are no token, and the key is refused
    subst hne
    exact Scan.outcome_bind_of_ok (outcome_parseString_empty s)
  · rw [Scan.outcome_bind_of_ok (outcome_parseString_body h hne s)]
    unfold read Token.len
    dsimp only
    split_ifs
    · rfl
    · unfold Scan.strdup
      rw [strdup_eq_copied h]
      rfl

/-- The node of a value as the parser returns it. -/
theorem outcome_parseValueString (h : isBody body) (s : Bytes) :
    (parseValueString (some (34 :: (body ++ 34 :: s)))).outcome =
      .ofOption (read.ofScalar (.string (ω := Bytes) body)) (some s) := by
  unfold parseValueString
  by_cases hne : body = []
  · subst hne
    exact Scan.outcome_bind_of_ok (outcome_parseString_empty s)
  · rw [Scan.outcome_bind_of_ok (outcome_parseString_body h hne s)]
    unfold Meaning.ofScalar read
    dsimp only
    rw [if_neg hne]
    have hdup : (Scan.strdup ⟨body ++ 34 :: s, body.length⟩ (some s)).outcome =
        .ofOption (copied body) (some s) := by
      unfold Scan.strdup
      rw [strdup_eq_copied h]
      rfl
    rw [outcome_bind_of_ofOption hdup]
    cases copied body <;> rfl

/-- A number is read as its copy. -/
theorem outcome_parseValueNumber (h : ∀ c ∈ body, isNumberByte c) (hc : ¬isNumberByte c)
    (s : Bytes) : (parseValueNumber (some (body ++ c :: s))).outcome =
      .ofOption (read.ofScalar (.number (ω := Bytes) body)) (some (c :: s)) := by
  have htake : (body ++ c :: s).takeWhile isNumberByte = body := by
    rw [List.takeWhile_append_of_pos h, List.takeWhile_cons_of_neg hc, List.append_nil]
  unfold parseValueNumber
  rw [Scan.rest_bind, htake, if_neg (by simp)]
  have hdup : (Scan.strdup ⟨body ++ c :: s, body.length⟩ (some (body ++ c :: s))).outcome =
      .ofOption (copied body) (some (body ++ c :: s)) := by
    unfold Scan.strdup
    rw [strdup_eq_copied (isBody_of_isNumberByte h)]
    rfl
  rw [outcome_bind_of_ofOption hdup]
  unfold Meaning.ofScalar read
  dsimp only
  cases copied body with
  | none => rfl
  | some val =>
    rw [Option.elim_some, Scan.advance_bind (by simp), List.drop_left]
    rfl

/-! ## Runs of the functions for values -/

/-- White space is not the end of the text. -/
theorem Blanks.headD_ne_zero (hw : Blanks w) (hc : c ≠ 0) (s : Bytes) :
    (w ++ c :: s).headD 0 ≠ 0 := by
  cases w with
  | nil => exact hc
  | cons d w => exact (hw d List.mem_cons_self).2

/-- An opening bracket is no white space. -/
theorem not_isBlank_openBracket (keyed : Bool) : ¬isBlank (openBracket keyed) := by
  cases keyed <;> decide

/-- A closing bracket is no white space. -/
theorem not_isBlank_closeBracket (keyed : Bool) : ¬isBlank (closeBracket keyed) := by
  cases keyed <;> decide

/-- The function for an object or an array. -/
def parseKeyed (entries : Bool → Scan JsonList) (keyed : Bool) : Scan Value :=
  if keyed then parseObject entries else parseArray entries

/-- Objects and arrays are read by one parser. -/
theorem parseKeyed_eq (entries : Bool → Scan JsonList) (keyed : Bool) :
    parseKeyed entries keyed = parseList (openBracket keyed) (closeBracket keyed)
      (if keyed then .object else .array) (entries keyed) := by
  cases keyed <;> rfl

/-- A list without entries. -/
theorem outcome_parseKeyed_empty (entries : Bool → Scan JsonList) (keyed : Bool) (hw : Blanks w)
    (s : Bytes) :
    (parseKeyed entries keyed
      (some (openBracket keyed :: (w ++ closeBracket keyed :: s)))).outcome =
      .ok (.empty, none, .nil) (some s) := by
  rw [parseKeyed_eq]
  unfold parseList
  rw [Scan.outcome_bind_of_ok (Scan.outcome_expect _ _),
    Scan.outcome_bind_of_ok (skipSpace_blanks hw (not_isBlank_closeBracket keyed) s),
    Scan.peek_bind,
    List.headD_cons, if_pos rfl, Scan.advance_bind (by simp)]
  rfl

/-- A list whose entries end before the closing bracket. -/
theorem outcome_parseKeyed {entries : Bool → Scan JsonList} {keyed : Bool} {child : Option JsonList}
    (hw : Blanks w) (hblank : ¬isBlank c) (hclose : c ≠ closeBracket keyed)
    (h : (entries keyed (some (c :: t))).outcome =
      .ofOption child (some (closeBracket keyed :: s))) :
    (parseKeyed entries keyed (some (openBracket keyed :: (w ++ c :: t)))).outcome =
      .ofOption (child.map fun child => (if keyed then .object else .array, none, child))
        (some s) := by
  rw [parseKeyed_eq]
  unfold parseList
  rw [Scan.outcome_bind_of_ok (Scan.outcome_expect _ _),
    Scan.outcome_bind_of_ok (skipSpace_blanks hw hblank t), Scan.peek_bind, List.headD_cons,
    if_neg hclose, outcome_bind_of_ofOption h]
  cases child with
  | none => rfl
  | some child => exact Scan.outcome_bind_of_ok (Scan.outcome_expect _ _)

/-- A value that begins with a bracket is a list. -/
theorem outcome_parseValue_keyed (entries : Bool → Scan JsonList) (keyed : Bool) (hw : Blanks w)
    (s : Bytes) : (parseValue entries (some (w ++ openBracket keyed :: s))).outcome =
      (parseKeyed entries keyed (some (openBracket keyed :: s))).outcome := by
  unfold parseValue
  rw [Scan.outcome_bind_of_ok (skipSpace_blanks hw (not_isBlank_openBracket keyed) s),
    Scan.peek_bind, Scan.rest_bind, List.headD_cons]
  cases keyed <;> rfl

/-- A byte of a number is no white space. -/
theorem not_isBlank_of_isNumberByte (h : isNumberByte c) : ¬isBlank c := by
  simp only [isNumberByte, isDigit, isBlank, Bool.or_eq_true, Bool.and_eq_true, decide_eq_true_eq,
    UInt8.le_iff_toNat_le, ← UInt8.toNat_inj, UInt8.reduceToNat] at h ⊢
  omega

/-- A literal that is there. -/
theorem outcome_parseOther {str : Bytes} (type : JsonType)
    (h : (Token.mk str str.length).adxJsonStrdup = some str) (s : Bytes) :
    (parseOther type str (some (str ++ s))).outcome = .ok (type, some str, .nil) (some s) := by
  unfold parseOther
  rw [Scan.advance_bind (by simp), List.drop_left]
  refine Scan.outcome_bind_of_ok ?_
  unfold Scan.strdup
  rw [h]
  rfl

/-- A literal name. -/
theorem outcome_parseValue_literal (entries : Bool → Scan JsonList) (l : Literal) (hw : Blanks w)
    (s : Bytes) : (parseValue entries (some (w ++ (l.render ++ s)))).outcome =
      .ofOption (read.ofScalar (.literal (ω := Bytes) l)) (some s) := by
  unfold parseValue
  -- the first byte decides, so that the other literals are refuted by it
  cases l with
  | true =>
    have hlit : Literal.true.render ++ s = 116 :: ([114, 117, 101] ++ s) := rfl
    rw [hlit, Scan.outcome_bind_of_ok (skipSpace_blanks hw (by decide) _), Scan.peek_bind,
      Scan.rest_bind, List.headD_cons]
    rw [if_neg (by decide), if_neg (by decide), if_neg (by decide), if_neg (by decide),
      if_pos ⟨s, rfl⟩]
    exact outcome_parseOther .bool (by decide) s
  | false =>
    have hlit : Literal.false.render ++ s = 102 :: ([97, 108, 115, 101] ++ s) := rfl
    have htrue : ¬bytes "true" <+: 102 :: ([97, 108, 115, 101] ++ s) := by
      rw [show bytes "true" = 116 :: [114, 117, 101] from rfl, List.cons_prefix_cons]
      exact fun h => absurd h.1 (by decide)
    rw [hlit, Scan.outcome_bind_of_ok (skipSpace_blanks hw (by decide) _), Scan.peek_bind,
      Scan.rest_bind, List.headD_cons]
    rw [if_neg (by decide), if_neg (by decide), if_neg (by decide), if_neg (by decide),
      if_neg htrue, if_pos ⟨s, rfl⟩]
    exact outcome_parseOther .bool (by decide) s
  | null =>
    have hlit : Literal.null.render ++ s = 110 :: ([117, 108, 108] ++ s) := rfl
    have htrue : ¬bytes "true" <+: 110 :: ([117, 108, 108] ++ s) := by
      rw [show bytes "true" = 116 :: [114, 117, 101] from rfl, List.cons_prefix_cons]
      exact fun h => absurd h.1 (by decide)
    have hfalse : ¬bytes "false" <+: 110 :: ([117, 108, 108] ++ s) := by
      rw [show bytes "false" = 102 :: [97, 108, 115, 101] from rfl, List.cons_prefix_cons]
      exact fun h => absurd h.1 (by decide)
    rw [hlit, Scan.outcome_bind_of_ok (skipSpace_blanks hw (by decide) _), Scan.peek_bind,
      Scan.rest_bind, List.headD_cons]
    rw [if_neg (by decide), if_neg (by decide), if_neg (by decide), if_neg (by decide),
      if_neg htrue, if_neg hfalse, if_pos ⟨s, rfl⟩]
    exact outcome_parseOther .null (by decide) s

/-- The value of an entry without entries of its own. -/
theorem outcome_parseValue_scalar (entries : Bool → Scan JsonList)
    {value : Scalar Bytes Bytes Bytes} (hvalue : lexical.OnScalar value) (hw : Blanks w)
    (hc : ¬isNumberByte c) (s : Bytes) :
    (parseValue entries (some (w ++ (value.render ++ c :: s)))).outcome =
      .ofOption (read.ofScalar value) (some (c :: s)) := by
  cases value with
  | string body =>
    have hrender : (Scalar.string body).render ++ c :: s = 34 :: (body ++ 34 :: c :: s) := by
      simp [Scalar.render]
    unfold parseValue
    rw [hrender, Scan.outcome_bind_of_ok (skipSpace_blanks hw (by decide) _), Scan.peek_bind,
      Scan.rest_bind]
    exact outcome_parseValueString hvalue (c :: s)
  | number n =>
    obtain ⟨hbytes, d, hd, hfirst⟩ := hvalue
    obtain ⟨n', rfl⟩ : ∃ n', n = d :: n' := by
      cases n with
      | nil => cases hd
      | cons e n' => exact ⟨n', by rw [List.head?_cons, Option.some.injEq] at hd; rw [hd]⟩
    have hnumber := outcome_parseValueNumber hbytes hc s
    have hdb := hbytes d List.mem_cons_self
    -- the tests for the other kinds of values fail on the first byte
    have hne : ∀ e, ¬isNumberByte e → d ≠ e := fun e he heq => he (heq ▸ hdb)
    unfold parseValue
    rw [Scalar.render, List.cons_append,
      Scan.outcome_bind_of_ok (skipSpace_blanks hw (not_isBlank_of_isNumberByte hdb) _),
      Scan.peek_bind, Scan.rest_bind, List.headD_cons, if_neg (hne _ (by decide)),
      if_neg (hne _ (by decide)),
      if_neg (hne _ (by decide)), if_pos hfirst]
    exact hnumber
  | literal l => exact outcome_parseValue_literal entries l hw (c :: s)
  | emptyList keyed blanks =>
    have hrender : (Scalar.emptyList keyed blanks).render ++ c :: s =
        openBracket keyed :: (blanks ++ closeBracket keyed :: c :: s) := by
      simp [Scalar.render]
    rw [hrender, outcome_parseValue_keyed entries keyed hw,
      outcome_parseKeyed_empty entries keyed hvalue]
    rfl

/-! ## Runs of the loops -/

/-- White space in front does not matter to `skipSpace`. -/
theorem skipSpace_append (hw : Blanks w) (s : Bytes) :
    skipSpace (some (w ++ s)) = skipSpace (some s) := by
  have houtcome : (skipSpace (some (w ++ s))).outcome = (skipSpace (some s)).outcome := by
    rw [outcome_skipSpace, outcome_skipSpace, dropWhile_blanks hw]
  exact congrArg (Reply.mk []) houtcome

/-- Two scans in a row depend on the position through the first one only. -/
theorem bind_congr_left (f : α → Scan β) (h : x pos = x pos') : (x >>= f) pos = (x >>= f) pos' := by
  change Scan.bind x f pos = Scan.bind x f pos'
  unfold Scan.bind
  rw [h]

/-- White space in front does not matter to a value. -/
theorem parseValue_append (entries : Bool → Scan JsonList) (hw : Blanks w) (s : Bytes) :
    parseValue entries (some (w ++ s)) = parseValue entries (some s) :=
  bind_congr_left _ (skipSpace_append hw s)

/-- The loops may start before blanks. -/
theorem parseEntries_append (fuel : ℕ) (keyed : Bool) (hw : Blanks w) (hc : c ≠ 0) (s : Bytes) :
    parseEntries fuel keyed (some (w ++ c :: s)) = parseEntries fuel keyed (some (c :: s)) := by
  cases fuel with
  | zero => rfl
  | succ fuel =>
    -- the loop looks for the end of the string before it skips blanks
    rw [parseEntries, Scan.peek_bind, Scan.peek_bind, if_neg (hw.headD_ne_zero hc s),
      List.headD_cons, if_neg hc]
    cases keyed with
    | false =>
      rw [show parseMemberKey false = pure none from rfl, Scan.pure_bind]
      exact bind_congr_left _ (parseValue_append (parseEntries fuel) hw (c :: s))
    | true => exact bind_congr_left _ (bind_congr_left _ (skipSpace_append hw (c :: s)))

/-- The name of an entry, and what may stand between it and the value. -/
theorem outcome_parseMemberKey {keyed : Bool} {name : Option (Name Bytes Bytes)}
    (hname : lexical.OnName name) (hkeyed : name.isSome = keyed) (hw : Blanks w) (s : Bytes) :
    ∃ w', Blanks w' ∧
      (parseMemberKey keyed (some (w ++ (name.elim [] Name.render ++ s)))).outcome =
        .ofOption (read.ofName name) (some (w' ++ s)) := by
  subst hkeyed
  cases name with
  | none => exact ⟨w, hw, rfl⟩
  | some n =>
    obtain ⟨hbody, hbefore, hafter⟩ := hname n rfl
    refine ⟨n.after, hafter, ?_⟩
    have hrender : n.render ++ s = 34 :: (n.name ++ 34 :: (n.before ++ 58 :: (n.after ++ s))) := by
      simp [Name.render]
    unfold parseMemberKey
    rw [Option.isSome_some, if_pos rfl, Option.elim_some, hrender,
      Scan.outcome_bind_of_ok (skipSpace_blanks hw (by decide) _),
      outcome_bind_of_ofOption (outcome_parseKey hbody _)]
    change _ = Outcome.ofOption ((read.name n.name).map some) _
    cases read.name n.name with
    | none => rfl
    | some key =>
      rw [Option.elim_some, Scan.outcome_bind_of_ok (skipSpace_blanks hbefore (by decide) _)]
      exact Scan.outcome_bind_of_ok (Scan.outcome_expect 58 _)

/-- One entry of a loop, and the rest of the loop behind a comma. -/
theorem outcome_parseEntries_entry {fuel : ℕ} {keyed : Bool} {key : Option (Option Bytes)}
    {value : Option Value} {next : Option JsonList} {s s' : Bytes}
    (hhead : s.headD 0 ≠ 0)
    (hkey : (parseMemberKey keyed (some s)).outcome = .ofOption key (some s'))
    (hvalue : (parseValue (parseEntries fuel) (some s')).outcome =
      .ofOption value (some (w ++ c :: t))) (hw : Blanks w) (hc : ¬isBlank c)
    (hnext : c = 44 ∧ (parseEntries fuel keyed (some t)).outcome = .ofOption next pos ∨
      c ≠ 44 ∧ next = some .nil ∧ pos = some (c :: t)) :
    (parseEntries (fuel + 1) keyed (some s)).outcome =
      .ofOption (key.bind fun key => value.bind fun (type, val, child) =>
        next.map fun next => .cons type key val child next) pos := by
  rw [parseEntries, Scan.peek_bind, if_neg hhead, outcome_bind_of_ofOption hkey]
  cases key with
  | none => rfl
  | some key =>
    rw [Option.elim_some, outcome_bind_of_ofOption hvalue]
    cases value with
    | none => rfl
    | some value =>
      obtain ⟨type, val, child⟩ := value
      rw [Option.elim_some, Scan.outcome_bind_of_ok (skipSpace_blanks hw hc t), Scan.peek_bind,
        List.headD_cons]
      -- a comma, or the end of the list
      rcases hnext with ⟨rfl, hnext⟩ | ⟨hne, rfl, rfl⟩
      · rw [if_pos rfl, Scan.advance_bind (by simp), List.drop_succ_cons, List.drop_zero,
          outcome_bind_of_ofOption hnext]
        cases next <;> rfl
      · rw [if_neg hne]
        rfl

/-- Behind a comma the loops accept no closing bracket. -/
theorem outcome_parseEntries_gap (fuel : ℕ) (keyed keyed' : Bool) (s : Bytes) :
    (parseEntries (fuel + 1) keyed (some (closeBracket keyed' :: s))).outcome = .error := by
  have hc : closeBracket keyed' = 125 ∨ closeBracket keyed' = 93 := by
    cases keyed' <;> simp [closeBracket]
  have hblank := skipSpace_blanks (w := []) nofun (not_isBlank_closeBracket keyed') s
  rw [List.nil_append] at hblank
  generalize closeBracket keyed' = c at hc hblank
  have hlit : ∀ d str, d ≠ 125 → d ≠ 93 → ¬d :: str <+: c :: s := by
    rintro d str h125 h93 h
    rw [List.cons_prefix_cons] at h
    rcases hc with rfl | rfl
    · exact h125 h.1
    · exact h93 h.1
  -- no value starts with a bracket that closes
  have hvalue : ∀ entries, (parseValue entries (some (c :: s))).outcome = .error := by
    intro entries
    unfold parseValue
    rw [Scan.outcome_bind_of_ok hblank, Scan.peek_bind, Scan.rest_bind, List.headD_cons]
    have htests : c ≠ 123 ∧ c ≠ 91 ∧ c ≠ 34 ∧ ¬(c = 45 ∨ isDigit c) := by
      rcases hc with rfl | rfl <;> decide
    obtain ⟨hobject, harray, hstring, hnumber⟩ := htests
    have htrue : ¬bytes "true" <+: c :: s := hlit 116 _ (by decide) (by decide)
    have hfalse : ¬bytes "false" <+: c :: s := hlit 102 _ (by decide) (by decide)
    have hnull : ¬bytes "null" <+: c :: s := hlit 110 _ (by decide) (by decide)
    rw [if_neg hobject, if_neg harray, if_neg hstring, if_neg hnumber, if_neg htrue,
      if_neg hfalse, if_neg hnull]
    rfl
  -- and no key
  have hkey : (parseKey (some (c :: s))).outcome = .error := by
    have hquote : (c :: s).headD 0 ≠ 34 := by rcases hc with rfl | rfl <;> simp
    exact Scan.outcome_bind_of_error
      (Scan.outcome_bind_of_error (Scan.outcome_expect_of_ne rfl hquote))
  have hzero : c ≠ 0 := by rcases hc with rfl | rfl <;> decide
  rw [parseEntries, Scan.peek_bind, List.headD_cons, if_neg hzero]
  cases keyed with
  | false =>
    rw [show parseMemberKey false = pure none from rfl, Scan.pure_bind]
    exact Scan.outcome_bind_of_error (hvalue _)
  | true =>
    refine Scan.outcome_bind_of_error ?_
    unfold parseMemberKey
    rw [if_pos rfl, Scan.outcome_bind_of_ok hblank]
    exact Scan.outcome_bind_of_error hkey

/-- A byte that is neither skipped nor closes a list. -/
def Starts (c : UInt8) : Prop := ¬isBlank c ∧ ∀ keyed, c ≠ closeBracket keyed

/-- A value does not start with the end of the text. -/
theorem Starts.ne_zero (h : Starts c) : c ≠ 0 := fun hc => h.1 (hc ▸ rfl)

/-- A list starts with its bracket. -/
theorem starts_openBracket (keyed : Bool) : Starts (openBracket keyed) :=
  ⟨not_isBlank_openBracket keyed, by cases keyed <;> decide⟩

/-- A value without entries starts with a byte of its own. -/
theorem exists_starts_scalar {value : Scalar Bytes Bytes Bytes} (h : lexical.OnScalar value) :
    ∃ c s, value.render = c :: s ∧ Starts c := by
  cases value with
  | string body => exact ⟨34, _, rfl, by decide, by decide⟩
  | number n =>
    obtain ⟨hbytes, d, hd, hfirst⟩ := h
    cases n with
    | nil => cases hd
    | cons e n =>
      have he := hbytes e List.mem_cons_self
      refine ⟨e, n, rfl, not_isBlank_of_isNumberByte he, fun keyed heq => ?_⟩
      rw [heq] at he
      revert he
      cases keyed <;> decide
  | literal l =>
    cases l with
    | true => exact ⟨116, _, rfl, by decide, by decide⟩
    | false => exact ⟨102, _, rfl, by decide, by decide⟩
    | null => exact ⟨110, _, rfl, by decide, by decide⟩
  | emptyList keyed blanks => exact ⟨_, _, rfl, starts_openBracket keyed⟩

/-- Behind its blanks a text with an entry starts with such a byte. -/
theorem exists_starts {es : Text Bytes Bytes Bytes} (hentry : es.HasEntry) (h : es.All lexical) :
    ∃ w c s, Blanks w ∧ es.render = w ++ c :: s ∧ Starts c := by
  cases es with
  | nil => cases hentry
  | gap => cases hentry
  | leaf before name value after next =>
    obtain ⟨hbefore, -, hvalue, -, -⟩ := h
    cases name with
    | none =>
      obtain ⟨c, s, hs, hc⟩ := exists_starts_scalar hvalue
      exact ⟨before, c, _, hbefore, by rw [Text.render, hs]; rfl, hc⟩
    | some n => exact ⟨before, 34, _, hbefore, rfl, by decide, by decide⟩
  | node before name keyed child after next =>
    obtain ⟨hbefore, -, -, -, -⟩ := h
    cases name with
    | none => exact ⟨before, _, _, hbefore, rfl, starts_openBracket keyed⟩
    | some n => exact ⟨before, 34, _, hbefore, rfl, by decide, by decide⟩

/-- Such a text is not at its end. -/
theorem headD_render_ne_zero {es : Text Bytes Bytes Bytes} (hentry : es.HasEntry)
    (h : es.All lexical) (s : Bytes) : (es.render ++ s).headD 0 ≠ 0 := by
  obtain ⟨w, c, r, hw, hrender, hc⟩ := exists_starts hentry h
  rw [hrender, List.append_assoc]
  exact hw.headD_ne_zero hc.ne_zero _

/-- What follows an entry: the closing bracket, or a comma and the rest of the loop. -/
theorem exists_after {next : Text Bytes Bytes Bytes} {fuel : ℕ} {keyed keyed' : Bool} {s : Bytes}
    (ih : next ≠ .nil → (parseEntries fuel keyed
      (some (next.render ++ closeBracket keyed' :: s))).outcome =
        .ofOption (treeOf read next) (some (closeBracket keyed' :: s))) :
    ∃ c t, next.comma ++ (next.render ++ closeBracket keyed' :: s) = c :: t ∧ ¬isBlank c ∧
      ¬isNumberByte c ∧
      (c = 44 ∧ (parseEntries fuel keyed (some t)).outcome =
          .ofOption (treeOf read next) (some (closeBracket keyed' :: s)) ∨
        c ≠ 44 ∧ treeOf read next = some .nil ∧
          some (closeBracket keyed' :: s) = some (c :: t)) := by
  cases next with
  | nil =>
    refine ⟨closeBracket keyed', s, rfl, not_isBlank_closeBracket keyed', ?_, .inr ⟨?_, rfl, rfl⟩⟩
    · cases keyed' <;> decide
    · cases keyed' <;> decide
  | gap => exact ⟨44, _, rfl, by decide, by decide, .inl ⟨rfl, ih nofun⟩⟩
  | leaf before name value after next =>
    exact ⟨44, _, rfl, by decide, by decide, .inl ⟨rfl, ih nofun⟩⟩
  | node before name keyed child after next =>
    exact ⟨44, _, rfl, by decide, by decide, .inl ⟨rfl, ih nofun⟩⟩

/-- The byte behind a value. -/
theorem exists_cons_of_blanks (hw : Blanks w) (hc : ¬isNumberByte c) (s : Bytes) :
    ∃ d t, w ++ c :: s = d :: t ∧ ¬isNumberByte d := by
  cases w with
  | nil => exact ⟨c, s, rfl, hc⟩
  | cons d w =>
    exact ⟨d, _, rfl, fun h => not_isBlank_of_isNumberByte h (hw d List.mem_cons_self).1⟩

/-- A comma is one byte. -/
theorem length_comma {next : Text Bytes Bytes Bytes} (h : next ≠ .nil) : next.comma.length = 1 := by
  cases next with
  | nil => exact absurd rfl h
  | gap => rfl
  | leaf => rfl
  | node => rfl

/-- The loops make the tree of a text of it: by induction on the text, over all amounts of fuel. -/
theorem outcome_parseEntries {es : Text Bytes Bytes Bytes} {fuel : ℕ} {keyed keyed' : Bool}
    (hall : es.All lexical) (hkeyed : es.WellKeyed keyed) (hne : es ≠ .nil)
    (hfuel : es.render.length < fuel) (s : Bytes) :
    (parseEntries fuel keyed (some (es.render ++ closeBracket keyed' :: s))).outcome =
      .ofOption (treeOf read es) (some (closeBracket keyed' :: s)) := by
  induction es generalizing fuel keyed keyed' s with
  | nil => exact absurd rfl hne
  | gap =>
    obtain ⟨fuel, rfl⟩ : ∃ k, fuel = k + 1 := ⟨fuel - 1, by omega⟩
    exact outcome_parseEntries_gap fuel keyed keyed' s
  | leaf before name value after next ih =>
    have hhead := @headD_render_ne_zero (.leaf before name value after next) trivial hall
      (closeBracket keyed' :: s)
    obtain ⟨hbefore, hname, hvalue, hafter, hnext⟩ := hall
    obtain ⟨fuel, rfl⟩ : ∃ k, fuel = k + 1 := ⟨fuel - 1, by omega⟩
    simp only [Text.render, List.length_append] at hfuel
    have hloop : next ≠ .nil → (parseEntries fuel keyed
        (some (next.render ++ closeBracket keyed' :: s))).outcome =
          .ofOption (treeOf read next) (some (closeBracket keyed' :: s)) := by
      intro hne
      have := length_comma hne
      exact ih hnext hkeyed.2 hne (by omega) s
    obtain ⟨c, t, heq, hblank, hnumber, hrest⟩ := exists_after hloop
    -- a number ends at the byte behind it, be it a blank
    obtain ⟨d, u, hdu, hd⟩ := exists_cons_of_blanks hafter hnumber t
    have hsplit : (Text.leaf before name value after next).render ++ closeBracket keyed' :: s =
        before ++ (name.elim [] Name.render ++ (value.render ++ (after ++ c :: t))) := by
      rw [← heq]
      simp [Text.render]
    obtain ⟨w', hw', hkey⟩ := outcome_parseMemberKey hname hkeyed.1 hbefore
      (value.render ++ (after ++ c :: t))
    have hval := outcome_parseValue_scalar (parseEntries fuel) hvalue hw' hd u
    rw [← hdu] at hval
    rw [hsplit] at hhead ⊢
    exact outcome_parseEntries_entry hhead hkey hval hafter hblank hrest
  | node before name keyedChild child after next ihc ih =>
    have hhead := @headD_render_ne_zero (.node before name keyedChild child after next) trivial hall
      (closeBracket keyed' :: s)
    obtain ⟨hbefore, hname, hchild, hafter, hnext⟩ := hall
    obtain ⟨hnamed, hentry, hkeyedChild, hkeyedNext⟩ := hkeyed
    obtain ⟨fuel, rfl⟩ : ∃ k, fuel = k + 1 := ⟨fuel - 1, by omega⟩
    simp only [Text.render, List.length_append, List.length_cons] at hfuel
    have hloop : next ≠ .nil → (parseEntries fuel keyed
        (some (next.render ++ closeBracket keyed' :: s))).outcome =
          .ofOption (treeOf read next) (some (closeBracket keyed' :: s)) := by
      intro hne
      have := length_comma hne
      exact ih hnext hkeyedNext hne (by omega) s
    obtain ⟨c, t, heq, hblank, hnumber, hrest⟩ := exists_after hloop
    have hsplit : (Text.node before name keyedChild child after next).render ++
        closeBracket keyed' :: s = before ++ (name.elim [] Name.render ++
          (openBracket keyedChild ::
            (child.render ++ closeBracket keyedChild :: (after ++ c :: t)))) := by
      rw [← heq]
      simp [Text.render]
    obtain ⟨w', hw', hkey⟩ := outcome_parseMemberKey hname hnamed hbefore
      (openBracket keyedChild :: (child.render ++ closeBracket keyedChild :: (after ++ c :: t)))
    -- the loop of the value starts behind the first blanks of its text
    obtain ⟨wc, ec, rc, hwc, hrenderc, hec⟩ := exists_starts hentry hchild
    have hinner : (parseEntries fuel keyedChild
        (some (child.render ++ closeBracket keyedChild :: (after ++ c :: t)))).outcome =
          .ofOption (treeOf read child) (some (closeBracket keyedChild :: (after ++ c :: t))) :=
      ihc hchild hkeyedChild (by rintro rfl; exact hentry) (by omega) (after ++ c :: t)
    rw [hrenderc, List.append_assoc, List.cons_append,
      parseEntries_append fuel keyedChild hwc hec.ne_zero] at hinner
    have hval := outcome_parseKeyed hwc hec.1 (hec.2 keyedChild) hinner
    have hsame : wc ++ ec :: (rc ++ closeBracket keyedChild :: (after ++ c :: t)) =
        child.render ++ closeBracket keyedChild :: (after ++ c :: t) := by
      rw [hrenderc]
      simp
    rw [← outcome_parseValue_keyed (parseEntries fuel) keyedChild hw', hsame] at hval
    rw [hsplit] at hhead ⊢
    rw [outcome_parseEntries_entry hhead hkey hval hafter hblank hrest]
    rw [treeOf]
    cases read.ofName name with
    | none => rfl
    | some key => cases treeOf read child <;> rfl

/-! ## The parser -/

/-- The root is an object. -/
theorem outcome_parseRoot (fuel : ℕ) (hw : Blanks w) (s : Bytes) :
    (parseRoot fuel (some (w ++ 123 :: s))).outcome =
      ((parseKeyed (parseEntries fuel) true >>= fun value =>
        if value.1 = .object then pure ⟨.unset, none, none, value.2.2⟩ else Scan.fail :
          Scan AdxJson) (some (123 :: s))).outcome := by
  unfold parseRoot
  rw [Scan.outcome_bind_of_ok (skipSpace_blanks hw (by decide) s)]
  rfl

/-- The parser makes the tree of a text of it. -/
theorem outcome_adxJsonParse {es : Text Bytes Bytes Bytes} {fuel : ℕ} (hall : es.All lexical)
    (hkeyed : es.WellKeyed true) (hentry : es.HasEntry) (hw : Blanks w)
    (hzero : 0 ∉ w ++ 123 :: (es.render ++ 125 :: s)) (hfuel : es.render.length < fuel) :
    (adxJsonParse fuel (w ++ 123 :: (es.render ++ 125 :: s))).outcome =
      .ofOption ((treeOf read es).map fun child => ⟨.unset, none, none, child⟩) (some s) := by
  obtain ⟨w', c, r, hw', hrender, hc⟩ := exists_starts hentry hall
  have hloop := @outcome_parseEntries es fuel true true hall hkeyed (by rintro rfl; exact hentry)
    hfuel s
  -- the brackets are read first, with the blanks behind the first one
  rw [hrender, List.append_assoc, List.cons_append,
    parseEntries_append fuel true hw' hc.ne_zero] at hloop
  have hval := outcome_parseKeyed hw' hc.1 (hc.2 true) hloop
  unfold adxJsonParse
  rw [cstr_eq_self hzero, outcome_parseRoot fuel hw, hrender, List.append_assoc, List.cons_append]
  refine (outcome_bind_of_ofOption hval).trans ?_
  cases treeOf read es <;> rfl

/-- The parser refuses an object without members. -/
theorem outcome_adxJsonParse_empty (fuel : ℕ) (hzero : 0 ∉ s) :
    (adxJsonParse fuel (123 :: 125 :: s)).outcome = .error := by
  have hval := outcome_parseKeyed_empty (w := []) (parseEntries fuel) true nofun s
  have hcstr : cstr (123 :: 125 :: s) = [] ++ 123 :: 125 :: s := cstr_eq_self (by simpa using hzero)
  unfold adxJsonParse
  rw [hcstr, outcome_parseRoot fuel (List.forall_mem_nil _)]
  exact (Scan.outcome_bind_of_ok hval).trans rfl

end

end Json

end AdxDsp
