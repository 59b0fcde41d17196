import AdxDsp.Json.Accept

/-!
# Documents of RFC 8259

What the parser makes of a document: the tree that RFC 8259 assigns to it, as long as no string has
a code unit written as `\u` with four digits, and no token is so long that its length is no `int`.

* **Tokens**: `copied_of_short`, `length_lt_of_copied`; `textOf_of_plain`, `length_text_lt`.
* `decodes_iff`: the parser returns the tree of a document.
-/

namespace AdxDsp

open CText JsonText

namespace Json

/-! ## Lengths of tokens -/

/-- The length of a token is an `int`, and so is that of its block. -/
def Short (body : Bytes) : Prop := body.length < 2 ^ 31 - 1

instance (body : Bytes) : Decidable (Short body) := inferInstanceAs (Decidable (_ < _))

section

variable {a b body : Bytes}

/-- Two bodies in a row are a body. -/
theorem isBody_append (ha : isBody a) (hb : isBody b) : isBody (a ++ b) := by
  induction a using isBody.induct with
  | case1 => exact hb
  | case2 => cases ha
  | case3 e a ih => exact ih ha
  | case4 c a hc ih =>
    rw [isBody_of_ne hc, Bool.and_eq_true] at ha
    rw [List.cons_append, isBody_of_ne hc, Bool.and_eq_true]
    exact ⟨ha.1, ih ha.2⟩

/-- The copy of a whole token, and then of what follows it. -/
theorem strdupLoop_append_add (ha : isBody a) (n : ℕ) (s : Bytes) :
    strdupLoop (a.length + n) (a ++ s) = strdupLoop a.length a ++ strdupLoop n s := by
  induction a using isBody.induct with
  | case1 => simp
  | case2 => cases ha
  | case3 e a ih =>
    have hlen : (92 :: e :: a).length + n = a.length + n + 1 + 1 := by
      simp only [List.length_cons]
      omega
    rw [hlen, List.cons_append, List.cons_append, strdupLoop_escape, List.length_cons,
      strdupLoop_escape, Nat.add_sub_cancel, ih ha, List.length_cons, Nat.add_sub_cancel]
    rfl
  | case4 c a hc ih =>
    rw [isBody_of_ne hc, Bool.and_eq_true] at ha
    have hlen : (c :: a).length + n = a.length + n + 1 := by
      simp only [List.length_cons]
      omega
    rw [hlen, List.cons_append, strdupLoop_of_ne _ _ hc, ih ha.2, List.length_cons,
      strdupLoop_of_ne _ _ hc]
    rfl

/-- The copy of a text that is not empty is not empty. -/
theorem strdupLoop_ne_nil {n : ℕ} (hn : 0 < n) (hne : a ≠ []) : strdupLoop n a ≠ [] := by
  obtain ⟨n, rfl⟩ : ∃ k, n = k + 1 := ⟨n - 1, by omega⟩
  cases a with
  | nil => exact absurd rfl hne
  | cons c a =>
    by_cases hc : c = 92
    · subst hc
      cases a <;> simp [strdupLoop]
    · rw [strdupLoop_of_ne _ _ hc]
      exact List.cons_ne_nil _ _

/-- A copy of all but the last two bytes of a token, or of less, is not the whole copy. -/
theorem length_strdupLoop_lt (ha : isBody a) {n : ℕ} (hn : n + 2 ≤ a.length) :
    (strdupLoop n a).length < (strdupLoop a.length a).length := by
  induction a using isBody.induct generalizing n with
  | case1 => simp at hn
  | case2 => cases ha
  | case3 e a ih =>
    simp only [List.length_cons] at hn
    have hwhole : (strdupLoop (92 :: e :: a).length (92 :: e :: a)).length =
        (strdupLoop a.length a).length + 1 := by
      rw [List.length_cons, strdupLoop_escape, List.length_cons, List.length_cons,
        Nat.add_sub_cancel]
    rw [hwhole]
    cases n with
    | zero => simp
    | succ n =>
      cases n with
      | zero =>
        -- the escape is copied whole, what follows it is not
        have hpos : 0 < (strdupLoop a.length a).length :=
          List.length_pos_iff.mpr (strdupLoop_ne_nil (by omega) (by rintro rfl; simp at hn))
        rw [strdupLoop_escape]
        simpa using hpos
      | succ n =>
        have := ih ha (n := n) (by omega)
        rw [strdupLoop_escape, List.length_cons, Nat.add_sub_cancel]
        omega
  | case4 c a hc ih =>
    rw [isBody_of_ne hc, Bool.and_eq_true] at ha
    rw [List.length_cons] at hn
    rw [List.length_cons, strdupLoop_of_ne _ _ hc, List.length_cons]
    cases n with
    | zero => simp
    | succ n =>
      have := ih ha.2 (n := n) (by omega)
      rw [strdupLoop_of_ne _ _ hc, List.length_cons]
      omega

/-- A short body is copied whole. -/
theorem copied_of_short (h : Short body) : copied body = some (strdupLoop body.length body) := by
  unfold Short at h
  have hlen : toInt32 (body.length : ℤ) = body.length := toInt32_of_bounds (by omega) (by omega)
  have hnext : toInt32 ((body.length : ℤ) + 1) = body.length + 1 :=
    toInt32_of_bounds (by omega) (by omega)
  have halloc : allocates ((body.length : ℤ) + 1) = true := by
    unfold allocates
    rw [decide_eq_true_iff]
    omega
  unfold copied Token.adxJsonStrdup Token.copy Token.len
  dsimp only
  rw [hlen, hnext, if_pos halloc, Int.toNat_natCast]

/-- The copy of a longer token misses its end. -/
theorem copied_of_not_short (h : ¬Short body) {val : Bytes} (hval : copied body = some val) :
    ∃ n, n + 2 ≤ body.length ∧ strdupLoop n body = val := by
  unfold Short at h
  unfold copied Token.adxJsonStrdup Token.copy Token.len at hval
  dsimp only at hval
  split_ifs at hval with halloc
  refine ⟨_, ?_, Option.some.inj hval⟩
  by_cases hmax : body.length = 2 ^ 31 - 1
  · -- the length of the block is no `int`
    rw [hmax] at halloc
    exact absurd halloc (by decide)
  · rw [toInt32_eq]
    split_ifs <;> omega

/-- A body that is not short loses something in its copy. -/
theorem length_lt_of_copied (hbody : isBody body) (h : ¬Short body) {val : Bytes}
    (hval : copied body = some val) : val.length < (strdupLoop body.length body).length := by
  obtain ⟨n, hn, rfl⟩ := copied_of_not_short h hval
  exact length_strdupLoop_lt hbody hn

end

/-! ## Pieces of strings -/

/-- The copy of a piece: of a code unit all but its backslash. -/
def copyPiece : Piece → Bytes
  | .plain c _ _ _ => String.utf8EncodeChar c
  | .escape e => [unescapeByte e.byte]
  | .unicode a b c d => [117, a.byte, b.byte, c.byte, d.byte]

/-- The piece is no code unit. -/
def IsPlain : Piece → Prop
  | .plain .. => True
  | .escape _ => True
  | .unicode .. => False

instance (p : Piece) : Decidable (IsPlain p) := by
  cases p <;> unfold IsPlain <;> infer_instance

section

variable {s : List Piece} {c : Char} {b : UInt8}

/-- A text without a quotation mark and a backslash is a body. -/
theorem isBody_of_notMem {t : Bytes} (hquote : 34 ∉ t) (hbackslash : 92 ∉ t) : isBody t := by
  induction t with
  | nil => rfl
  | cons c t ih =>
    rw [List.mem_cons, not_or] at hquote hbackslash
    rw [isBody_of_ne fun h => hbackslash.1 h.symm, Bool.and_eq_true, decide_eq_true_iff]
    exact ⟨fun h => hquote.1 h.symm, ih hquote.2 hbackslash.2⟩

/-- A text without a backslash is copied as it is. -/
theorem strdupLoop_of_notMem {t : Bytes} (h : 92 ∉ t) : strdupLoop t.length t = t := by
  rw [strdupLoop_eq_take h, List.take_length]

/-- A piece is a body. -/
theorem isBody_render (p : Piece) : isBody p.render := by
  cases p with
  | plain c control quote backslash =>
    exact isBody_of_notMem (notMem_utf8EncodeChar (by decide) quote)
      (notMem_utf8EncodeChar (by decide) backslash)
  | escape e => rfl
  | unicode a b c d =>
    have hd := fun d : HexDigit => (hexDigit_byte d).2
    refine (isBody_escape 117 _).trans (isBody_of_notMem ?_ ?_)
    · simp [(hd _).1.symm]
    · simp [(hd _).2.symm]

/-- The copy of a piece. -/
theorem strdupLoop_render (p : Piece) : strdupLoop p.render.length p.render = copyPiece p := by
  cases p with
  | plain c control quote backslash =>
    exact strdupLoop_of_notMem (notMem_utf8EncodeChar (by decide) backslash)
  | escape e => rfl
  | unicode a b c d =>
    have hd := fun d : HexDigit => (hexDigit_byte d).2.2
    refine congrArg (117 :: ·) (strdupLoop_of_notMem (t := [a.byte, b.byte, c.byte, d.byte]) ?_)
    simp [(hd _).symm]

/-- The pieces of a string are a body. -/
theorem isBody_renderPieces (s : List Piece) : isBody (renderPieces s) := by
  induction s with
  | nil => rfl
  | cons p s ih => exact isBody_append (isBody_render p) ih

/-- The pieces are copied one by one. -/
theorem strdupLoop_renderPieces (s : List Piece) :
    strdupLoop (renderPieces s).length (renderPieces s) = s.flatMap copyPiece := by
  induction s with
  | nil => rfl
  | cons p s ih =>
    rw [renderPieces, List.flatMap_cons, List.length_append, List.flatMap_cons,
      strdupLoop_append_add (isBody_render p), strdupLoop_render]
    exact congrArg (copyPiece p ++ ·) ih

/-- A piece has at least one byte. -/
theorem renderPieces_ne_nil (h : s ≠ []) : renderPieces s ≠ [] := by
  obtain ⟨p, s, rfl⟩ := List.exists_cons_of_ne_nil h
  have hp : p.render ≠ [] := by
    cases p with
    | plain c => exact String.utf8EncodeChar_ne_nil
    | escape e => exact List.cons_ne_nil _ _
    | unicode => exact List.cons_ne_nil _ _
  simp [renderPieces, hp]

/-- Without code units the copy is the text. -/
theorem textOf_of_plain (h : ∀ p ∈ s, IsPlain p) : textOf s = some (s.flatMap copyPiece) := by
  induction s with
  | nil => rfl
  | cons p s ih =>
    have hs := ih fun q hq => h q (List.mem_cons_of_mem p hq)
    unfold textOf at hs ⊢
    obtain ⟨cs, hcs, hcopy⟩ := Option.map_eq_some_iff.mp hs
    cases p with
    | plain c control quote backslash =>
      rw [decode, hcs, List.flatMap_cons, ← hcopy]
      rfl
    | escape e =>
      have hchar : String.utf8EncodeChar e.char = [unescapeByte e.byte] := by cases e <;> decide
      rw [decode, hcs, List.flatMap_cons, ← hcopy, copyPiece, ← hchar]
      rfl
    | unicode a b c d => exact (h _ List.mem_cons_self).elim

/-- The text is shorter than the copy by at least the number of the code units. -/
theorem length_utf8_le {cs : List Char} (h : decode s = some cs) :
    (utf8 cs).length + s.countP (fun p => ¬IsPlain p) ≤ (s.flatMap copyPiece).length := by
  have hone : ∀ c : Char, (String.utf8EncodeChar c).length ≤ 4 := fun c => by
    rw [String.length_utf8EncodeChar]
    exact Char.utf8Size_le_four c
  -- by the cases of the decoder
  induction s using decode.induct generalizing cs with
  | case1 =>
    obtain rfl := Option.some.inj h
    rfl
  | case2 c control quote backslash s ih =>
    obtain ⟨cs, hcs, rfl⟩ := Option.map_eq_some_iff.mp h
    have := ih hcs
    rw [List.countP_cons_of_neg (by simp [IsPlain]), utf8, List.flatMap_cons, List.flatMap_cons,
      List.length_append, List.length_append]
    exact (Nat.add_assoc _ _ _).trans_le (Nat.add_le_add_left this _)
  | case3 e s ih =>
    obtain ⟨cs, hcs, rfl⟩ := Option.map_eq_some_iff.mp h
    have := ih hcs
    have hchar : String.utf8EncodeChar e.char = [unescapeByte e.byte] := by cases e <;> decide
    rw [List.countP_cons_of_neg (by simp [IsPlain]), utf8, List.flatMap_cons, List.flatMap_cons,
      List.length_append, List.length_append, hchar]
    exact (Nat.add_assoc _ _ _).trans_le (Nat.add_le_add_left this _)
  -- two units make one character of four bytes at most
  | case4 a b c d hhigh a' b' c' d' s hlow ih =>
    rw [decode, if_pos hhigh, if_pos hlow] at h
    obtain ⟨cs, hcs, rfl⟩ := Option.map_eq_some_iff.mp h
    have hs := ih hcs
    have hc := hone (Char.ofNat (0x10000 + (codeUnit a b c d - 0xD800) * 0x400 +
      (codeUnit a' b' c' d' - 0xDC00)))
    rw [List.countP_cons_of_pos (by simp [IsPlain]), List.countP_cons_of_pos (by simp [IsPlain]),
      utf8, List.flatMap_cons, List.flatMap_cons, List.flatMap_cons, List.length_append,
      List.length_append, List.length_append]
    unfold utf8 at hs
    simp only [copyPiece, List.length_cons, List.length_nil]
    omega
  | case5 a b c d hhigh a' b' c' d' s hlow =>
    rw [decode, if_pos hhigh, if_neg hlow] at h
    cases h
  | case6 a b c d s hhigh hs =>
    rw [decode, if_pos hhigh] at h
    · cases h
    · exact hs
  | case7 a b c d s hhigh hlow =>
    rw [decode_of_not_high hhigh, if_pos hlow] at h
    cases h
  -- a unit that stands for a character
  | case8 a b c d s hhigh hlow ih =>
    rw [decode_of_not_high hhigh, if_neg hlow] at h
    obtain ⟨cs, hcs, rfl⟩ := Option.map_eq_some_iff.mp h
    have hs := ih hcs
    have hc := hone (Char.ofNat (codeUnit a b c d))
    rw [List.countP_cons_of_pos (by simp [IsPlain]), utf8, List.flatMap_cons, List.flatMap_cons,
      List.length_append, List.length_append]
    unfold utf8 at hs
    simp only [copyPiece, List.length_cons, List.length_nil]
    omega

/-- No piece is a code unit. -/
def Simple (s : List Piece) : Prop := ∀ p ∈ s, IsPlain p

instance (s : List Piece) : Decidable (Simple s) := inferInstanceAs (Decidable (∀ p ∈ s, _))

/-- The code reads a short string of simple pieces as its text. -/
theorem agree_of_simple (h : Simple s) (hshort : Short (renderPieces s)) :
    Agree textOf (copied ∘ renderPieces) s := by
  refine ⟨_, textOf_of_plain h, ?_⟩
  exact (copied_of_short hshort).trans (congrArg some (strdupLoop_renderPieces s))

/-- A copy that is the text is that of a string without code units, and whole. -/
theorem simple_of_agree (h : Agree textOf (copied ∘ renderPieces) s)
    (hor : Simple s ∨ Short (renderPieces s)) : Simple s ∧ Short (renderPieces s) := by
  obtain ⟨text, htext, hcopied⟩ := h
  rw [Function.comp_apply] at hcopied
  by_cases hshort : Short (renderPieces s)
  · -- each code unit would make the copy longer than the text
    refine ⟨fun p hp => ?_, hshort⟩
    rw [copied_of_short hshort, strdupLoop_renderPieces] at hcopied
    obtain ⟨cs, hcs, rfl⟩ := Option.map_eq_some_iff.mp htext
    have hle := length_utf8_le hcs
    rw [Option.some.inj hcopied] at hle
    have hzero : s.countP (fun p => ¬IsPlain p) = 0 := by omega
    simpa using List.countP_eq_zero.mp hzero p hp
  · have hsimple := hor.resolve_right hshort
    rw [textOf_of_plain hsimple] at htext
    have hlt := length_lt_of_copied (isBody_renderPieces s) hshort hcopied
    rw [strdupLoop_renderPieces, Option.some.inj htext] at hlt
    exact absurd hlt (lt_irrefl _)

end

/-! ## Numbers -/

/-- A digit is a byte of a number. -/
theorem isNumberByte_digitByte (d : Fin 10) : isNumberByte (digitByte d) = true := by
  revert d
  decide

/-- Digits are bytes of a number. -/
theorem isNumberByte_of_mem_digits {d : Digits} {c : UInt8} (h : c ∈ d.render) :
    isNumberByte c := by
  rcases List.mem_cons.mp h with rfl | h
  · exact isNumberByte_digitByte d.first
  · obtain ⟨e, -, rfl⟩ := List.mem_map.mp h
    exact isNumberByte_digitByte e

/-- A number has no other bytes. -/
theorem isNumberByte_of_mem_render {n : Number} {c : UInt8} (h : c ∈ n.render) :
    isNumberByte c := by
  -- a number has four parts
  obtain ⟨minus, integer, fraction, exponent⟩ := n
  unfold Number.render at h
  simp only [List.mem_append] at h
  rcases h with h | h | h | h
  · split_ifs at h
    · rw [List.mem_singleton.mp h]
      rfl
    · cases h
  · cases integer with
    | zero =>
      rw [List.mem_singleton.mp h]
      rfl
    | digits first rest =>
      rcases List.mem_cons.mp h with rfl | h
      · exact isNumberByte_digitByte first.succ
      · obtain ⟨e, -, rfl⟩ := List.mem_map.mp h
        exact isNumberByte_digitByte e
  · cases fraction with
    | none => cases h
    | some d =>
      rcases List.mem_cons.mp h with rfl | h
      · rfl
      · exact isNumberByte_of_mem_digits h
  · cases exponent with
    | none => cases h
    | some e =>
      obtain ⟨upper, sign, digits⟩ := e
      rcases List.mem_cons.mp h with rfl | h
      · cases upper <;> rfl
      · rcases List.mem_append.mp h with h | h
        · cases sign with
          | none => cases h
          | some plus =>
            rw [List.mem_singleton.mp h]
            cases plus <;> rfl
        · exact isNumberByte_of_mem_digits h

/-- A number is a text of number bytes that begins as the parser wants. -/
theorem numberText_render (n : Number) : NumberText n.render := by
  refine ⟨fun c => isNumberByte_of_mem_render, ?_⟩
  obtain ⟨minus, integer, fraction, exponent⟩ := n
  cases minus with
  | true => exact ⟨45, rfl, .inl rfl⟩
  | false =>
    cases integer with
    | zero => exact ⟨48, rfl, .inr rfl⟩
    | digits first rest =>
      exact ⟨digitByte (first + 1), rfl, .inr (isDigit_digitByte (by omega))⟩

/-- A number is read as its text just if it is short. -/
theorem agree_number_iff (n : Number) :
    Agree (fun n => some n.render) (copied ∘ Number.render) n ↔ Short n.render := by
  have hbody := isBody_of_isNumberByte (numberText_render n).1
  have hcopy : strdupLoop n.render.length n.render = n.render :=
    strdupLoop_of_notMem fun h => absurd ((numberText_render n).1 92 h) (by decide)
  constructor
  · rintro ⟨text, htext, hcopied⟩
    by_contra hshort
    obtain rfl := Option.some.inj htext
    have hlt := length_lt_of_copied hbody hshort hcopied
    rw [hcopy] at hlt
    exact lt_irrefl _ hlt
  · intro hshort
    exact ⟨_, rfl, (copied_of_short hshort).trans (congrArg some hcopy)⟩

/-! ## Documents -/

/-- What RFC 8259 makes of tokens; an empty string has no value. -/
def rfc : Meaning (List Piece) Number where
  name := textOf
  string s := if s = [] then some none else (textOf s).map some
  number n := some n.render

/-- The parser returns the tree of the document. -/
def Decodes (fuel : ℕ) (doc : Document) : Prop :=
  ∃ child pos, treeOf rfc doc.text = some child ∧
    (adxJsonParse fuel doc.render).outcome = .ok ⟨.unset, none, none, child⟩ pos

/-- No name and no string has a code unit, and each token is short. -/
def plainAndShort : Text.Condition (List Piece) Number (List Blank) where
  name s := Simple s ∧ Short (renderPieces s)
  string s := Simple s ∧ Short (renderPieces s)
  number n := Short n.render
  blanks _ := True
  gap := True

/-- Each name and each string that has a code unit is short. -/
def plainOrShort : Text.Condition (List Piece) Number (List Blank) where
  name s := Simple s ∨ Short (renderPieces s)
  string s := Simple s ∨ Short (renderPieces s)
  number _ := True
  blanks _ := True
  gap := True

section

variable {doc : Document} {fuel : ℕ}

/-- The four blanks are white space to the code. -/
theorem blanks_renderBlanks (b : List Blank) : Blanks (renderBlanks b) := by
  intro c hc
  obtain ⟨blank, -, rfl⟩ := List.mem_map.mp hc
  cases blank <;> decide

/-- A document has no zero byte. -/
theorem zero_notMem_document (doc : Document) : 0 ∉ doc.render := by
  have hblanks : ∀ b, (0 : UInt8) ∉ renderBlanks b := fun b h => (blanks_renderBlanks b 0 h).2 rfl
  have htext : (0 : UInt8) ∉ (doc.text.map renderPieces Number.render renderBlanks).render := by
    refine Text.zero_notMem_render (Text.all_map.mpr (doc.named.mono ?_ ?_ ?_ ?_ nofun))
    · exact fun s _ => zero_notMem_renderPieces s
    · exact fun s _ => zero_notMem_renderPieces s
    · exact fun n _ h => absurd (isNumberByte_of_mem_render h) (by decide)
    · exact fun b _ => hblanks b
  simp [Document.render, hblanks, htext]

/-- The tree that the parser makes of a document. -/
theorem outcome_document (hfuel : doc.render.length < fuel) :
    (adxJsonParse fuel doc.render).outcome =
      .ofOption ((treeOf (read.comap renderPieces Number.render) doc.text).map fun child =>
        ⟨.unset, none, none, child⟩) (some (renderBlanks doc.after)) := by
  have hall : (doc.text.map renderPieces Number.render renderBlanks).All lexical := by
    refine Text.all_map.mpr (doc.named.mono ?_ ?_ ?_ ?_ nofun)
    · exact fun s _ => isBody_renderPieces s
    · exact fun s _ => isBody_renderPieces s
    · exact fun n _ => numberText_render n
    · exact fun b _ => blanks_renderBlanks b
  have hzero := zero_notMem_document doc
  unfold Document.render at hfuel hzero ⊢
  simp only [List.length_append, List.length_cons] at hfuel
  rw [outcome_adxJsonParse hall (Text.wellKeyed_map.mpr doc.wellKeyed)
    (Text.hasEntry_map.mpr doc.hasEntry) (blanks_renderBlanks doc.before) hzero (by omega),
    treeOf_map]

/-- The code decodes a document just if its copies agree with the texts. -/
theorem decodes_iff_agree (hfuel : doc.render.length < fuel) :
    Decodes fuel doc ↔
      Agree (treeOf rfc) (treeOf (read.comap renderPieces Number.render)) doc.text := by
  unfold Decodes Agree
  rw [outcome_document hfuel]
  refine exists_congr fun child => ?_
  rw [exists_and_left]
  refine and_congr_right fun _ => ?_
  cases treeOf (read.comap renderPieces Number.render) doc.text with
  | none => exact iff_of_false nofun nofun
  | some tree =>
    constructor
    · rintro ⟨pos, h⟩
      injection h with h
      injection h with _ _ _ h
      rw [h]
    · intro h
      obtain rfl := Option.some.inj h
      exact ⟨_, rfl⟩

/-- A short name of simple pieces is read as its text. -/
theorem agree_name_of_simple {s : List Piece} (hne : s ≠ []) (h : Simple s)
    (hshort : Short (renderPieces s)) :
    Agree rfc.name (read.comap renderPieces Number.render).name s := by
  obtain ⟨val, htext, hcopied⟩ := agree_of_simple h hshort
  refine ⟨val, htext, ?_⟩
  have hpos := List.length_pos_iff.mpr (renderPieces_ne_nil hne)
  unfold Short at hshort
  have hlen : toInt32 ((renderPieces s).length : ℤ) = (renderPieces s).length :=
    toInt32_of_bounds (by omega) (by omega)
  change (if toInt32 ((renderPieces s).length : ℤ) = 0 then none else _) = _
  rw [hlen, if_neg (by omega)]
  exact hcopied

/-- If a name is read right, so is its copy. -/
theorem agree_copied_of_name {s : List Piece}
    (h : Agree rfc.name (read.comap renderPieces Number.render).name s) :
    Agree textOf (copied ∘ renderPieces) s := by
  obtain ⟨val, htext, hname⟩ := h
  refine ⟨val, htext, ?_⟩
  change (if toInt32 ((renderPieces s).length : ℤ) = 0 then none else _) = _ at hname
  split_ifs at hname
  exact hname

/-- A string is read right just if it is empty or its copy is its text. -/
theorem agree_string_iff {s : List Piece} :
    Agree rfc.string (read.comap renderPieces Number.render).string s ↔
      s = [] ∨ Agree textOf (copied ∘ renderPieces) s := by
  by_cases hs : s = []
  · subst hs
    exact iff_of_true ⟨none, rfl, rfl⟩ (.inl rfl)
  · have hrfc : rfc.string s = (textOf s).map some := if_neg hs
    have hread : (read.comap renderPieces Number.render).string s =
        ((copied ∘ renderPieces) s).map some := if_neg (renderPieces_ne_nil hs)
    rw [or_iff_right hs]
    refine Iff.trans ?_ (agree_map (Option.some_injective _) s)
    unfold Agree
    rw [hrfc, hread]

/-- The parser returns the tree of a document in which all tokens are plain and short; and if its
tokens are plain or short, it does so only then. -/
theorem decodes_iff (hfuel : doc.render.length < fuel) :
    (doc.text.All plainAndShort → Decodes fuel doc) ∧
      (doc.text.All plainOrShort → Decodes fuel doc → doc.text.All plainAndShort) := by
  rw [decodes_iff_agree hfuel, agree_treeOf_iff]
  constructor
  · intro h
    refine (doc.named.and h).mono ?_ ?_ ?_ (fun _ _ => trivial) fun h => h.1
    · exact fun s hs => agree_name_of_simple hs.1 hs.2.1 hs.2.2
    · exact fun s hs => agree_string_iff.mpr (.inr (agree_of_simple hs.2.1 hs.2.2))
    · exact fun n hn => (agree_number_iff n).mpr hn.2
  · intro hor h
    refine (hor.and h).mono ?_ ?_ ?_ (fun _ _ => trivial) fun _ => trivial
    · exact fun s hs => simple_of_agree (agree_copied_of_name hs.2) hs.1
    · rintro s ⟨hor, h⟩
      rcases agree_string_iff.mp h with rfl | h
      · exact ⟨nofun, by decide⟩
      · exact simple_of_agree h hor
    · exact fun n hn => (agree_number_iff n).mp hn.2

end

/-! ## Two documents -/

/-- An object with one member, whose name is `a`. -/
def sampleDocument (s : List Piece) : Document where
  before := []
  text := .leaf [] (some ⟨[.plain (Char.ofNat 97) (by decide) (by decide) (by decide)], [], []⟩)
    (.string s) [] .nil
  after := []
  hasEntry := trivial
  wellKeyed := ⟨rfl, trivial⟩
  named := by
    refine ⟨trivial, ?_, trivial, trivial, trivial⟩
    rintro n ⟨⟩
    exact ⟨List.cons_ne_nil _ _, trivial, trivial⟩

/-- `{"a":"\n"}` -/
theorem escape_decodes : Decodes 11 (sampleDocument [.escape .lineFeed]) := by
  refine (decodes_iff (by decide)).1 ⟨trivial, ?_, ⟨by decide, by decide⟩, trivial, trivial⟩
  rintro n ⟨⟩
  exact ⟨⟨by decide, by decide⟩, trivial, trivial⟩

/-- An object whose member has a code unit, that of `A`. -/
def sampleUnicode : Document :=
  sampleDocument [.unicode ⟨0, false⟩ ⟨0, false⟩ ⟨4, false⟩ ⟨1, false⟩]

/-- The value of the member is not `A`, but `u0041`. -/
theorem unicode_not_decoded : ¬Decodes 16 sampleUnicode ∧
    treeOf rfc sampleUnicode.text =
      some (.cons .string (some (bytes "a")) (some (bytes "A")) .nil .nil) ∧
    (adxJsonParse 16 sampleUnicode.render).outcome = .ok ⟨.unset, none, none,
      .cons .string (some (bytes "a")) (some (bytes "u0041")) .nil .nil⟩ (some []) := by
  have htree : treeOf rfc sampleUnicode.text =
      some (.cons .string (some (bytes "a")) (some (bytes "A")) .nil .nil) := by decide
  have houtcome : (adxJsonParse 16 sampleUnicode.render).outcome = .ok ⟨.unset, none, none,
      .cons .string (some (bytes "a")) (some (bytes "u0041")) .nil .nil⟩ (some []) := by rfl
  refine ⟨?_, htree, houtcome⟩
  rintro ⟨child, pos, hchild, hout⟩
  rw [houtcome] at hout
  rw [htree] at hchild
  injection hout with hroot
  injection hroot with _ _ _ hlist
  exact absurd ((Option.some.inj hchild).trans hlist.symm) (by decide)

end Json

end AdxDsp
