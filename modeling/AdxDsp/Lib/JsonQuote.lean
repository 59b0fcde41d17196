import AdxDsp.Lib.JsonText
import AdxDsp.Lib.Replace

/-!
# A JSON text as a JSON string

A text becomes the body of a string when its quotes get a backslash each.  Its backslashes would
need one as well.

* `quoted`: the text with its quotes escaped.
* `fits_renderPieces`: the body of a string is longer than its text by the quotes at least.
* `quoted_right_iff`: the texts that the string gives back.
-/

namespace JsonText

open CText

/-- A backslash before each quote. -/
def quoted (t : Bytes) : Bytes := replaceAll [34] [92, 34] t

/-- Characters without an escape, and no control characters. -/
def Visible (t : Bytes) : Prop :=
  ∃ cs, utf8 cs = t ∧ ∀ c ∈ cs, 32 ≤ c.toNat ∧ c.toNat ≠ 92

section

variable {t t' : Bytes} {b : UInt8} {c : Char} {cs : List Char} {s : List Piece}

/-- The empty text needs no backslash. -/
@[simp] theorem quoted_nil : quoted [] = [] := by
  rw [quoted, replaceAll]

/-- A quotation mark gets a backslash, any other byte none. -/
theorem quoted_cons : quoted (b :: t) = (if b = 34 then [92, 34] else [b]) ++ quoted t := by
  rw [quoted, replaceAll]
  by_cases hb : b = 34
  · simp [hb, quoted]
  · have hb' : (34 : UInt8) ≠ b := Ne.symm hb
    simp [hb, hb', quoted]

/-- The parts of a text are quoted by themselves. -/
theorem quoted_append : quoted (t ++ t') = quoted t ++ quoted t' := by
  induction t with
  | nil => simp
  | cons b t ih => simp [quoted_cons, ih]

/-- Each quote makes the text longer by one byte. -/
theorem length_quoted : (quoted t).length = t.length + t.count 34 := by
  induction t with
  | nil => simp
  | cons b t ih =>
    rw [quoted_cons, List.length_append, ih, List.length_cons, List.count_cons]
    by_cases hb : b = 34
    · simp [hb]
      omega
    · simp [hb]
      omega

/-- A text without a quotation mark stays as it is. -/
theorem quoted_of_notMem (h : 34 ∉ t) : quoted t = t := by
  induction t with
  | nil => simp
  | cons b t ih =>
    rw [List.mem_cons, not_or] at h
    rw [quoted_cons, ih h.2, if_neg (Ne.symm h.1)]
    rfl

/-- The empty text is visible. -/
theorem visible_nil : Visible [] := ⟨[], rfl, by simp⟩

/-- Two visible texts in a row are visible. -/
theorem Visible.append (h : Visible t) (h' : Visible t') : Visible (t ++ t') := by
  obtain ⟨cs, rfl, hcs⟩ := h
  obtain ⟨cs', rfl, hcs'⟩ := h'
  refine ⟨cs ++ cs', by simp [utf8], fun c hc => ?_⟩
  exact (List.mem_append.mp hc).elim (hcs c) (hcs' c)

/-- Bytes of ASCII that can be seen. -/
theorem visible_of_ascii (h : ∀ b ∈ t, 32 ≤ b ∧ b < 128 ∧ b ≠ 92) : Visible t := by
  induction t with
  | nil => exact visible_nil
  | cons b t ih =>
    obtain ⟨⟨hlo, hhi, hne⟩, ht⟩ := List.forall_mem_cons.mp h
    rw [UInt8.le_iff_toNat_le] at hlo
    rw [UInt8.lt_iff_toNat_lt] at hhi
    have hnat : (Char.ofNat b.toNat).toNat = b.toNat := by
      rw [Char.toNat_ofNat, if_pos]
      exact .inl (hhi.trans (by decide))
    have hbyte : Visible [b] := by
      refine ⟨[Char.ofNat b.toNat], ?_, fun c hc => ?_⟩
      · rw [utf8, List.flatMap_singleton, utf8EncodeChar_ascii (by rw [hnat]; exact hhi), hnat,
          UInt8.ofNat_toNat]
      · rw [List.mem_singleton.mp hc, hnat]
        exact ⟨hlo, fun h => hne (UInt8.toNat_inj.mp h)⟩
    exact hbyte.append (ih ht)

/-- The body of a string without escapes. -/
theorem visible_renderPieces (h : 92 ∉ renderPieces s) : Visible (renderPieces s) := by
  induction s with
  | nil => exact visible_nil
  | cons p s ih =>
    rw [renderPieces, List.flatMap_cons, List.mem_append, not_or] at h
    have hpiece : Visible p.render := by
      cases p with
      | plain c control quote backslash =>
        exact ⟨[c], List.flatMap_singleton _ _, by simp [control, backslash]⟩
      | escape e => exact absurd h.1 (by simp [Piece.render])
      | unicode a b c d => exact absurd h.1 (by simp [Piece.render])
    exact hpiece.append (ih h.2)

/-- A visible text has no backslash. -/
theorem Visible.notMem (h : Visible t) : 92 ∉ t := by
  obtain ⟨cs, rfl, hcs⟩ := h
  intro hmem
  obtain ⟨c, hc, hmem⟩ := List.mem_flatMap.mp hmem
  exact notMem_utf8EncodeChar (by decide) (hcs c hc).2 hmem

/-! ## The string -/

/-- The bytes of a character with its quotes escaped. -/
def cost (c : Char) : ℕ := (String.utf8EncodeChar c).length + (String.utf8EncodeChar c).count 34

/-- Only the quotation mark costs more than its bytes. -/
theorem cost_of_ne (h : c.toNat ≠ 34) : cost c = (String.utf8EncodeChar c).length := by
  rw [cost, List.count_eq_zero.mpr (notMem_utf8EncodeChar (by decide) h), Nat.add_zero]

/-- No character costs more than four bytes. -/
theorem cost_le_four (c : Char) : cost c ≤ 4 := by
  by_cases h : c.toNat = 34
  · rw [cost, utf8EncodeChar_ascii (by omega), h]
    decide
  · rw [cost_of_ne h, String.length_utf8EncodeChar]
    exact Char.utf8Size_le_four c

/-- The length of a quoted text, character by character. -/
theorem length_quoted_utf8 (cs : List Char) : (quoted (utf8 cs)).length = (cs.map cost).sum := by
  induction cs with
  | nil => simp [utf8]
  | cons c cs ih =>
    rw [utf8, List.flatMap_cons, quoted_append, List.length_append, length_quoted, List.map_cons,
      List.sum_cons, ← ih]
    rfl

/-- A piece that is no longer than it has to be stands for a character without an escape. -/
def Fits (n : ℕ) (cs : List Char) : Prop :=
  (cs.map cost).sum ≤ n ∧ (n ≤ (cs.map cost).sum → ∀ c ∈ cs, 32 ≤ c.toNat ∧ c.toNat ≠ 92)

/-- A character in front needs its own part of the room. -/
theorem Fits.cons {m n : ℕ} (h : Fits n cs) (hc : cost c ≤ m)
    (heq : m ≤ cost c → 32 ≤ c.toNat ∧ c.toNat ≠ 92) : Fits (m + n) (c :: cs) := by
  obtain ⟨hle, hvisible⟩ := h
  rw [Fits, List.map_cons, List.sum_cons]
  refine ⟨by omega, fun hall => ?_⟩
  exact List.forall_mem_cons.mpr ⟨heq (by omega), hvisible (by omega)⟩

/-- The body of a string has no fewer bytes than its text with the quotes escaped, and as many only
if nothing else is escaped. -/
theorem fits_renderPieces (h : decode s = some cs) : Fits (renderPieces s).length cs := by
  induction s using decode.induct generalizing cs with
  | case1 =>
    obtain rfl := Option.some.inj h
    exact ⟨le_rfl, by simp⟩
  | case2 c control quote backslash s ih =>
    obtain ⟨cs, hcs, rfl⟩ := Option.map_eq_some_iff.mp h
    rw [renderPieces, List.flatMap_cons, List.length_append]
    exact (ih hcs).cons (cost_of_ne quote).le fun _ => ⟨control, backslash⟩
  | case3 e s ih =>
    obtain ⟨cs, hcs, rfl⟩ := Option.map_eq_some_iff.mp h
    rw [renderPieces, List.flatMap_cons, List.length_append]
    -- a quote needs its backslash, the other characters do not
    refine (ih hcs).cons ?_ fun hle => ?_
    · cases e <;> decide
    · cases e <;> first | exact ⟨by decide, by decide⟩ | exact absurd hle (by decide)
  | case4 a b c d hhigh a' b' c' d' s hlow ih =>
    rw [decode, if_pos hhigh, if_pos hlow] at h
    obtain ⟨cs, hcs, rfl⟩ := Option.map_eq_some_iff.mp h
    have hcost := cost_le_four (Char.ofNat (0x10000 + (codeUnit a b c d - 0xD800) * 0x400 +
      (codeUnit a' b' c' d' - 0xDC00)))
    rw [renderPieces, List.flatMap_cons, List.flatMap_cons, ← List.append_assoc,
      List.length_append]
    have hlength : ((Piece.unicode a b c d).render ++ (Piece.unicode a' b' c' d').render).length =
      12 := rfl
    exact (ih hcs).cons (by omega) fun hle => by omega
  | case5 a b c d hhigh a' b' c' d' s hlow =>
    rw [decode, if_pos hhigh, if_neg hlow] at h
    cases h
  | case6 a b c d s hhigh hs =>
    rw [decode, if_pos hhigh] at h
    · cases h
    · exact hs
  | case7 a b c d s hhigh hlow =>
    rw [decode_of_not_high hhigh, if_pos hlow] at h
    cases h
  | case8 a b c d s hhigh hlow ih =>
    rw [decode_of_not_high hhigh, if_neg hlow] at h
    obtain ⟨cs, hcs, rfl⟩ := Option.map_eq_some_iff.mp h
    have hcost := cost_le_four (Char.ofNat (codeUnit a b c d))
    rw [renderPieces, List.flatMap_cons, List.length_append]
    have hlength : (Piece.unicode a b c d).render.length = 6 := rfl
    exact (ih hcs).cons (by omega) fun hle => by omega

/-- A character without an escape, apart from the quote. -/
theorem exists_piece_of_visible (hlo : 32 ≤ c.toNat) (hne : c.toNat ≠ 92) : ∃ p : Piece,
    p.render = quoted (String.utf8EncodeChar c) ∧
      ∀ s, decode (p :: s) = (decode s).map (c :: ·) := by
  by_cases hquote : c.toNat = 34
  · obtain rfl : c = Escape.quote.char := by
      rw [← Char.ofNat_toNat c, hquote]
      rfl
    refine ⟨.escape .quote, ?_, fun s => rfl⟩
    have hbytes : String.utf8EncodeChar Escape.quote.char = [34] := by decide
    rw [hbytes, quoted_cons, quoted_nil]
    rfl
  · refine ⟨.plain c hlo hquote hne, ?_, fun s => rfl⟩
    exact (quoted_of_notMem (notMem_utf8EncodeChar (by decide) hquote)).symm

/-- A text with its quotes escaped is the body of a string that stands for it if and only if the
text has characters without an escape only. -/
theorem quoted_right_iff :
    (∃ s, renderPieces s = quoted t ∧ textOf s = some t) ↔ Visible t := by
  constructor
  · rintro ⟨s, hs, htext⟩
    obtain ⟨cs, hcs, rfl⟩ := Option.map_eq_some_iff.mp htext
    refine ⟨cs, rfl, (fits_renderPieces hcs).2 ?_⟩
    rw [hs, length_quoted_utf8]
  · rintro ⟨cs, rfl, hcs⟩
    suffices h : ∃ s, renderPieces s = quoted (utf8 cs) ∧ decode s = some cs by
      obtain ⟨s, hs, hdecode⟩ := h
      exact ⟨s, hs, by rw [textOf, hdecode]; rfl⟩
    induction cs with
    | nil => exact ⟨[], by simp [renderPieces, utf8], rfl⟩
    | cons c cs ih =>
      obtain ⟨⟨hlo, hne⟩, hrest⟩ := List.forall_mem_cons.mp hcs
      obtain ⟨s, hs, hdecode⟩ := ih hrest
      obtain ⟨p, hp, hpdecode⟩ := exists_piece_of_visible hlo hne
      refine ⟨p :: s, ?_, by rw [hpdecode, hdecode]; rfl⟩
      rw [renderPieces, List.flatMap_cons, hp, utf8, List.flatMap_cons, quoted_append, ← utf8, ← hs]
      rfl

end

end JsonText
