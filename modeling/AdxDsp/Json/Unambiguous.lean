import AdxDsp.Json.Decode

/-!
# Texts and their tokens

The tokens of a JSON text are determined by its bytes: a text without blanks has the tokens of any
text with the same bytes.

* `scalar_inj`, `name_inj`: one token.
* `render_inj`: the members of an object, or the elements of an array.
-/

namespace AdxDsp

open CText JsonText

namespace Json

/-- The tokens of a text without blanks. -/
def compact : Text.Condition Bytes Bytes Bytes :=
  ⟨fun s => isBody s, fun s => isBody s, NumberText, (· = []), True⟩

/-- The tokens of a text in which something follows each comma. -/
def complete : Text.Condition Bytes Bytes Bytes :=
  ⟨fun s => isBody s, fun s => isBody s, NumberText, Blanks, False⟩

/-- What stands behind a value: no blank, and no part of a number. -/
def Ends (s : Bytes) : Prop := ∃ c t, s = c :: t ∧ ¬isBlank c ∧ ¬isNumberByte c

section

variable {a b w x y n : Bytes} {c : UInt8} {value value' : Scalar Bytes Bytes Bytes}
  {name name' : Option (Name Bytes Bytes)} {t t' : Text Bytes Bytes Bytes} {keyed : Bool}

/-- A compact text is lexically one. -/
theorem compact_lexical (h : t.All compact) : t.All lexical :=
  h.mono (fun _ => id) (fun _ => id) (fun _ => id) (fun _ hb => hb ▸ nofun) fun _ => trivial

/-- A complete text is lexically one. -/
theorem complete_lexical (h : t.All complete) : t.All lexical :=
  h.mono (fun _ => id) (fun _ => id) (fun _ => id) (fun _ => id) nofun

/-! ## Blanks and quotation marks -/

/-- Where one text has no blank, the other one has none either. -/
theorem blanks_inj (hw : Blanks w) (hc : ¬isBlank c) (h : c :: x = w ++ y) :
    w = [] ∧ c :: x = y := by
  cases w with
  | nil => exact ⟨rfl, h⟩
  | cons d w =>
    injection h with hd
    exact absurd (hd ▸ (hw d List.mem_cons_self).1) hc

/-- White space before the end of a value is none. -/
theorem ends_inj (hw : Blanks w) (hx : Ends x) (h : x = w ++ y) : w = [] ∧ x = y := by
  obtain ⟨c, s, rfl, hc, -⟩ := hx
  exact blanks_inj hw hc h

/-- The bytes between quotation marks end at the first one that may close them. -/
theorem body_inj (ha : isBody a) (hb : isBody b) (h : a ++ 34 :: x = b ++ 34 :: y) :
    a = b ∧ x = y := by
  -- both end at the same place
  have hlen : a.length = b.length := by
    have hquote := congrArg closingQuote h
    rw [closingQuote_body ha, closingQuote_body hb] at hquote
    exact Option.some.inj hquote
  obtain ⟨hab, hxy⟩ := List.append_inj h hlen
  exact ⟨hab, (List.cons.inj hxy).2⟩

/-! ## One token -/

/-- The kinds of values, by their first bytes. -/
inductive Kind where
  | string
  | number
  | list
  | literal

/-- The kind of a value by its first byte. -/
def kindOf (c : UInt8) : Kind :=
  if c = 34 then .string
  else if isNumberByte c then .number
  else if c = 123 ∨ c = 91 then .list
  else .literal

/-- The kind of a value. -/
def kind : Scalar Bytes Bytes Bytes → Kind
  | .string _ => .string
  | .number _ => .number
  | .literal _ => .literal
  | .emptyList _ _ => .list

/-- A bracket begins a list. -/
theorem kindOf_openBracket (keyed : Bool) : kindOf (openBracket keyed) = .list := by
  cases keyed <;> rfl

/-- The first byte of a value tells its kind. -/
theorem exists_cons_scalar (h : lexical.OnScalar value) :
    ∃ c s, value.render = c :: s ∧ ¬isBlank c ∧ kindOf c = kind value := by
  cases value with
  | string s => exact ⟨34, _, rfl, by decide, rfl⟩
  | number n =>
    obtain ⟨hbytes, d, hd, -⟩ := h
    obtain ⟨e, n, rfl⟩ := List.exists_cons_of_ne_nil fun hn : n = [] => by rw [hn] at hd; cases hd
    have he := hbytes e List.mem_cons_self
    refine ⟨e, n, rfl, not_isBlank_of_isNumberByte he, ?_⟩
    have hne : e ≠ 34 := fun heq => absurd (heq ▸ he) (by decide)
    rw [kindOf, if_neg hne, if_pos he]
    rfl
  | literal l => cases l <;> exact ⟨_, _, rfl, by decide, rfl⟩
  | emptyList keyed b => exact ⟨_, _, rfl, not_isBlank_openBracket keyed, kindOf_openBracket keyed⟩

/-- Objects and arrays begin with different brackets. -/
theorem openBracket_inj {keyed' : Bool} (h : openBracket keyed = openBracket keyed') :
    keyed = keyed' := by
  revert h
  cases keyed <;> cases keyed' <;> decide

/-- A number goes up to the first byte of another sort. -/
theorem takeWhile_number (hn : ∀ c ∈ n, isNumberByte c) (hc : ¬isNumberByte c) (s : Bytes) :
    (n ++ c :: s).takeWhile isNumberByte = n := by
  rw [List.takeWhile_append_of_pos hn, List.takeWhile_cons_of_neg hc, List.append_nil]

/-- A compact value is lexically one. -/
theorem compact_scalar (h : compact.OnScalar value) : lexical.OnScalar value := by
  cases value with
  | string => exact h
  | number => exact h
  | literal => trivial
  | emptyList keyed b =>
    obtain rfl : b = [] := h
    exact nofun

/-- A complete value is lexically one. -/
theorem complete_scalar (h : complete.OnScalar value) : lexical.OnScalar value := by
  cases value <;> exact h

/-- A value without entries, in two texts. -/
theorem scalar_inj (hv : compact.OnScalar value) (hv' : complete.OnScalar value') (hw : Blanks w)
    (hx : Ends x) (hy : Ends y) (h : value.render ++ x = value'.render ++ (w ++ y)) :
    value = value' ∧ w = [] ∧ x = y := by
  have hkind : kind value = kind value' := by
    obtain ⟨c, s, hs, -, hc⟩ := exists_cons_scalar (compact_scalar hv)
    obtain ⟨c', s', hs', -, hc'⟩ := exists_cons_scalar (complete_scalar hv')
    rw [hs, hs'] at h
    injection h with h
    rw [← hc, ← hc', h]
  cases value with
  | string s =>
    cases value' with
    | string s' =>
      simp only [Scalar.render, List.cons_append, List.append_assoc, List.nil_append,
        List.cons.injEq, true_and] at h
      obtain ⟨rfl, hrest⟩ := body_inj hv hv' h
      exact ⟨rfl, ends_inj hw hx hrest⟩
    | number => cases hkind
    | literal => cases hkind
    | emptyList => cases hkind
  | number n =>
    cases value' with
    | number n' =>
      -- a number ends where no byte of a number follows
      have hsame : n = n' := by
        obtain ⟨c, s, rfl, -, hc⟩ := hx
        obtain ⟨d, u, rfl, -, hd⟩ := hy
        obtain ⟨e, v, he, hnot⟩ := exists_cons_of_blanks hw hd u
        rw [he] at h
        have htake := congrArg (List.takeWhile isNumberByte) h
        rwa [Scalar.render, Scalar.render, takeWhile_number hv.1 hc,
          takeWhile_number hv'.1 hnot] at htake
      subst hsame
      exact ⟨rfl, ends_inj hw hx (List.append_cancel_left h)⟩
    | string => cases hkind
    | literal => cases hkind
    | emptyList => cases hkind
  | literal l =>
    cases value' with
    | literal l' =>
      have hsame : l = l' := by
        have hhead := congrArg List.head? h
        cases l <;> cases l' <;> first
        | rfl
        | simp [Scalar.render, Literal.render, bytes] at hhead
      subst hsame
      exact ⟨rfl, ends_inj hw hx (List.append_cancel_left h)⟩
    | string => cases hkind
    | number => cases hkind
    | emptyList => cases hkind
  | emptyList keyed b =>
    cases value' with
    | emptyList keyed' b' =>
      obtain rfl : b = [] := hv
      simp only [Scalar.render, List.cons_append, List.append_assoc, List.nil_append,
        List.cons.injEq] at h
      obtain ⟨hopen, h⟩ := h
      obtain rfl := openBracket_inj hopen
      -- between the brackets the other text can have blanks only
      obtain ⟨rfl, h⟩ := blanks_inj hv' (not_isBlank_closeBracket keyed) h
      exact ⟨rfl, ends_inj hw hx (List.cons.inj h).2⟩
    | string => cases hkind
    | number => cases hkind
    | literal => cases hkind

/-- A name with its colon, or none, in two texts. -/
theorem name_inj (hn : compact.OnName name) (hn' : complete.OnName name')
    (hkeyed : name.isSome = name'.isSome) (hw : Blanks w) (hc : ¬isBlank c)
    (h : name.elim [] Name.render ++ c :: x = w ++ (name'.elim [] Name.render ++ y)) :
    w = [] ∧ name = name' ∧ c :: x = y := by
  cases name with
  | none =>
    obtain rfl : name' = none := Option.not_isSome_iff_eq_none.mp (by simp [← hkeyed])
    obtain ⟨rfl, h⟩ := blanks_inj hw hc h
    exact ⟨rfl, rfl, h⟩
  | some m =>
    obtain ⟨m', rfl⟩ := Option.isSome_iff_exists.mp hkeyed.symm
    obtain ⟨hm, hbefore, hafter⟩ := hn m rfl
    obtain ⟨hm', hbefore', hafter'⟩ := hn' m' rfl
    obtain ⟨k, before, after⟩ := m
    obtain ⟨k', before', after'⟩ := m'
    obtain rfl : before = [] := hbefore
    obtain rfl : after = [] := hafter
    obtain ⟨rfl, h⟩ := blanks_inj hw (show ¬isBlank 34 by decide) h
    simp only [Option.elim_some, Name.render, List.cons_append, List.append_assoc,
      List.nil_append, List.cons.injEq, true_and] at h
    obtain ⟨rfl, hcolon⟩ := body_inj hm hm' h
    obtain ⟨rfl, hcolon⟩ := blanks_inj hbefore' (show ¬isBlank 58 by decide) hcolon
    obtain ⟨rfl, hvalue⟩ := blanks_inj hafter' hc (List.cons.inj hcolon).2
    exact ⟨rfl, rfl, hvalue⟩

/-! ## Whole texts -/

/-- What follows a value ends it. -/
theorem ends_tail (t : Text Bytes Bytes Bytes) (s : Bytes) :
    Ends (t.comma ++ (t.render ++ closeBracket keyed :: s)) := by
  cases t with
  | nil =>
    refine ⟨closeBracket keyed, s, rfl, not_isBlank_closeBracket keyed, ?_⟩
    cases keyed <;> decide
  | gap => exact ⟨44, _, rfl, by decide, by decide⟩
  | leaf => exact ⟨44, _, rfl, by decide, by decide⟩
  | node => exact ⟨44, _, rfl, by decide, by decide⟩

/-- No entry starts with a closing bracket. -/
theorem closeBracket_ne (hentry : t.HasEntry) (ht : t.All lexical) (hw : Blanks w) :
    w ++ closeBracket keyed :: x ≠ t.render ++ y := by
  intro h
  obtain ⟨w', c, s, hw', hs, hc⟩ := exists_starts hentry ht
  rw [hs, List.append_assoc] at h
  -- the first byte behind the blanks is a bracket on one side only
  have hdrop := congrArg (List.dropWhile isBlank) h
  rw [dropWhile_blanks hw, dropWhile_blanks hw',
    List.dropWhile_cons_of_neg (not_isBlank_closeBracket keyed), List.cons_append,
    List.dropWhile_cons_of_neg hc.1] at hdrop
  exact hc.2 keyed (List.cons.inj hdrop).1.symm

/-- Before an entry there is a comma. -/
theorem comma_eq (hentry : t.HasEntry) : t.comma = [44] := by
  cases t with
  | nil => cases hentry
  | gap => cases hentry
  | leaf => rfl
  | node => rfl

/-- A list without entries is no list with entries. -/
theorem emptyList_ne {child : Text Bytes Bytes Bytes} {keyed' : Bool} (hentry : child.HasEntry)
    (hchild : child.All lexical) (hb : lexical.OnScalar value) :
    value.render ++ x ≠ openBracket keyed' :: (child.render ++ y) := by
  intro h
  obtain ⟨c, u, hu, -, hkind⟩ := exists_cons_scalar hb
  cases value with
  | emptyList keyed b =>
    simp only [Scalar.render, List.cons_append, List.append_assoc, List.nil_append] at h
    exact closeBracket_ne hentry hchild hb (List.cons.inj h).2
  | string | number | literal =>
    rw [hu] at h
    obtain rfl := (List.cons.inj h).1
    rw [kindOf_openBracket] at hkind
    cases hkind

/-- A text without blanks has the tokens of any text with the same bytes: by induction on it. -/
theorem render_inj {s s' : Bytes} (h₁ : t.All compact) (h₂ : t'.All complete)
    (k₁ : t.WellKeyed keyed) (k₂ : t'.WellKeyed keyed)
    (h : t.comma ++ (t.render ++ closeBracket keyed :: s) =
      t'.comma ++ (t'.render ++ closeBracket keyed :: s')) : t = t' ∧ s = s' := by
  have hclose : ∀ keyed, (44 : UInt8) ≠ closeBracket keyed := by decide
  induction t generalizing t' keyed s s' with
  | nil =>
    cases t' with
    | nil => exact ⟨rfl, (List.cons.inj h).2⟩
    | gap => exact h₂.elim
    | leaf => exact absurd (List.cons.inj h).1.symm (hclose keyed)
    | node => exact absurd (List.cons.inj h).1.symm (hclose keyed)
  | gap =>
    -- behind the comma stands the bracket
    have hbracket := fun {t' : Text Bytes Bytes Bytes} (he : t'.HasEntry) (ht : t'.All complete) =>
      @closeBracket_ne [] s (closeBracket keyed :: s') t' keyed he (complete_lexical ht) nofun
    cases t' with
    | nil => exact absurd (List.cons.inj h).1 (hclose keyed)
    | gap => exact h₂.elim
    | leaf => exact absurd (List.cons.inj h).2 (hbracket trivial h₂)
    | node => exact absurd (List.cons.inj h).2 (hbracket trivial h₂)
  | leaf before name value after next ih =>
    obtain ⟨hbefore, hname, hvalue, hafter, hnext⟩ := h₁
    obtain rfl : before = [] := hbefore
    obtain rfl : after = [] := hafter
    obtain ⟨c, u, hu, hc, -⟩ := exists_cons_scalar (compact_scalar hvalue)
    have htext : (Text.leaf [] name value [] next).render ++ closeBracket keyed :: s =
        name.elim [] Name.render ++
          c :: (u ++ (next.comma ++ (next.render ++ closeBracket keyed :: s))) := by
      simp [Text.render, hu]
    cases t' with
    | nil => exact absurd (List.cons.inj h).1 (hclose keyed)
    | gap => exact h₂.elim
    | leaf before' name' value' after' next' =>
      obtain ⟨hbefore', hname', hvalue', hafter', hnext'⟩ := h₂
      have hrest := (List.cons.inj h).2
      rw [htext, Text.render] at hrest
      simp only [List.append_assoc] at hrest
      -- the name, the value, and then what follows
      obtain ⟨rfl, rfl, hval⟩ := name_inj hname hname' (k₁.1.trans k₂.1.symm) hbefore' hc hrest
      rw [← List.cons_append, ← hu] at hval
      obtain ⟨rfl, rfl, htail⟩ :=
        scalar_inj hvalue hvalue' hafter' (ends_tail _ _) (ends_tail _ _) hval
      obtain ⟨rfl, rfl⟩ := ih hnext hnext' k₁.2 k₂.2 htail
      exact ⟨rfl, rfl⟩
    | node before' name' keyed' child' after' next' =>
      obtain ⟨hbefore', hname', hchild', -, -⟩ := h₂
      have hrest := (List.cons.inj h).2
      rw [htext, Text.render] at hrest
      simp only [List.append_assoc, List.cons_append] at hrest
      obtain ⟨-, -, hval⟩ := name_inj hname hname' (k₁.1.trans k₂.1.symm) hbefore' hc hrest
      rw [← List.cons_append, ← hu] at hval
      exact absurd hval
        (emptyList_ne k₂.2.1 (complete_lexical hchild') (compact_scalar hvalue))
  | node before name keyed' child after next ihc ih =>
    obtain ⟨hbefore, hname, hchild, hafter, hnext⟩ := h₁
    obtain rfl : before = [] := hbefore
    obtain rfl : after = [] := hafter
    have htext : (Text.node [] name keyed' child [] next).render ++ closeBracket keyed :: s =
        name.elim [] Name.render ++ openBracket keyed' :: (child.render ++ closeBracket keyed' ::
          (next.comma ++ (next.render ++ closeBracket keyed :: s))) := by
      simp [Text.render]
    have hc := not_isBlank_openBracket keyed'
    cases t' with
    | nil => exact absurd (List.cons.inj h).1 (hclose keyed)
    | gap => exact h₂.elim
    | leaf before' name' value' after' next' =>
      obtain ⟨hbefore', hname', hvalue', -, -⟩ := h₂
      have hrest := (List.cons.inj h).2
      rw [htext, Text.render] at hrest
      simp only [List.append_assoc] at hrest
      obtain ⟨-, -, hval⟩ := name_inj hname hname' (k₁.1.trans k₂.1.symm) hbefore' hc hrest
      exact absurd hval.symm
        (emptyList_ne k₁.2.1 (compact_lexical hchild) (complete_scalar hvalue'))
    | node before' name' keyed'' child' after' next' =>
      obtain ⟨hbefore', hname', hchild', hafter', hnext'⟩ := h₂
      have hrest := (List.cons.inj h).2
      rw [htext, Text.render] at hrest
      simp only [List.append_assoc, List.cons_append] at hrest
      -- the name, the brackets, what is between them, and then what follows
      obtain ⟨rfl, rfl, hlist⟩ := name_inj hname hname' (k₁.1.trans k₂.1.symm) hbefore' hc hrest
      obtain ⟨hopen, hbetween⟩ := List.cons.inj hlist
      obtain rfl := openBracket_inj hopen
      obtain ⟨rfl, hbehind⟩ := ihc hchild hchild' k₁.2.2.1 k₂.2.2.1
        (by rw [comma_eq k₁.2.1, comma_eq k₂.2.1, hbetween])
      obtain ⟨rfl, htail⟩ := ends_inj hafter' (ends_tail next s) hbehind
      obtain ⟨rfl, rfl⟩ := ih hnext hnext' k₁.2.2.2 k₂.2.2.2 htail
      exact ⟨rfl, rfl⟩

end

end Json

end AdxDsp
