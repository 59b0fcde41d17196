import AdxDsp.Json.Accept

/-!
# What accepted trees look like

Nodes of objects have keys, nodes of arrays have none; objects and arrays have children, all others
have none; and keys and values are copies of tokens.

* **Shapes**: `Shaped`, over a condition on keys and values.
* `shaped_of_parse`: the shape of each tree that the parser returns.
-/

namespace AdxDsp

open CText JsonText

namespace Json

/-! ## Shapes -/

section

variable (P : Bytes → Prop)

/-- The value and the children that belong to a type; the value of a number may have been copied as
an empty text. -/
def NodeShape (type : JsonType) (val : Option Bytes) (child : JsonList)
    (members elements : Prop) : Prop :=
  match type with
  | .unset => False
  | .object => val = none ∧ child ≠ .nil ∧ members
  | .array => val = none ∧ child ≠ .nil ∧ elements
  | .empty => val = none ∧ child = .nil
  | .string => child = .nil ∧ ∃ v, val = some v ∧ P v
  | .number => child = .nil ∧ ∃ v, val = some v ∧ P v ∧ (v = [] ∨ NumberText v)
  | .bool => child = .nil ∧ (val = some (bytes "true") ∨ val = some (bytes "false"))
  | .null => child = .nil ∧ val = some (bytes "null")

/-- The members of an object, or the elements of an array, with all that they contain. -/
def Shaped : Bool → JsonList → Prop
  | _, .nil => True
  | keyed, .cons type key val child next =>
    (key.isSome = keyed ∧ ∀ k ∈ key, P k) ∧
      NodeShape P type val child (Shaped true child) (Shaped false child) ∧ Shaped keyed next

variable {P} {Q : Bytes → Prop}

/-- A weaker condition holds as well. -/
theorem shaped_mono (hPQ : ∀ v, P v → Q v) {keyed : Bool} {l : JsonList} (h : Shaped P keyed l) :
    Shaped Q keyed l := by
  induction l generalizing keyed with
  | nil => trivial
  | cons type key val child next ihc ih =>
    obtain ⟨⟨hname, hkey⟩, hshape, hnext⟩ := h
    refine ⟨⟨hname, fun k hk => hPQ k (hkey k hk)⟩, ?_, ih hnext⟩
    cases type with
    | unset => exact hshape
    | object => exact ⟨hshape.1, hshape.2.1, ihc hshape.2.2⟩
    | array => exact ⟨hshape.1, hshape.2.1, ihc hshape.2.2⟩
    | empty => exact hshape
    | string =>
      obtain ⟨hnil, v, hv, hP⟩ := hshape
      exact ⟨hnil, v, hv, hPQ v hP⟩
    | number =>
      obtain ⟨hnil, v, hv, hP, hnumber⟩ := hshape
      exact ⟨hnil, v, hv, hPQ v hP, hnumber⟩
    | bool => exact hshape
    | null => exact hshape

end

/-! ## Replies with a value -/

/-- A computation that ends with a value satisfies `Q`. -/
def Reply.Yields {α : Type} (Q : α → Cursor → Prop) (r : Reply α) : Prop :=
  ∀ value pos, r.outcome = .ok value pos → Q value pos

/-- The cursor has moved on in the string. -/
def From (s : Bytes) (pos : Cursor) : Prop := ∃ s', pos = some s' ∧ s' <:+ s

section

variable {α β : Type} {Q Q' : α → Cursor → Prop} {R : β → Cursor → Prop} {s : Bytes}

/-- A weaker postcondition. -/
theorem Reply.Yields.mono {r : Reply α} (h : r.Yields Q) (hQ : ∀ v pos, Q v pos → Q' v pos) :
    r.Yields Q' := fun v pos hv => hQ v pos (h v pos hv)

/-- The rule for one computation after another. -/
theorem Reply.Yields.bind {x : Scan α} {f : α → Scan β} {pos : Cursor} (hx : (x pos).Yields Q)
    (hf : ∀ v pos', Q v pos' → (f v pos').Yields R) : ((x >>= f) pos).Yields R := by
  intro value pos' h
  change (Scan.bind x f pos).outcome = _ at h
  unfold Scan.bind at h
  cases hr : (x pos).outcome with
  | ok v pos₁ =>
    rw [hr] at h
    exact hf v pos₁ (hx v pos₁ hr) value pos' h
  | error => rw [hr] at h; cases h
  | overread => rw [hr] at h; cases h
  | unfinished => rw [hr] at h; cases h

/-- A result that meets the postcondition. -/
theorem yields_pure {value : α} {pos : Cursor} (h : Q value pos) :
    ((pure value : Scan α) pos).Yields Q := by
  rintro v p hv
  injection hv with hv hp
  exact hv ▸ hp ▸ h

/-- A failure yields nothing. -/
theorem yields_fail (pos : Cursor) : ((Scan.fail : Scan α) pos).Yields Q := nofun

/-- What is behind a part of the text is behind the text. -/
theorem From.trans {s' : Bytes} {pos : Cursor} (h : From s' pos) (hs : s' <:+ s) : From s pos := by
  obtain ⟨t, rfl, ht⟩ := h
  exact ⟨t, rfl, ht.trans hs⟩

/-- White space is skipped. -/
theorem yields_skipSpace (s : Bytes) : (skipSpace (some s)).Yields fun _ pos => From s pos := by
  intro value pos h
  rw [outcome_skipSpace] at h
  injection h with _ h
  exact ⟨_, h.symm, List.dropWhile_suffix _⟩

/-- The expected byte was there. -/
theorem yields_expect {c : UInt8} (hc : c ≠ 0) (s : Bytes) :
    (Scan.expect c (some s)).Yields fun _ pos => ∃ s', pos = some s' ∧ s = c :: s' := by
  unfold Scan.expect
  rw [Scan.peek_bind]
  cases s with
  | nil =>
    rw [Scan.advance_bind_nil, List.headD_nil, if_pos hc.symm]
    exact yields_fail none
  | cons d s =>
    rw [Scan.advance_bind (by simp), List.headD_cons]
    split_ifs with hd
    · exact yields_fail _
    · rw [not_not] at hd
      exact yields_pure ⟨s, rfl, hd ▸ rfl⟩

/-- The value of a copy. -/
theorem yields_strdup {token : Token} {pos : Cursor} (f : Bytes → Scan β)
    (h : ∀ dest, token.adxJsonStrdup = some dest → (f dest pos).Yields R) :
    ((Scan.strdup token >>= f) pos).Yields R := by
  refine Reply.Yields.bind (Q := fun dest pos' => token.adxJsonStrdup = some dest ∧ pos' = pos) ?_
    fun dest pos' hd => hd.2 ▸ h dest hd.1
  intro dest pos' hd
  unfold Scan.strdup at hd
  cases hdup : token.adxJsonStrdup with
  | none => rw [hdup] at hd; cases hd
  | some d =>
    rw [hdup] at hd
    injection hd with hd hp
    exact ⟨congrArg some hd, hp.symm⟩

end

/-! ## Tokens -/

section

variable {P : Bytes → Prop} {n : ℕ} {s : Bytes}

/-- Copies of the tokens of a string satisfy the condition. -/
def CopiesSatisfy (P : Bytes → Prop) (n : ℕ) : Prop :=
  ∀ body val, body ≠ [] → isBody body → 0 ∉ body → body.length ≤ n → copied body = some val → P val

/-- The token before the closing quotation mark. -/
theorem exists_body_of_closingQuote {m : ℕ} (h : closingQuote s = some m) :
    ∃ body rest, s = body ++ 34 :: rest ∧ body.length = m ∧ isBody body := by
  induction s using closingQuote.induct generalizing m with
  | case1 => cases h
  | case2 => cases h
  | case3 e s ih =>
    rw [closingQuote_escape] at h
    obtain ⟨k, hk, rfl⟩ := Option.map_eq_some_iff.mp h
    obtain ⟨body, rest, rfl, rfl, hbody⟩ := ih hk
    exact ⟨92 :: e :: body, rest, rfl, rfl, hbody⟩
  | case4 s =>
    rw [closingQuote_quote, Option.some.injEq] at h
    exact ⟨[], s, rfl, h, rfl⟩
  | case5 c s hc hq ih =>
    rw [closingQuote_of_ne s hc hq] at h
    obtain ⟨k, hk, rfl⟩ := Option.map_eq_some_iff.mp h
    obtain ⟨body, rest, rfl, rfl, hbody⟩ := ih hk
    refine ⟨c :: body, rest, rfl, rfl, ?_⟩
    rw [isBody_of_ne hc, hbody, Bool.and_true, decide_eq_true_iff]
    exact hq

/-- A string token is followed by its quotation mark. -/
theorem yields_parseString (s : Bytes) :
    (parseString (some s)).Yields fun str pos => From s pos ∧ ∀ token, str = some token →
      ∃ body rest, body ≠ [] ∧ isBody body ∧ (body ++ 34 :: rest) <:+ s ∧
        token = ⟨body ++ 34 :: rest, body.length⟩ := by
  unfold parseString
  refine (yields_expect (by decide) s).bind fun _ pos h => ?_
  obtain ⟨s', rfl, rfl⟩ := h
  rw [Scan.peek_bind]
  split_ifs with hc
  · cases s' with
    | nil => exact absurd hc (by decide)
    | cons c s' =>
      rw [Scan.advance_bind (by simp)]
      refine yields_pure ⟨⟨_, rfl, ?_⟩, nofun⟩
      exact (List.suffix_cons c s').trans (List.suffix_cons _ _)
  · rw [Scan.rest_bind]
    cases hquote : closingQuote s' with
    | none => exact yields_fail _
    | some m =>
      obtain ⟨body, rest, rfl, rfl, hbody⟩ := exists_body_of_closingQuote hquote
      dsimp only
      rw [Scan.advance_bind (by simp)]
      refine yields_pure ⟨⟨_, rfl, (List.drop_suffix _ _).trans (List.suffix_cons _ _)⟩, ?_⟩
      rintro token htoken
      refine ⟨body, rest, ?_, hbody, List.suffix_cons _ _, (Option.some.inj htoken).symm⟩
      rintro rfl
      exact hc rfl

/-- The copy of a token of the string. -/
theorem condition_of_strdup (hP : CopiesSatisfy P n) (hzero : 0 ∉ s) (hlen : s.length ≤ n)
    {body rest val : Bytes} (hne : body ≠ []) (hbody : isBody body) (hs : (body ++ rest) <:+ s)
    (h : (Token.mk (body ++ rest) body.length).adxJsonStrdup = some val) : P val := by
  rw [strdup_eq_copied hbody] at h
  have hle := hs.length_le
  rw [List.length_append] at hle
  refine hP body val hne hbody (fun h0 => hzero ?_) (by omega) h
  exact hs.subset (List.mem_append_left _ h0)

/-- A name is a copy. -/
theorem yields_parseKey (hP : CopiesSatisfy P n) (hzero : 0 ∉ s) (hlen : s.length ≤ n) :
    (parseKey (some s)).Yields fun key pos => From s pos ∧ P key := by
  unfold parseKey
  refine (yields_parseString s).bind fun str pos h => ?_
  obtain ⟨hfrom, htoken⟩ := h
  cases str with
  | none => exact yields_fail _
  | some token =>
    obtain ⟨body, rest, hne, hbody, hs, rfl⟩ := htoken token rfl
    dsimp only
    split_ifs
    · exact yields_fail _
    · intro val pos' hval
      unfold Scan.strdup at hval
      cases hdup : (Token.mk (body ++ 34 :: rest) body.length).adxJsonStrdup with
      | none => rw [hdup] at hval; cases hval
      | some dest =>
        rw [hdup] at hval
        injection hval with hval hpos
        exact ⟨hpos ▸ hfrom, hval ▸ condition_of_strdup hP hzero hlen hne hbody hs hdup⟩

/-- A value that belongs to its type. -/
def ValueShape (P : Bytes → Prop) (value : Value) : Prop :=
  NodeShape P value.1 value.2.1 value.2.2 (Shaped P true value.2.2) (Shaped P false value.2.2)

/-- A string has the shape of one. -/
theorem yields_parseValueString (hP : CopiesSatisfy P n) (hzero : 0 ∉ s) (hlen : s.length ≤ n) :
    (parseValueString (some s)).Yields fun value pos => From s pos ∧ ValueShape P value := by
  unfold parseValueString
  refine (yields_parseString s).bind fun str pos h => ?_
  obtain ⟨hfrom, htoken⟩ := h
  cases str with
  | none => exact yields_pure ⟨hfrom, rfl, rfl⟩
  | some token =>
    obtain ⟨body, rest, hne, hbody, hs, rfl⟩ := htoken token rfl
    refine yields_strdup _ fun dest hdup => yields_pure ⟨hfrom, rfl, dest, rfl, ?_⟩
    exact condition_of_strdup hP hzero hlen hne hbody hs hdup

/-- A literal has the shape of one. -/
theorem yields_parseOther {str : Bytes} (type : JsonType)
    (hstr : (Token.mk str str.length).adxJsonStrdup = some str)
    (hshape : ValueShape P (type, some str, .nil)) (hs : str <+: s) :
    (parseOther type str (some s)).Yields fun value pos => From s pos ∧ ValueShape P value := by
  unfold parseOther
  rw [Scan.advance_bind hs.length_le]
  refine yields_strdup _ fun dest hdup => yields_pure ⟨⟨_, rfl, List.drop_suffix _ _⟩, ?_⟩
  rw [hstr] at hdup
  exact Option.some.inj hdup ▸ hshape

/-- A number has no backslash. -/
theorem notMem_of_isNumberByte {body : Bytes} (hbytes : ∀ c ∈ body, isNumberByte c) : 92 ∉ body :=
  fun h => absurd (hbytes 92 h) (by decide)

/-- A copy of the bytes of a number is empty, or starts as they do. -/
theorem numberText_of_copied {body val : Bytes} (hbody : NumberText body)
    (h : copied body = some val) : val = [] ∨ NumberText val := by
  obtain ⟨hbytes, c, hc, hfirst⟩ := hbody
  unfold copied Token.adxJsonStrdup Token.copy at h
  rw [strdupLoop_eq_take (notMem_of_isNumberByte hbytes)] at h
  split_ifs at h
  obtain rfl := Option.some.inj h
  rw [or_iff_not_imp_left]
  intro hne
  refine ⟨fun d hd => hbytes d (List.mem_of_mem_take hd), c, ?_, hfirst⟩
  rw [List.head?_take, if_neg fun h0 => hne (by rw [h0, List.take_zero]), hc]

/-- A number has the shape of one. -/
theorem yields_parseValueNumber (hP : CopiesSatisfy P n) (hzero : 0 ∉ s) (hlen : s.length ≤ n)
    (hfirst : s.headD 0 = 45 ∨ isDigit (s.headD 0)) :
    (parseValueNumber (some s)).Yields fun value pos => From s pos ∧ ValueShape P value := by
  obtain ⟨c, s, rfl⟩ : ∃ c t, s = c :: t := by
    cases s with
    | nil => rcases hfirst with h | h <;> exact absurd h (by decide)
    | cons c t => exact ⟨c, t, rfl⟩
  rw [List.headD_cons] at hfirst
  -- the first byte belongs to the number, so that the number is not empty
  have hc : isNumberByte c := by
    unfold isNumberByte
    rcases hfirst with rfl | h
    · rfl
    · simp [h]
  have htext : NumberText ((c :: s).takeWhile isNumberByte) := by
    refine ⟨fun d hd => List.mem_takeWhile_imp hd, c, ?_, hfirst⟩
    rw [List.takeWhile_cons_of_pos hc, List.head?_cons]
  have hsplit : (c :: s).takeWhile isNumberByte ++ (c :: s).dropWhile isNumberByte = c :: s :=
    List.takeWhile_append_dropWhile
  have hne : (c :: s).takeWhile isNumberByte ≠ [] := by
    rw [List.takeWhile_cons_of_pos hc]
    exact List.cons_ne_nil _ _
  have hbody := isBody_of_isNumberByte htext.1
  unfold parseValueNumber
  rw [Scan.rest_bind]
  split_ifs
  · exact yields_fail _
  · refine yields_strdup _ fun dest hdup => ?_
    -- the token is the whole text with the length of the number
    have hdup' : (Token.mk ((c :: s).takeWhile isNumberByte ++ (c :: s).dropWhile isNumberByte)
        ((c :: s).takeWhile isNumberByte).length).adxJsonStrdup = some dest := by
      rw [hsplit]
      exact hdup
    rw [Scan.advance_bind (List.takeWhile_prefix _).length_le]
    refine yields_pure ⟨⟨_, rfl, List.drop_suffix _ _⟩, rfl, dest, rfl, ?_, ?_⟩
    · exact condition_of_strdup hP hzero hlen hne hbody (by rw [hsplit]) hdup'
    · rw [strdup_eq_copied hbody] at hdup'
      exact numberText_of_copied htext hdup'

/-! ## Values and loops -/

/-- What the loops of objects and arrays return; without an entry they are at the end. -/
def EntriesShaped (P : Bytes → Prop) (n : ℕ) (entries : Bool → Scan JsonList) : Prop :=
  ∀ keyed s, 0 ∉ s → s.length ≤ n → (entries keyed (some s)).Yields fun child pos =>
    From s pos ∧ Shaped P keyed child ∧ (child = .nil → pos = some [])

/-- A list has the shape of one if its entries have theirs. -/
theorem yields_parseKeyed {entries : Bool → Scan JsonList} (h : EntriesShaped P n entries)
    (hzero : 0 ∉ s) (hlen : s.length ≤ n) (keyed : Bool) :
    (parseKeyed entries keyed (some s)).Yields fun value pos =>
      From s pos ∧ ValueShape P value := by
  have hopen : openBracket keyed ≠ 0 := by cases keyed <;> decide
  have hclose : closeBracket keyed ≠ 0 := by cases keyed <;> decide
  rw [parseKeyed_eq]
  unfold parseList
  refine (yields_expect hopen s).bind fun _ pos hs => ?_
  obtain ⟨s₁, rfl, rfl⟩ := hs
  refine (yields_skipSpace s₁).bind fun _ pos hs => ?_
  obtain ⟨s₂, rfl, hs₂⟩ := hs
  have hsuffix : s₂ <:+ openBracket keyed :: s₁ := hs₂.trans (List.suffix_cons _ _)
  rw [Scan.peek_bind]
  by_cases hc : s₂.headD 0 = closeBracket keyed
  · rw [if_pos hc]
    cases s₂ with
    | nil => exact absurd hc.symm hclose
    | cons c s₂ =>
      rw [Scan.advance_bind (by simp)]
      exact yields_pure ⟨⟨_, rfl, (List.suffix_cons c s₂).trans hsuffix⟩, rfl, rfl⟩
  · rw [if_neg hc]
    refine (h keyed s₂ (fun h0 => hzero (hsuffix.subset h0))
      (hsuffix.length_le.trans hlen)).bind fun child pos hchild => ?_
    obtain ⟨⟨s₃, rfl, hs₃⟩, hshaped, hnil⟩ := hchild
    refine (yields_expect hclose s₃).bind fun _ pos hs => yields_pure ?_
    obtain ⟨s₄, rfl, rfl⟩ := hs
    refine ⟨⟨s₄, rfl, (List.suffix_cons _ _).trans (hs₃.trans hsuffix)⟩, ?_⟩
    -- at the end of the string there is no closing bracket
    have hne : child ≠ .nil := fun hc => by
      have := hnil hc
      simp at this
    cases keyed with
    | true => exact ⟨rfl, hne, hshaped⟩
    | false => exact ⟨rfl, hne, hshaped⟩

/-- A value has the shape of one if the entries of its lists have theirs. -/
theorem yields_parseValue {entries : Bool → Scan JsonList} (h : EntriesShaped P n entries)
    (hP : CopiesSatisfy P n) (hzero : 0 ∉ s) (hlen : s.length ≤ n) :
    (parseValue entries (some s)).Yields fun value pos => From s pos ∧ ValueShape P value := by
  unfold parseValue
  refine (yields_skipSpace s).bind fun _ pos hs => ?_
  obtain ⟨s₁, rfl, hs₁⟩ := hs
  have hzero₁ : 0 ∉ s₁ := fun h0 => hzero (hs₁.subset h0)
  have hlen₁ := hs₁.length_le.trans hlen
  have hfrom : ∀ (value : Value) (pos : Cursor), From s₁ pos ∧ ValueShape P value →
      From s pos ∧ ValueShape P value := fun _ _ h => ⟨h.1.trans hs₁, h.2⟩
  rw [Scan.peek_bind, Scan.rest_bind]
  split_ifs with hobject harray hstring hnumber htrue hfalse hnull
  · exact (yields_parseKeyed h hzero₁ hlen₁ true).mono hfrom
  · exact (yields_parseKeyed h hzero₁ hlen₁ false).mono hfrom
  · exact (yields_parseValueString hP hzero₁ hlen₁).mono hfrom
  · exact (yields_parseValueNumber hP hzero₁ hlen₁ hnumber).mono hfrom
  · exact (yields_parseOther .bool (by decide) ⟨rfl, .inl rfl⟩ htrue).mono hfrom
  · exact (yields_parseOther .bool (by decide) ⟨rfl, .inr rfl⟩ hfalse).mono hfrom
  · exact (yields_parseOther .null (by decide) ⟨rfl, rfl⟩ hnull).mono hfrom
  · exact yields_fail _

/-- There is a name just in an object. -/
theorem yields_parseMemberKey (hP : CopiesSatisfy P n) (hzero : 0 ∉ s) (hlen : s.length ≤ n)
    (keyed : Bool) : (parseMemberKey keyed (some s)).Yields fun key pos =>
      From s pos ∧ key.isSome = keyed ∧ ∀ k ∈ key, P k := by
  unfold parseMemberKey
  cases keyed with
  | false => exact yields_pure ⟨⟨s, rfl, List.suffix_rfl⟩, rfl, nofun⟩
  | true =>
    rw [if_pos rfl]
    refine (yields_skipSpace s).bind fun _ pos hs => ?_
    obtain ⟨s₁, rfl, hs₁⟩ := hs
    refine (yields_parseKey hP (fun h0 => hzero (hs₁.subset h0))
      (hs₁.length_le.trans hlen)).bind fun key pos hkey => ?_
    obtain ⟨⟨s₂, rfl, hs₂⟩, hkey⟩ := hkey
    refine (yields_skipSpace s₂).bind fun _ pos hs => ?_
    obtain ⟨s₃, rfl, hs₃⟩ := hs
    refine (yields_expect (by decide) s₃).bind fun _ pos hs => yields_pure ?_
    obtain ⟨s₄, rfl, rfl⟩ := hs
    refine ⟨⟨s₄, rfl, (List.suffix_cons _ _).trans (hs₃.trans (hs₂.trans hs₁))⟩, rfl, ?_⟩
    rintro k ⟨⟩
    exact hkey

/-- The loops return shaped lists. -/
theorem yields_parseEntries (hP : CopiesSatisfy P n) (fuel : ℕ) :
    EntriesShaped P n (parseEntries fuel) := by
  induction fuel with
  | zero =>
    intro _ _ _ _ _ _ h
    cases h
  | succ fuel ih =>
    -- a member: its name, its value, the blanks behind it, and perhaps a comma
    intro keyed s hzero hlen
    rw [parseEntries, Scan.peek_bind]
    split_ifs with hend
    · -- the NUL is the end of the string
      have hs : s = [] := by
        cases s with
        | nil => rfl
        | cons c s =>
          rw [List.headD_cons] at hend
          exact absurd (hend ▸ List.mem_cons_self) hzero
      exact yields_pure ⟨⟨s, rfl, List.suffix_rfl⟩, trivial, fun _ => hs ▸ rfl⟩
    · refine (yields_parseMemberKey hP hzero hlen keyed).bind fun key pos hkey => ?_
      obtain ⟨⟨s₁, rfl, hs₁⟩, hkey⟩ := hkey
      have hzero₁ : 0 ∉ s₁ := fun h0 => hzero (hs₁.subset h0)
      refine (yields_parseValue ih hP hzero₁ (hs₁.length_le.trans hlen)).bind fun value pos hv => ?_
      obtain ⟨type, val, child⟩ := value
      obtain ⟨⟨s₂, rfl, hs₂⟩, hvalue⟩ := hv
      refine (yields_skipSpace s₂).bind fun _ pos hs => ?_
      obtain ⟨s₃, rfl, hs₃⟩ := hs
      -- what is left is a part of what was there, without a zero byte like it
      have hsuffix : s₃ <:+ s := hs₃.trans (hs₂.trans hs₁)
      rw [Scan.peek_bind]
      split_ifs with hcomma
      · cases s₃ with
        | nil => exact absurd hcomma (by decide)
        | cons c s₃ =>
          have hsuffix' : s₃ <:+ s := (List.suffix_cons c s₃).trans hsuffix
          rw [Scan.advance_bind (by simp), List.drop_succ_cons, List.drop_zero]
          refine (ih keyed s₃ (fun h0 => hzero (hsuffix'.subset h0))
            (hsuffix'.length_le.trans hlen)).bind fun next pos hnext => yields_pure ?_
          exact ⟨hnext.1.trans hsuffix', ⟨hkey, hvalue, hnext.2.1⟩, fun h => by cases h⟩
      · exact yields_pure ⟨⟨s₃, rfl, hsuffix⟩, ⟨hkey, hvalue, trivial⟩, fun h => by cases h⟩

end

/-! ## The parser -/

section

variable {P : Bytes → Prop} {fuel : ℕ} {str : Bytes} {t : AdxJson} {pos : Cursor}

/-- The root has no key, no value and at least one child, and the children are shaped. -/
theorem shaped_of_parse (hP : CopiesSatisfy P (cstr str).length)
    (h : (adxJsonParse fuel str).outcome = .ok t pos) :
    t = ⟨.unset, none, none, t.child⟩ ∧ t.child ≠ .nil ∧ Shaped P true t.child := by
  have hyields : (adxJsonParse fuel str).Yields fun t _ =>
      t = ⟨.unset, none, none, t.child⟩ ∧ t.child ≠ .nil ∧ Shaped P true t.child := by
    unfold adxJsonParse parseRoot
    refine (yields_skipSpace (cstr str)).bind fun _ pos hs => ?_
    obtain ⟨s₁, rfl, hs₁⟩ := hs
    refine (yields_parseKeyed (yields_parseEntries hP fuel)
      (fun h0 => zero_notMem_cstr str (hs₁.subset h0)) hs₁.length_le true).bind
        fun value pos hvalue => ?_
    obtain ⟨type, val, child⟩ := value
    dsimp only
    split_ifs with htype
    · subst htype
      exact yields_pure ⟨rfl, hvalue.2.2.1, hvalue.2.2.2⟩
    · exact yields_fail _
  exact hyields t pos h

end

/-! ## Copies -/

/-- No copy has a NUL. -/
theorem zero_notMem_strdupLoop {n : ℕ} {body : Bytes} (hbody : isBody body) (hzero : 0 ∉ body) :
    0 ∉ strdupLoop n body := by
  have hunescape : ∀ e : UInt8, e ≠ 0 → unescapeByte e ≠ 0 := by
    intro e he
    unfold unescapeByte
    split_ifs <;> first | decide | exact he
  induction body using isBody.induct generalizing n with
  | case1 => simp
  | case2 => cases hbody
  | case3 e body ih =>
    simp only [List.mem_cons, not_or] at hzero
    cases n with
    | zero => simp
    | succ n =>
      rw [strdupLoop_escape, List.mem_cons, not_or]
      exact ⟨(hunescape e (Ne.symm hzero.2.1)).symm, ih hbody hzero.2.2⟩
  | case4 c body hc ih =>
    rw [isBody_of_ne hc, Bool.and_eq_true] at hbody
    rw [List.mem_cons, not_or] at hzero
    cases n with
    | zero => simp
    | succ n =>
      rw [strdupLoop_of_ne _ _ hc, List.mem_cons, not_or]
      exact ⟨hzero.1, ih hbody.2 hzero.2⟩

/-- No copy has a zero byte. -/
theorem copies_zero_notMem (n : ℕ) : CopiesSatisfy (fun val => 0 ∉ val) n := by
  intro body val _ hbody hzero _ h
  unfold copied Token.adxJsonStrdup Token.copy at h
  split_ifs at h
  rw [← Option.some.inj h]
  exact zero_notMem_strdupLoop hbody hzero

end Json

end AdxDsp
