import AdxDsp.Json.Parse

/-!
# The parser stays in its string

The cursor may step over the NUL where an expected byte is missing; nothing is read there, because
each such step ends the parse.

* **Stays**: `Reply.Stays`, with a rule for each way to continue; `stays_parseEntries`.
* `parse_safe_iff`: the parse ends, stays in the string, and copies each token into its block unless
  the number of its bytes is just below a multiple of 2^32.
-/

namespace AdxDsp

open CText

namespace Json

/-! ## Copies -/

/-- The writes of the copy stay below `len + 1`. -/
def Token.Within (token : Token) : Prop := token.written = 0 ∨ (token.written : ℤ) ≤ token.len + 1

/-- As an `int` the number of bytes is negative, but not by much. -/
def Token.WrapsBelow (token : Token) : Prop := -25 ≤ token.len ∧ token.len ≤ -1

instance (token : Token) : Decidable token.WrapsBelow := inferInstanceAs (Decidable (_ ∧ _))

/-- The copy has at most as many bytes as are asked for. -/
theorem length_strdupLoop_le (n : ℕ) (src : Bytes) : (strdupLoop n src).length ≤ n := by
  induction n, src using strdupLoop.induct with
  | case1 => simp
  | case2 => simp
  | case3 n => simp [strdupLoop]
  | case4 n e rest ih =>
    rw [strdupLoop_escape, List.length_cons]
    omega
  | case5 n c src hc ih =>
    rw [strdupLoop_of_ne n src hc, List.length_cons]
    omega

/-- The length of a token is an `int`. -/
theorem Token.len_bounds (token : Token) : -2 ^ 31 ≤ token.len ∧ token.len < 2 ^ 31 := by
  have hle := BitVec.le_toInt (BitVec.ofInt 32 token.count)
  have hlt := BitVec.toInt_lt (x := BitVec.ofInt 32 token.count)
  unfold Token.len toInt32
  omega

/-- A token is in bounds just if its length does not wrap below zero. -/
theorem Token.within_iff (token : Token) : token.Within ↔ ¬token.WrapsBelow := by
  obtain ⟨hlo, hhi⟩ := token.len_bounds
  have hle := length_strdupLoop_le token.len.toNat token.src
  unfold Token.Within Token.WrapsBelow Token.written Token.adxJsonStrdup Token.copy
  by_cases hneg : token.len < 0
  · -- nothing is copied, but a block means one more byte for the NUL
    have hlen : token.len.toNat = 0 := by omega
    have hwrap : toInt32 (token.len + 1) = token.len + 1 := toInt32_of_bounds (by omega) (by omega)
    have halloc : allocates (token.len + 1) = true ↔ -25 ≤ token.len := by
      unfold allocates
      rw [decide_eq_true_iff]
      omega
    rw [hlen, hwrap]
    by_cases hblock : allocates (token.len + 1) = true
    · have := halloc.mp hblock
      simp only [hblock, if_true, Option.elim_some, strdupLoop, List.length_nil]
      omega
    · have := mt halloc.mpr hblock
      refine iff_of_true (.inl ?_) (by omega)
      rw [if_neg hblock]
      rfl
  · refine iff_of_true ?_ (by omega)
    split_ifs with hblock
    · right
      simp only [Option.elim_some]
      omega
    · exact .inl rfl

/-! ## Replies that stay in the string -/

/-- The computation ends in the string, and its value and what is left satisfy `P`; or it fails.  No
token has more than `n` bytes. -/
def Reply.Stays {α : Type} (n : ℕ) (P : α → Bytes → Prop) (r : Reply α) : Prop :=
  (∀ token ∈ r.tokens, token.count ≤ n) ∧
    match r.outcome with
    | .ok value pos => ∃ s, pos = some s ∧ P value s
    | .error => True
    | .overread => False
    | .unfinished => False

section

variable {α β : Type} {n : ℕ} {P Q : α → Bytes → Prop} {R : β → Bytes → Prop} {s : Bytes}

/-- A weaker postcondition. -/
theorem Reply.Stays.mono {r : Reply α} (h : r.Stays n P) (hPQ : ∀ value s, P value s → Q value s) :
    r.Stays n Q := by
  refine ⟨h.1, ?_⟩
  have hout := h.2
  cases hr : r.outcome with
  | ok value pos =>
    rw [hr] at hout
    obtain ⟨s, hs, hP⟩ := hout
    exact ⟨s, hs, hPQ value s hP⟩
  | error => trivial
  | overread => rw [hr] at hout; exact hout
  | unfinished => rw [hr] at hout; exact hout

/-- The rule for one computation after another. -/
theorem Reply.Stays.bind {x : Scan α} {f : α → Scan β} {pos : Cursor} (hx : (x pos).Stays n P)
    (hf : ∀ value s, P value s → (f value (some s)).Stays n R) :
    ((x >>= f) pos).Stays n R := by
  obtain ⟨htokens, hout⟩ := hx
  change (Scan.bind x f pos).Stays n R
  unfold Scan.bind
  cases hr : (x pos).outcome with
  | ok value pos' =>
    rw [hr] at hout
    obtain ⟨s, rfl, hP⟩ := hout
    obtain ⟨htokens', hout'⟩ := hf value s hP
    exact ⟨fun token h => (List.mem_append.mp h).elim (htokens token) (htokens' token), hout'⟩
  | error => exact ⟨htokens, trivial⟩
  | overread => rw [hr] at hout; exact hout.elim
  | unfinished => rw [hr] at hout; exact hout.elim

/-- A result reads nothing. -/
theorem stays_pure {value : α} (h : P value s) : ((pure value : Scan α) (some s)).Stays n P :=
  ⟨nofun, s, rfl, h⟩

/-- A failure reads nothing. -/
theorem stays_fail (pos : Cursor) : ((Scan.fail : Scan α) pos).Stays n P := ⟨nofun, trivial⟩

/-- A copy of at most `n` bytes leaves the position. -/
theorem stays_strdup {token : Token} (hcount : token.count ≤ n) :
    (Scan.strdup token (some s)).Stays n fun _ s' => s' = s := by
  refine ⟨fun t h => ?_, ?_⟩
  · rw [List.mem_singleton.mp h]
    exact hcount
  · unfold Scan.strdup
    cases token.adxJsonStrdup with
    | none => trivial
    | some dest => exact ⟨s, rfl, rfl⟩

/-- An expected byte other than the NUL is there, or the computation fails. -/
theorem stays_expect {c : UInt8} (hc : c ≠ 0) (s : Bytes) :
    (Scan.expect c (some s)).Stays n fun _ s' => s'.length < s.length := by
  unfold Scan.expect
  rw [Scan.peek_bind]
  cases s with
  | nil =>
    -- the cursor is behind the NUL, which is not the expected byte
    rw [Scan.advance_bind_nil, List.headD_nil, if_pos hc.symm]
    exact stays_fail none
  | cons d s =>
    rw [Scan.advance_bind (by simp)]
    split_ifs
    · exact stays_fail _
    · exact stays_pure (by simp)

/-- White space is skipped inside the text. -/
theorem stays_skipSpace (s : Bytes) :
    (skipSpace (some s)).Stays n fun _ s' => s'.length ≤ s.length := by
  have hle : (s.takeWhile isBlank).length ≤ s.length := (List.takeWhile_prefix _).length_le
  unfold skipSpace
  rw [Scan.rest_bind]
  refine ⟨nofun, ?_⟩
  unfold Scan.advance
  rw [Option.bind_some, if_pos hle]
  exact ⟨_, rfl, by simp⟩

/-- The closing quotation mark is in the text. -/
theorem closingQuote_lt {m : ℕ} (h : closingQuote s = some m) : m < s.length := by
  induction s using closingQuote.induct generalizing m with
  | case1 => cases h
  | case2 => cases h
  | case3 e s' ih =>
    rw [closingQuote_escape] at h
    obtain ⟨k, hk, rfl⟩ := Option.map_eq_some_iff.mp h
    have := ih hk
    simp only [List.length_cons]
    omega
  | case4 s =>
    rw [closingQuote_quote, Option.some.injEq] at h
    simp only [List.length_cons]
    omega
  | case5 c s hc hq ih =>
    rw [closingQuote_of_ne s hc hq] at h
    obtain ⟨k, hk, rfl⟩ := Option.map_eq_some_iff.mp h
    have := ih hk
    simp only [List.length_cons]
    omega

/-! ## Each function -/

/-- A string ends inside the text. -/
theorem stays_parseString (hs : s.length ≤ n) :
    (parseString (some s)).Stays n fun str s' =>
      (∀ token, str = some token → token.count ≤ n) ∧ s'.length ≤ s.length := by
  unfold parseString
  refine (stays_expect (by decide) s).bind fun _ s₁ h₁ => ?_
  rw [Scan.peek_bind]
  split_ifs with hc
  · cases s₁ with
    | nil => exact absurd hc (by decide)
    | cons c s₁ =>
      rw [Scan.advance_bind (by simp)]
      refine stays_pure ⟨nofun, ?_⟩
      simp only [List.length_cons, List.drop_succ_cons, List.drop_zero] at h₁ ⊢
      omega
  · rw [Scan.rest_bind]
    cases hquote : closingQuote s₁ with
    | none => exact stays_fail _
    | some m =>
      have hm := closingQuote_lt hquote
      dsimp only
      rw [Scan.advance_bind (by omega)]
      refine stays_pure ⟨fun token htoken => ?_, ?_⟩
      · obtain rfl := Option.some.inj htoken
        dsimp only
        omega
      · rw [List.length_drop]
        omega

/-- A name ends inside the text. -/
theorem stays_parseKey (hs : s.length ≤ n) :
    (parseKey (some s)).Stays n fun _ s' => s'.length ≤ s.length := by
  unfold parseKey
  refine (stays_parseString hs).bind fun str s₁ h₁ => ?_
  obtain ⟨hcount, hle⟩ := h₁
  cases str with
  | none => exact stays_fail _
  | some token =>
    dsimp only
    split_ifs
    · exact stays_fail _
    · exact (stays_strdup (hcount token rfl)).mono fun _ s' h => h ▸ hle

/-- A string value ends inside the text. -/
theorem stays_parseValueString (hs : s.length ≤ n) :
    (parseValueString (some s)).Stays n fun _ s' => s'.length ≤ s.length := by
  unfold parseValueString
  refine (stays_parseString hs).bind fun str s₁ h₁ => ?_
  obtain ⟨hcount, hle⟩ := h₁
  cases str with
  | none => exact stays_pure hle
  | some token =>
    exact (stays_strdup (hcount token rfl)).bind fun _ s' h => stays_pure (h ▸ hle)

/-- A number ends inside the text. -/
theorem stays_parseValueNumber (hs : s.length ≤ n) :
    (parseValueNumber (some s)).Stays n fun _ s' => s'.length ≤ s.length := by
  have hle : (s.takeWhile isNumberByte).length ≤ s.length := (List.takeWhile_prefix _).length_le
  unfold parseValueNumber
  rw [Scan.rest_bind]
  split_ifs
  · exact stays_fail _
  · refine (stays_strdup (show _ ≤ n by dsimp only; omega)).bind fun _ s' h => ?_
    subst h
    rw [Scan.advance_bind hle]
    exact stays_pure (by simp)

/-- A literal ends inside the text. -/
theorem stays_parseOther (hs : s.length ≤ n) {str : Bytes} (hstr : str <+: s) (type : JsonType) :
    (parseOther type str (some s)).Stays n fun _ s' => s'.length ≤ s.length := by
  have hle := hstr.length_le
  unfold parseOther
  rw [Scan.advance_bind hle]
  refine (stays_strdup (show _ ≤ n by dsimp only; omega)).bind fun _ s' h => stays_pure ?_
  rw [h, List.length_drop]
  omega

/-- The loops of objects and arrays stay in what is left of the string. -/
def EntriesStay (n k : ℕ) (entries : Bool → Scan JsonList) : Prop :=
  ∀ keyed s, s.length < k → s.length ≤ n →
    (entries keyed (some s)).Stays n fun _ s' => s'.length ≤ s.length

/-- A list ends inside the text if its entries do. -/
theorem stays_parseList {k : ℕ} {entries : Scan JsonList} {c d : UInt8} (hc : c ≠ 0) (hd : d ≠ 0)
    (type : JsonType) (hs : s.length ≤ n) (hk : s.length ≤ k)
    (h : ∀ s, s.length < k → s.length ≤ n →
      (entries (some s)).Stays n fun _ s' => s'.length ≤ s.length) :
    (parseList c d type entries (some s)).Stays n fun _ s' => s'.length ≤ s.length := by
  unfold parseList
  refine (stays_expect hc s).bind fun _ s₁ h₁ => (stays_skipSpace s₁).bind fun _ s₂ h₂ => ?_
  rw [Scan.peek_bind]
  split_ifs with hclose
  · cases s₂ with
    | nil => exact absurd hclose hd.symm
    | cons e s₂ =>
      rw [Scan.advance_bind (by simp)]
      refine stays_pure ?_
      simp only [List.length_cons, List.drop_succ_cons, List.drop_zero] at h₂ ⊢
      omega
  · refine (h s₂ (by omega) (by omega)).bind fun child s₃ h₃ => ?_
    refine (stays_expect hd s₃).bind fun _ s₄ h₄ => stays_pure ?_
    omega

/-- A value ends inside the text if the entries of its lists do. -/
theorem stays_parseValue {k : ℕ} {entries : Bool → Scan JsonList} (h : EntriesStay n k entries)
    (hs : s.length ≤ n) (hk : s.length ≤ k) :
    (parseValue entries (some s)).Stays n fun _ s' => s'.length ≤ s.length := by
  unfold parseValue
  refine (stays_skipSpace s).bind fun _ s₁ h₁ => ?_
  rw [Scan.peek_bind, Scan.rest_bind]
  have hle : ∀ (_ : Value) (s' : Bytes), s'.length ≤ s₁.length → s'.length ≤ s.length :=
    fun _ s' h' => h'.trans h₁
  have hs₁ := h₁.trans hs
  split_ifs with hobject harray hstring hnumber htrue hfalse hnull
  · exact (stays_parseList (by decide) (by decide) _ hs₁ (h₁.trans hk) (h true)).mono hle
  · exact (stays_parseList (by decide) (by decide) _ hs₁ (h₁.trans hk) (h false)).mono hle
  · exact (stays_parseValueString hs₁).mono hle
  · exact (stays_parseValueNumber hs₁).mono hle
  · exact (stays_parseOther hs₁ htrue _).mono hle
  · exact (stays_parseOther hs₁ hfalse _).mono hle
  · exact (stays_parseOther hs₁ hnull _).mono hle
  · exact stays_fail _

/-- The name of a member, where there is one, ends inside the text. -/
theorem stays_parseMemberKey (hs : s.length ≤ n) (keyed : Bool) :
    (parseMemberKey keyed (some s)).Stays n fun _ s' => s'.length ≤ s.length := by
  unfold parseMemberKey
  cases keyed with
  | false => exact stays_pure le_rfl
  | true =>
    rw [if_pos rfl]
    refine (stays_skipSpace s).bind fun _ s₁ h₁ => ?_
    refine (stays_parseKey (h₁.trans hs)).bind fun key s₂ h₂ => ?_
    refine (stays_skipSpace s₂).bind fun _ s₃ h₃ => ?_
    refine (stays_expect (by decide) s₃).bind fun _ s₄ h₄ => stays_pure ?_
    omega

/-- With more fuel than bytes the loops end, and stay in the string. -/
theorem stays_parseEntries (fuel : ℕ) : EntriesStay n fuel (parseEntries fuel) := by
  induction fuel with
  | zero => exact fun _ _ h => absurd h (Nat.not_lt_zero _)
  | succ fuel ih =>
    intro keyed s hfuel hs
    rw [parseEntries, Scan.peek_bind]
    split_ifs with hend
    · exact stays_pure le_rfl
    · refine (stays_parseMemberKey hs keyed).bind fun key s₁ h₁ => ?_
      refine (stays_parseValue ih (h₁.trans hs) (by omega)).bind fun value s₂ h₂ => ?_
      refine (stays_skipSpace s₂).bind fun _ s₃ h₃ => ?_
      rw [Scan.peek_bind]
      split_ifs with hcomma
      · -- the comma has been read, so that less is left
        cases s₃ with
        | nil => exact absurd hcomma (by decide)
        | cons c s₃ =>
          rw [List.length_cons] at h₃
          rw [Scan.advance_bind (by simp), List.drop_succ_cons, List.drop_zero]
          refine (ih keyed s₃ (by omega) (by omega)).bind fun next s₄ h₄ => stays_pure ?_
          omega
      · exact stays_pure (by omega)

end

/-! ## The parser -/

section

variable {fuel : ℕ} {str : Bytes}

/-- The parser stays inside the C string. -/
theorem stays_adxJsonParse (hfuel : str.length < fuel) :
    (adxJsonParse fuel str).Stays (cstr str).length fun _ _ => True := by
  have hle := length_cstr_le str
  unfold adxJsonParse parseRoot
  refine (stays_skipSpace (cstr str)).bind fun _ s h => ?_
  refine (stays_parseList (k := fuel) (by decide) (by decide) .object h (by omega)
    (stays_parseEntries fuel true)).bind fun value s' h' => ?_
  obtain ⟨type, val, child⟩ := value
  dsimp only
  split_ifs
  · exact stays_pure trivial
  · exact stays_fail _

/-- The parse ends, stays in the string, and copies each token into its block. -/
def ParseSafe (fuel : ℕ) (str : Bytes) : Prop :=
  (adxJsonParse fuel str).outcome ≠ .unfinished ∧ (adxJsonParse fuel str).outcome ≠ .overread ∧
    ∀ token ∈ (adxJsonParse fuel str).tokens, token.Within

/-- The parse ends and stays in the string. -/
theorem safe_adxJsonParse (hfuel : str.length < fuel) :
    (adxJsonParse fuel str).outcome ≠ .unfinished ∧
      (adxJsonParse fuel str).outcome ≠ .overread := by
  have hstays := (stays_adxJsonParse hfuel).2
  constructor <;> intro h <;> rw [h] at hstays <;> exact hstays

/-- A parse is safe if and only if the number of bytes of each token, as an `int`, is not -25 to -1;
it always ends and stays in the string. -/
theorem parse_safe_iff (hfuel : str.length < fuel) :
    ParseSafe fuel str ↔ ∀ token ∈ (adxJsonParse fuel str).tokens, ¬token.WrapsBelow := by
  unfold ParseSafe
  rw [← and_assoc, and_iff_right (safe_adxJsonParse hfuel)]
  exact forall₂_congr fun token _ => token.within_iff

/-- So the parse of a string below 4 GiB is safe. -/
theorem parseSafe_of_short (hfuel : str.length < fuel) (hshort : str.length < 2 ^ 32 - 25) :
    ParseSafe fuel str := by
  obtain ⟨hends, hstays⟩ := safe_adxJsonParse hfuel
  refine ⟨hends, hstays, fun token htoken => token.within_iff.mpr fun hwrap => ?_⟩
  have hcount := (stays_adxJsonParse hfuel).1 token htoken
  have hle := length_cstr_le str
  unfold Token.WrapsBelow Token.len at hwrap
  rw [toInt32_eq] at hwrap
  split_ifs at hwrap <;> omega

end

/-! ## A key of 4 GiB -/

/-- `{"a":1}` -/
theorem small_parse_safe : ParseSafe 8 [123, 34, 97, 34, 58, 49, 125] :=
  (parse_safe_iff (by decide)).mpr (by decide)

/-- An object with one key of `n` bytes. -/
def keyOf (n : ℕ) : Bytes := 123 :: 34 :: (List.replicate n 97 ++ [34, 58, 49, 125])

/-- The closing quotation mark behind as many letters. -/
theorem closingQuote_replicate (n : ℕ) (s : Bytes) :
    closingQuote (List.replicate n 97 ++ 34 :: s) = some n := by
  induction n with
  | zero => simp
  | succ n ih =>
    rw [List.replicate_succ, List.cons_append, closingQuote_of_ne _ (by decide) (by decide), ih]
    rfl

/-- The key is passed to `adx_json_strdup`. -/
theorem mem_tokens_keyOf {n fuel : ℕ} (hn : 0 < n) (hlen : toInt32 n ≠ 0) :
    ⟨List.replicate n 97 ++ [34, 58, 49, 125], n⟩ ∈ (adxJsonParse (fuel + 1) (keyOf n)).tokens := by
  have hcstr : cstr (keyOf n) = keyOf n := by
    refine cstr_eq_self fun h => ?_
    simp [keyOf] at h
  have hhead : (List.replicate n (97 : UInt8) ++ [34, 58, 49, 125]).headD 0 ≠ 34 := by
    obtain ⟨m, rfl⟩ : ∃ m, n = m + 1 := ⟨n - 1, by omega⟩
    exact show (97 : UInt8) ≠ 34 by decide
  -- the name is the first string that is read
  have hstring := outcome_parseString hhead (closingQuote_replicate n [58, 49, 125]) (by simp)
  unfold adxJsonParse parseRoot
  rw [hcstr]
  refine Scan.mem_tokens_bind_right (outcome_skipSpace _) (Scan.mem_tokens_bind_left ?_)
  unfold keyOf parseObject parseList
  rw [List.dropWhile_cons_of_neg (by decide)]
  refine Scan.mem_tokens_bind_right (Scan.outcome_expect 123 _) ?_
  refine Scan.mem_tokens_bind_right (outcome_skipSpace _) ?_
  rw [List.dropWhile_cons_of_neg (by decide), Scan.peek_bind, List.headD_cons,
    if_neg (by decide)]
  refine Scan.mem_tokens_bind_left ?_
  rw [parseEntries, Scan.peek_bind, List.headD_cons, if_neg (by decide)]
  refine Scan.mem_tokens_bind_left ?_
  unfold parseMemberKey
  rw [if_pos rfl]
  refine Scan.mem_tokens_bind_right (outcome_skipSpace _) (Scan.mem_tokens_bind_left ?_)
  rw [List.dropWhile_cons_of_neg (by decide)]
  -- its length is not zero, so that it is copied
  unfold parseKey
  refine Scan.mem_tokens_bind_right hstring ?_
  dsimp only
  rw [if_neg (show Token.len ⟨_, n⟩ ≠ 0 from hlen)]
  exact List.mem_singleton.mpr rfl

/-- For a key of 2^32 - 1 bytes the block has no byte, and the NUL is written behind it. -/
theorem long_key_overwrites :
    ¬ParseSafe ((keyOf (2 ^ 32 - 1)).length + 1) (keyOf (2 ^ 32 - 1)) := by
  rintro ⟨-, -, hwithin⟩
  have hlen : toInt32 ((2 ^ 32 - 1 : ℕ) : ℤ) = -1 := by decide
  refine (Token.within_iff _).mp (hwithin _ (mem_tokens_keyOf (by decide) ?_)) ?_
  · rw [hlen]
    decide
  · unfold Token.WrapsBelow Token.len
    rw [hlen]
    decide

end Json

end AdxDsp
