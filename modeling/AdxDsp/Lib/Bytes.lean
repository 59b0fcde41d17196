import Mathlib

/-!
# Byte strings and the C text conversions

The text that C programs exchange: byte strings, decimal numerals as `printf` writes them and as
`strtol` reads them, letter case, and separators.  `numeralValue` reads back what `decimal` writes,
and a text that is cut at a byte that none of its parts contains can be cut in one way only.
-/

namespace CText

/-- A C string or a redis value: a finite sequence of bytes. -/
abbrev Bytes := List UInt8

instance : LawfulBEq Bytes := inferInstance

/-- The bytes of an ASCII literal. -/
def bytes (s : String) : Bytes := s.toList.map fun c => UInt8.ofNat c.toNat

/-- What a C function sees of a byte string: the part before the first `NUL`. -/
def cstr (t : Bytes) : Bytes := t.takeWhile (· ≠ 0)

@[simp] theorem cstr_nil : cstr [] = [] := rfl

/-- A text without a `NUL` is its own C string. -/
theorem cstr_eq_self {t : Bytes} (h : 0 ∉ t) : cstr t = t := by
  rw [cstr, List.takeWhile_eq_self_iff]
  intro b hb
  have hne : b ≠ 0 := fun e => h (e ▸ hb)
  simp [hne]

/-- A C string has no `NUL`. -/
theorem length_cstr_le (t : Bytes) : (cstr t).length ≤ t.length :=
  (List.takeWhile_sublist _).length_le

/-- A C string has no zero byte. -/
theorem zero_notMem_cstr (t : Bytes) : 0 ∉ cstr t := by
  intro h
  have := List.mem_takeWhile_imp h
  simp at this

/-! ## Decimal numerals -/

/-- The byte of a decimal digit. -/
def digitByte (d : ℕ) : UInt8 := UInt8.ofNat (48 + d)

/-- An ASCII digit. -/
def isDigit (b : UInt8) : Bool := 48 ≤ b && b ≤ 57

/-- The decimal numeral of a natural number, without leading zeros. -/
def decimalNat (n : ℕ) : Bytes :=
  if n = 0 then [48] else (Nat.digits 10 n).reverse.map digitByte

/-- `%d` and `%ld`: the decimal numeral of a signed number. -/
def decimal (z : ℤ) : Bytes :=
  if z < 0 then 45 :: decimalNat z.natAbs else decimalNat z.natAbs

/-- `%lu` of a `long`: a negative number is shown as its value modulo `2 ^ 64`. -/
def unsignedDecimal (z : ℤ) : Bytes := decimal (if z < 0 then z + 2 ^ 64 else z)

/-- The value of the digits a text starts with. -/
def digitsValue (t : Bytes) : ℕ :=
  Nat.ofDigits 10 ((t.takeWhile isDigit).reverse.map fun b => b.toNat - 48)

/-- `isspace`: the blanks that `strtol` skips. -/
def isSpace (b : UInt8) : Bool := b = 32 || (9 ≤ b && b ≤ 13)

/-- The number that a text starts with: blanks, a sign, then digits up to the first other byte. -/
def numeralValue (t : Bytes) : ℤ :=
  match t.dropWhile isSpace with
  | 45 :: rest => -(digitsValue rest : ℤ)
  | 43 :: rest => digitsValue rest
  | rest => digitsValue rest

/-- `atol` is `strtol`, which stops at the ends of the range of `long`. -/
def atol (t : Bytes) : ℤ := max (-2 ^ 63) (min (2 ^ 63 - 1) (numeralValue t))

/-- Conversion of a `long` to `int`: the low 32 bits. -/
def toInt32 (z : ℤ) : ℤ := (BitVec.ofInt 32 z).toInt

/-- `atoi` converts the `long` to `int`. -/
def atoi (t : Bytes) : ℤ := toInt32 (atol t)

/-- The code of a decimal digit. -/
theorem toNat_digitByte {d : ℕ} (h : d < 10) : (digitByte d).toNat = 48 + d := by
  rw [digitByte, UInt8.toNat_ofNat']
  omega

/-- The byte of a digit is one. -/
theorem isDigit_digitByte {d : ℕ} (h : d < 10) : isDigit (digitByte d) = true := by
  have := toNat_digitByte h
  simp only [isDigit, Bool.and_eq_true, decide_eq_true_eq, UInt8.le_iff_toNat_le, this]
  exact ⟨by simp, by simp; omega⟩

/-- Every number has at least one digit. -/
theorem decimalNat_ne_nil (n : ℕ) : decimalNat n ≠ [] := by
  rw [decimalNat]
  split_ifs with h
  · simp
  · simpa [Nat.digits_eq_nil_iff_eq_zero] using h

/-- A natural numeral is all digits. -/
theorem isDigit_of_mem_decimalNat {n : ℕ} {b : UInt8} (h : b ∈ decimalNat n) :
    isDigit b = true := by
  rw [decimalNat] at h
  split_ifs at h with hn
  · rw [List.mem_singleton] at h
    subst h
    decide
  · obtain ⟨d, hd, rfl⟩ := List.mem_map.mp h
    exact isDigit_digitByte (Nat.digits_lt_base (by norm_num) (List.mem_reverse.mp hd))

/-- Reading the digits of a natural numeral gives the number back. -/
theorem digitsValue_decimalNat (n : ℕ) : digitsValue (decimalNat n) = n := by
  have htake : (decimalNat n).takeWhile isDigit = decimalNat n :=
    List.takeWhile_eq_self_iff.mpr fun b hb => isDigit_of_mem_decimalNat hb
  rw [digitsValue, htake, decimalNat]
  split_ifs with h
  · subst h
    decide
  · rw [← List.map_reverse, List.reverse_reverse, List.map_map]
    have hid : (Nat.digits 10 n).map ((fun b : UInt8 => b.toNat - 48) ∘ digitByte)
        = Nat.digits 10 n := by
      conv_rhs => rw [← List.map_id (Nat.digits 10 n)]
      refine List.map_congr_left fun d hd => ?_
      have hlt := Nat.digits_lt_base (by norm_num) hd
      simp only [Function.comp_apply, toNat_digitByte hlt, id]
      omega
    rw [hid, Nat.ofDigits_digits]

/-- The bytes of a signed numeral are digits and the minus sign. -/
theorem mem_decimal {z : ℤ} {b : UInt8} (h : b ∈ decimal z) : isDigit b = true ∨ b = 45 := by
  rw [decimal] at h
  split_ifs at h
  · rcases List.mem_cons.mp h with rfl | h
    · exact .inr rfl
    · exact .inl (isDigit_of_mem_decimalNat h)
  · exact .inl (isDigit_of_mem_decimalNat h)

/-- A byte that is neither a digit nor the minus sign stands in no numeral. -/
theorem notMem_decimal {b : UInt8} (hd : isDigit b = false) (hm : b ≠ 45) (z : ℤ) :
    b ∉ decimal z := by
  intro h
  rcases mem_decimal h with h | h
  · rw [h] at hd
    exact Bool.noConfusion hd
  · exact hm h

/-- A digit is not skipped as white space. -/
theorem isSpace_eq_false_of_isDigit {b : UInt8} (h : isDigit b = true) : isSpace b = false := by
  simp only [isDigit, Bool.and_eq_true, decide_eq_true_eq, UInt8.le_iff_toNat_le] at h
  simp only [isSpace, Bool.or_eq_false_iff, Bool.and_eq_false_iff, decide_eq_false_iff_not,
    UInt8.le_iff_toNat_le, ← UInt8.toNat_inj]
  simp only [UInt8.reduceToNat] at h ⊢
  omega

/-- Digits behind no sign are read as they are. -/
theorem numeralValue_of_isDigit {t : Bytes} (hne : t ≠ []) (h : ∀ b ∈ t, isDigit b = true) :
    numeralValue t = digitsValue t := by
  obtain ⟨b, r, rfl⟩ := List.exists_cons_of_ne_nil hne
  have hb := h b (List.mem_cons_self ..)
  have hdrop : (b :: r).dropWhile isSpace = b :: r :=
    List.dropWhile_cons_of_neg (by simp [isSpace_eq_false_of_isDigit hb])
  rw [numeralValue, hdrop]
  split
  · rename_i heq
    obtain ⟨rfl, -⟩ := List.cons.inj heq
    exact absurd hb (by decide)
  · rename_i heq
    obtain ⟨rfl, -⟩ := List.cons.inj heq
    exact absurd hb (by decide)
  · rfl

/-- A numeral has the value of the number it was written for. -/
@[simp] theorem numeralValue_decimal (z : ℤ) : numeralValue (decimal z) = z := by
  rw [decimal]
  split_ifs with h
  · have hdrop : (45 :: decimalNat z.natAbs).dropWhile isSpace = 45 :: decimalNat z.natAbs :=
      List.dropWhile_cons_of_neg (by decide)
    rw [numeralValue, hdrop]
    simp only [digitsValue_decimalNat]
    omega
  · rw [numeralValue_of_isDigit (decimalNat_ne_nil _) fun b hb => isDigit_of_mem_decimalNat hb,
      digitsValue_decimalNat]
    omega

/-- A value in the range of `long` is read as it is. -/
theorem atol_eq_numeralValue {t : Bytes} (hlo : -2 ^ 63 ≤ numeralValue t)
    (hhi : numeralValue t < 2 ^ 63) : atol t = numeralValue t := by
  rw [atol]
  omega

/-- `atol` reads back what `%ld` wrote. -/
theorem atol_decimal {z : ℤ} (hlo : -2 ^ 63 ≤ z) (hhi : z < 2 ^ 63) : atol (decimal z) = z := by
  rw [atol_eq_numeralValue (by simpa using hlo) (by simpa using hhi), numeralValue_decimal]

/-- `atol` reads back every 32-bit number. -/
@[simp] theorem atol_decimal_toInt (w : BitVec 32) : atol (decimal w.toInt) = w.toInt :=
  have hlo := w.le_toInt
  have hhi := w.toInt_lt
  atol_decimal (by omega) (by omega)

/-- A number below `10 ^ k` has at most `k` digits. -/
theorem length_decimal_natCast_le {n k : ℕ} (hk : 0 < k) (h : n < 10 ^ k) :
    (decimal n).length ≤ k := by
  rw [decimal, if_neg (not_lt.mpr (Int.natCast_nonneg n)), Int.natAbs_natCast, decimalNat]
  split_ifs
  · exact hk
  · rw [List.length_map, List.length_reverse]
    exact (Nat.digits_length_le_iff (by norm_num) n).mpr h

/-- Different numbers have different numerals. -/
theorem decimal_injective : Function.Injective decimal :=
  Function.LeftInverse.injective numeralValue_decimal

/-- Two numbers with one text are equal. -/
@[simp] theorem decimal_inj {a b : ℤ} : decimal a = decimal b ↔ a = b :=
  decimal_injective.eq_iff

/-- A numeral has no `NUL`. -/
@[simp] theorem cstr_decimal (z : ℤ) : cstr (decimal z) = decimal z :=
  cstr_eq_self (notMem_decimal (by decide) (by decide) z)

/-- `%lu` and `%ld` agree on numbers that are not negative. -/
theorem unsignedDecimal_of_nonneg {z : ℤ} (h : 0 ≤ z) : unsignedDecimal z = decimal z := by
  rw [unsignedDecimal, if_neg (not_lt.mpr h)]

/-- A number in the range of `int` is not changed by the conversion. -/
theorem toInt32_of_bounds {z : ℤ} (hlo : -2 ^ 31 ≤ z) (hhi : z < 2 ^ 31) : toInt32 z = z := by
  rw [toInt32, BitVec.toInt_ofInt]
  exact Int.bmod_eq_of_le (by omega) (by omega)

/-- The truncation by its two ranges. -/
theorem toInt32_eq (z : ℤ) :
    toInt32 z = if z % 2 ^ 32 < 2 ^ 31 then z % 2 ^ 32 else z % 2 ^ 32 - 2 ^ 32 := by
  rw [toInt32, BitVec.toInt_ofInt, Int.bmod_def]
  norm_num

/-- Truncation makes no number larger. -/
theorem toNat_toInt32_le (n : ℕ) : (toInt32 n).toNat ≤ n := by
  rw [toInt32_eq]
  split_ifs <;> omega

/-- `atoi` yields an `int`, whatever the text is. -/
theorem atoi_bounds (t : Bytes) : -2 ^ 31 ≤ atoi t ∧ atoi t < 2 ^ 31 := by
  rw [atoi, toInt32]
  exact ⟨BitVec.le_toInt _, BitVec.toInt_lt⟩

/-- `atoi` reads back a numeral in the range of `int`. -/
theorem atoi_decimal {z : ℤ} (hlo : -2 ^ 31 ≤ z) (hhi : z < 2 ^ 31) : atoi (decimal z) = z := by
  rw [atoi, atol_decimal (by omega) (by omega), toInt32_of_bounds hlo hhi]

/-! ## Hexadecimal digits -/

/-- A digit of `%x` or `%X`; `letter` is the one for 10. -/
def hexDigit (letter d : ℕ) : UInt8 := UInt8.ofNat (if d < 10 then 48 + d else letter + (d - 10))

/-- A parameter of a URL. -/
def urlPar (name value : Bytes) : Bytes := bytes "&" ++ name ++ bytes "=" ++ value

/-! ## Letter case -/

/-- `tolower` in the C locale. -/
def tolowerByte (b : UInt8) : UInt8 := if 65 ≤ b ∧ b ≤ 90 then b + 32 else b

/-- A text with its letters in lower case. -/
def tolower (t : Bytes) : Bytes := t.map tolowerByte

@[simp] theorem tolower_nil : tolower [] = [] := rfl

/-! ## Separators and literals -/

/-- A text is cut in one way only at the first occurrence of a byte. -/
theorem append_sep_inj {c : UInt8} {a a' b b' : Bytes} (ha : c ∉ a) (ha' : c ∉ a') :
    a ++ c :: b = a' ++ c :: b' ↔ a = a' ∧ b = b' := by
  induction a generalizing a' with
  | nil =>
    cases a' with
    | nil => simp
    | cons x r => simp [List.ne_of_not_mem_cons ha']
  | cons x r ih =>
    cases a' with
    | nil => simp [(List.ne_of_not_mem_cons ha).symm]
    | cons y r' =>
      have hr := ih (List.not_mem_of_not_mem_cons ha) (List.not_mem_of_not_mem_cons ha')
      simp only [List.cons_append, List.cons.injEq, hr, and_assoc]

/-- No piece of a text that is cut at a byte contains this byte. -/
theorem notMem_of_mem_splitOn {c : UInt8} {t piece : Bytes} (h : piece ∈ t.splitOn c) :
    c ∉ piece := by
  induction t generalizing piece with
  | nil =>
    rw [List.splitOn_nil, List.mem_singleton] at h
    subst h
    exact List.not_mem_nil
  | cons b t ih =>
    rw [List.splitOn_cons_eq_if_modifyHead] at h
    split_ifs at h with hb
    · rcases List.mem_cons.mp h with rfl | h
      · exact List.not_mem_nil
      · exact ih h
    · -- the byte joins the first piece of the rest
      obtain ⟨first, rest, heq⟩ := List.exists_cons_of_ne_nil (List.splitOn_ne_nil c t)
      rw [heq] at h ih
      rcases List.mem_cons.mp h with rfl | h
      · intro hc
        rcases List.mem_cons.mp hc with rfl | hc
        · exact hb (beq_self_eq_true c)
        · exact ih List.mem_cons_self hc
      · exact ih (List.mem_cons_of_mem first h)

/-- Texts that start with incomparable literals differ. -/
theorem append_ne_append {a b : Bytes} (h : (a.isPrefixOf b || b.isPrefixOf a) = false)
    (x y : Bytes) : a ++ x ≠ b ++ y := by
  intro heq
  have hab := List.prefix_or_prefix_of_prefix (List.prefix_append a x)
    (heq ▸ List.prefix_append b y)
  rw [← List.isPrefixOf_iff_prefix, ← List.isPrefixOf_iff_prefix, ← Bool.or_eq_true, h] at hab
  exact Bool.noConfusion hab

/-! ## Substrings -/

/-- `std::string::find`: the place of the first occurrence of a text. -/
def find (d : Bytes) : Bytes → Option ℕ
  | [] => if d = [] then some 0 else none
  | b :: t => if d <+: b :: t then some 0 else (find d t).map (· + 1)

/-- A search finds nothing just if the text does not occur. -/
theorem find_eq_none_iff {d t : Bytes} : find d t = none ↔ ¬d <:+: t := by
  induction t with
  | nil =>
    rw [find, List.infix_nil]
    split_ifs with h <;> simp [h]
  | cons b t ih =>
    rw [find, List.infix_cons_iff]
    split_ifs with h
    · simp [h]
    · rw [Option.map_eq_none_iff, ih]
      simp [h]

/-- A text is cut at the place of the first occurrence. -/
theorem eq_of_find {d t : Bytes} {n : ℕ} (h : find d t = some n) :
    t = t.take n ++ d ++ t.drop (n + d.length) := by
  induction t generalizing n with
  | nil =>
    rw [find] at h
    split_ifs at h with hd
    rw [hd, List.take_nil, List.drop_nil]
    rfl
  | cons b t ih =>
    rw [find] at h
    split_ifs at h with hd
    · obtain ⟨rest, hrest⟩ := hd
      rw [Option.some_inj] at h
      subst h
      rw [List.take_zero, List.nil_append, Nat.zero_add, ← hrest, List.drop_left]
    · obtain ⟨m, hm, rfl⟩ := Option.map_eq_some_iff.mp h
      have hshift : m + 1 + d.length = m + d.length + 1 := by omega
      rw [List.take_succ_cons, hshift, List.drop_succ_cons, List.cons_append, List.cons_append,
        ← ih hm]

end CText
