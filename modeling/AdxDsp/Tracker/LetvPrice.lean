import Mathlib.Data.Rat.Defs
import AdxDsp.Lib.BlockCipher
import AdxDsp.Lib.Sextets
import AdxDsp.Tracker.UrlInfo

/-!
# The winning prices of Letv

The exchange encrypts the text of a price with AES-256 in blocks of 16 bytes, encodes the code in
base64 and escapes it for an URL (`letv/decode.cpp`, `baselib/base64.c`, `baselib/algo_aes.cpp`).
The decoder takes the length of the code from `strlen`.

* **Base64** (`base64Decode_encode`).
* **Prices** (`IsDecimal`, `decimalValue`), and what `atof` makes of them.
* `letv_meets_iff`: the codes of which the price is read.
-/

namespace AdxDsp.LetvPrice

open CText Sextets

/-! ## Base64 -/

/-- `base64_alphabet` -/
def base64Alphabet (n : ℕ) : UInt8 :=
  (bytes "ABCDEFGHIJKLMNOPQRSTUVWXYZabcdefghijklmnopqrstuvwxyz0123456789+/").getD n 0

/-- `base64_suffix_map` at a character below 128. -/
def base64SuffixMap (ch : UInt8) : UInt8 :=
  if ch = 43 then 62
  else if ch = 47 then 63
  else if 48 ≤ ch ∧ ch ≤ 57 then ch - 48 + 52
  else if 65 ≤ ch ∧ ch ≤ 90 then ch - 65
  else if 97 ≤ ch ∧ ch ≤ 122 then ch - 97 + 26
  else 255

/-- A byte shifted to the left and then to the right. -/
def cmoveBits (src lnum rnum : UInt8) : UInt8 := (src <<< lnum) >>> rnum

/-- The bytes of four characters. -/
def decodeGroup (c0 c1 c2 c3 : UInt8) : Bytes :=
  [cmoveBits (base64SuffixMap c0) 2 0 + cmoveBits (base64SuffixMap c1) 0 4,
    cmoveBits (base64SuffixMap c1) 4 0 + cmoveBits (base64SuffixMap c2) 0 2,
    cmoveBits (base64SuffixMap c2) 6 0 + base64SuffixMap c3]

/-- The loop of `base64_decode`; the last group may be shorter. -/
def decodeLoop (padnum : ℕ) : Bytes → Bytes
  | c0 :: c1 :: c2 :: c3 :: rest =>
    if rest = [] ∧ padnum ≠ 0 then (decodeGroup c0 c1 c2 c3).take (3 - padnum)
    else decodeGroup c0 c1 c2 c3 ++ decodeLoop padnum rest
  | _ => []

/-- `base64_decode`: the bytes before the terminator, or `none` inside for `NULL`.  The table has
elements of type `char`: 255 is -1 there, so that no character is ever found to be wrong, and a
character above 127 is a negative index. -/
def base64Decode (bdata : Bytes) : Option (Option Bytes) :=
  if bdata.length = 0 then some none
  else if bdata.length % 4 ≠ 0 then some none
  else if ∃ ch ∈ bdata, 128 ≤ ch then none
  else
    let padnum :=
      if bdata.getD (bdata.length - 1) 0 = 61 then
        if bdata.getD (bdata.length - 2) 0 = 61 then 2 else 1
      else 0
    some (some (decodeLoop padnum bdata))

/-! ## The decoder -/

/-- `DecodeWinningPrice`: the code and the content of `*price`, or `none` for an access outside of a
buffer.  `decrypt` is the text that `decrypt` leaves in its buffer. -/
def decodeWinningPrice {D : Type} (decrypt : Bytes → Bytes) (atof : Bytes → D) (zero : D)
    (sourceStr : Bytes) (price : D) : Option (ℤ × D) :=
  let str := urlDecode (cstr sourceStr)
  if str.length = 0 then some (1, price)
  else
    match base64Decode (cstr str) with
    | none => none
    | some none => some (1, price)
    | some (some decoded) =>
      let decryptedtext := decrypt (cstr decoded)
      if decryptedtext.length ≠ 0 then
        -- the terminator is written behind the text
        if 1024 ≤ decryptedtext.length then none else some (0, atof (cstr decryptedtext))
      else some (1, zero)

/-! ## Prices -/

/-- Digits, perhaps with a point and more digits behind it. -/
def IsDecimal (text : Bytes) : Prop :=
  ∃ whole frac : Bytes, (text = whole ∨ text = whole ++ 46 :: frac) ∧ whole ≠ [] ∧
    (∀ b ∈ whole, isDigit b = true) ∧ ∀ b ∈ frac, isDigit b = true

/-- The number that such a text denotes. -/
def decimalValue (text : Bytes) : ℚ :=
  let whole := text.takeWhile isDigit
  let frac := text.drop (whole.length + 1)
  digitsValue whole + digitsValue frac / 10 ^ frac.length

/-- `atof`: the floating point number for the number of a decimal text. -/
structure Atof (D : Type) where
  run : Bytes → D
  round : ℚ → D
  run_of_isDecimal : ∀ text, IsDecimal text → run text = round (decimalValue text)

/-- The cipher with its padding. -/
structure Cipher where
  encrypt : Bytes → Bytes
  decrypt : Bytes → Bytes
  decrypt_encrypt : ∀ text, decrypt (encrypt text) = text
  length_encrypt : ∀ text, (encrypt text).length = (text.length / 16 + 1) * 16

/-- Any byte can be escaped, and `%` and `+` are. -/
inductive PercentEncodes : Bytes → Bytes → Prop
  | nil : PercentEncodes [] []
  | plain {c : UInt8} {src text : Bytes} (hc : c ≠ 37 ∧ c ≠ 43) (h : PercentEncodes src text) :
      PercentEncodes (c :: src) (c :: text)
  | escaped {a b : UInt8} {src text : Bytes} (ha : isXdigit a = true) (hb : isXdigit b = true)
      (h : PercentEncodes src text) :
      PercentEncodes (37 :: a :: b :: src) ((xdigitValue a * 16 + xdigitValue b) :: text)

/-- The call returns 0 with the number of the text, whatever `*price` was. -/
def Meets {D : Type} (decrypt : Bytes → Bytes) (atof : Atof D) (zero : D) (src text : Bytes) :
    Prop :=
  ∀ price, decodeWinningPrice decrypt atof.run zero src price =
    some (0, atof.round (decimalValue text))

/-- The bytes of the price that are decrypted of a code, up to its first zero byte. -/
def bytesRead (code : Bytes) : ℕ := BlockCipher.firstBlocks 16 (cstr code).length * 16

/-! ## The text of a code -/

/-- The alphabet is the standard one. -/
theorem base64Alphabet_eq : base64Alphabet = fun n => standardAlphabet.getD n 0 := by
  funext n
  rw [base64Alphabet, bytes_standardAlphabet]

/-- The map gives back the number of a letter. -/
theorem base64SuffixMap_base64Alphabet :
    ∀ n < 64, base64SuffixMap (base64Alphabet n) = UInt8.ofNat n := by
  rw [base64Alphabet_eq]
  decide +kernel

/-- A letter is ASCII, and neither the padding nor the end of a text. -/
theorem base64Alphabet_ne : ∀ n < 64, base64Alphabet n ≠ 61 ∧ base64Alphabet n ≠ 0 ∧
    base64Alphabet n < 128 := by
  rw [base64Alphabet_eq]
  decide +kernel

/-- The two shifts as arithmetic. -/
theorem toNat_cmoveBits {src lnum rnum : UInt8} (hl : lnum.toNat < 8) (hr : rnum.toNat < 8) :
    (cmoveBits src lnum rnum).toNat = src.toNat * 2 ^ lnum.toNat % 256 / 2 ^ rnum.toNat := by
  rw [cmoveBits, UInt8.toNat_shiftRight, UInt8.toNat_shiftLeft, Nat.mod_eq_of_lt hl,
    Nat.mod_eq_of_lt hr, Nat.shiftLeft_eq, Nat.shiftRight_eq_div_pow]

/-- The low bits of a digit, and the high bits of the next one. -/
theorem cmoveBits_add {x y n : ℕ} {l r : UInt8} (hl : l.toNat < 8) (hr : r.toNat < 8)
    (h : (x % 256 * 2 ^ l.toNat % 256 + y % 256 / 2 ^ r.toNat) % 256 = n % 256) :
    cmoveBits (UInt8.ofNat x) l 0 + cmoveBits (UInt8.ofNat y) 0 r = UInt8.ofNat n := by
  rw [← UInt8.toNat_inj, UInt8.toNat_add, toNat_cmoveBits hl (by decide),
    toNat_cmoveBits (by decide) hr, UInt8.toNat_ofNat', UInt8.toNat_ofNat', UInt8.toNat_ofNat']
  simpa only [UInt8.reduceToNat, Nat.reducePow, pow_zero, Nat.mul_one, Nat.div_one, Nat.mod_mod]
    using h

/-- The first byte of a group. -/
theorem first_byte {x : ℕ} (w : ℕ) (hx : x < 64) :
    cmoveBits (UInt8.ofNat w) 2 0 + cmoveBits (UInt8.ofNat x) 0 4 =
      UInt8.ofNat (w * 4 + x / 16) := by
  apply cmoveBits_add (by decide) (by decide)
  simp only [UInt8.reduceToNat]
  omega

/-- The second byte of a group. -/
theorem second_byte {y : ℕ} (x : ℕ) (hy : y < 64) :
    cmoveBits (UInt8.ofNat x) 4 0 + cmoveBits (UInt8.ofNat y) 0 2 =
      UInt8.ofNat (x * 16 + y / 4) := by
  apply cmoveBits_add (by decide) (by decide)
  simp only [UInt8.reduceToNat]
  omega

/-- The third byte of a group. -/
theorem third_byte (y z : ℕ) :
    cmoveBits (UInt8.ofNat y) 6 0 + UInt8.ofNat z = UInt8.ofNat (y * 64 + z) := by
  rw [← UInt8.toNat_inj, UInt8.toNat_add, toNat_cmoveBits (by decide) (by decide),
    UInt8.toNat_ofNat', UInt8.toNat_ofNat', UInt8.toNat_ofNat']
  simp only [UInt8.reduceToNat]
  omega

section

variable {w x y z : ℕ} (hw : w < 64) (hx : x < 64)
include hw hx

/-- The byte of a group with two letters. -/
theorem decodeGroup_one (c2 c3 : UInt8) :
    (decodeGroup (base64Alphabet w) (base64Alphabet x) c2 c3).take 1 =
      [UInt8.ofNat (w * 4 + x / 16)] := by
  rw [decodeGroup, base64SuffixMap_base64Alphabet w hw, base64SuffixMap_base64Alphabet x hx,
    first_byte w hx]
  rfl

/-- The bytes of a group with three letters. -/
theorem decodeGroup_two (hy : y < 64) (c3 : UInt8) :
    (decodeGroup (base64Alphabet w) (base64Alphabet x) (base64Alphabet y) c3).take 2 =
      [UInt8.ofNat (w * 4 + x / 16), UInt8.ofNat (x * 16 + y / 4)] := by
  rw [decodeGroup, base64SuffixMap_base64Alphabet w hw, base64SuffixMap_base64Alphabet x hx,
    base64SuffixMap_base64Alphabet y hy, first_byte w hx, second_byte x hy]
  rfl

/-- The bytes of a full group. -/
theorem decodeGroup_three (hy : y < 64) (hz : z < 64) :
    decodeGroup (base64Alphabet w) (base64Alphabet x) (base64Alphabet y) (base64Alphabet z) =
      [UInt8.ofNat (w * 4 + x / 16), UInt8.ofNat (x * 16 + y / 4), UInt8.ofNat (y * 64 + z)] := by
  rw [decodeGroup, base64SuffixMap_base64Alphabet w hw, base64SuffixMap_base64Alphabet x hx,
    base64SuffixMap_base64Alphabet y hy, base64SuffixMap_base64Alphabet z hz, first_byte w hx,
    second_byte x hy, third_byte y z]

end

/-- The code comes back of its text; by induction on the groups. -/
theorem decodeLoop_encode (code : Bytes) :
    decodeLoop (Sextets.padding code.length) (encode base64Alphabet 61 code) = code := by
  -- by groups of three bytes
  induction code using sextets.induct with
  | case1 a b c rest ih =>
    have ha := a.toNat_lt
    have hb := b.toNat_lt
    have hc := c.toNat_lt
    have hpad : Sextets.padding (a :: b :: c :: rest).length = Sextets.padding rest.length := by
      simp only [Sextets.padding, List.length_cons]
      omega
    have hlast : ¬(encode base64Alphabet 61 rest = [] ∧ Sextets.padding rest.length ≠ 0) := by
      rintro ⟨hnil, hne⟩
      have hlength := length_encode base64Alphabet 61 rest
      rw [hnil, List.length_nil] at hlength
      rw [Sextets.padding] at hne
      omega
    rw [encode_cons, hpad, decodeLoop, if_neg hlast, ih, decodeGroup_three (by omega) (by omega)
      (by omega) (by omega), ofNat_eq (b := a) (by omega), ofNat_eq (b := b) (by omega),
      ofNat_eq (b := c) (by omega)]
    rfl
  | case2 a b =>
    have ha := a.toNat_lt
    have hb := b.toNat_lt
    have htwo := decodeGroup_two (w := a.toNat / 4) (x := a.toNat % 4 * 16 + b.toNat / 16)
      (y := b.toNat % 16 * 4) (by omega) (by omega) (by omega) 61
    rw [ofNat_eq (b := a) (by omega), ofNat_eq (b := b) (by omega)] at htwo
    exact htwo
  | case3 a =>
    have ha := a.toNat_lt
    have hone := decodeGroup_one (w := a.toNat / 4) (x := a.toNat % 4 * 16) (by omega) (by omega)
      61 61
    rw [ofNat_eq (b := a) (by omega)] at hone
    exact hone
  | case4 => rfl

/-- Where the padding stands. -/
theorem getD_encode_eq_iff {code : Bytes} {i : ℕ}
    (hi : i < (encode base64Alphabet 61 code).length) :
    (encode base64Alphabet 61 code).getD i 0 = 61 ↔ (sextets code).length ≤ i := by
  rw [encode, List.length_append, List.length_map, List.length_replicate] at hi
  rw [encode, List.getD_eq_getElem?_getD]
  constructor
  · intro h
    by_contra hlt
    rw [List.getElem?_append_left (by rw [List.length_map]; omega), List.getElem?_map,
      List.getElem?_eq_getElem (by omega)] at h
    exact (base64Alphabet_ne _ (lt_of_mem_sextets _ (List.getElem_mem _))).1 h
  · intro hle
    rw [List.getElem?_append_right (by rwa [List.length_map]), List.getElem?_replicate,
      List.length_map, if_pos (by omega)]
    rfl

/-- A code is ASCII without a zero byte. -/
theorem mem_encode {code : Bytes} {ch : UInt8} (h : ch ∈ encode base64Alphabet 61 code) :
    ch ≠ 0 ∧ ch < 128 := by
  rcases List.mem_append.mp h with h | h
  · obtain ⟨n, hn, rfl⟩ := List.mem_map.mp h
    exact (base64Alphabet_ne n (lt_of_mem_sextets n hn)).2
  · rw [List.eq_of_mem_replicate h]
    decide

/-- A code that is not empty decodes to its bytes. -/
theorem base64Decode_encode {code : Bytes} (hne : code ≠ []) :
    base64Decode (encode base64Alphabet 61 code) = some (some code) := by
  have hlength := length_encode base64Alphabet 61 code
  have hsextets := length_sextets code
  have hpos := List.length_pos_iff.mpr hne
  have hpad : Sextets.padding code.length ≤ 2 := by
    rw [Sextets.padding]
    omega
  have hlast := @getD_encode_eq_iff code ((encode base64Alphabet 61 code).length - 1) (by omega)
  have hsecond := @getD_encode_eq_iff code ((encode base64Alphabet 61 code).length - 2) (by omega)
  have hpadnum : (if (encode base64Alphabet 61 code).getD
        ((encode base64Alphabet 61 code).length - 1) 0 = 61 then
      if (encode base64Alphabet 61 code).getD
          ((encode base64Alphabet 61 code).length - 2) 0 = 61 then 2 else 1
      else 0) = Sextets.padding code.length := by
    simp only [hlast, hsecond]
    split_ifs <;> omega
  rw [base64Decode, if_neg (by omega), if_neg (by omega), if_neg]
  · simp only [hpadnum, decodeLoop_encode]
  · rintro ⟨ch, hch, hle⟩
    exact absurd (mem_encode hch).2 (UInt8.not_lt.mpr hle)

/-- An escaped text. -/
theorem urlDecode_of_percentEncodes {src text : Bytes} (h : PercentEncodes src text) :
    urlDecode src = text := by
  induction h with
  | nil => rfl
  | plain hc _ ih => rw [urlDecode_cons hc.1, if_neg hc.2, ih]
  | escaped ha hb _ ih =>
    rw [urlDecode, ha, hb, ih]
    rfl

/-- What is percent-encoded of a C string is one. -/
theorem zero_notMem_of_percentEncodes {src text : Bytes} (h : PercentEncodes src text)
    (hzero : 0 ∉ text) : 0 ∉ src := by
  have hdigit : isXdigit 0 = false := rfl
  induction h with
  | nil => exact hzero
  | plain hc _ ih =>
    rw [List.mem_cons, not_or] at hzero ⊢
    exact ⟨hzero.1, ih hzero.2⟩
  | escaped ha hb _ ih =>
    rw [List.mem_cons, not_or] at hzero
    simp only [List.mem_cons, not_or]
    refine ⟨by decide, ?_, ?_, ih hzero.2⟩
    · rintro rfl
      exact absurd ha (by decide)
    · rintro rfl
      exact absurd hb (by decide)

/-! ## Decimal texts -/

section

variable {text : Bytes}

/-- A decimal text is not empty. -/
theorem IsDecimal.ne_nil (h : IsDecimal text) : text ≠ [] := by
  obtain ⟨whole, frac, rfl | rfl, hne, -, -⟩ := h
  · exact hne
  · exact List.append_ne_nil_of_left_ne_nil hne _

/-- No byte of a decimal text is one of padding. -/
theorem IsDecimal.lt_of_mem (h : IsDecimal text) : ∀ b ∈ text, 16 < b.toNat := by
  have hdigit : ∀ b : UInt8, isDigit b = true → 16 < b.toNat := by
    intro b hb
    have hlo : 48 ≤ b := of_decide_eq_true (Bool.and_eq_true_iff.mp hb).1
    exact lt_of_lt_of_le (by decide) (UInt8.le_iff_toNat_le.mp hlo)
  obtain ⟨whole, frac, rfl | rfl, -, hwhole, hfrac⟩ := h
  · exact fun b hb => hdigit b (hwhole b hb)
  · intro b hb
    rcases List.mem_append.mp hb with hb | hb
    · exact hdigit b (hwhole b hb)
    · rcases List.mem_cons.mp hb with rfl | hb
      · decide
      · exact hdigit b (hfrac b hb)

/-- A decimal text is a C string. -/
theorem IsDecimal.zero_notMem (h : IsDecimal text) : 0 ∉ text :=
  fun hzero => absurd (h.lt_of_mem 0 hzero) (by decide)

/-- The first characters of a decimal text are one. -/
theorem IsDecimal.take (h : IsDecimal text) {n : ℕ} (hn : 0 < n) : IsDecimal (text.take n) := by
  obtain ⟨whole, frac, htext, hne, hwhole, hfrac⟩ := h
  have hfirst : IsDecimal (whole.take n) := by
    refine ⟨whole.take n, [], Or.inl rfl, ?_, fun b hb => hwhole b (List.mem_of_mem_take hb), nofun⟩
    simpa [hn.ne'] using hne
  rcases htext with rfl | rfl
  · exact hfirst
  · rcases Nat.lt_or_ge whole.length n with hlt | hle
    · obtain ⟨m, hm⟩ := Nat.exists_eq_add_of_lt hlt
      refine ⟨whole, frac.take m, Or.inr ?_, hne, hwhole,
        fun b hb => hfrac b (List.mem_of_mem_take hb)⟩
      rw [hm, Nat.add_assoc, List.take_length_add_append, List.take_succ_cons]
    · rwa [List.take_append_of_le_length hle]

end

/-! ## The price of a code -/

section

variable {D : Type} {decrypt : Bytes → Bytes} {atof : Atof D} {zero : D} {src code text : Bytes}

/-- What is decoded of the text of a code. -/
theorem decodeWinningPrice_eq (h : PercentEncodes src (encode base64Alphabet 61 code))
    (hne : code ≠ []) (price : D) :
    decodeWinningPrice decrypt atof.run zero src price =
      if (decrypt (cstr code)).length ≠ 0 then
        if 1024 ≤ (decrypt (cstr code)).length then none
        else some (0, atof.run (cstr (decrypt (cstr code))))
      else some (1, zero) := by
  have hzero : 0 ∉ encode base64Alphabet 61 code := fun hmem => (mem_encode hmem).1 rfl
  have hlength := length_encode base64Alphabet 61 code
  have hpos := List.length_pos_iff.mpr hne
  rw [decodeWinningPrice, cstr_eq_self (zero_notMem_of_percentEncodes h hzero),
    urlDecode_of_percentEncodes h, if_neg (by omega), cstr_eq_self hzero, base64Decode_encode hne]

/-- A decimal text that is decrypted. -/
theorem decodeWinningPrice_of_isDecimal (h : PercentEncodes src (encode base64Alphabet 61 code))
    (hne : code ≠ []) (htext : IsDecimal text) (hlen : text.length < 1024)
    (hdecrypt : decrypt (cstr code) = text) (price : D) :
    decodeWinningPrice decrypt atof.run zero src price =
      some (0, atof.round (decimalValue text)) := by
  have hpos := List.length_pos_iff.mpr htext.ne_nil
  rw [decodeWinningPrice_eq h hne, hdecrypt, if_pos (by omega), if_neg (by omega),
    cstr_eq_self htext.zero_notMem, atof.run_of_isDecimal text htext]

/-- The price is right where the cipher text has no zero byte. -/
theorem meets_of_zero_notMem {cipher : Cipher} (htext : IsDecimal text) (hlen : text.length ≤ 500)
    (h : PercentEncodes src (encode base64Alphabet 61 (cipher.encrypt text)))
    (hzero : 0 ∉ cipher.encrypt text) : Meets cipher.decrypt atof zero src text := by
  have hne : cipher.encrypt text ≠ [] := by
    rw [← List.length_pos_iff, cipher.length_encrypt]
    omega
  refine decodeWinningPrice_of_isDecimal h hne htext (by omega) ?_
  rw [cstr_eq_self hzero, cipher.decrypt_encrypt]

/-- The cipher of a permutation of blocks. -/
def ecb (block : BlockCipher.Cipher 16) : Cipher where
  encrypt := BlockCipher.encrypt block
  decrypt := BlockCipher.decrypt block
  decrypt_encrypt text := BlockCipher.decrypt_encrypt block text (by decide) (by decide)
  length_encrypt text := BlockCipher.length_encrypt block text (by decide)

/-- A code with a zero byte is read up to it. -/
theorem decrypt_cstr {block : BlockCipher.Cipher 16} (htext : IsDecimal text)
    (hzero : 0 ∈ BlockCipher.encrypt block text) :
    BlockCipher.decrypt block (cstr (BlockCipher.encrypt block text)) =
      text.take (bytesRead (BlockCipher.encrypt block text)) := by
  have htake : cstr (BlockCipher.encrypt block text) = (BlockCipher.encrypt block text).take
      (cstr (BlockCipher.encrypt block text)).length :=
    List.prefix_iff_eq_take.mp (List.takeWhile_prefix _)
  have hlt : (cstr (BlockCipher.encrypt block text)).length <
      (BlockCipher.encrypt block text).length := by
    refine (length_cstr_le _).lt_of_ne fun heq => ?_
    rw [heq, List.take_length] at htake
    exact zero_notMem_cstr _ (htake ▸ hzero)
  rw [htake, BlockCipher.decrypt_take block text (by decide) htext.lt_of_mem hlt]
  rfl

/-- When the price is right, for a cipher that works on blocks. -/
theorem meets_iff_of_block {block : BlockCipher.Cipher 16} (htext : IsDecimal text)
    (hlen : text.length ≤ 500)
    (h : PercentEncodes src (encode base64Alphabet 61 (BlockCipher.encrypt block text))) :
    Meets (BlockCipher.decrypt block) atof zero src text ↔
      0 ∉ BlockCipher.encrypt block text ∨ 0 < bytesRead (BlockCipher.encrypt block text) ∧
        atof.round (decimalValue (text.take (bytesRead (BlockCipher.encrypt block text)))) =
          atof.round (decimalValue text) := by
  by_cases hzero : 0 ∈ BlockCipher.encrypt block text
  -- with a NUL in the cipher text, only the blocks before it are decrypted
  · have hdecrypt := decrypt_cstr htext hzero
    have hne := List.ne_nil_of_mem hzero
    rw [or_iff_right (not_not_intro hzero)]
    rcases Nat.eq_zero_or_pos (bytesRead (BlockCipher.encrypt block text)) with hread | hread
    · -- nothing is decrypted
      refine iff_of_false (fun hmeets => ?_) fun hpart => absurd hpart.1 (by omega)
      have hcall := hmeets zero
      rw [decodeWinningPrice_eq h hne, hdecrypt, hread] at hcall
      cases hcall
    · have hshort : (text.take (bytesRead (BlockCipher.encrypt block text))).length < 1024 := by
        have hle := List.length_take_le (bytesRead (BlockCipher.encrypt block text)) text
        rw [List.length_take]
        omega
      -- the part of the price that is left is read as a number
      have hcall := @decodeWinningPrice_of_isDecimal D _ atof zero src _ _ h hne
        (htext.take hread) hshort hdecrypt
      constructor
      · intro hmeets
        have heq := (hcall zero).symm.trans (hmeets zero)
        exact ⟨hread, (Prod.mk.inj (Option.some_inj.mp heq)).2⟩
      · rintro ⟨-, heq⟩ price
        rw [hcall, heq]
  · exact iff_of_true (@meets_of_zero_notMem D atof zero src text (ecb block) htext hlen h hzero)
      (Or.inl hzero)

/-- The price is read of a code without a zero byte, whatever the cipher.  With a permutation of
blocks it is otherwise read if and only if the part of its text that is decrypted is there and
denotes the same floating point number. -/
theorem letv_meets_iff (atof : Atof D) (zero : D) {src text : Bytes} (htext : IsDecimal text)
    (hlen : text.length ≤ 500) :
    (∀ cipher : Cipher, PercentEncodes src (encode base64Alphabet 61 (cipher.encrypt text)) →
      0 ∉ cipher.encrypt text → Meets cipher.decrypt atof zero src text) ∧
    ∀ block : BlockCipher.Cipher 16,
      PercentEncodes src (encode base64Alphabet 61 (BlockCipher.encrypt block text)) →
        (Meets (BlockCipher.decrypt block) atof zero src text ↔
          0 ∉ BlockCipher.encrypt block text ∨ 0 < bytesRead (BlockCipher.encrypt block text) ∧
            atof.round (decimalValue (text.take (bytesRead (BlockCipher.encrypt block text)))) =
              atof.round (decimalValue text)) :=
  ⟨fun _ h hzero => meets_of_zero_notMem htext hlen h hzero,
    fun _ h => meets_iff_of_block htext hlen h⟩

end

/-! ## Two codes -/

/-- The characters before some others. -/
theorem percentEncodes_append {t src text : Bytes} (ht : ∀ c ∈ t, c ≠ 37 ∧ c ≠ 43)
    (h : PercentEncodes src text) : PercentEncodes (t ++ src) (t ++ text) := by
  induction t with
  | nil => exact h
  | cons c t ih =>
    obtain ⟨hc, hrest⟩ := List.forall_mem_cons.mp ht
    exact .plain hc (ih hrest)

/-- The padding of a text, escaped. -/
theorem percentEncodes_padding {t : Bytes}
    (ht : (t.all fun c => decide (c ≠ 37 ∧ c ≠ 43)) = true) :
    PercentEncodes (t ++ bytes "%3D%3D") (t ++ bytes "==") :=
  percentEncodes_append (fun c hc => of_decide_eq_true (List.all_eq_true.mp ht c hc))
    (.escaped (by decide) (by decide) (.escaped (by decide) (by decide) .nil))

/-- The permutation that changes two blocks for each other. -/
def swapCipher (b c : Bytes) (hb : b.length = 16) (hc : c.length = 16) : BlockCipher.Cipher 16 where
  enc t := if t = b then c else if t = c then b else t
  dec t := if t = b then c else if t = c then b else t
  length_enc t ht := by split_ifs <;> assumption
  dec_enc t _ := by
    split_ifs <;> simp_all

/-- A text of one block gets the code of its block. -/
theorem encrypt_swapCipher {text c : Bytes} (htext : text.length < 16)
    (hb : (BlockCipher.pad 16 text).length = 16) (hc : c.length = 16) :
    BlockCipher.encrypt (swapCipher (BlockCipher.pad 16 text) c hb hc) text = c := by
  have hblocks : text.length / 16 + 1 = 1 := by omega
  rw [BlockCipher.encrypt, hblocks, BlockCipher.overBlocks, BlockCipher.overBlocks,
    List.append_nil, List.take_of_length_le hb.le]
  exact if_pos rfl

/-- The code of 12.5 under AES-256 with the key of the decoder. -/
def readCode : Bytes :=
  [0x7d, 0x47, 0x6a, 0x55, 0x16, 0x75, 0x62, 0x77, 0x4a, 0x2b, 0x9e, 0x70, 0xb7, 0x5a, 0x07, 0xa6]

/-- The code of 102, which has a zero byte. -/
def lostCode : Bytes :=
  [0x75, 0x30, 0xe1, 0x4d, 0xf5, 0x00, 0x36, 0xb1, 0x08, 0x52, 0xf0, 0x75, 0xab, 0xd1, 0x8b, 0x12]

/-- A cipher with the code of 12.5. -/
def readCipher : BlockCipher.Cipher 16 :=
  swapCipher (BlockCipher.pad 16 (bytes "12.5")) readCode (by decide) (by decide)

/-- A cipher with the code of 102. -/
def lostCipher : BlockCipher.Cipher 16 :=
  swapCipher (BlockCipher.pad 16 (bytes "102")) lostCode (by decide) (by decide)

/-- The two samples are encrypted as given. -/
theorem encrypt_samples : BlockCipher.encrypt readCipher (bytes "12.5") = readCode ∧
    BlockCipher.encrypt lostCipher (bytes "102") = lostCode :=
  ⟨encrypt_swapCipher (by decide) _ _, encrypt_swapCipher (by decide) _ _⟩

/-- The numbers as floating point numbers. -/
def exactAtof : Atof ℚ := ⟨decimalValue, id, fun _ _ => rfl⟩

/-- The two prices are decimal texts. -/
theorem isDecimal_samples : IsDecimal (bytes "12.5") ∧ IsDecimal (bytes "102") :=
  ⟨⟨bytes "12", bytes "5", Or.inr rfl, by decide, by decide +kernel, by decide +kernel⟩,
    ⟨bytes "102", [], Or.inl rfl, by decide, by decide +kernel, nofun⟩⟩

/-- The two parameters are percent-encoded codes. -/
theorem percentEncodes_samples :
    PercentEncodes (bytes "fUdqVRZ1YndKK55wt1oHpg" ++ bytes "%3D%3D")
        (encode base64Alphabet 61 (BlockCipher.encrypt readCipher (bytes "12.5"))) ∧
      PercentEncodes (bytes "dTDhTfUANrEIUvB1q9GLEg" ++ bytes "%3D%3D")
        (encode base64Alphabet 61 (BlockCipher.encrypt lostCipher (bytes "102"))) := by
  have hread : encode base64Alphabet 61 readCode =
      bytes "fUdqVRZ1YndKK55wt1oHpg" ++ bytes "==" := by
    rw [base64Alphabet_eq]
    decide +kernel
  have hlost : encode base64Alphabet 61 lostCode =
      bytes "dTDhTfUANrEIUvB1q9GLEg" ++ bytes "==" := by
    rw [base64Alphabet_eq]
    decide +kernel
  rw [encrypt_samples.1, encrypt_samples.2, hread, hlost]
  exact ⟨percentEncodes_padding (by decide +kernel), percentEncodes_padding (by decide +kernel)⟩

/-- The first sample has no zero byte. -/
theorem zero_notMem_readCode : 0 ∉ BlockCipher.encrypt readCipher (bytes "12.5") := by
  rw [encrypt_samples.1]
  decide

/-- 12.5 is read. -/
theorem price_read : Meets (BlockCipher.decrypt readCipher) exactAtof 0
    (bytes "fUdqVRZ1YndKK55wt1oHpg" ++ bytes "%3D%3D") (bytes "12.5") :=
  ((letv_meets_iff exactAtof 0 isDecimal_samples.1 (by decide)).2 readCipher
    percentEncodes_samples.1).mpr (Or.inl zero_notMem_readCode)

/-- Of the code of 102 no block is read. -/
theorem bytesRead_lostCode : 0 ∈ BlockCipher.encrypt lostCipher (bytes "102") ∧
    bytesRead (BlockCipher.encrypt lostCipher (bytes "102")) = 0 := by
  rw [encrypt_samples.2]
  decide

/-- 102 is not. -/
theorem price_lost : ¬Meets (BlockCipher.decrypt lostCipher) exactAtof 0
    (bytes "dTDhTfUANrEIUvB1q9GLEg" ++ bytes "%3D%3D") (bytes "102") := by
  rw [meets_iff_of_block isDecimal_samples.2 (by decide) percentEncodes_samples.2]
  rintro (hnot | ⟨hpos, -⟩)
  · exact hnot bytesRead_lostCode.1
  · exact absurd bytesRead_lostCode.2 hpos.ne'

end AdxDsp.LetvPrice
