import AdxDsp.Lib.Bytes

/-!
# Base64

The code of RFC 4648 as numbers of six bits; what characters stand for them is left to an alphabet.

* `ofSextets_sextets`: three bytes are four numbers, and come back.
* `encode`: the text of some bytes, with its padding.
* `standardAlphabet`: the usual characters.
* `shiftLeft_or`: how programs put such numbers together.
-/

namespace Sextets

open CText

/-- The numbers of three bytes, and of the one or two bytes of a last group. -/
def sextets : Bytes → List ℕ
  | a :: b :: c :: rest =>
    a.toNat / 4 :: (a.toNat % 4 * 16 + b.toNat / 16) :: (b.toNat % 16 * 4 + c.toNat / 64) ::
      c.toNat % 64 :: sextets rest
  | [a, b] => [a.toNat / 4, a.toNat % 4 * 16 + b.toNat / 16, b.toNat % 16 * 4]
  | [a] => [a.toNat / 4, a.toNat % 4 * 16]
  | [] => []

/-- The bytes of four numbers, and of the two or three numbers of a last group. -/
def ofSextets : List ℕ → Bytes
  | w :: x :: y :: z :: rest =>
    UInt8.ofNat (w * 4 + x / 16) :: UInt8.ofNat (x * 16 + y / 4) :: UInt8.ofNat (y * 64 + z) ::
      ofSextets rest
  | [w, x, y] => [UInt8.ofNat (w * 4 + x / 16), UInt8.ofNat (x * 16 + y / 4)]
  | [w, x] => [UInt8.ofNat (w * 4 + x / 16)]
  | _ => []

/-- The characters for padding. -/
def padding (n : ℕ) : ℕ := (3 - n % 3) % 3

/-- The text of some bytes. -/
def encode (alphabet : ℕ → UInt8) (pad : UInt8) (text : Bytes) : Bytes :=
  (sextets text).map alphabet ++ List.replicate (padding text.length) pad

/-- The usual characters: the letters, the digits, `+` and `/`. -/
def standardAlphabet : Bytes :=
  (List.range' 65 26 ++ List.range' 97 26 ++ List.range' 48 10 ++ [43, 47]).map UInt8.ofNat

/-- The same characters as a text; to look them up there again and again is slow. -/
theorem bytes_standardAlphabet :
    bytes "ABCDEFGHIJKLMNOPQRSTUVWXYZabcdefghijklmnopqrstuvwxyz0123456789+/" =
      standardAlphabet := by
  decide +kernel

/-- A byte is given by its code modulo 256. -/
theorem ofNat_eq {n : ℕ} {b : UInt8} (h : n % 256 = b.toNat) : UInt8.ofNat n = b := by
  rw [← UInt8.toNat_inj, UInt8.toNat_ofNat', ← h]

/-- By induction on the groups. -/
theorem ofSextets_sextets (text : Bytes) : ofSextets (sextets text) = text := by
  induction text using sextets.induct with
  | case1 a b c rest ih =>
    have ha := a.toNat_lt
    have hb := b.toNat_lt
    have hc := c.toNat_lt
    rw [sextets, ofSextets, ih, ofNat_eq (b := a) (by omega), ofNat_eq (b := b) (by omega),
      ofNat_eq (b := c) (by omega)]
  | case2 a b =>
    have ha := a.toNat_lt
    have hb := b.toNat_lt
    rw [sextets, ofSextets, ofNat_eq (b := a) (by omega), ofNat_eq (b := b) (by omega)]
  | case3 a =>
    have ha := a.toNat_lt
    rw [sextets, ofSextets, ofNat_eq (b := a) (by omega)]
  | case4 => rfl

/-- A sextet has six bits. -/
theorem lt_of_mem_sextets {text : Bytes} : ∀ n ∈ sextets text, n < 64 := by
  induction text using sextets.induct with
  | case1 a b c rest ih =>
    have ha := a.toNat_lt
    have hb := b.toNat_lt
    have hc := c.toNat_lt
    rw [sextets]
    simp only [List.forall_mem_cons]
    exact ⟨by omega, by omega, by omega, by omega, ih⟩
  | case2 a b =>
    have ha := a.toNat_lt
    have hb := b.toNat_lt
    simp only [sextets, List.forall_mem_cons]
    exact ⟨by omega, by omega, by omega, by simp⟩
  | case3 a =>
    have ha := a.toNat_lt
    simp only [sextets, List.forall_mem_cons]
    exact ⟨by omega, by omega, by simp⟩
  | case4 => simp [sextets]

/-- Three bytes are four sextets, and the padding fills up. -/
theorem length_sextets (text : Bytes) :
    (sextets text).length + padding text.length = (text.length + 2) / 3 * 4 := by
  induction text using sextets.induct with
  | case1 a b c rest ih =>
    rw [padding] at ih ⊢
    simp only [sextets, List.length_cons]
    omega
  | case2 a b => simp [sextets, padding]
  | case3 a => simp [sextets, padding]
  | case4 => rfl

/-- The length of the code. -/
theorem length_encode (alphabet : ℕ → UInt8) (pad : UInt8) (text : Bytes) :
    (encode alphabet pad text).length = (text.length + 2) / 3 * 4 := by
  rw [encode, List.length_append, List.length_map, List.length_replicate, length_sextets]

/-- The code of three bytes and of what follows. -/
theorem encode_cons (alphabet : ℕ → UInt8) (pad a b c : UInt8) (rest : Bytes) :
    encode alphabet pad (a :: b :: c :: rest) =
      alphabet (a.toNat / 4) :: alphabet (a.toNat % 4 * 16 + b.toNat / 16) ::
        alphabet (b.toNat % 16 * 4 + c.toNat / 64) :: alphabet (c.toNat % 64) ::
          encode alphabet pad rest := by
  have hpad : padding (rest.length + 1 + 1 + 1) = padding rest.length := by
    rw [padding, padding]
    omega
  simp only [encode, sextets, List.map_cons, List.cons_append, List.length_cons, hpad]

/-! ## Bits -/

section

variable {w x y z : ℕ}

/-- Numbers whose bits lie behind each other. -/
theorem shiftLeft_or {p c k : ℕ} (h : c < 2 ^ k) : p <<< k ||| c = p * 2 ^ k + c := by
  rw [← Nat.shiftLeft_add_eq_or_of_lt h, Nat.shiftLeft_eq]

/-- The first byte of a group: the first sextet and two bits of the second. -/
theorem first_or (hx : x < 64) : w <<< 2 ||| x >>> 4 = w * 4 + x / 16 := by
  rw [Nat.shiftRight_eq_div_pow, shiftLeft_or (by omega)]
  rfl

/-- The second byte: four bits of the second sextet and four of the third. -/
theorem second_or (hy : y < 64) : x <<< 4 ||| y >>> 2 = x * 16 + y / 4 := by
  rw [Nat.shiftRight_eq_div_pow, shiftLeft_or (by omega)]
  rfl

/-- The third byte: two bits of the third sextet and the fourth. -/
theorem third_or (hz : z < 64) : y <<< 6 ||| z = y * 64 + z := shiftLeft_or hz

end

section

variable (a b c : UInt8)

/-- The last two bits. -/
theorem and_three (n : ℕ) : n &&& 3 = n % 4 := Nat.and_two_pow_sub_one_eq_mod n 2

/-- The last four bits. -/
theorem and_fifteen (n : ℕ) : n &&& 0x0f = n % 16 := Nat.and_two_pow_sub_one_eq_mod n 4

/-- The last six bits. -/
theorem and_sixtyThree (n : ℕ) : n &&& 0x3f = n % 64 := Nat.and_two_pow_sub_one_eq_mod n 6

/-- The first sextet of a group. -/
theorem first_bits : a.toNat >>> 2 &&& 0x3f = a.toNat / 4 := by
  have ha := a.toNat_lt
  rw [Nat.shiftRight_eq_div_pow, and_sixtyThree]
  omega

/-- The second sextet, of the first byte and the second. -/
theorem second_bits :
    (a.toNat &&& 3) <<< 4 ||| b.toNat >>> 4 = a.toNat % 4 * 16 + b.toNat / 16 := by
  have hb := b.toNat_lt
  rw [Nat.shiftRight_eq_div_pow, shiftLeft_or (by omega), and_three]
  rfl

/-- The third sextet, of the second byte and the third. -/
theorem third_bits :
    (b.toNat &&& 0x0f) <<< 2 ||| c.toNat >>> 6 = b.toNat % 16 * 4 + c.toNat / 64 := by
  have hc := c.toNat_lt
  rw [Nat.shiftRight_eq_div_pow, shiftLeft_or (by omega), and_fifteen]
  rfl

/-- The second sextet where the text ends with the first byte. -/
theorem last_second_bits : (a.toNat &&& 3) <<< 4 = a.toNat % 4 * 16 := by
  rw [Nat.shiftLeft_eq, and_three]

/-- The third sextet where the text ends with the second byte. -/
theorem last_third_bits : (b.toNat &&& 0x0f) <<< 2 = b.toNat % 16 * 4 := by
  rw [Nat.shiftLeft_eq, and_fifteen]

end

end Sextets
