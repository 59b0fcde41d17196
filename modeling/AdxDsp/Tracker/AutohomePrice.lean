import AdxDsp.Lib.Sextets
import AdxDsp.Tracker.PriceDecode

/-!
# The winning prices of Autohome

The exchange encrypts a price with a pad and signs it (`encrypt_price`), and `decrypt_price` decodes
the text, compares the signature and gives the price back (`adx_encrypt.c`).

* **Byte order** (`ntohl64_hl64ton_iff`): the prices that the conversions give back.
* **Base64** (`decodeBase64_encodeBase64`).
* **Texts** (`decryptPrice_encryptPrice`, `decryptPrice_ok`): what comes of the text of a price, and
  of any text.
* `autohome_iff`: the prices that come back, with a signature that is compared.
-/

namespace AdxDsp.AutohomePrice

open CText Sextets

/-! ## Byte order -/

/-- `htonl` and `ntohl` on a little-endian machine. -/
def htonl (x : BitVec 32) : BitVec 32 :=
  BitVec.ofNat 32 (x.toNat % 256 * 2 ^ 24 + x.toNat / 2 ^ 8 % 256 * 2 ^ 16 +
    x.toNat / 2 ^ 16 % 256 * 2 ^ 8 + x.toNat / 2 ^ 24)

/-- `host & 0xFFFFFFFF`, as an `int32_t`. -/
def lowHalf (x : BitVec 64) : BitVec 32 := x.setWidth 32

/-- `(host >> 32) & 0xFFFFFFFF`, as an `int32_t`. -/
def highHalf (x : BitVec 64) : BitVec 32 := (x.sshiftRight 32).setWidth 32

/-- `hl64ton`; both halves are `int32_t`, and so their sign goes into the upper bits. -/
def hl64ton (host : BitVec 64) : BitVec 64 :=
  let low := htonl (lowHalf host)
  let high := htonl (highHalf host)
  low.signExtend 64 <<< 32 ||| high.signExtend 64

/-- `ntohl64`, which is written as `hl64ton`. -/
def ntohl64 (host : BitVec 64) : BitVec 64 :=
  let low := htonl (lowHalf host)
  let high := htonl (highHalf host)
  low.signExtend 64 <<< 32 ||| high.signExtend 64

/-- The bytes of an `int64_t` in memory. -/
def memoryOf (x : BitVec 64) : Bytes :=
  (List.range 8).map fun i => UInt8.ofNat (x.toNat / 256 ^ i)

/-- The `int64_t` with these bytes in memory. -/
def ofMemory (bs : Bytes) : BitVec 64 := BitVec.ofNat 64 (bigEndian bs.reverse)

/-! ## Base64 -/

/-- `basis64` of `encode_base64`. -/
def basis64 : Bytes := bytes "ABCDEFGHIJKLMNOPQRSTUVWXYZabcdefghijklmnopqrstuvwxyz0123456789+/"

/-- A letter of the code. -/
def basis (n : ℕ) : UInt8 := basis64.getD n 0

/-- `encode_base64_internal` with padding. -/
def encodeBase64 : Bytes → Bytes
  | s0 :: s1 :: s2 :: s =>
    basis (s0.toNat >>> 2 &&& 0x3f) :: basis ((s0.toNat &&& 3) <<< 4 ||| s1.toNat >>> 4) ::
      basis ((s1.toNat &&& 0x0f) <<< 2 ||| s2.toNat >>> 6) :: basis (s2.toNat &&& 0x3f) ::
        encodeBase64 s
  | [s0, s1] =>
    [basis (s0.toNat >>> 2 &&& 0x3f), basis ((s0.toNat &&& 3) <<< 4 ||| s1.toNat >>> 4),
      basis ((s1.toNat &&& 0x0f) <<< 2), 61]
  | [s0] => [basis (s0.toNat >>> 2 &&& 0x3f), basis ((s0.toNat &&& 3) <<< 4), 61, 61]
  | [] => []

/-- The table of `decode_base64`: 77 for other characters. -/
def basisValue (ch : UInt8) : ℕ := (basis64.idxOf? ch).getD 77

/-- The loop of `decode_base64_internal`. -/
def decodeLoop : Bytes → Bytes
  | s0 :: s1 :: s2 :: s3 :: s =>
    UInt8.ofNat (basisValue s0 <<< 2 ||| basisValue s1 >>> 4) ::
      UInt8.ofNat (basisValue s1 <<< 4 ||| basisValue s2 >>> 2) ::
        UInt8.ofNat (basisValue s2 <<< 6 ||| basisValue s3) :: decodeLoop s
  | [s0, s1, s2] =>
    [UInt8.ofNat (basisValue s0 <<< 2 ||| basisValue s1 >>> 4),
      UInt8.ofNat (basisValue s1 <<< 4 ||| basisValue s2 >>> 2)]
  | [s0, s1] => [UInt8.ofNat (basisValue s0 <<< 2 ||| basisValue s1 >>> 4)]
  | _ => []

/-- `decode_base64`: up to the first `=`. -/
def decodeBase64 (src : Bytes) : Option Bytes :=
  let chars := src.takeWhile (· ≠ 61)
  if ∃ ch ∈ chars, basisValue ch = 77 then none
  else if chars.length % 4 = 1 then none
  else some (decodeLoop chars)

/-! ## Prices -/

/-- `HMAC` with SHA-1 of a key and a message. -/
structure HmacSha1 where
  mac : Bytes → Bytes → Bytes
  length_mac : ∀ key data, (mac key data).length = 20

/-- `hmac_sha1_n` -/
def hmacSha1N (hmac : HmacSha1) (ekey data : Bytes) (n : ℕ) : Bytes := (hmac.mac ekey data).take n

variable (hmac : HmacSha1) (ekey ikey : Bytes)

/-- The bytes that `encrypt_price` puts together. -/
def message (iv : Bytes) (winCpmPrice : BitVec 64) : Bytes :=
  let pad := hmacSha1N hmac (cstr ekey) (cstr iv) 8
  let price := memoryOf (hl64ton winCpmPrice)
  let signature := hmacSha1N hmac (cstr ikey) (price ++ cstr iv) 4
  cstr iv ++ xorBytes pad price ++ signature

/-- `encrypt_price`: the text, if one is written. -/
def encryptPrice (iv : Bytes) (winCpmPrice : BitVec 64) : Option Bytes :=
  let msg := message hmac ekey ikey iv winCpmPrice
  if msg.length = 20 + 8 then some (encodeBase64 msg) else none

/-- The price in the decoded bytes. -/
def plainPrice (ePrice : Bytes) : Bytes :=
  xorBytes ((ePrice.drop 16).take 8) (hmacSha1N hmac (cstr ekey) (ePrice.take 16) 8)

/-- The signature of the price and the vector in the decoded bytes. -/
def signatureOf (ePrice : Bytes) : Bytes :=
  hmacSha1N hmac (cstr ikey) (plainPrice hmac ekey ePrice ++ ePrice.take 16) 4

/-- The signature in the decoded bytes. -/
def signatureIn (ePrice : Bytes) : Bytes := (ePrice.drop 24).take 4

/-- `decrypt_price`: a code, or 0 with a price.  The block of the decoded bytes is given back before
the signature in it is compared; `freed` is what it holds then. -/
def decryptPrice (freed : Bytes → Bytes) (bytesEncryptPrice : Bytes) : Except ℤ (BitVec 64) :=
  match decodeBase64 (cstr bytesEncryptPrice) with
  | none => .error (-1)
  | some ePrice =>
    if ePrice.length ≠ 28 then .error (-2)
    else if signatureOf hmac ekey ikey ePrice = signatureIn (freed ePrice) then
      .ok (ntohl64 (ofMemory (plainPrice hmac ekey ePrice)))
    else .error (-3)

/-! ## The conversions -/

/-- The four bytes in the other order. -/
theorem toNat_htonl (x : BitVec 32) : (htonl x).toNat = x.toNat % 256 * 2 ^ 24 +
    x.toNat / 2 ^ 8 % 256 * 2 ^ 16 + x.toNat / 2 ^ 16 % 256 * 2 ^ 8 + x.toNat / 2 ^ 24 := by
  have hx := x.isLt
  rw [htonl, BitVec.toNat_ofNat, Nat.mod_eq_of_lt]
  omega

/-- The bytes in the other order. -/
theorem toNat_htonl_of {x : BitVec 32} {a b c d : ℕ} (ha : a < 256) (hb : b < 256) (hc : c < 256)
    (h : x.toNat = a + b * 2 ^ 8 + c * 2 ^ 16 + d * 2 ^ 24) :
    (htonl x).toNat = d + c * 2 ^ 8 + b * 2 ^ 16 + a * 2 ^ 24 := by
  rw [toNat_htonl]
  omega

/-- Reversing the bytes twice changes nothing. -/
theorem htonl_htonl (x : BitVec 32) : htonl (htonl x) = x := by
  have hx := x.isLt
  have hmod : ∀ n, n % 256 < 256 := fun n => Nat.mod_lt n (by decide)
  have h : x.toNat = x.toNat % 256 + x.toNat / 2 ^ 8 % 256 * 2 ^ 8 +
      x.toNat / 2 ^ 16 % 256 * 2 ^ 16 + x.toNat / 2 ^ 24 * 2 ^ 24 := by
    omega
  have h' := toNat_htonl_of (hmod _) (hmod _) (hmod _) h
  apply BitVec.eq_of_toNat_eq
  rw [toNat_htonl_of (by omega) (hmod _) (hmod _) h', ← h]

/-- The sign of a converted half is the top bit of its lowest byte. -/
theorem msb_htonl (x : BitVec 32) : (htonl x).msb = x.getLsbD 7 := by
  have hx := x.isLt
  rw [BitVec.msb_eq_decide, toNat_htonl, ← BitVec.testBit_toNat, Nat.testBit_eq_decide_div_mod_eq,
    decide_eq_decide]
  omega

/-- The bits of the low half. -/
theorem getLsbD_lowHalf (x : BitVec 64) {i : ℕ} (hi : i < 32) :
    (lowHalf x).getLsbD i = x.getLsbD i := by
  simp [lowHalf, hi]

/-- The bits of the high half. -/
theorem getLsbD_highHalf (x : BitVec 64) {i : ℕ} (hi : i < 32) :
    (highHalf x).getLsbD i = x.getLsbD (32 + i) := by
  have hlt : 32 + i < 64 := by omega
  simp [highHalf, hi, hlt, BitVec.getLsbD_sshiftRight]
  omega

/-- The two halves are the whole. -/
theorem eq_of_halves {x y : BitVec 64} (hlow : lowHalf x = lowHalf y)
    (hhigh : highHalf x = highHalf y) : x = y := by
  apply BitVec.eq_of_getLsbD_eq
  intro i hi
  rcases Nat.lt_or_ge i 32 with h | h
  · rw [← getLsbD_lowHalf x h, hlow, getLsbD_lowHalf y h]
  · obtain ⟨j, rfl⟩ := Nat.exists_eq_add_of_le h
    rw [← getLsbD_highHalf x (by omega), hhigh, getLsbD_highHalf y (by omega)]

section

variable (low high : BitVec 32)

/-- The number that is put in without a shift is the low half. -/
theorem lowHalf_or : lowHalf (low.signExtend 64 <<< 32 ||| high.signExtend 64) = high := by
  apply BitVec.eq_of_getLsbD_eq
  intro i hi
  rw [getLsbD_lowHalf _ hi, BitVec.getLsbD_or, BitVec.getLsbD_shiftLeft,
    BitVec.getLsbD_signExtend high, if_pos hi]
  simp [hi]
  omega

/-- A negative half covers the other one. -/
theorem highHalf_or : highHalf (low.signExtend 64 <<< 32 ||| high.signExtend 64) =
    if high.msb then BitVec.allOnes 32 else low := by
  have hnot : ∀ i, ¬32 + i < 32 := fun i => by omega
  apply BitVec.eq_of_getLsbD_eq
  intro i hi
  have hlt : 32 + i < 64 := by omega
  rw [getLsbD_highHalf _ hi, BitVec.getLsbD_or, BitVec.getLsbD_shiftLeft,
    BitVec.getLsbD_signExtend, BitVec.getLsbD_signExtend, if_neg (hnot i),
    Nat.add_sub_cancel_left, if_pos hi]
  cases high.msb with
  | true =>
    rw [if_pos rfl, BitVec.getLsbD_allOnes]
    simp [hi, hlt]
  | false =>
    rw [if_neg (by decide)]
    simp [hi, hlt]
    omega

end

/-- The low half comes of the high one. -/
theorem lowHalf_hl64ton (x : BitVec 64) : lowHalf (hl64ton x) = htonl (highHalf x) :=
  lowHalf_or _ _

/-- The high half comes of the low one, unless the sign of the other half overwrites it. -/
theorem highHalf_hl64ton (x : BitVec 64) : highHalf (hl64ton x) =
    if x.getLsbD 39 then BitVec.allOnes 32 else htonl (lowHalf x) := by
  rw [hl64ton, highHalf_or, msb_htonl, getLsbD_highHalf x (by decide)]

/-- The bit that decides whether the second conversion is spoiled. -/
theorem getLsbD_hl64ton (x : BitVec 64) :
    (hl64ton x).getLsbD 39 = (x.getLsbD 39 || x.getLsbD 31) := by
  have hbyte : (htonl (lowHalf x)).getLsbD 7 = x.getLsbD 31 := by
    rw [← msb_htonl, htonl_htonl, BitVec.msb_eq_getLsbD_last, getLsbD_lowHalf x (by decide)]
  rw [show 39 = 32 + 7 from rfl, ← getLsbD_highHalf _ (by decide), highHalf_hl64ton]
  split_ifs with h
  · rw [h, BitVec.getLsbD_allOnes]
    rfl
  · rw [hbyte, Bool.eq_false_iff.mpr h, Bool.false_or]

/-- A price that is not negative comes back if no half of it, in either direction, has a sign. -/
theorem ntohl64_hl64ton_iff {x : BitVec 64} (hx : x.getLsbD 63 = false) :
    ntohl64 (hl64ton x) = x ↔ x.getLsbD 31 = false ∧ x.getLsbD 39 = false := by
  have hhigh : highHalf (ntohl64 (hl64ton x)) =
      if x.getLsbD 39 || x.getLsbD 31 then BitVec.allOnes 32 else highHalf x := by
    refine (highHalf_hl64ton _).trans ?_
    rw [lowHalf_hl64ton, htonl_htonl, getLsbD_hl64ton]
  constructor
  · intro h
    -- otherwise the result is negative
    by_contra hnot
    have hbits : (x.getLsbD 39 || x.getLsbD 31) = true := by
      cases h39 : x.getLsbD 39 <;> cases h31 : x.getLsbD 31 <;> simp_all
    rw [h, hbits, if_pos rfl] at hhigh
    rw [show 63 = 32 + 31 from rfl, ← getLsbD_highHalf x (by decide), hhigh] at hx
    cases hx
  · rintro ⟨h31, h39⟩
    refine eq_of_halves ?_ ?_
    · refine (lowHalf_hl64ton _).trans ?_
      rw [highHalf_hl64ton, h39, if_neg (by decide), htonl_htonl]
    · rw [hhigh, h39, h31]
      rfl

/-- A number reads back from memory. -/
theorem ofMemory_memoryOf (x : BitVec 64) : ofMemory (memoryOf x) = x := by
  have hx := x.isLt
  apply BitVec.eq_of_toNat_eq
  rw [ofMemory, BitVec.toNat_ofNat]
  have hrange : List.range 8 = [0, 1, 2, 3, 4, 5, 6, 7] := rfl
  simp only [memoryOf, hrange, List.map_cons, List.map_nil, List.reverse_cons, List.reverse_nil,
    List.nil_append, List.cons_append, bigEndian, List.foldl_cons, List.foldl_nil,
    UInt8.toNat_ofNat']
  omega

/-- A number has eight bytes. -/
theorem length_memoryOf (x : BitVec 64) : (memoryOf x).length = 8 := rfl

/-! ## The texts -/

/-- A letter has its value. -/
theorem basisValue_basis : ∀ n < 64, basisValue (basis n) = n := by
  simp only [basisValue, basis, basis64, bytes_standardAlphabet]
  decide +kernel

/-- A letter is neither the padding nor the end of a text. -/
theorem basis_ne : ∀ n < 64, basis n ≠ 61 ∧ basis n ≠ 0 := by
  simp only [basis, basis64, bytes_standardAlphabet]
  decide +kernel

/-- The encoder is the one of RFC 4648; by induction on the groups. -/
theorem encodeBase64_eq (text : Bytes) : encodeBase64 text = encode basis 61 text := by
  induction text using encodeBase64.induct with
  | case1 s0 s1 s2 s ih =>
    rw [encodeBase64, encode_cons, ih, first_bits, second_bits, third_bits, and_sixtyThree]
  | case2 s0 s1 =>
    rw [encodeBase64, first_bits, second_bits, last_third_bits]
    rfl
  | case3 s0 =>
    rw [encodeBase64, first_bits, last_second_bits]
    rfl
  | case4 => rfl

/-- The decoder is the one of RFC 4648; by induction on the groups. -/
theorem decodeLoop_map {values : List ℕ} (h : ∀ n ∈ values, n < 64) :
    decodeLoop (values.map basis) = ofSextets values := by
  -- by groups of four letters; the last group may be shorter
  induction values using ofSextets.induct with
  | case1 w x y z rest ih =>
    simp only [List.forall_mem_cons] at h
    obtain ⟨hw, hx, hy, hz, hrest⟩ := h
    simp only [List.map_cons, decodeLoop, ofSextets, basisValue_basis _ hw, basisValue_basis _ hx,
      basisValue_basis _ hy, basisValue_basis _ hz, first_or hx, second_or hy, third_or hz,
      ih hrest]
  | case2 w x y =>
    simp only [List.forall_mem_cons] at h
    obtain ⟨hw, hx, hy, -⟩ := h
    simp only [List.map_cons, List.map_nil, decodeLoop, ofSextets, basisValue_basis _ hw,
      basisValue_basis _ hx, basisValue_basis _ hy, first_or hx, second_or hy]
  | case3 w x =>
    simp only [List.forall_mem_cons] at h
    obtain ⟨hw, hx, -⟩ := h
    simp only [List.map_cons, List.map_nil, decodeLoop, ofSextets, basisValue_basis _ hw,
      basisValue_basis _ hx, first_or hx]
  | case4 values hfour hthree htwo =>
    cases values with
    | nil => rfl
    | cons w values =>
      cases values with
      | nil => rfl
      | cons x values =>
        cases values with
        | nil => exact absurd rfl (htwo w x)
        | cons y values =>
          cases values with
          | nil => exact absurd rfl (hthree w x y)
          | cons z rest => exact absurd rfl (hfour w x y z rest)

/-- Letters are in the alphabet. -/
theorem mem_map_basis {values : List ℕ} (h : ∀ n ∈ values, n < 64) {ch : UInt8}
    (hch : ch ∈ values.map basis) : ch ≠ 61 ∧ ch ≠ 0 ∧ basisValue ch ≠ 77 := by
  obtain ⟨n, hn, rfl⟩ := List.mem_map.mp hch
  obtain ⟨hpad, hzero⟩ := basis_ne n (h n hn)
  refine ⟨hpad, hzero, ?_⟩
  rw [basisValue_basis n (h n hn)]
  exact ((h n hn).trans (by decide)).ne

/-- The text comes back from its code. -/
theorem decodeBase64_encodeBase64 (text : Bytes) :
    decodeBase64 (encodeBase64 text) = some text := by
  have hvalues := @lt_of_mem_sextets text
  have hlength := length_sextets text
  have hchars : (encodeBase64 text).takeWhile (· ≠ 61) = (sextets text).map basis := by
    rw [encodeBase64_eq, encode, List.takeWhile_append_of_pos
      fun ch hch => decide_eq_true (mem_map_basis hvalues hch).1]
    cases Sextets.padding text.length <;> simp [List.replicate_succ]
  have hpad : Sextets.padding text.length ≤ 2 := by
    rw [Sextets.padding]
    omega
  have hknown : ¬∃ ch ∈ (sextets text).map basis, basisValue ch = 77 := by
    rintro ⟨ch, hch, h77⟩
    exact (mem_map_basis hvalues hch).2.2 h77
  rw [decodeBase64, hchars]
  rw [if_neg hknown, if_neg (by rw [List.length_map]; omega), decodeLoop_map hvalues,
    ofSextets_sextets]

/-- The code has no zero byte. -/
theorem cstr_encodeBase64 (text : Bytes) : cstr (encodeBase64 text) = encodeBase64 text := by
  refine cstr_eq_self fun h => ?_
  rw [encodeBase64_eq, encode] at h
  rcases List.mem_append.mp h with h | h
  · exact (mem_map_basis lt_of_mem_sextets h).2.1 rfl
  · exact absurd (List.eq_of_mem_replicate h) (by decide)

/-! ## The text of a price -/

/-- The same pad twice changes nothing. -/
theorem xorBytes_xorBytes {a b : Bytes} (h : a.length = b.length) :
    xorBytes (xorBytes a b) a = b := by
  induction a generalizing b with
  | nil => exact (List.length_eq_zero_iff.mp h.symm).symm
  | cons x a ih =>
    cases b with
    | nil => cases h
    | cons y b =>
      have hxor : x ^^^ y ^^^ x = y := by rw [UInt8.xor_comm x y, UInt8.xor_assoc]; simp
      have htail : xorBytes (xorBytes a b) a = b := ih (by simpa using h)
      exact List.cons_eq_cons.mpr ⟨hxor, htail⟩

section

variable {hmac ekey ikey}

/-- The first bytes of a digest. -/
theorem length_hmacSha1N (key data : Bytes) {n : ℕ} (hn : n ≤ 20) :
    (hmacSha1N hmac key data n).length = n := by
  rw [hmacSha1N, List.length_take, hmac.length_mac]
  omega

section

variable {iv : Bytes} (hzero : 0 ∉ iv) (hiv : iv.length = 16) (x : BitVec 64)
include hzero

/-- The parts of a message. -/
theorem message_eq : ∃ enc sig : Bytes, message hmac ekey ikey iv x = iv ++ enc ++ sig ∧
    enc = xorBytes (hmacSha1N hmac (cstr ekey) iv 8) (memoryOf (hl64ton x)) ∧
    sig = hmacSha1N hmac (cstr ikey) (memoryOf (hl64ton x) ++ iv) 4 ∧
    enc.length = 8 ∧ sig.length = 4 := by
  have hcstr : cstr iv = iv := cstr_eq_self hzero
  refine ⟨_, _, by rw [message, hcstr], rfl, rfl, ?_, length_hmacSha1N _ _ (by decide)⟩
  rw [xorBytes, List.length_zipWith, length_hmacSha1N _ _ (by decide), length_memoryOf]
  rfl

include hiv

/-- The message has 28 bytes. -/
theorem length_message : (message hmac ekey ikey iv x).length = 28 := by
  obtain ⟨enc, sig, h, -, -, henc, hsig⟩ := @message_eq hmac ekey ikey iv hzero x
  rw [h, List.length_append, List.length_append, hiv, henc, hsig]

/-- The price in a message, and that its signature is the one of the price. -/
theorem plainPrice_message :
    plainPrice hmac ekey (message hmac ekey ikey iv x) = memoryOf (hl64ton x) ∧
      signatureOf hmac ekey ikey (message hmac ekey ikey iv x) =
        signatureIn (message hmac ekey ikey iv x) := by
  obtain ⟨enc, sig, h, henc, hsig, hencLength, hsigLength⟩ :=
    @message_eq hmac ekey ikey iv hzero x
  have htake : (iv ++ enc ++ sig).take 16 = iv := by rw [List.append_assoc, ← hiv, List.take_left]
  have hmid : ((iv ++ enc ++ sig).drop 16).take 8 = enc := by
    rw [List.append_assoc, ← hiv, List.drop_left, ← hencLength, List.take_left]
  have hlast : ((iv ++ enc ++ sig).drop 24).take 4 = sig := by
    have hlength : (iv ++ enc).length = 24 := by rw [List.length_append, hiv, hencLength]
    rw [← hlength, List.drop_left, ← hsigLength, List.take_length]
  have hplain : plainPrice hmac ekey (iv ++ enc ++ sig) = memoryOf (hl64ton x) := by
    rw [plainPrice, htake, hmid, henc, xorBytes_xorBytes]
    rw [length_hmacSha1N _ _ (by decide), length_memoryOf]
  rw [h]
  refine ⟨hplain, ?_⟩
  rw [signatureOf, hplain, htake, signatureIn, hlast, hsig]

/-- The encrypted price is the code of the message. -/
theorem encryptPrice_eq :
    encryptPrice hmac ekey ikey iv x = some (encodeBase64 (message hmac ekey ikey iv x)) :=
  if_pos (length_message hzero hiv x)

/-- What is decrypted of a price. -/
theorem decryptPrice_encryptPrice (freed : Bytes → Bytes) :
    decryptPrice hmac ekey ikey freed (encodeBase64 (message hmac ekey ikey iv x)) =
      if signatureIn (message hmac ekey ikey iv x) =
          signatureIn (freed (message hmac ekey ikey iv x)) then
        .ok (ntohl64 (hl64ton x))
      else .error (-3) := by
  have hlength := @length_message hmac ekey ikey iv hzero hiv x
  obtain ⟨hplain, hsig⟩ := @plainPrice_message hmac ekey ikey iv hzero hiv x
  rw [decryptPrice, cstr_encodeBase64, decodeBase64_encodeBase64]
  dsimp only
  rw [if_neg (not_not_intro hlength), hsig, hplain, ofMemory_memoryOf]

end

/-- When a text is accepted. -/
theorem decryptPrice_ok_iff {freed : Bytes → Bytes} {text : Bytes} {price : BitVec 64} :
    decryptPrice hmac ekey ikey freed text = .ok price ↔
      ∃ ePrice, decodeBase64 (cstr text) = some ePrice ∧ ePrice.length = 28 ∧
        signatureOf hmac ekey ikey ePrice = signatureIn (freed ePrice) ∧
        price = ntohl64 (ofMemory (plainPrice hmac ekey ePrice)) := by
  unfold decryptPrice
  cases decodeBase64 (cstr text) with
  | none => simp
  | some ePrice =>
    simp only [Option.some_inj, exists_eq_left']
    split_ifs with hlength hsig
    · simp [hlength]
    · simp [not_not.mp hlength, hsig, eq_comm]
    · simp [hsig]

/-! ## Round trips and signatures -/

/-- The price comes back of its text. -/
def RoundTrips (hmac : HmacSha1) (ekey ikey : Bytes) (freed : Bytes → Bytes) (iv : Bytes) (p : ℕ) :
    Prop :=
  ∃ text, encryptPrice hmac ekey ikey iv (BitVec.ofNat 64 p) = some text ∧
    decryptPrice hmac ekey ikey freed text = .ok (BitVec.ofNat 64 p)

/-- A text that is accepted has 28 bytes, the last four of them the signature. -/
def Authentic (hmac : HmacSha1) (ekey ikey : Bytes) (freed : Bytes → Bytes) : Prop :=
  ∀ text price, decryptPrice hmac ekey ikey freed text = .ok price →
    ∃ ePrice, decodeBase64 (cstr text) = some ePrice ∧ ePrice.length = 28 ∧
      signatureIn ePrice = signatureOf hmac ekey ikey ePrice

/-- A price comes back just if two bits are not set and the freed memory keeps the signature. -/
theorem comesBack_iff (hmac : HmacSha1) (ekey ikey : Bytes) (freed : Bytes → Bytes) {iv : Bytes}
    {p : ℕ} (hiv : iv.length = 16) (hzero : 0 ∉ iv) (hp : p < 2 ^ 63) :
    RoundTrips hmac ekey ikey freed iv p ↔ p.testBit 31 = false ∧ p.testBit 39 = false ∧
      signatureIn (freed (message hmac ekey ikey iv (BitVec.ofNat 64 p))) =
        signatureIn (message hmac ekey ikey iv (BitVec.ofNat 64 p)) := by
  have hbit : ∀ i < 64, (BitVec.ofNat 64 p).getLsbD i = p.testBit i := by
    intro i hi
    rw [BitVec.getLsbD_ofNat, decide_eq_true hi, Bool.true_and]
  have hback : ntohl64 (hl64ton (BitVec.ofNat 64 p)) = BitVec.ofNat 64 p ↔
      p.testBit 31 = false ∧ p.testBit 39 = false := by
    rw [ntohl64_hl64ton_iff, hbit 31 (by decide), hbit 39 (by decide)]
    rw [hbit 63 (by decide), Nat.testBit_lt_two_pow hp]
  have hround : RoundTrips hmac ekey ikey freed iv p ↔ decryptPrice hmac ekey ikey freed
      (encodeBase64 (message hmac ekey ikey iv (BitVec.ofNat 64 p))) = .ok (BitVec.ofNat 64 p) := by
    rw [RoundTrips, encryptPrice_eq hzero hiv]
    simp
  rw [hround, decryptPrice_encryptPrice hzero hiv, ← and_assoc, ← hback]
  split_ifs with hsig
  · simp [hsig]
  · simp [Ne.symm hsig]

/-- What is accepted is authentic just if the freed memory accepts no other signature. -/
theorem authentic_iff (hmac : HmacSha1) (ekey ikey : Bytes) (freed : Bytes → Bytes) :
    Authentic hmac ekey ikey freed ↔ ∀ ePrice : Bytes, ePrice.length = 28 →
      signatureIn (freed ePrice) = signatureOf hmac ekey ikey ePrice →
        signatureIn ePrice = signatureOf hmac ekey ikey ePrice := by
  constructor
  · intro h ePrice hlength hsig
    -- the text of these bytes
    have hdecode : decodeBase64 (cstr (encodeBase64 ePrice)) = some ePrice := by
      rw [cstr_encodeBase64, decodeBase64_encodeBase64]
    obtain ⟨found, hfound, -, hsigned⟩ :=
      h (encodeBase64 ePrice) _ (decryptPrice_ok_iff.mpr ⟨ePrice, hdecode, hlength, hsig.symm, rfl⟩)
    obtain rfl : ePrice = found := Option.some_inj.mp (hdecode.symm.trans hfound)
    exact hsigned
  · intro h text price hok
    obtain ⟨ePrice, hdecode, hlength, hsig, -⟩ := decryptPrice_ok_iff.mp hok
    exact ⟨ePrice, hdecode, hlength, h ePrice hlength hsig.symm⟩

/-- The price has no sign in the two places, the signature of the text is still there in the block
that was given back, and no other block has there, by chance, a signature that it did not have. -/
theorem autohome_iff (hmac : HmacSha1) (ekey ikey : Bytes) (freed : Bytes → Bytes) {iv : Bytes}
    {p : ℕ} (hiv : iv.length = 16) (hzero : 0 ∉ iv) (hp : p < 2 ^ 63) :
    RoundTrips hmac ekey ikey freed iv p ∧ Authentic hmac ekey ikey freed ↔
      (p.testBit 31 = false ∧ p.testBit 39 = false ∧
        signatureIn (freed (message hmac ekey ikey iv (BitVec.ofNat 64 p))) =
          signatureIn (message hmac ekey ikey iv (BitVec.ofNat 64 p))) ∧
      ∀ ePrice : Bytes, ePrice.length = 28 →
        signatureIn (freed ePrice) = signatureOf hmac ekey ikey ePrice →
          signatureIn ePrice = signatureOf hmac ekey ikey ePrice :=
  and_congr (comesBack_iff hmac ekey ikey freed hiv hzero hp)
    (authentic_iff hmac ekey ikey freed)

/-- A hash that is always the same. -/
def constantMac (_ _ : Bytes) : Bytes := List.replicate 20 1

/-- A digest has twenty bytes. -/
theorem length_constantMac (key data : Bytes) : (constantMac key data).length = 20 := rfl

/-- The sample of an HMAC: always the same digest. -/
def constantHmac : HmacSha1 := ⟨constantMac, length_constantMac⟩

/-- A price below 2^31, in memory that keeps its contents. -/
theorem small_price_comes_back :
    RoundTrips constantHmac (bytes "e") (bytes "i") id (bytes "abcdefghijklmnop") 1500 ∧
      Authentic constantHmac (bytes "e") (bytes "i") id :=
  (autohome_iff constantHmac (bytes "e") (bytes "i") id (by decide) (by decide) (by decide)).mpr
    ⟨⟨by decide, by decide, rfl⟩, fun _ _ h => h⟩

/-- 2^31 comes back negative, also in memory that keeps its contents. -/
theorem sign_spoils_price :
    decryptPrice constantHmac (bytes "e") (bytes "i") id (encodeBase64
        (message constantHmac (bytes "e") (bytes "i") (bytes "abcdefghijklmnop") (2 ^ 31))) =
      .ok (-2 ^ 31) ∧
    ¬RoundTrips constantHmac (bytes "e") (bytes "i") id (bytes "abcdefghijklmnop") (2 ^ 31) := by
  constructor
  · rw [decryptPrice_encryptPrice (by decide) (by decide), id_eq, if_pos rfl]
    decide
  · rw [comesBack_iff _ _ _ _ (by decide) (by decide) (by decide)]
    exact fun h => absurd h.1 (by decide)

end

end AdxDsp.AutohomePrice
