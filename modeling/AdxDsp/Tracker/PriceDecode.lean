import Mathlib.Tactic.Common
import AdxDsp.Tracker.UrlInfo

/-!
# The winning prices of the exchanges

An exchange sends the price at which a bid has won encrypted and signed.  Each exchange has a
library whose `DecodeWinningPrice` decodes the text, decrypts the price and should refuse it when
the signature is not the one of that price.

* **The formats** (`PriceFormat`, `MeetsFormat`): the bytes of a text with the price and the
  signature in them, and what a decoder owes to a format.
* **The decoders** (`GoogleDecode`, `TanxDecode`, `BaiduDecode`, `ZplayDecode`).
* **When they keep to it** (`decoders_meet_iff`).
-/

namespace AdxDsp

open CText

/-- What the decoders use of the cryptographic library and of the machine: `HMAC` with SHA-1 of a
key and a message, `MD5`, `BIO_read` of a base64 text into a buffer of some size (`none` for a
negative result), the base64 decoder of one of the libraries (`none` for `NULL`), and floating
point numbers. -/
structure DecodeLib (D : Type) where
  hmacSha1 : Bytes → Bytes → Bytes
  md5 : Bytes → Bytes
  bioRead : Bytes → ℕ → Option Bytes
  decodeBase64 : Bytes → Option Bytes
  /-- The number nearest to an integer. -/
  ofInt : ℤ → D
  /-- The number with these eight bytes in memory. -/
  ofBits : Bytes → D
  zero : D
  isZero : D → Bool
  hmacSha1_length : ∀ key message, (hmacSha1 key message).length = 20
  isZero_zero : isZero zero = true

/-- What comes of a call: the returned code and the content of `*price`, an exception, or a read
outside a buffer. -/
inductive Decoded (D : Type) where
  | returned (code : ℤ) (price : D)
  | raised
  | undefined
  deriving DecidableEq

/-- The bytes combined one by one with exclusive or. -/
def xorBytes (a b : Bytes) : Bytes := List.zipWith (· ^^^ ·) a b

/-- The pad and the text may be exchanged. -/
theorem xorBytes_comm (a b : Bytes) : xorBytes a b = xorBytes b a :=
  List.zipWith_comm_of_comm fun x y => UInt8.xor_comm x y

/-- The number with these bytes, the highest first. -/
def bigEndian (bs : Bytes) : ℕ := bs.foldl (fun n b => n * 256 + b.toNat) 0

/-- The `int64_t` with these bytes, the highest first. -/
def int64OfBytes (bs : Bytes) : ℤ := (BitVec.ofNat 64 (bigEndian bs)).toInt

/-- The `int32_t` with these bytes in memory, the lowest first. -/
def int32OfMemory (bs : Bytes) : ℤ := (BitVec.ofNat 32 (bigEndian bs.reverse)).toInt

/-! ## Formats -/

/-- What the decoded bytes of an exchange are: how many, which price they hold, and whether the
signature in them is the one of that price. -/
structure PriceFormat (D : Type) where
  size : ℕ
  price : Bytes → D
  signed : Bytes → Bool

/-- The text was decoded to bytes of the right number, with the right signature. -/
def PriceFormat.Authentic {D : Type} (f : PriceFormat D) (decoded : Option Bytes) : Prop :=
  ∃ e, decoded = some e ∧ e.length = f.size ∧ f.signed e = true

/-- A call returns, with 0 exactly if the text is authentic, and then with its price. -/
def MeetsFormat {D : Type} (f : PriceFormat D) (decoded : Option Bytes) (out : Decoded D) : Prop :=
  ∃ code price, out = .returned code price ∧ (code = 0 ↔ f.Authentic decoded) ∧
    ∀ e, decoded = some e → f.Authentic decoded → price = f.price e

section Meets

variable {D : Type} {f : PriceFormat D} {decoded : Option Bytes} {e : Bytes} {code : ℤ} {p : D}

/-- Decoded bytes are authentic if the length and the signature are right. -/
theorem authentic_some : f.Authentic (some e) ↔ e.length = f.size ∧ f.signed e = true := by
  constructor
  · rintro ⟨e', he, h⟩
    cases he
    exact h
  · exact fun h => ⟨e, rfl, h⟩

/-- What cannot be decoded is not authentic. -/
theorem not_authentic_none : ¬ f.Authentic none := by
  rintro ⟨e, he, -⟩
  cases he

/-- The promise for decoded bytes. -/
theorem meets_returned_some : MeetsFormat f (some e) (.returned code p) ↔
    (code = 0 ↔ e.length = f.size ∧ f.signed e = true) ∧
      (e.length = f.size ∧ f.signed e = true → p = f.price e) := by
  constructor
  · rintro ⟨code', p', hout, hcode, hprice⟩
    cases hout
    rw [authentic_some] at hcode
    exact ⟨hcode, fun h => hprice e rfl (authentic_some.mpr h)⟩
  · rintro ⟨hcode, hprice⟩
    refine ⟨code, p, rfl, hcode.trans authentic_some.symm, fun e' he h => ?_⟩
    cases he
    exact hprice (authentic_some.mp h)

/-- The promise for what cannot be decoded: an error. -/
theorem meets_returned_none : MeetsFormat f none (.returned code p) ↔ code ≠ 0 := by
  constructor
  · rintro ⟨code', p', hout, hcode, -⟩
    cases hout
    exact fun h => not_authentic_none (hcode.mp h)
  · intro h
    refine ⟨code, p, rfl, ⟨fun h0 => absurd h0 h, fun ha => absurd ha not_authentic_none⟩, ?_⟩
    intro e he
    cases he

/-- An exception breaks the promise. -/
theorem not_meets_raised : ¬ MeetsFormat f decoded .raised := by
  rintro ⟨_, _, hout, -⟩
  cases hout

/-- Undefined behaviour breaks the promise. -/
theorem not_meets_undefined : ¬ MeetsFormat f decoded .undefined := by
  rintro ⟨_, _, hout, -⟩
  cases hout

end Meets

/-! ## The decoders -/

variable {D : Type} (lib : DecodeLib D)

/-- `AddPadding`. -/
def addPadding (text : Bytes) : Bytes :=
  if text.length % 4 = 3 then text ++ bytes "="
  else if text.length % 4 = 2 then text ++ bytes "=="
  else text

/-- The characters of web-safe base64 as those of base64. -/
def fromWebSafe (text : Bytes) : Bytes :=
  text.map fun c => if c = 45 then 43 else if c = 95 then 47 else c

/-- The format of Google and Baidu: a vector of 16 bytes, the encrypted price of 8, the signature
of 4. -/
def vectorFormat (encryptionKey integrityKey : Bytes) : PriceFormat D :=
  let plain (e : Bytes) := xorBytes ((e.drop 16).take 8) (lib.hmacSha1 encryptionKey (e.take 16))
  { size := 28
    price := fun e => lib.ofInt (int64OfBytes (plain e))
    signed := fun e =>
      (e.drop 24).take 4 = (lib.hmacSha1 integrityKey (plain e ++ e.take 16)).take 4 }

namespace GoogleDecode

/-- The key of the pad. -/
def encryptionKey : Bytes :=
  [0x42, 0xe6, 0x05, 0x29, 0x9a, 0x42, 0x23, 0x64, 0x96, 0x60, 0x90, 0xe9, 0x7e, 0xcd, 0x08, 0xb1,
   0xff, 0xef, 0x29, 0x3c, 0xc0, 0x6a, 0xd4, 0xad, 0x30, 0x5a, 0x5c, 0x8d, 0x14, 0x05, 0xb3, 0x0d]

/-- The key of the signature. -/
def integrityKey : Bytes :=
  [0xc9, 0xca, 0x02, 0x35, 0x19, 0x3a, 0x7a, 0x23, 0x96, 0xad, 0x21, 0x62, 0x65, 0xd6, 0x08, 0x6c,
   0xbf, 0xac, 0xbb, 0xaf, 0xe7, 0x20, 0x6e, 0x85, 0x3b, 0x93, 0xb6, 0x13, 0x07, 0xf6, 0x73, 0x37]

/-- The vector for the next block: a counter byte behind the first 16 bytes, and another one when
it is used up. -/
def nextVector (iv : Bytes) : Bytes :=
  if iv.length = 16 then iv ++ [0]
  else
    let last := iv.getLastD 0 + 1
    if last = 0 then iv.dropLast ++ [last, 0] else iv.dropLast ++ [last]

/-- The loop of `DecryptByteArray` over blocks of 20 bytes, for at most `n` blocks. -/
def decryptBlocks (key : Bytes) : ℕ → Bytes → Bytes → Bytes
  | 0, _, _ => []
  | n + 1, iv, cipher =>
    if cipher = [] then []
    else
      xorBytes (cipher.take 20) (lib.hmacSha1 key iv) ++
        decryptBlocks key n (nextVector iv) (cipher.drop 20)

/-- `DecryptByteArray`: the clear text, if the signature is right. -/
def decryptByteArray (ciphertext encKey intKey : Bytes) : Option Bytes :=
  if ciphertext.length < 16 + 4 then none
  else
    let iv := ciphertext.take 16
    let length := ciphertext.length - 16 - 4
    let cleartext := decryptBlocks lib encKey length iv ((ciphertext.drop 16).take length)
    let hash := lib.hmacSha1 intKey (cleartext ++ iv)
    if (ciphertext.drop (16 + length)).take 4 = hash.take 4 then some cleartext else none

/-- `DecryptWinningPrice`. -/
def decryptWinningPrice (encryptedValue : Bytes) : Option ℤ :=
  (decryptByteArray lib encryptedValue encryptionKey integrityKey).bind fun cleartext =>
    if cleartext.length ≠ 8 then none else some (int64OfBytes cleartext)

/-- The bytes of a text, from `BIO_read` into a buffer of 256 bytes. -/
def b64Decode (text : Bytes) : Option Bytes := lib.bioRead (fromWebSafe (addPadding text)) 256

/-- `DecodeWinningPrice` with `*value` as it is before the call.  A string cannot be made of a
negative number of bytes. -/
def decodeWinningPrice (text : Bytes) (value : D) : Decoded D :=
  match b64Decode lib text with
  | none => .raised
  | some encryptedValue =>
    if encryptedValue.length ≠ 28 then .returned 1 value
    else
      match decryptWinningPrice lib encryptedValue with
      | some va => .returned 0 (lib.ofInt va)
      | none => .returned 0 value

/-- The format of the exchange. -/
def format : PriceFormat D := vectorFormat lib encryptionKey integrityKey

end GoogleDecode

namespace TanxDecode

/-- The one key of both. -/
def key : Bytes :=
  [0x13, 0x76, 0x59, 0x77, 0xec, 0x84, 0x52, 0xf5, 0xa3, 0xc6, 0x56, 0x87, 0xaf, 0x31, 0x58, 0x12]

/-- The four bytes of the price. -/
def plain (src : Bytes) : Bytes :=
  xorBytes ((src.drop 17).take 4) (lib.md5 ((src.drop 1).take 16 ++ key))

/-- `decodePrice`: the version, then the checksum. -/
def decodePrice (src : Bytes) : Option ℤ :=
  if src.head? ≠ some 1 then none
  else if (lib.md5 (src.take 17 ++ plain lib src ++ key)).take 4 ≠ (src.drop 21).take 4 then none
  else some (int32OfMemory (plain lib src))

/-- The bytes of a text, whose escapes are decoded first. -/
def decodeText (src : Bytes) : Option Bytes :=
  lib.bioRead (urlDecode src) (((urlDecode src).length + 3) / 4 * 3)

/-- `DecodeWinningPrice`. -/
def decodeWinningPrice (src : Bytes) : Decoded D :=
  match decodeText lib src with
  | none => .returned 1 lib.zero
  | some orig =>
    if orig.length ≠ 25 then .returned 1 lib.zero
    else
      match decodePrice lib orig with
      | some pc => .returned 0 (lib.ofInt pc)
      | none => .returned 0 lib.zero

/-- The format of the exchange: a version, an id of 16 bytes, the encrypted price of 4, the
checksum of 4. -/
def format : PriceFormat D where
  size := 25
  price e := lib.ofInt (int32OfMemory (plain lib e))
  signed e := (e.drop 21).take 4 = (lib.md5 (e.take 17 ++ plain lib e ++ key)).take 4

end TanxDecode

namespace BaiduDecode

/-- The key of the signature. -/
def integrityKey : Bytes :=
  [0x00, 0xa8, 0x00, 0x38, 0x00, 0x09, 0xc9, 0xbc, 0x17, 0xe5, 0x23, 0x57, 0x00, 0x09, 0xc9, 0xbc,
   0x17, 0xe5, 0x33, 0x7c, 0x00, 0x09, 0xc9, 0xbc, 0x17, 0xe5, 0x3c, 0xcc, 0x38, 0x69, 0xd6, 0xb7]

/-- The key of the pad. -/
def encryptionKey : Bytes :=
  [0x00, 0xa8, 0x00, 0x38, 0x00, 0x09, 0xc9, 0xbc, 0x17, 0xe3, 0xeb, 0x7f, 0x00, 0x09, 0xc9, 0xbc,
   0x17, 0xe4, 0x55, 0xf0, 0x00, 0x09, 0xc9, 0xbc, 0x17, 0xe4, 0x61, 0x7a, 0x3d, 0x94, 0xdf, 0xab]

/-- `decrypt_int64` of the 28 bytes it reads: whether the signature is right, and the value. -/
def decryptInt64 (value : Bytes) : Bool × ℤ :=
  let iv := value.take 16
  let plaintext := xorBytes (lib.hmacSha1 encryptionKey iv) ((value.drop 16).take 8)
  let hash := lib.hmacSha1 integrityKey (plaintext ++ iv)
  (hash.take 4 = (value.drop 24).take 4, int64OfBytes plaintext)

/-- The bytes of a text. -/
def webSafeBase64Decode (text : Bytes) : Option Bytes :=
  let encoded := fromWebSafe (addPadding text)
  lib.bioRead encoded encoded.length

/-- `DecodeWinningPrice`.  The length is not tested: of a shorter string the terminator is read,
and what lies behind it. -/
def decodeWinningPrice (text : Bytes) : Decoded D :=
  match webSafeBase64Decode lib text with
  | none => .raised
  | some decodeValue =>
    if decodeValue.length + 1 < 28 then .undefined
    else
      match decryptInt64 lib ((decodeValue ++ [0]).take 28) with
      | (true, actValue) => .returned 0 (lib.ofInt actValue)
      | (false, _) => .returned 1 lib.zero

/-- The format of the exchange. -/
def format : PriceFormat D := vectorFormat lib encryptionKey integrityKey

end BaiduDecode

namespace ZplayDecode

/-- The keys, from their hexadecimal text. -/
def decKey : Bytes :=
  [0x38, 0x95, 0x18, 0x5f, 0x37, 0x2f, 0x4b, 0xba, 0x9a, 0x59, 0x4f, 0xd6, 0x5e, 0x52, 0x05, 0xf2]

/-- The key of the signature. -/
def signKey : Bytes :=
  [0xda, 0x2d, 0x90, 0x26, 0xaa, 0x90, 0x40, 0x0c, 0xbc, 0x9c, 0x4d, 0xb0, 0x53, 0xe6, 0x5b, 0x82]

/-- The bytes of a text, filled up to a multiple of four characters; a text that needs no
characters gets four. -/
def base64urlDecode (src : Bytes) : Option Bytes :=
  lib.decodeBase64 (fromWebSafe src ++ List.replicate (4 - src.length % 4) 61)

/-- The eight bytes of the price. -/
def plain (q : Bytes) : Bytes :=
  xorBytes (lib.hmacSha1 decKey (q.take 4)) ((q.drop 4).take 8)

/-- `price_decode`: the price, or `none` for a read outside the bytes and their terminator.  The
signature is read and not looked at. -/
def priceDecode (src : Bytes) : Option D :=
  match base64urlDecode lib src with
  | none => some lib.zero
  | some q =>
    if q.length + 1 < 16 then none else some (lib.ofBits (plain lib ((q ++ [0]).take 16)))

/-- `DecodeWinningPrice`. -/
def decodeWinningPrice (source : Bytes) : Decoded D :=
  match priceDecode lib source with
  | none => .undefined
  | some price => if lib.isZero price then .returned 1 price else .returned 0 price

/-- The format of the exchange: a time of 4 bytes, the encrypted price of 8, the signature of 4,
computed as in the part of `price_decode` that is commented out. -/
def format : PriceFormat D where
  size := 16
  price e := lib.ofBits (plain lib e)
  signed e :=
    (e.drop 12).take 4 = (lib.hmacSha1 signKey (plain lib e ++ e.take 4)).take 4

end ZplayDecode

/-! ## What the decoders keep to -/

variable {lib}

/-- A price needs one block of the pad. -/
theorem GoogleDecode.decryptBlocks_one (key iv cipher : Bytes) (n : ℕ) (hne : cipher ≠ [])
    (hle : cipher.length ≤ 20) :
    decryptBlocks lib key (n + 1) iv cipher = xorBytes cipher (lib.hmacSha1 key iv) := by
  have hdrop : cipher.drop 20 = [] := List.drop_eq_nil_of_le hle
  have hrest : decryptBlocks lib key n (nextVector iv) [] = [] := by
    cases n with
    | zero => rfl
    | succ n => rw [decryptBlocks, if_pos rfl]
  rw [decryptBlocks, if_neg hne, List.take_of_length_le hle, hdrop, hrest, List.append_nil]

/-- Of 28 bytes the eight in the middle are the price, in one block. -/
theorem GoogleDecode.decryptWinningPrice_eq {e : Bytes} (h : e.length = 28) :
    decryptWinningPrice lib e =
      if (format lib).signed e then
        some (int64OfBytes (xorBytes ((e.drop 16).take 8) (lib.hmacSha1 encryptionKey (e.take 16))))
      else none := by
  -- the bytes 16 to 23 are one block
  have hcipher : ((e.drop 16).take 8).length = 8 := by
    rw [List.length_take, List.length_drop]
    omega
  have hne : (e.drop 16).take 8 ≠ [] := fun h0 => by
    rw [h0] at hcipher
    cases hcipher
  have hplain := @decryptBlocks_one D lib encryptionKey (e.take 16) _ 7 hne (by omega)
  have hlen :
      (xorBytes ((e.drop 16).take 8) (lib.hmacSha1 encryptionKey (e.take 16))).length = 8 := by
    rw [xorBytes, List.length_zipWith, hcipher, lib.hmacSha1_length]
    rfl
  have hbytes : decryptByteArray lib e encryptionKey integrityKey =
      if (format lib).signed e then
        some (xorBytes ((e.drop 16).take 8) (lib.hmacSha1 encryptionKey (e.take 16)))
      else none := by
    simp only [decryptByteArray, h]
    rw [if_neg (by omega)]
    show (if (e.drop 24).take 4 = _ then _ else _) = _
    rw [hplain]
    simp [format, vectorFormat]
  rw [decryptWinningPrice, hbytes]
  split
  · rw [Option.bind_some, if_neg (by rw [hlen]; decide)]
  · rfl

/-- When the decoder keeps the promise. -/
theorem GoogleDecode.meets_iff (text : Bytes) (value : D) :
    MeetsFormat (format lib) (b64Decode lib text) (decodeWinningPrice lib text value) ↔
      ∃ e, b64Decode lib text = some e ∧ (e.length = 28 → (format lib).signed e = true) := by
  rw [decodeWinningPrice]
  cases b64Decode lib text with
  | none => simp [not_meets_raised]
  | some e =>
    have hsize : (format lib).size = 28 := rfl
    by_cases hlen : e.length = 28
    · simp only [decryptWinningPrice_eq hlen]
      cases hs : (format lib).signed e with
      | true =>
        have hprice : (format lib).price e = lib.ofInt (int64OfBytes
            (xorBytes ((e.drop 16).take 8) (lib.hmacSha1 encryptionKey (e.take 16)))) := rfl
        simp [hlen, meets_returned_some, hs, hsize, hprice]
      | false =>
        -- the error is printed, and 0 returned
        simp [hlen, meets_returned_some, hs]
    · simp [hlen, meets_returned_some, hsize]

/-- When the decoder keeps the promise. -/
theorem TanxDecode.meets_iff (src : Bytes) :
    MeetsFormat (format lib) (decodeText lib src) (decodeWinningPrice lib src) ↔
      ∀ e, decodeText lib src = some e → e.length = 25 →
        (format lib).signed e = true ∧ (e.head? = some 1 ∨ (format lib).price e = lib.zero) := by
  rw [decodeWinningPrice]
  cases decodeText lib src with
  | none => simp [meets_returned_none]
  | some e =>
    have hsize : (format lib).size = 25 := rfl
    by_cases hlen : e.length = 25
    · have hdecode : decodePrice lib e =
          if e.head? = some 1 ∧ (format lib).signed e = true then
            some (int32OfMemory (plain lib e))
          else none := by
        have hsigned : (format lib).signed e = true ↔
            (lib.md5 (e.take 17 ++ plain lib e ++ key)).take 4 = (e.drop 21).take 4 := by
          simp [format, eq_comm]
        rw [decodePrice]
        split_ifs <;> simp_all
      have hprice : (format lib).price e = lib.ofInt (int32OfMemory (plain lib e)) := rfl
      simp only [hdecode]
      -- when the version or the signature is wrong, the price is 0 and so is the result
      by_cases hv : e.head? = some 1
      · cases hs : (format lib).signed e <;> simp [hv, hs, hlen, meets_returned_some, hsize, hprice]
      · cases hs : (format lib).signed e <;>
          simp [hv, hs, hlen, meets_returned_some, hsize, @eq_comm _ lib.zero]
    · simp [hlen, meets_returned_some, hsize]

/-- What `decrypt_int64` finds in 28 bytes. -/
theorem BaiduDecode.decryptInt64_eq (e : Bytes) :
    decryptInt64 lib e = ((format lib).signed e,
      int64OfBytes (xorBytes ((e.drop 16).take 8) (lib.hmacSha1 encryptionKey (e.take 16)))) := by
  simp only [decryptInt64, format, vectorFormat, xorBytes_comm (lib.hmacSha1 _ _), eq_comm]

/-- When the decoder keeps the promise. -/
theorem BaiduDecode.meets_iff (text : Bytes) :
    MeetsFormat (format lib) (webSafeBase64Decode lib text) (decodeWinningPrice lib text) ↔
      ∃ e, webSafeBase64Decode lib text = some e ∧ 27 ≤ e.length ∧
        (e.length ≠ 28 → (format lib).signed ((e ++ [0]).take 28) = false) := by
  rw [decodeWinningPrice]
  cases webSafeBase64Decode lib text with
  | none => simp [not_meets_raised]
  | some e =>
    have hsize : (format lib).size = 28 := rfl
    -- with its terminator the string has 28 bytes from 27 on
    by_cases hshort : e.length + 1 < 28
    · simp only [if_pos hshort]
      have : ¬ 27 ≤ e.length := by omega
      simp [not_meets_undefined, this]
    · have h27 : 27 ≤ e.length := by omega
      simp only [if_neg hshort, decryptInt64_eq]
      by_cases hlen : e.length = 28
      · have htake : (e ++ [0]).take 28 = e := by
          rw [List.take_append_of_le_length (by omega), List.take_of_length_le (by omega)]
        have hprice : (format lib).price e = lib.ofInt (int64OfBytes
            (xorBytes ((e.drop 16).take 8) (lib.hmacSha1 encryptionKey (e.take 16)))) := rfl
        rw [htake]
        cases hs : (format lib).signed e <;> simp [meets_returned_some, hs, hsize, hlen, hprice]
      · cases hs : (format lib).signed ((e ++ [0]).take 28) <;>
          simp [meets_returned_some, hsize, hlen, h27, hs]

/-- When the decoder keeps the promise. -/
theorem ZplayDecode.meets_iff (source : Bytes) :
    MeetsFormat (format lib) (base64urlDecode lib source) (decodeWinningPrice lib source) ↔
      ∀ e, base64urlDecode lib source = some e → 15 ≤ e.length ∧
        (if e.length = 16 then
          ((format lib).signed e = true ↔ lib.isZero ((format lib).price e) = false)
        else lib.isZero ((format lib).price ((e ++ [0]).take 16)) = true) := by
  rw [decodeWinningPrice, priceDecode]
  cases base64urlDecode lib source with
  | none => simp [lib.isZero_zero, meets_returned_none]
  | some e =>
    have hsize : (format lib).size = 16 := rfl
    -- with its terminator the string has 16 bytes from 15 on
    by_cases hshort : e.length + 1 < 16
    · simp only [if_pos hshort]
      have : ¬ 15 ≤ e.length := by omega
      simp [not_meets_undefined, this]
    · have h15 : 15 ≤ e.length := by omega
      have hprice : ∀ q, (format lib).price q = lib.ofBits (plain lib q) := fun _ => rfl
      simp only [if_neg hshort]
      by_cases hlen : e.length = 16
      · have htake : (e ++ [0]).take 16 = e := by
          rw [List.take_append_of_le_length (by omega), List.take_of_length_le (by omega)]
        rw [htake]
        cases hz : lib.isZero (lib.ofBits (plain lib e)) <;>
          simp [meets_returned_some, hsize, hlen, hprice, hz]
      · cases hz : lib.isZero (lib.ofBits (plain lib ((e ++ [0]).take 16))) <;>
          simp [meets_returned_some, hsize, hlen, hprice, hz, h15]

/-- **When the decoders keep to their formats**, for every text and any content of `*price`.
* Google: the bytes are read, and 28 of them are signed.
* Tanx: 25 bytes are signed, and their version is 1 unless their price is 0.
* Baidu: there are at least 27 bytes, and if not 28, the signature is wrong for what is read.
* Zplay: there are at least 15 bytes; of 16 the signature is right unless the price is 0, else the
  price is 0. -/
theorem decoders_meet_iff (lib : DecodeLib D) (text : Bytes) (price : D) :
    (MeetsFormat (GoogleDecode.format lib) (GoogleDecode.b64Decode lib text)
        (GoogleDecode.decodeWinningPrice lib text price) ↔
      ∃ e, GoogleDecode.b64Decode lib text = some e ∧
        (e.length = 28 → (GoogleDecode.format lib).signed e = true)) ∧
    (MeetsFormat (TanxDecode.format lib) (TanxDecode.decodeText lib text)
        (TanxDecode.decodeWinningPrice lib text) ↔
      ∀ e, TanxDecode.decodeText lib text = some e → e.length = 25 →
        (TanxDecode.format lib).signed e = true ∧
          (e.head? = some 1 ∨ (TanxDecode.format lib).price e = lib.zero)) ∧
    (MeetsFormat (BaiduDecode.format lib) (BaiduDecode.webSafeBase64Decode lib text)
        (BaiduDecode.decodeWinningPrice lib text) ↔
      ∃ e, BaiduDecode.webSafeBase64Decode lib text = some e ∧ 27 ≤ e.length ∧
        (e.length ≠ 28 → (BaiduDecode.format lib).signed ((e ++ [0]).take 28) = false)) ∧
    (MeetsFormat (ZplayDecode.format lib) (ZplayDecode.base64urlDecode lib text)
        (ZplayDecode.decodeWinningPrice lib text) ↔
      ∀ e, ZplayDecode.base64urlDecode lib text = some e → 15 ≤ e.length ∧
        (if e.length = 16 then
          ((ZplayDecode.format lib).signed e = true ↔
            lib.isZero ((ZplayDecode.format lib).price e) = false)
        else lib.isZero ((ZplayDecode.format lib).price ((e ++ [0]).take 16)) = true)) :=
  ⟨GoogleDecode.meets_iff text price, TanxDecode.meets_iff text, BaiduDecode.meets_iff text,
    ZplayDecode.meets_iff text⟩

/-- A library whose codes and hashes are constant, with integers for floating point numbers. -/
def constantLib : DecodeLib ℤ where
  hmacSha1 _ _ := List.replicate 20 1
  md5 _ := List.replicate 16 1
  bioRead text size := if text.length < 40 then none else some (List.replicate (min size 28) 0)
  decodeBase64 _ := none
  ofInt n := n
  ofBits bs := bigEndian bs
  zero := 0
  isZero n := n = 0
  hmacSha1_length _ _ := rfl
  isZero_zero := rfl

/-- A forged text for Google: 28 bytes whose signature is wrong are reported as a success, and the
price is whatever the variable held. -/
theorem forged_price_accepted :
    GoogleDecode.b64Decode constantLib (List.replicate 38 65) = some (List.replicate 28 0) ∧
      (GoogleDecode.format constantLib).signed (List.replicate 28 0) = false ∧
      GoogleDecode.decodeWinningPrice constantLib (List.replicate 38 65) 709 = .returned 0 709 ∧
      ¬ MeetsFormat (GoogleDecode.format constantLib)
        (GoogleDecode.b64Decode constantLib (List.replicate 38 65))
        (GoogleDecode.decodeWinningPrice constantLib (List.replicate 38 65) 709) := by
  have hread :
      GoogleDecode.b64Decode constantLib (List.replicate 38 65) = some (List.replicate 28 0) := by
    decide
  have hforged : (GoogleDecode.format constantLib).signed (List.replicate 28 0) = false := by decide
  refine ⟨hread, hforged, by decide, ?_⟩
  rw [GoogleDecode.meets_iff, hread]
  rintro ⟨e, he, hsigned⟩
  cases he
  rw [hsigned rfl] at hforged
  cases hforged

end AdxDsp
