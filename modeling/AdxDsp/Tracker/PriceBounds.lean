import AdxDsp.Lib.Buffers
import AdxDsp.Tracker.PriceDecode

/-!
# The buffers of the price decoders

The decoders of iqiyi, zplay and baidu take the parts of a price from fixed places of a text whose
length its sender chooses (`iqiyi/decode.cpp`, `zplay/decode.c`, `zplay/base64.c`,
`baidu/decode.cpp`).  Here each access to a buffer is a step that fails outside of it.

* `IqiyiDecode.isSome_iff`, `BaiduDecode.returns_iff`: by the length of the decoded bytes.
* `ZplayDecode.priceDecode_isSome_iff`: by the groups of four characters of the text.
* `decoders_inBounds_iff`: the three together.
-/

namespace AdxDsp

open CText Buffers

/-! ## iqiyi -/

namespace IqiyiDecode

/-- What `base64_decode_q` looks characters up in. -/
def base64Chars : Bytes :=
  bytes "ABCDEFGHIJKLMNOPQRSTUVWXYZabcdefghijklmnopqrstuvwxyz0123456789_-"

/-- The three bytes of four characters. -/
def decodeGroup (c0 c1 c2 c3 : UInt8) : Bytes :=
  let e0 := base64Chars.idxOf c0
  let e1 := base64Chars.idxOf c1
  let e2 := base64Chars.idxOf c2
  let e3 := base64Chars.idxOf c3
  [UInt8.ofNat (e0 <<< 2 + (e1 &&& 0x30) >>> 4),
    UInt8.ofNat ((e1 &&& 0xf) <<< 4 + (e2 &&& 0x3c) >>> 2), UInt8.ofNat ((e2 &&& 0x3) <<< 6 + e3)]

/-- The characters in groups of four; of a last group with `i` of them `i - 1` bytes are used. -/
def decodeGroups : Bytes → Bytes
  | c0 :: c1 :: c2 :: c3 :: rest => decodeGroup c0 c1 c2 c3 ++ decodeGroups rest
  | [c0, c1, c2] => (decodeGroup c0 c1 c2 0).take 2
  | [c0, c1] => (decodeGroup c0 c1 0 0).take 1
  | _ => []

/-- `base64_decode_q`: up to the first other character. -/
def base64DecodeQ (encodedString : Bytes) : Bytes :=
  decodeGroups (encodedString.takeWhile (· ∈ base64Chars))

/-- Two digits for each byte. -/
def hexText (price : Bytes) : Bytes :=
  price.flatMap fun b => [hexDigit 97 (b.toNat / 16), hexDigit 97 (b.toNat % 16)]

/-- What `sscanf` with `%02x` reads of a digit of `hexText`. -/
def hexValue (c : UInt8) : ℕ := if c ≤ 57 then c.toNat - 48 else c.toNat - 87

/-- The loop of `String2Bytes` from `i` on. -/
def string2BytesLoop (pDst : Bytes) (i : ℕ) : Bytes → Option Bytes
  | a :: b :: rest => do
    let pDst ← writeAt pDst i [UInt8.ofNat (hexValue a * 16 + hexValue b)]
    string2BytesLoop pDst (i + 1) rest
  | _ => some pDst

/-- `String2Bytes` -/
def string2Bytes (szSrc pDst : Bytes) : Option Bytes := do
  let text ← readText szSrc
  if text.length % 2 ≠ 0 then some pDst else string2BytesLoop pDst 0 text

/-- What is used of the libraries: the bytes `price` of a `Settlement` after it was parsed,
`DecryptPrice` of 16 bytes, and `atof`. -/
structure Lib (D : Type) where
  parsePrice : Bytes → Bytes
  decryptPrice : Bytes → Bytes
  atof : Bytes → D

/-- `DecodeWinningPrice`: the price, or `none` for an access outside of a buffer. -/
def decodeWinningPrice {D : Type} (lib : Lib D) (encodedprice : Bytes) : Option D := do
  let output := hexText (lib.parsePrice (base64DecodeQ (cstr encodedprice)))
  let ss ← writeAt (newBuffer 33) 0 (output ++ [0])
  let pDst ← string2Bytes ss (newBuffer 17)
  let cipher ← readAt pDst 0 16
  some (lib.atof (lib.decryptPrice cipher))

section

variable {D : Type} {lib : Lib D}

/-- Two digits for a byte. -/
theorem length_hexText (price : Bytes) : (hexText price).length = 2 * price.length := by
  induction price with
  | nil => rfl
  | cons b price ih =>
    rw [hexText, List.flatMap_cons, List.length_append, List.length_cons, ← hexText, ih]
    simp only [List.length_cons, List.length_nil]
    omega

/-- A digit is not the end of the text. -/
theorem hexDigit_ne_zero : ∀ d < 16, hexDigit 97 d ≠ 0 := by decide

/-- The digits are a C string. -/
theorem zero_notMem_hexText (price : Bytes) : 0 ∉ hexText price := by
  intro h
  obtain ⟨b, -, hb⟩ := List.mem_flatMap.mp h
  have hlt := b.toNat_lt
  rcases List.mem_pair.mp hb with h0 | h0
  · exact hexDigit_ne_zero _ (by omega) h0.symm
  · exact hexDigit_ne_zero _ (by omega) h0.symm

/-- The bytes are written one by one; by induction on the turns of the loop. -/
theorem string2BytesLoop_isSome (text : Bytes) : ∀ (pDst : Bytes) (i : ℕ),
    i + text.length / 2 ≤ pDst.length →
      ∃ pDst', string2BytesLoop pDst i text = some pDst' ∧ pDst'.length = pDst.length := by
  induction text using List.twoStepInduction with
  | nil => exact fun pDst i _ => ⟨pDst, rfl, rfl⟩
  | singleton a => exact fun pDst i _ => ⟨pDst, rfl, rfl⟩
  | cons_cons a b text ih _ =>
    intro pDst i hle
    simp only [List.length_cons] at hle
    obtain ⟨pDst', hwrite⟩ : ∃ pDst', writeAt pDst i [UInt8.ofNat (hexValue a * 16 + hexValue b)] =
        some pDst' := ⟨_, if_pos (by rw [List.length_singleton]; omega)⟩
    have hlength := length_of_writeAt hwrite
    obtain ⟨pDst'', hloop, hlength'⟩ := ih pDst' (i + 1) (by omega)
    exact ⟨pDst'', by rw [string2BytesLoop, hwrite]; exact hloop, hlength'.trans hlength⟩

/-- The digits of 16 bytes and their terminator fill the buffer of 33. -/
theorem isSome_iff (text : Bytes) :
    (decodeWinningPrice lib text).isSome ↔
      (lib.parsePrice (base64DecodeQ (cstr text))).length ≤ 16 := by
  obtain ⟨output, houtput⟩ : ∃ output,
      hexText (lib.parsePrice (base64DecodeQ (cstr text))) = output := ⟨_, rfl⟩
  have hlength : output.length = 2 * (lib.parsePrice (base64DecodeQ (cstr text))).length := by
    rw [← houtput, length_hexText]
  have hzero : 0 ∉ output := houtput ▸ zero_notMem_hexText _
  simp only [decodeWinningPrice, houtput, Option.bind_eq_bind]
  constructor
  · intro h
    obtain ⟨price, hprice⟩ := Option.isSome_iff_exists.mp h
    obtain ⟨ss, hss, -⟩ := Option.bind_eq_some_iff.mp hprice
    have hle := le_of_writeAt hss
    rw [length_newBuffer, List.length_append, List.length_singleton] at hle
    omega
  · intro h
    have hss : writeAt (newBuffer 33) 0 (output ++ [0]) =
        some (output ++ [0] ++ (newBuffer 33).drop (output ++ [0]).length) :=
      writeAt_zero (by rw [List.length_append, List.length_singleton, length_newBuffer]; omega)
    obtain ⟨pDst, hpDst, hsize⟩ := string2BytesLoop_isSome output (newBuffer 17) 0
      (by rw [length_newBuffer]; omega)
    have hbytes : string2Bytes (output ++ [0] ++ (newBuffer 33).drop (output ++ [0]).length)
        (newBuffer 17) = some pDst := by
      rw [string2Bytes, ← List.append_cons, readText_append_cons hzero, Option.bind_eq_bind,
        Option.bind_some, if_neg (by omega), hpDst]
    have hread : readAt pDst 0 16 = some ((pDst.drop 0).take 16) :=
      readAt_of_le (by rw [hsize, length_newBuffer]; decide)
    simp only [hss, hbytes, hread, Option.bind_some, Option.isSome_some]

end

end IqiyiDecode

/-! ## zplay -/

namespace ZplayDecode

/-- The digits of the code, without the `NUL` behind them. -/
def digits : Bytes := bytes "ABCDEFGHIJKLMNOPQRSTUVWXYZabcdefghijklmnopqrstuvwxyz0123456789+/"

/-- `digit_value`: the `NUL` at the end of `digits` is found as well. -/
def digitValue (ch : UInt8) : Option ℕ :=
  if ch = 61 then some 0 else (digits ++ [0]).idxOf? ch

/-- The bytes of four characters. -/
def decodeGroup (c0 c1 c2 c3 : UInt8) : Option Bytes := do
  let e0 ← digitValue c0
  let e1 ← digitValue c1
  let e2 ← digitValue c2
  let e3 ← digitValue c3
  some [UInt8.ofNat (e0 <<< 2 + (e1 &&& 0x30) >>> 4),
    UInt8.ofNat ((e1 &&& 0x0f) <<< 4 + (e2 &&& 0x3c) >>> 2), UInt8.ofNat ((e2 &&& 0x03) <<< 6 + e3)]

/-- Why `decode_base64` has no result. -/
inductive Stop where
  /-- A read or a write outside of a buffer. -/
  | outside
  /-- `NULL` comes back. -/
  | refused
  deriving DecidableEq

/-- A `CR` is passed over with the `LF` behind it. -/
def skipNewline : Bytes → Except Stop Bytes
  | [] => .error .outside
  | ch :: src =>
    if ch = 13 then
      match src with
      | [] => .error .outside
      | ch :: src => if ch = 10 then .ok src else .error .refused
    else .ok (ch :: src)

/-- A turn of the loop of `decode_base64`: three bytes, and what is left. -/
def turn (src : Bytes) : Except Stop (Bytes × Bytes) :=
  match skipNewline src with
  | .ok (c0 :: c1 :: c2 :: c3 :: rest) =>
    match decodeGroup c0 c1 c2 c3 with
    | some out => .ok (out, rest)
    | none => .error .refused
  | .ok _ => .error .outside
  | .error stop => .error stop

/-- A turn takes characters. -/
theorem length_lt_of_turn {src out rest : Bytes} (h : turn src = .ok (out, rest)) :
    rest.length < src.length := by
  have hskip : ∀ group, skipNewline src = .ok group → group.length ≤ src.length := by
    intro group hgroup
    unfold skipNewline at hgroup
    split at hgroup
    · cases hgroup
    · split_ifs at hgroup
      · split at hgroup
        · cases hgroup
        · split_ifs at hgroup
          cases hgroup
          simp only [List.length_cons]
          omega
      · cases hgroup
        rfl
  unfold turn at h
  split at h
  next hgroup =>
    have hle := hskip _ hgroup
    simp only [List.length_cons] at hle
    split at h
    · cases h
      omega
    · cases h
  all_goals cases h

/-- The loop of `decode_base64`, for a buffer `dst` of `size` bytes; `src` with its terminator. -/
def decodeLoop (size : ℕ) (dst src : Bytes) : Except Stop Bytes :=
  if src.head? = some 0 then .ok dst
  else
    match _h : turn src with
    | .ok (out, rest) =>
      if dst.length + out.length ≤ size then decodeLoop size (dst ++ out) rest
      else .error .outside
    | .error stop => .error stop
termination_by src.length
decreasing_by exact length_lt_of_turn _h

/-- `decode_base64` -/
def decodeBase64 (src : Bytes) : Except Stop Bytes :=
  if src.length % 4 ≠ 0 then .error .refused else decodeLoop (src.length + 1) [] (src ++ [0])

/-- The text that `base64url_decode` gives to `decode_base64`. -/
def paddedText (src : Bytes) : Bytes :=
  fromWebSafe src ++ List.replicate (4 - src.length % 4) 61

/-- The reads of `price_decode`. -/
def readPrice {D : Type} (lib : DecodeLib D) (q : Bytes) : Option D := do
  let time ← readAt q 0 4
  let encPrice ← readAt q 4 8
  let _ ← readAt q 12 4
  some (lib.ofBits (xorBytes (lib.hmacSha1 decKey time) encPrice))

/-- `price_decode`, with the accesses to all buffers. -/
def priceDecodeAccesses {D : Type} (lib : DecodeLib D) (src : Bytes) : Option D :=
  match decodeBase64 (paddedText (cstr src)) with
  | .ok decoded => readPrice lib (decoded ++ [0])
  | .error .refused => some lib.zero
  | .error .outside => none

section

variable {D : Type} {lib : DecodeLib D} {src : Bytes}

/-- A character with a digit. -/
def IsDigit (ch : UInt8) : Prop := ch ∈ digits ∨ ch = 61

/-- Four characters with digits, perhaps behind a line break. -/
def IsGroup (group : Bytes) : Prop :=
  ∃ chars, (group = chars ∨ group = 13 :: 10 :: chars) ∧ chars.length = 4 ∧ ∀ ch ∈ chars, IsDigit ch

/-- A group with another character, or a `CR` without a `LF`. -/
def Refused (src : Bytes) : Prop :=
  (∃ rest, src = 13 :: rest ∧ rest.head? ≠ some 10) ∨
    ∃ chars rest, (src = chars ++ rest ∧ chars.head? ≠ some 13 ∨ src = 13 :: 10 :: chars ++ rest) ∧
      chars.length = 4 ∧ ∃ ch ∈ chars, ¬IsDigit ch

/-- At most two characters. -/
def Short (src : Bytes) : Prop :=
  ∃ chars, (src = chars ∧ chars.head? ≠ some 13 ∨ src = 13 :: 10 :: chars) ∧ chars.length ≤ 2

/-- A value is found for the digits and for the `NUL`. -/
theorem digitValue_isSome_iff {ch : UInt8} : (digitValue ch).isSome ↔ IsDigit ch ∨ ch = 0 := by
  unfold digitValue IsDigit
  split_ifs with h
  · simp [h]
  · rw [List.isSome_idxOf?]
    simp [h]

/-- A digit has a value. -/
theorem exists_digitValue {ch : UInt8} (h : IsDigit ch) : ∃ e, digitValue ch = some e :=
  Option.isSome_iff_exists.mp (digitValue_isSome_iff.mpr (Or.inl h))

/-- The bytes of four characters with digits. -/
theorem exists_decodeGroup {c0 c1 c2 c3 : UInt8} (h : ∀ ch ∈ [c0, c1, c2, c3], IsDigit ch) :
    ∃ out, decodeGroup c0 c1 c2 c3 = some out ∧ out.length = 3 := by
  obtain ⟨e0, h0⟩ := exists_digitValue (h c0 (by simp))
  obtain ⟨e1, h1⟩ := exists_digitValue (h c1 (by simp))
  obtain ⟨e2, h2⟩ := exists_digitValue (h c2 (by simp))
  obtain ⟨e3, h3⟩ := exists_digitValue (h c3 (by simp))
  rw [decodeGroup, h0, h1, h2, h3]
  exact ⟨_, rfl, rfl⟩

/-- A group with another character is refused. -/
theorem decodeGroup_eq_none {c0 c1 c2 c3 : UInt8} (hzero : 0 ∉ [c0, c1, c2, c3])
    (h : ∃ ch ∈ [c0, c1, c2, c3], ¬IsDigit ch) : decodeGroup c0 c1 c2 c3 = none := by
  by_contra hne
  obtain ⟨out, hout⟩ := Option.ne_none_iff_exists'.mp hne
  obtain ⟨e0, h0, hout⟩ := Option.bind_eq_some_iff.mp hout
  obtain ⟨e1, h1, hout⟩ := Option.bind_eq_some_iff.mp hout
  obtain ⟨e2, h2, hout⟩ := Option.bind_eq_some_iff.mp hout
  obtain ⟨e3, h3, -⟩ := Option.bind_eq_some_iff.mp hout
  obtain ⟨ch, hch, hnot⟩ := h
  have hvalue : (digitValue ch).isSome := by
    simp only [List.mem_cons, List.not_mem_nil, or_false] at hch
    rcases hch with rfl | rfl | rfl | rfl
    · exact Option.isSome_of_eq_some h0
    · exact Option.isSome_of_eq_some h1
    · exact Option.isSome_of_eq_some h2
    · exact Option.isSome_of_eq_some h3
  rcases digitValue_isSome_iff.mp hvalue with hdigit | rfl
  · exact hnot hdigit
  · exact hzero hch

/-! ### A turn -/

/-- Without a carriage return nothing is skipped. -/
theorem skipNewline_of_ne (h : src ≠ []) (hch : src.head? ≠ some 13) :
    skipNewline src = .ok src := by
  obtain ⟨ch, rest, rfl⟩ := List.exists_cons_of_ne_nil h
  exact if_neg fun h13 => hch (congrArg some h13)

/-- Four characters, perhaps behind a line break. -/
theorem turn_chars {chars rest : Bytes} (hlength : chars.length = 4) (hzero : 0 ∉ chars)
    (hsrc : src = chars ++ rest ∧ chars.head? ≠ some 13 ∨ src = 13 :: 10 :: chars ++ rest) :
    ((∀ ch ∈ chars, IsDigit ch) → ∃ out, turn src = .ok (out, rest) ∧ out.length = 3) ∧
      ((∃ ch ∈ chars, ¬IsDigit ch) → turn src = .error .refused) := by
  obtain ⟨c0, c1, c2, c3, rfl⟩ := List.length_eq_four.mp hlength
  have hskip : skipNewline src = .ok (c0 :: c1 :: c2 :: c3 :: rest) := by
    rcases hsrc with ⟨rfl, hch⟩ | rfl
    · exact skipNewline_of_ne (List.cons_ne_nil _ _) hch
    · rfl
  constructor
  · intro h
    obtain ⟨out, hout, hlen⟩ := exists_decodeGroup h
    exact ⟨out, by rw [turn, hskip]; simp only [hout], hlen⟩
  · intro h
    have hnone := decodeGroup_eq_none hzero h
    rw [turn, hskip]
    simp only [hnone]

/-- A group makes three bytes. -/
theorem turn_of_isGroup {group : Bytes} (h : IsGroup group) (rest : Bytes) :
    ∃ out, turn (group ++ rest) = .ok (out, rest) ∧ out.length = 3 := by
  obtain ⟨chars, hgroup, hlength, hdigits⟩ := h
  have hnot : ¬IsDigit 0 ∧ ¬IsDigit 13 := by
    unfold IsDigit
    decide
  have hzero : 0 ∉ chars := fun h0 => hnot.1 (hdigits 0 h0)
  refine (turn_chars hlength hzero ?_).1 hdigits
  refine hgroup.imp (fun h => ⟨by rw [h], fun hhead => ?_⟩) fun h => by rw [h]
  exact hnot.2 (hdigits 13 (List.mem_of_head? hhead))

/-- A text that begins with no group is refused inside its bounds. -/
theorem turn_of_refused (h : Refused src) (hzero : 0 ∉ src) :
    turn (src ++ [0]) = .error .refused := by
  rcases h with ⟨rest, rfl, hhead⟩ | ⟨chars, rest, hsrc, hlength, hother⟩
  · cases rest with
    | nil => rfl
    | cons ch rest =>
      have hch : ch ≠ 10 := fun h10 => hhead (congrArg some h10)
      simp [turn, skipNewline, hch]
  · have hmem : ∀ ch ∈ chars, ch ∈ src := by
      rcases hsrc with ⟨rfl, -⟩ | rfl
      · exact fun ch hch => List.mem_append_left rest hch
      · intro ch hch
        simp [hch]
    refine (@turn_chars _ chars (rest ++ [0]) hlength (fun h0 => hzero (hmem 0 h0)) ?_).2 hother
    refine hsrc.imp (fun h => ⟨by rw [h.1, List.append_assoc], h.2⟩) fun h => by rw [h]; simp

/-- The terminator is not enough for a group. -/
theorem turn_of_short (h : Short src) (hne : src ≠ []) : turn (src ++ [0]) = .error .outside := by
  obtain ⟨chars, hsrc, hlength⟩ := h
  have hskip : skipNewline (src ++ [0]) = .ok (chars ++ [0]) := by
    rcases hsrc with ⟨rfl, hch⟩ | rfl
    · refine skipNewline_of_ne (by simp) ?_
      obtain ⟨ch, rest, rfl⟩ := List.exists_cons_of_ne_nil hne
      exact hch
    · rfl
  rw [turn, hskip]
  match chars, hlength with
  | [], _ => rfl
  | [_], _ => rfl
  | [_, _], _ => rfl

/-- What stands at the start of a text of an even length. -/
theorem group_or_refused_or_short (heven : src.length % 2 = 0) :
    (∃ group rest, src = group ++ rest ∧ IsGroup group) ∨ Refused src ∨ Short src := by
  -- four characters are a group or refused
  have hfour : ∀ t : Bytes, t.length % 2 = 0 → 2 < t.length →
      (src = t ∧ t.head? ≠ some 13 ∨ src = 13 :: 10 :: t) →
      (∃ group rest, src = group ++ rest ∧ IsGroup group) ∨ Refused src := by
    intro t hmod hlt hsrc
    have hlength : (t.take 4).length = 4 := by
      rw [List.length_take]
      omega
    have hparts := List.take_append_drop 4 t
    by_cases hdigits : ∀ ch ∈ t.take 4, IsDigit ch
    · refine Or.inl ?_
      rcases hsrc with ⟨rfl, -⟩ | rfl
      · exact ⟨_, _, hparts.symm, _, Or.inl rfl, hlength, hdigits⟩
      · exact ⟨13 :: 10 :: t.take 4, t.drop 4, by rw [List.cons_append, List.cons_append, hparts],
          _, Or.inr rfl, hlength, hdigits⟩
    · push Not at hdigits
      refine Or.inr (Or.inr ⟨t.take 4, t.drop 4, ?_, hlength, hdigits⟩)
      rcases hsrc with ⟨rfl, hhead⟩ | rfl
      · refine Or.inl ⟨hparts.symm, ?_⟩
        rwa [List.head?_take, if_neg (by decide)]
      · exact Or.inr (by rw [List.cons_append, List.cons_append, hparts])
  by_cases hcr : src.head? = some 13
  · obtain ⟨rest, rfl⟩ := List.head?_eq_some_iff.mp hcr
    by_cases hlf : rest.head? = some 10
    · obtain ⟨t, rfl⟩ := List.head?_eq_some_iff.mp hlf
      simp only [List.length_cons] at heven
      rcases Nat.lt_or_ge 2 t.length with hlt | hle
      · rcases hfour t (by omega) hlt (Or.inr rfl) with h | h
        · exact Or.inl h
        · exact Or.inr (Or.inl h)
      · exact Or.inr (Or.inr ⟨t, Or.inr rfl, hle⟩)
    · exact Or.inr (Or.inl (Or.inl ⟨rest, rfl, hlf⟩))
  · rcases Nat.lt_or_ge 2 src.length with hlt | hle
    · rcases hfour src heven hlt (Or.inl ⟨rfl, hcr⟩) with h | h
      · exact Or.inl h
      · exact Or.inr (Or.inl h)
    · exact Or.inr (Or.inr ⟨src, Or.inl ⟨rfl, hcr⟩, hle⟩)

/-- A group has four characters at least, and an even number. -/
theorem length_of_isGroup {group : Bytes} (h : IsGroup group) :
    4 ≤ group.length ∧ group.length % 2 = 0 := by
  obtain ⟨chars, rfl | rfl, hlength, -⟩ := h
  · omega
  · simp only [List.length_cons]
    omega

/-- A text of an even length is groups up to the place where the decoder stops; by induction on its
length. -/
theorem exists_groups (heven : src.length % 2 = 0) :
    ∃ (groups : List Bytes) (rest : Bytes), src = groups.flatten ++ rest ∧
      (∀ group ∈ groups, IsGroup group) ∧ (rest = [] ∨ Refused rest ∨ rest ≠ [] ∧ Short rest) := by
  induction hn : src.length using Nat.strong_induction_on generalizing src with
  | _ n ih =>
    subst hn
    by_cases hnil : src = []
    · exact ⟨[], src, rfl, by simp, Or.inl hnil⟩
    · rcases group_or_refused_or_short heven with ⟨group, rest, rfl, hgroup⟩ | h | h
      · obtain ⟨hfour, hmod⟩ := length_of_isGroup hgroup
        rw [List.length_append] at heven
        obtain ⟨groups, rest', rfl, hgroups, hstop⟩ :=
          ih rest.length (by rw [List.length_append]; omega) (by omega) rfl
        exact ⟨group :: groups, rest', by rw [List.flatten_cons, List.append_assoc],
          List.forall_mem_cons.mpr ⟨hgroup, hgroups⟩, hstop⟩
      · exact ⟨[], src, rfl, by simp, Or.inr (Or.inl h)⟩
      · exact ⟨[], src, rfl, by simp, Or.inr (Or.inr ⟨hnil, h⟩)⟩

/-! ### The loop -/

variable {size : ℕ} {dst : Bytes}

/-- A turn whose bytes fit goes on. -/
theorem decodeLoop_of_ok {out rest : Bytes} (hhead : src.head? ≠ some 0)
    (hturn : turn src = .ok (out, rest)) (hroom : dst.length + out.length ≤ size) :
    decodeLoop size dst src = decodeLoop size (dst ++ out) rest := by
  rw [decodeLoop, if_neg hhead]
  split
  · next out' rest' h =>
    obtain ⟨rfl, rfl⟩ : out = out' ∧ rest = rest' := by simpa using hturn.symm.trans h
    rw [if_pos hroom]
  · next stop h => rw [hturn] at h; cases h

/-- A turn that fails ends the loop. -/
theorem decodeLoop_of_error {stop : Stop} (hhead : src.head? ≠ some 0)
    (hturn : turn src = .error stop) : decodeLoop size dst src = .error stop := by
  rw [decodeLoop, if_neg hhead]
  split
  · next h => rw [hturn] at h; cases h
  · next stop' h =>
    obtain rfl : stop = stop' := by simpa using hturn.symm.trans h
    rfl

/-- A group does not begin with the end of the text. -/
theorem head?_of_isGroup {group : Bytes} (h : IsGroup group) (rest : Bytes) :
    (group ++ rest).head? ≠ some 0 := by
  have hnot : ¬IsDigit 0 := by
    unfold IsDigit
    decide
  obtain ⟨chars, rfl | rfl, hlength, hdigits⟩ := h
  · obtain ⟨c0, c1, c2, c3, rfl⟩ := List.length_eq_four.mp hlength
    intro h0
    exact hnot (Option.some_inj.mp h0 ▸ hdigits c0 List.mem_cons_self)
  · exact Option.some_inj.not.mpr (by decide)

/-- Groups are decoded one after the other; by induction on their number. -/
theorem decodeLoop_groups {groups : List Bytes} (h : ∀ group ∈ groups, IsGroup group)
    (hsize : dst.length + 3 * groups.length ≤ size) (rest : Bytes) :
    ∃ out, out.length = 3 * groups.length ∧
      decodeLoop size dst (groups.flatten ++ rest) = decodeLoop size (dst ++ out) rest := by
  induction groups generalizing dst with
  | nil => exact ⟨[], rfl, by rw [List.flatten_nil, List.nil_append, List.append_nil]⟩
  | cons group groups ih =>
    obtain ⟨hgroup, hgroups⟩ := List.forall_mem_cons.mp h
    rw [List.length_cons] at hsize
    obtain ⟨first, hturn, hfirst⟩ := turn_of_isGroup hgroup (groups.flatten ++ rest)
    obtain ⟨out, hlength, hloop⟩ := @ih (dst ++ first) hgroups
      (by rw [List.length_append]; omega)
    refine ⟨first ++ out, by rw [List.length_append, List.length_cons]; omega, ?_⟩
    rw [List.flatten_cons, List.append_assoc,
      decodeLoop_of_ok (head?_of_isGroup hgroup _) hturn (by omega), hloop, List.append_assoc]

/-- The loop ends with the text. -/
theorem decodeLoop_nil : decodeLoop size dst [0] = .ok dst := by
  rw [decodeLoop]
  rfl

/-- Each group has four characters at least. -/
theorem le_length_flatten {groups : List Bytes} (h : ∀ group ∈ groups, IsGroup group) :
    4 * groups.length ≤ groups.flatten.length := by
  induction groups with
  | nil => exact Nat.zero_le _
  | cons group groups ih =>
    obtain ⟨hgroup, hgroups⟩ := List.forall_mem_cons.mp h
    have hfour := (length_of_isGroup hgroup).1
    have hle := ih hgroups
    rw [List.flatten_cons, List.length_append, List.length_cons]
    omega

/-- How a text is decoded. -/
theorem decodeBase64_groups {groups : List Bytes} {rest : Bytes}
    (h : ∀ group ∈ groups, IsGroup group) (hlength : (groups.flatten ++ rest).length % 4 = 0) :
    ∃ out, out.length = 3 * groups.length ∧ decodeBase64 (groups.flatten ++ rest) =
      decodeLoop ((groups.flatten ++ rest).length + 1) out (rest ++ [0]) := by
  have hle := le_length_flatten h
  have hsize : ([] : Bytes).length + 3 * groups.length ≤ (groups.flatten ++ rest).length + 1 := by
    rw [List.length_append, List.length_nil]
    omega
  obtain ⟨out, hout, hloop⟩ := decodeLoop_groups h hsize (rest ++ [0])
  refine ⟨out, hout, ?_⟩
  rw [decodeBase64, if_neg (not_not_intro hlength), List.append_assoc, hloop, List.nil_append]

/-- All groups, of which there are at least five. -/
def Complete (src : Bytes) : Prop :=
  ∃ groups : List Bytes, src = groups.flatten ∧ (∀ group ∈ groups, IsGroup group) ∧
    5 ≤ groups.length

/-- Groups up to one that is refused. -/
def GivesUp (src : Bytes) : Prop :=
  ∃ (groups : List Bytes) (rest : Bytes), src = groups.flatten ++ rest ∧
    (∀ group ∈ groups, IsGroup group) ∧ Refused rest

/-- Sixteen bytes are read. -/
theorem readPrice_isSome_iff (q : Bytes) : (readPrice lib q).isSome ↔ 16 ≤ q.length := by
  constructor
  · intro h
    obtain ⟨price, hprice⟩ := Option.isSome_iff_exists.mp h
    obtain ⟨time, -, hprice⟩ := Option.bind_eq_some_iff.mp hprice
    obtain ⟨encPrice, -, hprice⟩ := Option.bind_eq_some_iff.mp hprice
    obtain ⟨sig, hsig, -⟩ := Option.bind_eq_some_iff.mp hprice
    exact le_of_readAt hsig
  · intro h
    rw [readPrice, readAt_of_le (by omega : 0 + 4 ≤ q.length),
      readAt_of_le (by omega : 4 + 8 ≤ q.length), readAt_of_le (by omega : 12 + 4 ≤ q.length)]
    rfl

/-- The padded text has a multiple of four characters. -/
theorem length_paddedText (text : Bytes) : (paddedText text).length % 4 = 0 := by
  rw [paddedText, List.length_append, List.length_replicate, fromWebSafe, List.length_map]
  omega

/-- The padding adds no zero byte. -/
theorem zero_notMem_paddedText {text : Bytes} (h : 0 ∉ text) : 0 ∉ paddedText text := by
  intro hmem
  rcases List.mem_append.mp hmem with hmem | hmem
  · obtain ⟨c, hc, hzero⟩ := List.mem_map.mp hmem
    split_ifs at hzero
    · exact absurd hzero (by decide)
    · exact absurd hzero (by decide)
    · exact h (hzero ▸ hc)
  · exact absurd (List.eq_of_mem_replicate hmem) (by decide)

/-- A text that is refused is not empty. -/
theorem ne_nil_of_refused (h : Refused src) : src ≠ [] := by
  rintro rfl
  rcases h with ⟨rest, hsrc, -⟩ | ⟨chars, rest, ⟨hsrc, -⟩ | hsrc, hlength, -⟩
  · cases hsrc
  · rw [(List.append_eq_nil_iff.mp hsrc.symm).1] at hlength
    cases hlength
  · cases hsrc

/-- A text that is not empty does not begin with its end. -/
theorem head?_append_terminator (hne : src ≠ []) (hzero : 0 ∉ src) :
    (src ++ [0]).head? ≠ some 0 := by
  obtain ⟨ch, rest, rfl⟩ := List.exists_cons_of_ne_nil hne
  intro h
  exact hzero (Option.some_inj.mp h ▸ List.mem_cons_self)

/-- A text of groups is read in bounds just if it has five of them. -/
theorem isSome_of_groups {text : Bytes} {groups : List Bytes}
    (htext : paddedText (cstr text) = groups.flatten) (h : ∀ group ∈ groups, IsGroup group) :
    (priceDecodeAccesses lib text).isSome ↔ 5 ≤ groups.length := by
  have hmod := length_paddedText (cstr text)
  rw [htext, ← List.append_nil groups.flatten] at hmod
  obtain ⟨out, hout, hdecode⟩ := decodeBase64_groups h hmod
  rw [List.append_nil, List.nil_append, decodeLoop_nil, ← htext] at hdecode
  rw [priceDecodeAccesses, hdecode]
  refine (readPrice_isSome_iff _).trans ?_
  rw [List.length_append, List.length_singleton]
  omega

/-- The text is refused, or it has groups for the 16 bytes. -/
theorem priceDecodeAccesses_isSome_iff (text : Bytes) :
    (priceDecodeAccesses lib text).isSome ↔
      Complete (paddedText (cstr text)) ∨ GivesUp (paddedText (cstr text)) := by
  have hmod := length_paddedText (cstr text)
  have hzero := zero_notMem_paddedText (zero_notMem_cstr text)
  constructor
  · intro h
    obtain ⟨groups, rest, htext, hgroups, hstop⟩ :=
      @exists_groups (paddedText (cstr text)) (by omega)
    rcases hstop with rfl | hrefused | ⟨hne, hshort⟩
    · rw [List.append_nil] at htext
      exact Or.inl ⟨groups, htext, hgroups, (isSome_of_groups htext hgroups).mp h⟩
    · exact Or.inr ⟨groups, rest, htext, hgroups, hrefused⟩
    · rw [htext] at hmod hzero
      obtain ⟨out, -, hdecode⟩ := decodeBase64_groups hgroups hmod
      have hhead := head?_append_terminator hne fun h0 => hzero (List.mem_append_right _ h0)
      rw [priceDecodeAccesses, htext, hdecode,
        decodeLoop_of_error hhead (turn_of_short hshort hne)] at h
      cases h
  · rintro (⟨groups, htext, hgroups, hfive⟩ | ⟨groups, rest, htext, hgroups, hrefused⟩)
    · exact (isSome_of_groups htext hgroups).mpr hfive
    · rw [htext] at hmod hzero
      obtain ⟨out, -, hdecode⟩ := decodeBase64_groups hgroups hmod
      have hzero' : 0 ∉ rest := fun h0 => hzero (List.mem_append_right _ h0)
      have hhead := head?_append_terminator (ne_nil_of_refused hrefused) hzero'
      rw [priceDecodeAccesses, htext, hdecode,
        decodeLoop_of_error hhead (turn_of_refused hrefused hzero')]
      rfl

/-- The library with the decoder of zplay. -/
def ownLib (lib : DecodeLib D) : DecodeLib D :=
  { lib with decodeBase64 := fun t => (decodeBase64 t).toOption }

/-- The price of the first sixteen bytes. -/
theorem readPrice_of_le {q : Bytes} (h : 16 ≤ q.length) :
    readPrice lib q = some (lib.ofBits (plain lib (q.take 16))) := by
  rw [readPrice, readAt_of_le (by omega : 0 + 4 ≤ q.length),
    readAt_of_le (by omega : 4 + 8 ≤ q.length), readAt_of_le (by omega : 12 + 4 ≤ q.length), plain,
    List.take_take, List.drop_take, List.take_take]
  rfl

/-- Inside of the buffers this is `priceDecode` with that decoder. -/
theorem priceDecode_eq (text : Bytes)
    (h : decodeBase64 (paddedText (cstr text)) ≠ .error .outside) :
    priceDecodeAccesses lib text = priceDecode (ownLib lib) (cstr text) := by
  have hown : base64urlDecode (ownLib lib) (cstr text) =
      (decodeBase64 (paddedText (cstr text))).toOption := rfl
  rw [priceDecodeAccesses, priceDecode, hown]
  cases hdecode : decodeBase64 (paddedText (cstr text)) with
  | error stop =>
    cases stop with
    | outside => exact absurd hdecode h
    | refused => rfl
  | ok q =>
    have hlength : (q ++ [0]).length = q.length + 1 := List.length_append
    simp only [Except.toOption]
    split_ifs with hlt
    · rw [← Option.not_isSome_iff_eq_none, readPrice_isSome_iff]
      omega
    · exact readPrice_of_le (by omega)

end

end ZplayDecode

/-! ## baidu -/

namespace BaiduDecode

/-- `decrypt_int64`, with the accesses to the string. -/
def decryptInt64Accesses {D : Type} (lib : DecodeLib D) (encryptedValue : Bytes) :
    Option (Bool × ℤ) := do
  let initializationVector ← readAt (encryptedValue ++ [0]) 0 16
  let ciphertext ← readAt (encryptedValue ++ [0]) 16 8
  let plaintext := xorBytes (lib.hmacSha1 encryptionKey initializationVector) ciphertext
  let hash := lib.hmacSha1 integrityKey (plaintext ++ initializationVector)
  let signature ← readAt (encryptedValue ++ [0]) 24 4
  some (hash.take 4 = signature, int64OfBytes plaintext)

/-- `DecodeWinningPrice`, with the accesses to the string. -/
def decodeWinningPriceAccesses {D : Type} (lib : DecodeLib D) (sourceStr : Bytes) : Decoded D :=
  match webSafeBase64Decode lib (cstr sourceStr) with
  | none => .raised
  | some decodeValue =>
    match decryptInt64Accesses lib decodeValue with
    | none => .undefined
    | some (true, actValue) => .returned 0 (lib.ofInt actValue)
    | some (false, _) => .returned 1 lib.zero

section

variable {D : Type} {lib : DecodeLib D}

/-- With enough bytes the reads are in bounds. -/
theorem decryptInt64Accesses_of_le {encryptedValue : Bytes} (h : 28 ≤ encryptedValue.length + 1) :
    decryptInt64Accesses lib encryptedValue =
      some (decryptInt64 lib ((encryptedValue ++ [0]).take 28)) := by
  have hlength : (encryptedValue ++ [0]).length = encryptedValue.length + 1 := List.length_append
  rw [decryptInt64Accesses, readAt_of_le (by omega : 0 + 16 ≤ (encryptedValue ++ [0]).length),
    readAt_of_le (by omega : 16 + 8 ≤ (encryptedValue ++ [0]).length),
    readAt_of_le (by omega : 24 + 4 ≤ (encryptedValue ++ [0]).length), decryptInt64,
    List.take_take, List.drop_take, List.drop_take, List.take_take, List.take_take]
  rfl

/-- If the reads are in bounds there are enough bytes. -/
theorem le_of_decryptInt64Accesses {encryptedValue : Bytes} {out : Bool × ℤ}
    (h : decryptInt64Accesses lib encryptedValue = some out) : 28 ≤ encryptedValue.length + 1 := by
  obtain ⟨iv, -, h⟩ := Option.bind_eq_some_iff.mp h
  obtain ⟨ciphertext, -, h⟩ := Option.bind_eq_some_iff.mp h
  obtain ⟨signature, hsignature, -⟩ := Option.bind_eq_some_iff.mp h
  have hle := le_of_readAt hsignature
  rwa [List.length_append] at hle

/-- The accesses are those of `decodeWinningPrice`. -/
theorem decodeWinningPriceAccesses_eq (text : Bytes) :
    decodeWinningPriceAccesses lib text = decodeWinningPrice lib (cstr text) := by
  rw [decodeWinningPriceAccesses, decodeWinningPrice]
  cases webSafeBase64Decode lib (cstr text) with
  | none => rfl
  | some decodeValue =>
    dsimp only
    split_ifs with hlt
    · have hnone : decryptInt64Accesses lib decodeValue = none := by
        by_contra hne
        obtain ⟨out, hout⟩ := Option.ne_none_iff_exists'.mp hne
        have hle := le_of_decryptInt64Accesses hout
        omega
      rw [hnone]
    · rw [decryptInt64Accesses_of_le (by omega)]
      cases decryptInt64 lib ((decodeValue ++ [0]).take 28) with
      | mk ok actValue => cases ok <;> rfl

/-- The terminator of the string counts as one of the 28 bytes. -/
theorem returns_iff (text : Bytes) :
    decodeWinningPriceAccesses lib text ≠ .undefined ↔
      ∀ decodeValue, webSafeBase64Decode lib (cstr text) = some decodeValue →
        27 ≤ decodeValue.length := by
  rw [decodeWinningPriceAccesses_eq, decodeWinningPrice]
  cases webSafeBase64Decode lib (cstr text) with
  | none => simp
  | some decodeValue =>
    simp only [Option.some_inj, forall_eq']
    split_ifs with hlt
    · simp
      omega
    · split <;> simp <;> omega

end

end BaiduDecode

/-- The three decoders and their buffers. -/
theorem decoders_inBounds_iff {D : Type} (iqiyi : IqiyiDecode.Lib D) (lib : DecodeLib D)
    (text : Bytes) :
    ((IqiyiDecode.decodeWinningPrice iqiyi text).isSome ↔
        (iqiyi.parsePrice (IqiyiDecode.base64DecodeQ (cstr text))).length ≤ 16) ∧
      ((ZplayDecode.priceDecodeAccesses lib text).isSome ↔
        ZplayDecode.Complete (ZplayDecode.paddedText (cstr text)) ∨
          ZplayDecode.GivesUp (ZplayDecode.paddedText (cstr text))) ∧
      (BaiduDecode.decodeWinningPriceAccesses lib text ≠ .undefined ↔
        ∀ decodeValue, BaiduDecode.webSafeBase64Decode lib (cstr text) = some decodeValue →
          27 ≤ decodeValue.length) :=
  ⟨IqiyiDecode.isSome_iff text, ZplayDecode.priceDecodeAccesses_isSome_iff text,
    BaiduDecode.returns_iff text⟩

/-- A settlement with a price of 17 bytes, and texts of four characters. -/
theorem decoders_leave_buffers :
    IqiyiDecode.decodeWinningPrice (D := ℤ)
        ⟨fun message => if message = [8, 1, 0x12, 17] ++ List.replicate 17 65 then
          List.replicate 17 65 else [], fun _ => [], fun _ => 0⟩
        (bytes "CAESEUFBQUFBQUFBQUFBQUFBQUFB") = none ∧
      ZplayDecode.priceDecodeAccesses constantLib (bytes "AAAA") = none ∧
      BaiduDecode.decodeWinningPriceAccesses
        { constantLib with bioRead := fun _ _ => some [0, 0, 0] } (bytes "AAAA") = .undefined := by
  refine ⟨?_, ?_, ?_⟩
  · rw [← Option.not_isSome_iff_eq_none, IqiyiDecode.isSome_iff]
    decide +kernel
  · rw [← Option.not_isSome_iff_eq_none,
      @ZplayDecode.isSome_of_groups ℤ constantLib _ [bytes "AAAA", bytes "===="] (by decide)]
    · decide
    · unfold ZplayDecode.IsGroup ZplayDecode.IsDigit
      refine List.forall_mem_cons.mpr ⟨⟨_, Or.inl rfl, by decide +kernel⟩, ?_⟩
      exact List.forall_mem_cons.mpr ⟨⟨_, Or.inl rfl, by decide +kernel⟩, nofun⟩
  · decide

end AdxDsp
