import AdxDsp.Bid.FlagKey

/-!
# Encoding in the bidder, decoding in the tracker

`urlencode` of BidCore (`url_endecode.cpp`) writes into a block whose size it computes as an `int`;
`url_decode` of the tracker (`adx_string.c`) writes into the text that it reads.

* `urlencodeString_eq`: the text in the block is that of `urlencode`, as long as its size is right.
* `urlDecodeLoop_spec`: what has been read can be overwritten.
* `codes_iff`: the texts that come back.
-/

namespace AdxDsp

open CText

/-! ## The encoder -/

/-- The loop of `urlencode`, with what it has written into a block of some size; a byte outside of
the block, or of no block at all, is a fault. -/
def urlencodeLoop (size : ℤ) : Bytes → Bytes → Option Bytes
  | [], out => if out.length < size then some out else none
  | c :: s, out =>
    if out.length + (urlencodeByte c).length ≤ size then
      urlencodeLoop size s (out ++ urlencodeByte c)
    else none

/-- `urlencode(char const *, int, int *)`; `malloc` refuses a size below zero. -/
def urlencodeBytes (s : Bytes) (len : ℤ) : Option Bytes :=
  urlencodeLoop (toInt32 (3 * len + 1)) (s.take len.toNat) []

/-- `urlencode(const string &)`, which passes the length of the text as an `int`. -/
def urlencodeString (str : Bytes) : Option Bytes :=
  (urlencodeBytes (cstr str) (toInt32 (cstr str).length)).map cstr

section

variable {size : ℤ} {s t : Bytes}

/-- The loop ends just if the encoded text is shorter than the buffer. -/
theorem urlencodeLoop_eq_some_iff {out : Bytes} :
    urlencodeLoop size s out = some t ↔
      t = out ++ s.flatMap urlencodeByte ∧ (t.length : ℤ) < size := by
  induction s generalizing out with
  | nil =>
    rw [urlencodeLoop, List.flatMap_nil, List.append_nil, Option.ite_none_right_eq_some,
      Option.some_inj]
    constructor
    · rintro ⟨h, rfl⟩
      exact ⟨rfl, h⟩
    · rintro ⟨rfl, h⟩
      exact ⟨h, rfl⟩
  | cons c s ih =>
    rw [urlencodeLoop, Option.ite_none_right_eq_some, ih, List.flatMap_cons, List.append_assoc]
    constructor
    · exact And.right
    · rintro ⟨rfl, h⟩
      refine ⟨?_, rfl, h⟩
      simp only [List.length_append] at h
      omega

/-- No byte but zero is encoded with a zero byte. -/
theorem elem_zero_urlencodeByte : ∀ c : UInt8, c ≠ 0 → (urlencodeByte c).elem 0 = false := by
  decide +kernel

/-- An encoded text has no `NUL`. -/
theorem zero_notMem_flatMap (h : 0 ∉ s) : 0 ∉ s.flatMap urlencodeByte := by
  intro hmem
  obtain ⟨c, hc, hzero⟩ := List.mem_flatMap.mp hmem
  have hne : c ≠ 0 := by
    rintro rfl
    exact h hc
  have hnot := elem_zero_urlencodeByte c hne
  rw [List.elem_eq_mem, decide_eq_false_iff_not] at hnot
  exact hnot hzero

/-- What is encoded is what is left of the text when its length is an `int`. -/
theorem urlencodeString_eq_some_iff (h : 0 ∉ s) :
    urlencodeString s = some t ↔
      t = (s.take (toInt32 s.length).toNat).flatMap urlencodeByte ∧
        (t.length : ℤ) < toInt32 (3 * toInt32 s.length + 1) := by
  have hloop := fun t => @urlencodeLoop_eq_some_iff (toInt32 (3 * toInt32 s.length + 1))
    (s.take (toInt32 s.length).toNat) t []
  have hzero : 0 ∉ (s.take (toInt32 s.length).toNat).flatMap urlencodeByte :=
    zero_notMem_flatMap fun hmem => h (List.mem_of_mem_take hmem)
  rw [urlencodeString, cstr_eq_self h, urlencodeBytes, Option.map_eq_some_iff]
  constructor
  · rintro ⟨t, ht, rfl⟩
    obtain ⟨rfl, hsize⟩ := (hloop _).mp ht
    rw [List.nil_append] at hsize ⊢
    rw [cstr_eq_self hzero]
    exact ⟨rfl, hsize⟩
  · rintro ⟨rfl, hsize⟩
    exact ⟨_, (hloop _).mpr ⟨rfl, hsize⟩, cstr_eq_self hzero⟩

/-- A byte is encoded in three at most. -/
theorem length_flatMap_le (s : Bytes) : (s.flatMap urlencodeByte).length ≤ 3 * s.length := by
  have hbyte : ∀ c, (urlencodeByte c).length ≤ 3 := by
    intro c
    rw [urlencodeByte]
    split_ifs <;> simp
  induction s with
  | nil => exact Nat.le_refl 0
  | cons c s ih =>
    have := hbyte c
    rw [List.flatMap_cons, List.length_append, List.length_cons]
    omega

/-- An encoded text is not shorter. -/
theorem length_le_flatMap (s : Bytes) : s.length ≤ (s.flatMap urlencodeByte).length := by
  induction s with
  | nil => exact le_rfl
  | cons c s ih =>
    have hbyte : 1 ≤ (urlencodeByte c).length := by
      rw [urlencodeByte]
      split_ifs <;> simp
    rw [List.flatMap_cons, List.length_append, List.length_cons]
    omega

/-- A text whose block has a size that is an `int` is encoded. -/
theorem urlencodeString_eq (h : 0 ∉ s) (hlen : 3 * s.length + 1 < 2 ^ 31) :
    urlencodeString s = some (urlencode s) := by
  have hint : toInt32 (s.length : ℤ) = s.length := toInt32_of_bounds (by omega) (by omega)
  have hsize : toInt32 (3 * (s.length : ℤ) + 1) = 3 * s.length + 1 :=
    toInt32_of_bounds (by omega) (by omega)
  have hle := length_flatMap_le s
  rw [urlencodeString_eq_some_iff h, hint, hsize, Int.toNat_natCast, List.take_length, urlencode,
    cstr_eq_self h]
  refine ⟨rfl, ?_⟩
  omega

end

/-! ## The decoder -/

/-- The loop of `url_decode`: `data` and `dest` are places in `str`, and `len` bytes are left. -/
def urlDecodeLoop (str : Bytes) (data dest : ℕ) : ℕ → Bytes × ℕ
  | 0 => (str.set dest 0, dest)
  | len + 1 =>
    let c := str.getD data 0
    let a := str.getD (data + 1) 0
    let b := str.getD (data + 2) 0
    if c = 43 then urlDecodeLoop (str.set dest 32) (data + 1) (dest + 1) len
    else if c = 37 ∧ 2 ≤ len ∧ isXdigit a ∧ isXdigit b then
      urlDecodeLoop (str.set dest (xdigitValue a * 16 + xdigitValue b)) (data + 3) (dest + 1)
        (len - 2)
    else urlDecodeLoop (str.set dest c) (data + 1) (dest + 1) len
termination_by len => len

/-- `url_decode`: the text that is left in the place of the old one, and its length. -/
def urlDecodeInPlace (str : Bytes) (len : ℕ) : Bytes × ℕ := urlDecodeLoop str 0 0 len

/-- A byte written behind the first ones. -/
theorem take_set_succ {str : Bytes} {dest : ℕ} (h : dest < str.length) (c : UInt8) :
    (str.set dest c).take (dest + 1) = str.take dest ++ [c] := by
  rw [List.take_set, List.take_succ_eq_append_getElem h, List.set_append_right _ _ (by simp)]
  simp [Nat.min_eq_left h.le]

/-- A byte at a distance from the pointer. -/
theorem getD_add_of_drop {str l : Bytes} {data : ℕ} (h : str.drop data = l) (k : ℕ) :
    str.getD (data + k) 0 = l.getD k 0 := by
  rw [← h, List.getD_eq_getElem?_getD, List.getD_eq_getElem?_getD, List.getElem?_drop]

/-- The text before `dest` stays, and the rest is decoded behind it and ends with a `NUL`. -/
def DecodesRest (str rest : Bytes) (data dest : ℕ) : Prop :=
  (urlDecodeLoop str data dest rest.length).2 = dest + (urlDecode rest).length ∧
    (urlDecodeLoop str data dest rest.length).1.take (dest + (urlDecode rest).length + 1) =
      str.take dest ++ urlDecode rest ++ [0]

/-- A turn that reads `k` bytes and writes `c`, where it or an earlier turn has read. -/
theorem decodesRest_of_turn {str rest rest' tail : Bytes} {data dest k : ℕ} {c : UInt8}
    (hle : dest ≤ data) (hdrop : str.drop data = rest ++ 0 :: tail) (hk : rest.drop k = rest')
    (hpos : 0 < k) (hkle : k ≤ rest.length) (hdecode : urlDecode rest = c :: urlDecode rest')
    (hturn : urlDecodeLoop str data dest rest.length =
      urlDecodeLoop (str.set dest c) (data + k) (dest + 1) rest'.length)
    (hrest : (str.set dest c).drop (data + k) = rest' ++ 0 :: tail →
      DecodesRest (str.set dest c) rest' (data + k) (dest + 1)) :
    DecodesRest str rest data dest := by
  have hlen := congrArg List.length hdrop
  simp only [List.length_drop, List.length_append, List.length_cons] at hlen
  have hdrop' : (str.set dest c).drop (data + k) = rest' ++ 0 :: tail := by
    rw [List.drop_set_of_lt (by omega), ← List.drop_drop, hdrop,
      List.drop_append_of_le_length hkle, hk]
  obtain ⟨hdest, htake⟩ := hrest hdrop'
  rw [take_set_succ (by omega)] at htake
  unfold DecodesRest
  rw [hturn, hdecode, List.length_cons, ← Nat.add_assoc, Nat.add_right_comm]
  refine ⟨hdest, htake.trans ?_⟩
  simp

/-- The decoder writes at or before the place that it reads; by induction on the rest. -/
theorem urlDecodeLoop_spec {str rest tail : Bytes} {data dest : ℕ} (hle : dest ≤ data)
    (hdrop : str.drop data = rest ++ 0 :: tail) : DecodesRest str rest data dest := by
  induction rest using urlDecode.induct generalizing str data dest with
  | case1 =>
    have hlen := congrArg List.length hdrop
    simp only [List.length_drop, List.nil_append, List.length_cons] at hlen
    unfold DecodesRest
    rw [List.length_nil, urlDecodeLoop, urlDecode]
    refine ⟨rfl, ?_⟩
    rw [List.length_nil, Nat.add_zero, take_set_succ (by omega), List.append_nil]
  | case2 a b rest hx ih =>
    have hget := getD_add_of_drop hdrop
    rw [Bool.and_eq_true] at hx
    refine decodesRest_of_turn (k := 3) (c := xdigitValue a * 16 + xdigitValue b) hle hdrop rfl
      (by decide) (by simp) ?_ ?_ fun hrest => ih (by omega) hrest
    · rw [urlDecode, if_pos (by rw [hx.1, hx.2]; rfl)]
      rfl
    · have hc : str.getD data 0 = 37 := hget 0
      rw [List.length_cons, urlDecodeLoop, hc, hget 1, hget 2, if_neg (by decide),
        if_pos ⟨rfl, by simp, hx.1, hx.2⟩]
      rfl
  | case3 a b rest hx ih =>
    have hget := getD_add_of_drop hdrop
    rw [Bool.and_eq_true, not_and] at hx
    refine decodesRest_of_turn (k := 1) (c := 37) hle hdrop rfl (by decide) (by simp) ?_ ?_
      fun hrest => ih (by omega) hrest
    · rw [urlDecode, if_neg (by rw [Bool.and_eq_true]; exact not_and.mpr hx)]
      rfl
    · have hc : str.getD data 0 = 37 := hget 0
      rw [List.length_cons, urlDecodeLoop, hc, hget 1, hget 2, if_neg (by decide),
        if_neg fun h => hx h.2.2.1 h.2.2.2]
      rfl
  | case4 c rest hne ih =>
    have hc : str.getD data 0 = c := getD_add_of_drop hdrop 0
    -- a `%` with less than two bytes behind it is copied
    have hlook : ¬(c = 37 ∧ 2 ≤ rest.length ∧ isXdigit (str.getD (data + 1) 0) ∧
        isXdigit (str.getD (data + 2) 0)) := by
      rintro ⟨rfl, hlen, -⟩
      obtain ⟨a, rest, rfl⟩ := List.exists_cons_of_length_pos (show 0 < rest.length by omega)
      rw [List.length_cons] at hlen
      obtain ⟨b, rest, rfl⟩ := List.exists_cons_of_length_pos (show 0 < rest.length by omega)
      exact hne a b rest rfl rfl
    refine decodesRest_of_turn (k := 1) (c := if c = 43 then 32 else c) hle hdrop rfl (by decide)
      (by simp) ?_ ?_ fun hrest => ih (by omega) hrest
    · rw [urlDecode.eq_3 _ _ hne]
      rfl
    · rw [List.length_cons, urlDecodeLoop, hc, if_neg hlook]
      split_ifs <;> rfl

/-- The whole text is decoded. -/
theorem urlDecodeInPlace_spec (t : Bytes) :
    (urlDecodeInPlace (t ++ [0]) t.length).2 = (urlDecode t).length ∧
      (urlDecodeInPlace (t ++ [0]) t.length).1.take ((urlDecode t).length + 1) =
        urlDecode t ++ [0] := by
  have hdrop : (t ++ [0]).drop 0 = t ++ 0 :: [] := List.drop_zero
  obtain ⟨hlen, htake⟩ := urlDecodeLoop_spec (Nat.le_refl 0) hdrop
  rw [Nat.zero_add] at hlen htake
  exact ⟨hlen, htake⟩

/-! ## Both programs -/

/-- The text is encoded, and decoded again in the place of the encoded text; the length is right,
and a `NUL` stands behind it. -/
def Codes (s : Bytes) : Prop :=
  ∃ t, urlencodeString s = some t ∧ (urlDecodeInPlace (t ++ [0]) t.length).2 = s.length ∧
    (urlDecodeInPlace (t ++ [0]) t.length).1.take (s.length + 1) = s ++ [0]

/-- A text comes back if and only if the size of the block for its code is an `int`. -/
theorem codes_iff {s : Bytes} (h : 0 ∉ s) : Codes s ↔ 3 * s.length + 1 < 2 ^ 31 := by
  constructor
  · rintro ⟨t, ht, hlen, -⟩
    obtain ⟨rfl, hsize⟩ := (urlencodeString_eq_some_iff h).mp ht
    -- what comes back is the part that was encoded
    have hback : urlDecode ((s.take (toInt32 s.length).toNat).flatMap urlencodeByte) =
        s.take (toInt32 s.length).toNat := by
      have hzero : 0 ∉ s.take (toInt32 s.length).toNat :=
        fun hmem => h (List.mem_of_mem_take hmem)
      have hcode := urlDecode_urlencode (s.take (toInt32 s.length).toNat)
      rwa [urlencode, cstr_eq_self hzero] at hcode
    rw [(urlDecodeInPlace_spec _).1, hback, List.length_take] at hlen
    have hint : toInt32 (s.length : ℤ) = s.length := by
      rw [toInt32_eq] at hlen ⊢
      split_ifs at hlen ⊢ <;> omega
    rw [hint, Int.toNat_natCast, List.take_length] at hsize
    have hle := length_le_length_flatMap s
    have hmax : s.length < 2 ^ 31 := by
      rw [toInt32_eq] at hint
      split_ifs at hint <;> omega
    -- a size of 2^31 and more is negative, one of 2^32 and more is too small
    rw [toInt32_eq] at hsize
    rcases Nat.lt_or_ge (3 * s.length + 1) (2 ^ 32) with hwrap | hwrap
    · have hmod : (3 * (s.length : ℤ) + 1) % 2 ^ 32 = 3 * s.length + 1 :=
        Int.emod_eq_of_lt (by omega) (by omega)
      rw [hmod] at hsize
      split_ifs at hsize <;> omega
    · have hmod : (3 * (s.length : ℤ) + 1) % 2 ^ 32 = 3 * s.length + 1 - 2 ^ 32 := by
        rw [← Int.sub_emod_right]
        exact Int.emod_eq_of_lt (by omega) (by omega)
      rw [hmod] at hsize
      split_ifs at hsize <;> omega
  · intro hlen
    have hback : urlDecode (urlencode s) = s := by rw [urlDecode_urlencode, cstr_eq_self h]
    have hspec := urlDecodeInPlace_spec (urlencode s)
    rw [hback] at hspec
    exact ⟨urlencode s, urlencodeString_eq h hlen, hspec⟩

/-- A blank, a `+`, a `%` and a byte above 127. -/
theorem codes_special : Codes [32, 43, 37, 200] := (codes_iff (by decide)).mpr (by decide)

/-- A text of 715827883 bytes does not come back. -/
theorem not_codes_long : ¬∀ s : Bytes, 0 ∉ s → Codes s := by
  intro h
  have hzero : 0 ∉ List.replicate 715827883 (97 : UInt8) := by
    intro hmem
    exact absurd (List.eq_of_mem_replicate hmem) (by decide)
  have hlen := (codes_iff hzero).mp (h _ hzero)
  rw [List.length_replicate] at hlen
  omega

end AdxDsp
