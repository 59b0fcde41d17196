import AdxDsp.Lib.Sextets

/-!
# `base64_encode` and `base64_decode` of the tracker

The coder of `adx_string.c` packs three bytes into four characters and pads the last group; the
decoder writes a byte for each character of a group that is not full, and so one byte too many.

* `base64DecodeGroup_full`, `base64DecodeGroup_one`, `base64DecodeGroup_two`: the groups.
* `exists_code`: a code is characters that decode to the text, and padding.
* `base64_roundTrips_iff`: the texts that come back.
-/

namespace AdxDsp

open CText

/-! ## Groups -/

/-- `base`: the characters for six bits, and the one for padding. -/
def base : Bytes := bytes "ABCDEFGHIJKLMNOPQRSTUVWXYZabcdefghijklmnopqrstuvwxyz0123456789+/="

/-- A turn of the loop of `base64_encode`, for one to three bytes. -/
def base64EncodeGroup (group : Bytes) : Bytes :=
  let temp := group.length
  let prepare := group.foldl (fun prepare c => prepare <<< 8 ||| c.toNat) 0 <<< ((3 - temp) * 8)
  (List.range 4).map fun i =>
    base.getD (if temp < i then 0x40 else prepare >>> ((3 - i) * 6) &&& 0x3F) 0

/-- `find_pos`; a character that is not in `base` has no place. -/
def findPos (ch : UInt8) : Option ℕ := base.idxOf? ch

/-- A turn of the loop of `base64_decode`, for one to four characters. -/
def base64DecodeGroup (group : Bytes) : Option Bytes := do
  let temp := group.length
  let pos ← group.mapM findPos
  let prepare := pos.foldl (fun prepare p => prepare <<< 6 ||| p) 0 <<< ((4 - temp) * 6)
  return (List.range (min 3 temp)).map fun i => UInt8.ofNat (prepare >>> ((2 - i) * 8) &&& 0xFF)

section

/-- The table is the standard alphabet, with the padding at its end. -/
theorem base_eq : base = Sextets.standardAlphabet ++ [61] := by decide +kernel

/-- The places of characters are read back. -/
theorem findPos_base : ∀ p < 65, findPos (base.getD p 0) = some p := by
  simp only [findPos, base_eq]
  decide +kernel

/-- The first 64 entries are neither the padding nor the end of a text. -/
theorem base_ne : ∀ p < 64, base.getD p 0 ≠ 61 ∧ base.getD p 0 ≠ 0 := by
  rw [base_eq]
  decide +kernel

/-- The sextet at place `i` of a packed group. -/
theorem sixBits (p i : ℕ) : p >>> (i * 6) &&& 0x3F = p / 2 ^ (i * 6) % 64 := by
  rw [Nat.shiftRight_eq_div_pow]
  exact Nat.and_two_pow_sub_one_eq_mod _ 6

/-- The byte at place `i` of a packed group. -/
theorem eightBits (p i : ℕ) : p >>> (i * 8) &&& 0xFF = p / 2 ^ (i * 8) % 256 := by
  rw [Nat.shiftRight_eq_div_pow]
  exact Nat.and_two_pow_sub_one_eq_mod _ 8

/-- The place in `base` of a character of 24 bits. -/
def sixAt (p i : ℕ) : ℕ := p / 2 ^ ((3 - i) * 6) % 64

/-- The bits that a group is packed into. -/
def packed (group : Bytes) : ℕ :=
  group.foldl (fun prepare c => prepare <<< 8 ||| c.toNat) 0 <<< ((3 - group.length) * 8)

/-- The characters of a group that are not padding. -/
def codeOf (group : Bytes) : Bytes :=
  (List.range (group.length + 1)).map fun i => base.getD (sixAt (packed group) i) 0

/-- A group has one sextet more than bytes. -/
theorem length_codeOf (group : Bytes) : (codeOf group).length = group.length + 1 := by
  rw [codeOf, List.length_map, List.length_range]

/-- The code of a group is its sextets and the padding. -/
theorem base64EncodeGroup_eq {group : Bytes} (hle : group.length ≤ 3) :
    base64EncodeGroup group = codeOf group ++ List.replicate (3 - group.length) 61 := by
  have hrange : List.range 4 = [0, 1, 2, 3] := rfl
  rw [base64EncodeGroup, codeOf, ← packed, hrange]
  simp only [sixBits]
  match group, hle with
  | [], _ => rfl
  | [_], _ => rfl
  | [_, _], _ => rfl
  | [_, _, _], _ => rfl

/-- One byte packed. -/
theorem packed_one (a : UInt8) : packed [a] = a.toNat * 2 ^ 16 := by
  simp [packed, Nat.shiftLeft_eq]

/-- Two bytes packed. -/
theorem packed_two (a b : UInt8) : packed [a, b] = (a.toNat * 2 ^ 8 + b.toNat) * 2 ^ 8 := by
  rw [← Nat.shiftLeft_eq _ 8]
  simp [packed, Sextets.shiftLeft_or b.toNat_lt]

/-- Three bytes packed. -/
theorem packed_three (a b c : UInt8) :
    packed [a, b, c] = (a.toNat * 2 ^ 8 + b.toNat) * 2 ^ 8 + c.toNat := by
  simp [packed, Sextets.shiftLeft_or b.toNat_lt, Sextets.shiftLeft_or c.toNat_lt]

/-- The bits of up to three bytes. -/
theorem packed_lt {group : Bytes} (hle : group.length ≤ 3) : packed group < 2 ^ 24 := by
  match group, hle with
  | [], _ => decide
  | [a], _ =>
    have ha := a.toNat_lt
    rw [packed_one]
    omega
  | [a, b], _ =>
    have ha := a.toNat_lt
    have hb := b.toNat_lt
    rw [packed_two]
    omega
  | [a, b, c], _ =>
    have ha := a.toNat_lt
    have hb := b.toNat_lt
    have hc := c.toNat_lt
    rw [packed_three]
    omega

/-- Looking up the letters yields the places in the table. -/
theorem mapM_findPos {pos : List ℕ} (h : ∀ p ∈ pos, p < 65) :
    (pos.map fun p => base.getD p 0).mapM findPos = some pos := by
  induction pos with
  | nil => rfl
  | cons p pos ih =>
    rw [List.map_cons, List.mapM_cons, findPos_base p (h p List.mem_cons_self),
      ih fun q hq => h q (List.mem_cons_of_mem _ hq)]
    rfl

/-- Places behind each other are digits to the base 64; by induction on their number. -/
theorem foldl_sixAt {p : ℕ} (hp : p < 2 ^ 24) :
    ∀ k ≤ 4, ((List.range k).map (sixAt p)).foldl (fun prepare q => prepare <<< 6 ||| q) 0 =
      p / 2 ^ ((4 - k) * 6) := by
  intro k hk
  induction k with
  | zero => exact (Nat.div_eq_of_lt hp).symm
  | succ k ih =>
    rw [List.range_succ, List.map_append, List.foldl_append, ih (by omega)]
    have hsix : sixAt p k < 2 ^ 6 := Nat.mod_lt _ (by decide)
    have hexp : (4 - k) * 6 = (3 - k) * 6 + 6 := by omega
    simp only [List.map_cons, List.map_nil, List.foldl_cons, List.foldl_nil]
    rw [Sextets.shiftLeft_or hsix, sixAt, hexp, pow_add, ← Nat.div_div_eq_div_mul,
      show 4 - (k + 1) = 3 - k by omega]
    exact Nat.div_add_mod' _ 64

/-- The characters of 24 bits, without the last ones if those are zero. -/
theorem base64DecodeGroup_sixAt {p k : ℕ} (hp : p < 2 ^ 24) (hk : k ≤ 3)
    (hlow : 2 ^ ((3 - k) * 6) ∣ p) :
    base64DecodeGroup ((List.range (k + 1)).map fun i => base.getD (sixAt p i) 0) =
      some ((List.range (min 3 (k + 1))).map fun i =>
        UInt8.ofNat (p / 2 ^ ((2 - i) * 8) % 256)) := by
  have hpos : ((List.range (k + 1)).map fun i => base.getD (sixAt p i) 0).mapM findPos =
      some ((List.range (k + 1)).map (sixAt p)) := by
    have hlt : ∀ q ∈ (List.range (k + 1)).map (sixAt p), q < 65 := by
      intro q hq
      obtain ⟨i, -, rfl⟩ := List.mem_map.mp hq
      exact (Nat.mod_lt _ (by decide)).trans (by decide)
    rw [← mapM_findPos hlt, List.map_map]
    rfl
  rw [base64DecodeGroup, hpos, Option.bind_eq_bind, Option.bind_some, foldl_sixAt hp _ (by omega),
    List.length_map, List.length_range, show 4 - (k + 1) = 3 - k by omega, Nat.shiftLeft_eq,
    Nat.div_mul_cancel hlow]
  simp only [eightBits]
  rfl

/-- What the characters of a group decode to: three bytes, or one more than were packed. -/
theorem base64DecodeGroup_codeOf {group : Bytes} (hle : group.length ≤ 3) :
    base64DecodeGroup (codeOf group) = some ((List.range (min 3 (group.length + 1))).map
      fun i => UInt8.ofNat (packed group / 2 ^ ((2 - i) * 8) % 256)) := by
  refine base64DecodeGroup_sixAt (packed_lt hle) hle ?_
  rw [packed, Nat.shiftLeft_eq]
  exact (pow_dvd_pow 2 (by omega)).mul_left _

/-- A byte is given by its code. -/
theorem ofNat_eq_of_eq {q : ℕ} {c : UInt8} (h : q = c.toNat) : UInt8.ofNat q = c := by
  rw [h, UInt8.ofNat_toNat]

/-- A group of one byte decodes with one zero byte behind it. -/
theorem base64DecodeGroup_one (a : UInt8) : base64DecodeGroup (codeOf [a]) = some [a, 0] := by
  have hrange : List.range (min 3 ([a].length + 1)) = [0, 1] := rfl
  have ha := a.toNat_lt
  rw [base64DecodeGroup_codeOf (by simp), packed_one]
  simp only [hrange, List.map_cons, List.map_nil, Nat.reduceSub, Nat.reduceMul]
  rw [ofNat_eq_of_eq (c := a) (by omega), ofNat_eq_of_eq (c := 0) (by rw [UInt8.toNat_zero]; omega)]

/-- A group of two bytes decodes with one zero byte behind it. -/
theorem base64DecodeGroup_two (a b : UInt8) :
    base64DecodeGroup (codeOf [a, b]) = some [a, b, 0] := by
  have hrange : List.range (min 3 ([a, b].length + 1)) = [0, 1, 2] := rfl
  have ha := a.toNat_lt
  have hb := b.toNat_lt
  rw [base64DecodeGroup_codeOf (by simp), packed_two]
  simp only [hrange, List.map_cons, List.map_nil, Nat.reduceSub, Nat.reduceMul]
  rw [ofNat_eq_of_eq (c := a) (by omega), ofNat_eq_of_eq (c := b) (by omega),
    ofNat_eq_of_eq (c := 0) (by rw [UInt8.toNat_zero]; omega)]

/-- A group of three bytes decodes to itself. -/
theorem base64DecodeGroup_three (a b c : UInt8) :
    base64DecodeGroup (codeOf [a, b, c]) = some [a, b, c] := by
  have hrange : List.range (min 3 ([a, b, c].length + 1)) = [0, 1, 2] := rfl
  have ha := a.toNat_lt
  have hb := b.toNat_lt
  have hc := c.toNat_lt
  rw [base64DecodeGroup_codeOf (by simp), packed_three]
  simp only [hrange, List.map_cons, List.map_nil, Nat.reduceSub, Nat.reduceMul]
  rw [ofNat_eq_of_eq (c := a) (by omega), ofNat_eq_of_eq (c := b) (by omega),
    ofNat_eq_of_eq (c := c) (by omega)]

end

/-! ## Texts -/

/-- The loop of `base64_encode`. -/
def base64EncodeLoop : Bytes → Bytes
  | [] => []
  | [a] => base64EncodeGroup [a]
  | [a, b] => base64EncodeGroup [a, b]
  | a :: b :: c :: src => base64EncodeGroup [a, b, c] ++ base64EncodeLoop src

/-- The loop of `base64_decode`. -/
def base64DecodeLoop : Bytes → Option Bytes
  | [] => some []
  | [a] => base64DecodeGroup [a]
  | [a, b] => base64DecodeGroup [a, b]
  | [a, b, c] => base64DecodeGroup [a, b, c]
  | a :: b :: c :: d :: src => do
    let group ← base64DecodeGroup [a, b, c, d]
    let rest ← base64DecodeLoop src
    return group ++ rest

/-- `base64_encode`: the text at `dest`, before the `NUL`; the length of `src` is an `int`. -/
def base64Encode (src : Bytes) : Bytes :=
  base64EncodeLoop ((cstr src).take (toInt32 (cstr src).length).toNat)

/-- `base64_decode`: the bytes that are written to `dest`, and how far behind `dest` the pointer is
that comes back.  A text of less than three characters is read before its start. -/
def base64Decode (src : Bytes) : Option (Bytes × ℕ) :=
  let srcLen := toInt32 (cstr src).length
  if srcLen < 3 then none
  else
    let equalCount := [1, 2, 3].countP fun k => (cstr src).getD (srcLen.toNat - k) 0 = 61
    (base64DecodeLoop ((cstr src).take (srcLen.toNat - equalCount))).map fun out =>
      (out ++ [0], out.length)

section

/-- The characters for padding behind a text. -/
def padding (n : ℕ) : ℕ := (3 - n % 3) % 3

/-- The byte that is written too much. -/
def surplus (n : ℕ) : Bytes := if n % 3 = 0 then [] else [0]

/-- A full group in front of a code. -/
theorem base64DecodeLoop_append {a b c : UInt8} {code out : Bytes}
    (h : base64DecodeLoop code = some out) :
    base64DecodeLoop (codeOf [a, b, c] ++ code) = some (a :: b :: c :: out) := by
  have hgroup := base64DecodeGroup_three a b c
  obtain ⟨w, x, y, z, hfour⟩ : ∃ w x y z, codeOf [a, b, c] = [w, x, y, z] := ⟨_, _, _, _, rfl⟩
  rw [hfour] at hgroup ⊢
  simp [base64DecodeLoop, hgroup, h]

/-- A letter of a code is neither the padding nor the end of a text. -/
theorem code_ne {group : Bytes} {ch : UInt8} (h : ch ∈ codeOf group) : ch ≠ 61 ∧ ch ≠ 0 := by
  obtain ⟨i, -, rfl⟩ := List.mem_map.mp h
  exact base_ne _ (Nat.mod_lt _ (by decide))

/-- A code is characters that decode to the text, and padding; by induction on its groups. -/
theorem exists_code (s : Bytes) : ∃ code : Bytes,
    base64EncodeLoop s = code ++ List.replicate (padding s.length) 61 ∧
      (∀ ch ∈ code, ch ≠ 61 ∧ ch ≠ 0) ∧
      code.length + padding s.length = (s.length + 2) / 3 * 4 ∧
      base64DecodeLoop code = some (s ++ surplus s.length) := by
  -- by groups of three bytes
  induction s using base64EncodeLoop.induct with
  | case1 => exact ⟨[], rfl, by simp, rfl, rfl⟩
  | case2 a =>
    refine ⟨codeOf [a], base64EncodeGroup_eq (by simp), fun ch h => code_ne h, ?_, ?_⟩
    · simp [length_codeOf, padding]
    · exact base64DecodeGroup_one a
  | case3 a b =>
    refine ⟨codeOf [a, b], base64EncodeGroup_eq (by simp), fun ch h => code_ne h, ?_, ?_⟩
    · simp [length_codeOf, padding]
    · exact base64DecodeGroup_two a b
  | case4 a b c src ih =>
    obtain ⟨code, hcode, hne, hlen, hdecode⟩ := ih
    have hmod : (a :: b :: c :: src).length % 3 = src.length % 3 := by
      simp only [List.length_cons]
      omega
    refine ⟨codeOf [a, b, c] ++ code, ?_, ?_, ?_, ?_⟩
    · rw [base64EncodeLoop, hcode, base64EncodeGroup_eq (by simp), padding, padding, hmod]
      simp
    · intro ch hch
      rcases List.mem_append.mp hch with hch | hch
      · exact code_ne hch
      · exact hne ch hch
    · rw [padding] at hlen ⊢
      rw [hmod, List.length_append, length_codeOf]
      simp only [List.length_cons, List.length_nil]
      omega
    · rw [base64DecodeLoop_append hdecode, surplus, surplus, hmod]
      rfl

end

/-! ## Round trips -/

/-- The decoder writes the text and a `NUL`, and returns the place of that. -/
def Base64RoundTrips (s : Bytes) : Prop := base64Decode (base64Encode s) = some (s ++ [0], s.length)

section

variable {s : Bytes}

/-- The length of the code, which has no zero byte. -/
theorem length_base64EncodeLoop (s : Bytes) :
    (cstr (base64EncodeLoop s)) = base64EncodeLoop s ∧
      (base64EncodeLoop s).length = (s.length + 2) / 3 * 4 := by
  obtain ⟨code, hcode, hch, hsum, -⟩ := exists_code s
  refine ⟨cstr_eq_self ?_, ?_⟩
  · rw [hcode, List.mem_append, List.mem_replicate]
    rintro (h | ⟨-, h⟩)
    · exact (hch 0 h).2 rfl
    · exact absurd h (by decide)
  · rw [hcode, List.length_append, List.length_replicate, hsum]

/-- A code of 2 GiB has a length that is negative as an `int`. -/
theorem base64Decode_code_of_long (hlo : 1610612733 < s.length) (hhi : s.length < 2 ^ 31) :
    base64Decode (base64EncodeLoop s) = none := by
  obtain ⟨hcstr, hlen⟩ := length_base64EncodeLoop s
  have hneg : toInt32 (base64EncodeLoop s).length < 3 := by
    rw [toInt32_eq, if_neg (by omega)]
    omega
  rw [base64Decode, hcstr, if_pos hneg]

/-- A code that is not too long is decoded to the text, and to one byte more after a group that is
not full. -/
theorem base64Decode_code (hne : s ≠ []) (hlen : s.length ≤ 1610612733) :
    base64Decode (base64EncodeLoop s) =
      some (s ++ surplus s.length ++ [0], (s ++ surplus s.length).length) := by
  obtain ⟨code, hcode, hch, hsum, hdecode⟩ := exists_code s
  have hpos := List.length_pos_iff.mpr hne
  have hpad : padding s.length ≤ 2 := by
    rw [padding]
    omega
  obtain ⟨hcstr, hlength⟩ := length_base64EncodeLoop s
  rw [← hsum] at hlength
  have hint : toInt32 (base64EncodeLoop s).length = (base64EncodeLoop s).length :=
    toInt32_of_bounds (by omega) (by omega)
  -- the characters at the end that are padding
  have hget : ∀ k, 0 < k → k ≤ 3 →
      ((base64EncodeLoop s).getD ((base64EncodeLoop s).length - k) 0 = 61 ↔
        k ≤ padding s.length) := by
    intro k hk hk3
    rw [hlength, hcode, List.getD_eq_getElem?_getD]
    constructor
    · intro h
      by_contra hlt
      rw [List.getElem?_append_left (by omega), List.getElem?_eq_getElem (by omega)] at h
      exact (hch _ (List.getElem_mem _)).1 h
    · intro hle
      rw [List.getElem?_append_right (by omega), List.getElem?_replicate, if_pos (by omega)]
      rfl
  have hcount : ([1, 2, 3].countP fun k =>
      (base64EncodeLoop s).getD ((base64EncodeLoop s).length - k) 0 = 61) = padding s.length := by
    have h1 := hget 1 (by decide) (by decide)
    have h2 := hget 2 (by decide) (by decide)
    have h3 := hget 3 (by decide) (by decide)
    obtain h | h | h : padding s.length = 0 ∨ padding s.length = 1 ∨ padding s.length = 2 := by
      omega
    all_goals
      simp only [List.countP_cons, List.countP_nil, h1, h2, h3, h]
      rfl
  rw [base64Decode, hcstr, hint, Int.toNat_natCast]
  simp only [hcount]
  rw [if_neg (by omega), hlength, Nat.add_sub_cancel, hcode, List.take_left, hdecode]
  rfl

/-- Nothing comes back of a text of another length: the decoder writes a byte too much, or the
number of the characters is no `int`. -/
theorem base64_roundTrips_iff (h : 0 ∉ s) (hne : s ≠ []) :
    Base64RoundTrips s ↔ s.length % 3 = 0 ∧ s.length < 1610612736 := by
  have hpos := List.length_pos_iff.mpr hne
  rw [Base64RoundTrips, base64Encode, cstr_eq_self h]
  constructor
  · intro hback
    have hle := toNat_toInt32_le s.length
    -- the length is an `int`, so that long texts are cut
    have hmax : (toInt32 s.length).toNat < 2 ^ 31 := by
      rw [toInt32_eq]
      split_ifs <;> omega
    have htake : (s.take (toInt32 s.length).toNat).length = (toInt32 s.length).toNat := by
      rw [List.length_take, Nat.min_eq_left hle]
    rcases Nat.lt_or_ge 1610612733 (toInt32 s.length).toNat with hlong | hshort
    · rw [base64Decode_code_of_long (by omega) (by omega)] at hback
      exact absurd hback (Option.some_ne_none _).symm
    · -- at most one byte more than was encoded comes back
      rcases eq_or_ne (s.take (toInt32 s.length).toNat) [] with hnil | hpart
      · rw [hnil] at hback
        exact absurd hback (Option.some_ne_none _).symm
      · rw [base64Decode_code hpart (by omega)] at hback
        have hlen := congrArg Prod.snd (Option.some_inj.mp hback)
        simp only [List.length_append, htake, surplus] at hlen
        -- only a length that is not cut can be the right one
        have hint : toInt32 (s.length : ℤ) = s.length := by
          rw [toInt32_eq] at hlen hle ⊢
          split_ifs at hlen hle ⊢ <;> simp at hlen <;> omega
        rw [hint, Int.toNat_natCast] at hlen hshort
        split_ifs at hlen with hmod
        · exact ⟨hmod, by omega⟩
        · simp at hlen
  · rintro ⟨hmod, hlt⟩
    have hint : toInt32 (s.length : ℤ) = s.length := toInt32_of_bounds (by omega) (by omega)
    rw [hint, Int.toNat_natCast, List.take_length, base64Decode_code hne (by omega), surplus,
      if_pos hmod, List.append_nil]

/-- Three bytes above 127. -/
theorem base64_roundTrips_three : Base64RoundTrips [200, 255, 128] :=
  (base64_roundTrips_iff (by decide) (by decide)).mpr (by decide)

/-- A text of one byte comes back with another one behind it. -/
theorem not_base64_roundTrips_one : ¬∀ s : Bytes, 0 ∉ s → s ≠ [] → Base64RoundTrips s := by
  intro h
  have hback : Base64RoundTrips [97] := h [97] (by decide) (by decide)
  have hencode : base64Encode [97] = base64EncodeLoop [97] := rfl
  have hdecode : base64Decode (base64EncodeLoop [97]) = some ([97] ++ surplus 1 ++ [0], 2) :=
    base64Decode_code (by decide) (by decide)
  rw [Base64RoundTrips, hencode, hdecode] at hback
  exact absurd hback (by decide)

end

end AdxDsp
