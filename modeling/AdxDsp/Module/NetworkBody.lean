import AdxDsp.Lib.Buffers
import AdxDsp.Lib.Replace

/-!
# The body of a request

`adx_network_get_post_buffer` copies the buffers of a request into one block, and
`adx_network_upload_file` finds the file in a body with a boundary (`adx_network.c`).  Both write
before they check.

* **The functions**: `adxNetworkGetPostBuffer`, `adxNetworkUploadFile`; `none` is an access outside
  of the memory that they have.
* `PostRight`, `UploadRight`: what they should do.
* `body_right_iff`: which requests they do it for.
* `long_buffer_and_empty_body`: some that they do not.
-/

namespace AdxDsp

open CText

namespace NetworkBody

open Buffers

/-! ## The buffers of a request -/

/-- `ngx_palloc`: a block with what was in the memory before; `malloc` refuses more than half of the
address space. -/
def ngxPalloc (fresh : ℕ → UInt8) (size : ℕ) : Option Bytes :=
  if size < 2 ^ 63 then some ((List.range size).map fresh) else none

/-- The loop over the chain; `some none` is the return behind a buffer that was too long. -/
def copyChain (contentLength : ℕ) : List Bytes → ℕ → Bytes → Option (Option (ℕ × Bytes))
  | [], size, buffer => some (some (size, buffer))
  | buf :: bufs, size, buffer =>
    (writeAt buffer size buf).bind fun buffer =>
      if contentLength < size + buf.length then some none
      else copyChain contentLength bufs (size + buf.length) buffer

/-- The `int` of the header as a `size_t`. -/
def contentLength (text : Bytes) : ℕ := (atoi text % 2 ^ 64).toNat

/-- `adx_network_get_post_buffer`; the header and the value of the header may be `NULL`, and the
null string is empty. -/
def adxNetworkGetPostBuffer (fresh : ℕ → UInt8) (header : Option (Option Bytes))
    (bufs : List Bytes) : Option Bytes :=
  match header with
  | some (some text) =>
    if text = [] ∨ contentLength text = 0 then some []
    else
      match ngxPalloc fresh ((contentLength text + 1) % 2 ^ 64) with
      | none => some []
      | some buffer =>
        (copyChain (contentLength text) bufs 0 buffer).bind fun
          | none => some []
          | some (size, buffer) =>
            if contentLength text ≠ size then some []
            else (writeAt buffer size [0]).map fun buffer => buffer.take size
  | _ => some []

/-! ## The file in a body -/

/-- The end of a line. -/
def crlf : Bytes := [13, 10]

/-- `strstr` from a place of a buffer. -/
def strstr (buffer : Bytes) (start : ℕ) (pattern : Bytes) : Option (Option ℕ) :=
  match find pattern (cstr (buffer.drop start)) with
  | some n => some (some (start + n))
  | none => if 0 ∈ buffer.drop start then some none else none

/-- The text before the pattern gets a NUL at its end; `none` inside if there is no pattern. -/
def cutAt (buffer : Bytes) (start : ℕ) (pattern : Bytes) : Option (Option (ℕ × Bytes)) :=
  (strstr buffer start pattern).bind fun
    | none => some none
    | some place => (writeAt buffer place [0]).map fun buffer => some (place, buffer)

/-- `strncmp(s, key, n) == 0`, with what can be read from both places. -/
def strncmpEq : Bytes → Bytes → ℕ → Option Bool
  | _, _, 0 => some true
  | c :: s, d :: key, n + 1 =>
    if c ≠ d then some false else if c = 0 then some true else strncmpEq s key n
  | _, _, _ + 1 => none

/-- The loop that looks for the key; 0 if it is not found. -/
def dataEnd (key : Bytes) (keySize : ℕ) : Bytes → ℕ → Option ℕ
  | [], _ => some 0
  | c :: data, i =>
    (strncmpEq (c :: data) key keySize).bind fun same =>
      if same then some i else dataEnd key keySize data (i + 1)

/-- What is done when the start of the data has been found. -/
def findFile (fresh : ℕ → UInt8) (buffer : Bytes) (data : ℕ) : Option Bytes := do
  let text := crlf ++ cstr buffer
  let key ← writeAt ((List.range 128).map fresh) 0 (text ++ [0])
  if text.length < 32 ∨ 120 < text.length then return []
  let size ← dataEnd key text.length (buffer.drop data) 0
  if size = 0 then return []
  return (buffer.drop data).take size

/-- The last byte becomes a NUL; the last place of an empty body is before its start. -/
def terminate (src : Bytes) : Option Bytes :=
  if src = [] then none else writeAt src (src.length - 1) [0]

/-- `adx_network_upload_file` -/
def adxNetworkUploadFile (fresh : ℕ → UInt8) (src : Bytes) : Option Bytes := do
  let buffer ← terminate src
  let some (disposition, buffer) ← cutAt buffer 0 crlf | return []
  let some (type, buffer) ← cutAt buffer (disposition + 2) crlf | return []
  let some (data, buffer) ← cutAt buffer (type + 2) (crlf ++ crlf) | return []
  findFile fresh buffer (data + 4)

/-! ## What they should do -/

/-- The length that the header announces: the number that its text starts with. -/
def announced : Option (Option Bytes) → ℤ
  | some (some text) => numeralValue text
  | _ => 0

/-- The body, if it has a positive length. -/
def bodyOf (length : ℤ) (bufs : List Bytes) : Bytes :=
  if 0 < length ∧ bufs.flatten.length = length then bufs.flatten else []

/-- All writes are inside the block, and the body is returned if it has the positive length that is
announced, otherwise nothing. -/
def PostRight (header : Option (Option Bytes)) (bufs : List Bytes) : Prop :=
  ∀ fresh, adxNetworkGetPostBuffer fresh header bufs = some (bodyOf (announced header) bufs)

/-- A byte of a line. -/
def IsLineByte (c : UInt8) : Prop := c ≠ 13 ∧ c ≠ 10 ∧ c ≠ 0

/-- A body with a file: its boundary, two more lines, an empty one, the data, the boundary. -/
structure HoldsFile (src data : Bytes) : Prop where
  form : ∃ boundary disposition type rest,
    src = boundary ++ crlf ++ disposition ++ crlf ++ type ++ crlf ++ crlf ++ data ++ crlf ++
      boundary ++ rest ∧
    (∀ c ∈ boundary ++ disposition ++ type, IsLineByte c) ∧ 30 ≤ boundary.length ∧
    boundary.length ≤ 118 ∧ ¬ crlf ++ boundary <:+: data ∧ rest ≠ []
  data : data ≠ []

/-- All accesses are inside the body and the key, and the file of a body is returned. -/
def UploadRight (src : Bytes) : Prop :=
  ∀ fresh, ∃ result, adxNetworkUploadFile fresh src = some result ∧
    ∀ data, HoldsFile src data → result = data

/-! ## Where they do it -/

/-- The `int` that `atoi` makes of the header: the low 32 bits of the number, which stops at the ends
of the range of `long`. -/
def readLength : Option (Option Bytes) → ℤ
  | some (some text) => atoi text
  | _ => 0

/-- A buffer that starts within a length ends at most one byte behind it. -/
def Fits (length : ℤ) (bufs : List Bytes) : Prop :=
  ∀ before buf after, bufs = before ++ buf :: after → before.flatten.length ≤ length →
    (before.flatten.length + buf.length : ℤ) ≤ length + 1

/-- The buffers fit in the length that is read, where a block of it can be had; with -1 the block has
no byte.  If another length is announced than the one that is read, the body has neither. -/
structure BuffersFit (header : Option (Option Bytes)) (bufs : List Bytes) : Prop where
  positive : 0 < readLength header → Fits (readLength header) bufs
  minusOne : readLength header = -1 → bufs.flatten = []
  sameLength : announced header ≠ readLength header →
    ∀ length : ℤ, 0 < length → length = announced header ∨ length = readLength header →
      bufs.flatten.length ≠ length

/-- The text of a body: what is before the first NUL, without the last byte. -/
def bodyText (src : Bytes) : Bytes := cstr src.dropLast

/-- The first line does not fit in the key, and all line ends are found. -/
def LongLine (src : Bytes) : Prop :=
  ∃ line disposition type rest,
    bodyText src = line ++ crlf ++ disposition ++ crlf ++ type ++ crlf ++ crlf ++ rest ∧
    ¬ crlf <:+: line ∧ 125 < line.length

/-! ## The buffers -/

section

variable {N size : ℕ} {bufs : List Bytes} {front rest buffer : Bytes}

/-- Buffers that fit are copied one behind the other. -/
theorem copyChain_of_fit (hfront : front.length = size) (hsize : size ≤ N)
    (hfit : ∀ before buf after, bufs = before ++ buf :: after →
      size + before.flatten.length ≤ N → before.flatten.length + buf.length ≤ rest.length) :
    copyChain N bufs size (front ++ rest) =
      some (if size + bufs.flatten.length ≤ N then some (size + bufs.flatten.length,
        front ++ bufs.flatten ++ rest.drop bufs.flatten.length) else none) := by
  -- by induction over the buffers, with what is already written in front
  induction bufs generalizing size front rest with
  | nil =>
    rw [List.flatten_nil, List.append_nil, List.length_nil, Nat.add_zero, if_pos hsize]
    rfl
  | cons buf bufs ih =>
    have hbuf : buf.length ≤ rest.length := by
      have := hfit [] buf bufs rfl (by simpa using hsize)
      simpa using this
    rw [copyChain, writeAt_append hfront hbuf, Option.bind_some, List.flatten_cons,
      List.length_append]
    by_cases hlong : N < size + buf.length
    · rw [if_pos hlong, if_neg (by omega)]
    · rw [if_neg hlong, ih (by rw [List.length_append, hfront]) (by omega) ?_, List.drop_drop]
      · have hadd : size + buf.length + bufs.flatten.length =
            size + (buf.length + bufs.flatten.length) := by omega
        rw [hadd, List.append_assoc front]
      -- the rest fits, as the whole does
      · rintro before buf' after rfl hbefore
        have := hfit (buf :: before) buf' after rfl (by
          rw [List.flatten_cons, List.length_append]
          omega)
        rw [List.flatten_cons, List.length_append] at this
        rw [List.length_drop]
        omega

/-- Buffers that are copied fit. -/
theorem fit_of_copyChain (h : (copyChain N bufs size buffer).isSome) {before after : List Bytes}
    {buf : Bytes} (hbufs : bufs = before ++ buf :: after)
    (hbefore : size + before.flatten.length ≤ N) :
    size + before.flatten.length + buf.length ≤ buffer.length := by
  induction before generalizing bufs size buffer with
  | nil =>
    subst hbufs
    obtain ⟨result, hwrite⟩ := Option.isSome_iff_exists.mp h
    obtain ⟨buffer', hbuffer', -⟩ := Option.bind_eq_some_iff.mp hwrite
    simpa using le_of_writeAt hbuffer'
  | cons first before ih =>
    subst hbufs
    obtain ⟨result, hwrite⟩ := Option.isSome_iff_exists.mp h
    obtain ⟨buffer', hbuffer', hrest⟩ := Option.bind_eq_some_iff.mp hwrite
    rw [List.flatten_cons, List.length_append] at hbefore ⊢
    rw [if_neg (by omega)] at hrest
    have := ih (Option.isSome_iff_exists.mpr ⟨result, hrest⟩) rfl (by omega)
    rw [length_of_writeAt hbuffer'] at this
    omega

/-- What is done with a block. -/
def fillBlock (N : ℕ) (bufs : List Bytes) (block : Bytes) : Option Bytes :=
  (copyChain N bufs 0 block).bind fun
    | none => some []
    | some (size, buffer) =>
      if N ≠ size then some [] else (writeAt buffer size [0]).map fun buffer => buffer.take size

/-- In a block with one more byte the buffers are put together. -/
theorem fillBlock_of_fit {block : Bytes} (hblock : block.length = N + 1)
    (hfit : ∀ before buf after, bufs = before ++ buf :: after → before.flatten.length ≤ N →
      before.flatten.length + buf.length ≤ N + 1) :
    fillBlock N bufs block = some (if bufs.flatten.length = N then bufs.flatten else []) := by
  have hcopy := @copyChain_of_fit N 0 bufs [] block rfl (Nat.zero_le N)
    fun before buf after hbufs hbefore => by
      rw [hblock]
      exact hfit before buf after hbufs (by omega)
  rw [List.nil_append, List.nil_append, Nat.zero_add] at hcopy
  rw [fillBlock, hcopy, Option.bind_some]
  by_cases hlong : bufs.flatten.length ≤ N
  · rw [if_pos hlong]
    dsimp only
    by_cases hsame : bufs.flatten.length = N
    · have hterminator : ([0] : Bytes).length ≤ (block.drop bufs.flatten.length).length := by
        rw [List.length_drop, List.length_singleton]
        omega
      rw [if_pos hsame, if_neg (not_not.mpr hsame.symm), writeAt_append rfl hterminator,
        Option.map_some, List.append_assoc, List.take_left]
    · rw [if_neg hsame, if_pos (Ne.symm hsame)]
  · rw [if_neg hlong, if_neg (by omega)]

/-- No body has a length that is not positive. -/
theorem bodyOf_of_nonpos {length : ℤ} (h : length ≤ 0) : bodyOf length bufs = [] :=
  if_neg fun hpos => absurd hpos.1 (not_lt.mpr h)

/-- A header that is read as 0 gets nothing. -/
theorem adxNetworkGetPostBuffer_of_zero {header : Option (Option Bytes)} (fresh : ℕ → UInt8)
    (h : readLength header = 0) : adxNetworkGetPostBuffer fresh header bufs = some [] := by
  match header, h with
  | none, _ => rfl
  | some none, _ => rfl
  | some (some text), h =>
    have hzero : contentLength text = 0 := by
      rw [contentLength, show atoi text = 0 from h]
      rfl
    exact if_pos (.inr hzero)

/-- Another length than 0 gets a block, if there can be one. -/
theorem adxNetworkGetPostBuffer_of_ne_zero {text : Bytes} (fresh : ℕ → UInt8)
    (h : atoi text ≠ 0) : adxNetworkGetPostBuffer fresh (some (some text)) bufs =
      match ngxPalloc fresh ((contentLength text + 1) % 2 ^ 64) with
      | none => some []
      | some buffer => fillBlock (contentLength text) bufs buffer := by
  have hlen : contentLength text ≠ 0 := by
    have := atoi_bounds text
    rw [contentLength]
    omega
  have htext : text ≠ [] := by
    rintro rfl
    exact h rfl
  exact if_neg (not_or.mpr ⟨htext, hlen⟩)

/-- A block has the size that was asked for. -/
theorem length_ngxPalloc {fresh : ℕ → UInt8} {block : Bytes}
    (h : ngxPalloc fresh size = some block) : block.length = size := by
  rw [ngxPalloc] at h
  split_ifs at h
  rw [← Option.some.inj h, List.length_map, List.length_range]

/-- A positive length gets a block with one more byte. -/
theorem exists_block {text : Bytes} {N : ℕ} (h : atoi text = N) (hpos : 0 < N)
    (fresh : ℕ → UInt8) : ∃ block : Bytes, block.length = N + 1 ∧
      adxNetworkGetPostBuffer fresh (some (some text)) bufs = fillBlock N bufs block := by
  obtain ⟨-, hhigh⟩ := atoi_bounds text
  have hlength : contentLength text = N := by
    rw [contentLength, h]
    omega
  have hsize : (N + 1) % 2 ^ 64 = N + 1 := Nat.mod_eq_of_lt (by omega)
  have hpalloc : ngxPalloc fresh (N + 1) = some ((List.range (N + 1)).map fresh) :=
    if_pos (by omega)
  refine ⟨_, length_ngxPalloc hpalloc, ?_⟩
  rw [adxNetworkGetPostBuffer_of_ne_zero fresh (by omega), hlength, hsize, hpalloc]

/-- With a positive length the body is received if its buffers fit. -/
theorem post_of_fits {text : Bytes} (fresh : ℕ → UInt8) (h : 0 < atoi text)
    (hfit : Fits (atoi text) bufs) :
    adxNetworkGetPostBuffer fresh (some (some text)) bufs = some (bodyOf (atoi text) bufs) := by
  obtain ⟨N, hN⟩ := Int.eq_ofNat_of_zero_le h.le
  obtain ⟨block, hlen, heq⟩ := @exists_block bufs text N hN (by omega) fresh
  rw [heq, fillBlock_of_fit hlen fun before buf after hbufs hbefore => by
    have := hfit before buf after hbufs (by omega)
    omega]
  refine congrArg some (if_congr ⟨fun heq => ⟨h, by rw [heq, hN]⟩, fun h => ?_⟩ rfl rfl)
  exact Int.ofNat.inj (h.2.trans hN)

/-- Buffers that do not fit are written behind the block. -/
theorem fits_of_post {text : Bytes} {fresh : ℕ → UInt8} {result : Bytes} (h : 0 < atoi text)
    (hpost : adxNetworkGetPostBuffer fresh (some (some text)) bufs = some result) :
    Fits (atoi text) bufs := by
  intro before buf after hbufs hbefore
  obtain ⟨N, hN⟩ := Int.eq_ofNat_of_zero_le h.le
  obtain ⟨block, hlen, heq⟩ := @exists_block bufs text N hN (by omega) fresh
  have hcopied : (copyChain N bufs 0 block).isSome := by
    have hsome := heq.symm.trans hpost
    rw [fillBlock] at hsome
    obtain ⟨copied, hcopy, -⟩ := Option.bind_eq_some_iff.mp hsome
    exact Option.isSome_iff_exists.mpr ⟨copied, hcopy⟩
  have hend := fit_of_copyChain hcopied hbufs (by omega)
  omega

/-- A block without a byte takes nothing. -/
theorem flatten_of_copyChain (h : (copyChain N bufs 0 []).isSome) : bufs.flatten = [] := by
  induction bufs with
  | nil => rfl
  | cons buf bufs ih =>
    obtain ⟨result, hwrite⟩ := Option.isSome_iff_exists.mp h
    obtain ⟨buffer, hbuffer, hrest⟩ := Option.bind_eq_some_iff.mp hwrite
    have hlen := le_of_writeAt hbuffer
    obtain rfl : buf = [] := List.length_eq_zero_iff.mp (by simpa using hlen)
    obtain rfl := List.length_eq_zero_iff.mp (length_of_writeAt hbuffer)
    rw [List.length_nil, if_neg (Nat.not_lt_zero N)] at hrest
    exact ih (Option.isSome_iff_exists.mpr ⟨result, hrest⟩)

/-- With -1 there is a block without a byte. -/
theorem post_minusOne {text : Bytes} (fresh : ℕ → UInt8) (h : atoi text = -1) :
    adxNetworkGetPostBuffer fresh (some (some text)) bufs = fillBlock (2 ^ 64 - 1) bufs [] := by
  have hlength : contentLength text = 2 ^ 64 - 1 := by
    rw [contentLength, h]
    rfl
  rw [adxNetworkGetPostBuffer_of_ne_zero fresh (by omega), hlength]
  rfl

/-- Buffers without a byte fit in it, and nothing is returned. -/
theorem fillBlock_minusOne (hnil : bufs.flatten = []) :
    fillBlock (2 ^ 64 - 1) bufs [] = some [] := by
  have hempty := List.flatten_eq_nil_iff.mp hnil
  have hcopy := @copyChain_of_fit (2 ^ 64 - 1) 0 bufs [] [] rfl (Nat.zero_le _)
    fun before buf after hbufs _ => by
      subst hbufs
      have hbefore : before.flatten = [] := List.flatten_eq_nil_iff.mpr fun buf' hbuf' =>
        hempty buf' (List.mem_append_left _ hbuf')
      rw [hbefore, hempty buf (List.mem_append_right _ List.mem_cons_self)]
      exact Nat.le_refl 0
  rw [hnil] at hcopy
  rw [fillBlock, show ([] : Bytes) = [] ++ [] from rfl, hcopy]
  rfl

/-- Other negative lengths get no block: none can be that large. -/
theorem post_of_negative {text : Bytes} (fresh : ℕ → UInt8) (h : atoi text < -1) :
    adxNetworkGetPostBuffer fresh (some (some text)) bufs = some [] := by
  obtain ⟨hlow, -⟩ := atoi_bounds text
  have hpalloc : ngxPalloc fresh ((contentLength text + 1) % 2 ^ 64) = none := by
    rw [contentLength]
    exact if_neg (by omega)
  rw [adxNetworkGetPostBuffer_of_ne_zero fresh (by omega), hpalloc]

/-- The code writes inside of its block exactly if the buffers fit, and then it returns the body if
it has the length that is read. -/
theorem post_iff {header : Option (Option Bytes)} {fresh : ℕ → UInt8} {result : Bytes} :
    adxNetworkGetPostBuffer fresh header bufs = some result ↔
      ((0 < readLength header → Fits (readLength header) bufs) ∧
        (readLength header = -1 → bufs.flatten = [])) ∧
      bodyOf (readLength header) bufs = result := by
  by_cases hzero : readLength header = 0
  · rw [adxNetworkGetPostBuffer_of_zero fresh hzero, bodyOf_of_nonpos hzero.le, Option.some_inj]
    exact (and_iff_right ⟨fun h => by omega, fun h => by omega⟩).symm
  match header, hzero with
  | none, hzero => exact absurd rfl hzero
  | some none, hzero => exact absurd rfl hzero
  | some (some text), hzero =>
    rw [readLength] at hzero ⊢
    -- 0 is gone; what is negative is too long for `malloc`, but for -1
    obtain hneg | hneg | hpos : atoi text < -1 ∨ atoi text = -1 ∨ 0 < atoi text := by omega
    · rw [post_of_negative fresh hneg, bodyOf_of_nonpos (by omega), Option.some_inj]
      exact (and_iff_right ⟨fun h => by omega, fun h => by omega⟩).symm
    · rw [post_minusOne fresh hneg, bodyOf_of_nonpos (by omega)]
      constructor
      · intro hpost
        have hnil : bufs.flatten = [] := by
          rw [fillBlock] at hpost
          obtain ⟨copied, hcopy, -⟩ := Option.bind_eq_some_iff.mp hpost
          exact flatten_of_copyChain (Option.isSome_iff_exists.mpr ⟨copied, hcopy⟩)
        rw [fillBlock_minusOne hnil] at hpost
        exact ⟨⟨fun h => by omega, fun _ => hnil⟩, Option.some.inj hpost⟩
      · rintro ⟨⟨-, hnil⟩, rfl⟩
        exact fillBlock_minusOne (hnil hneg)
    · constructor
      · intro hpost
        have hfit := fits_of_post hpos hpost
        rw [post_of_fits fresh hpos hfit] at hpost
        exact ⟨⟨fun _ => hfit, fun h => by omega⟩, Option.some.inj hpost⟩
      · rintro ⟨⟨hfit, -⟩, rfl⟩
        exact post_of_fits fresh hpos (hfit hpos)

/-- Two lengths give the same body exactly if they are the same, or the body has neither. -/
theorem bodyOf_eq_iff {n m : ℤ} : bodyOf n bufs = bodyOf m bufs ↔
    (m ≠ n → ∀ length : ℤ, 0 < length → length = m ∨ length = n →
      bufs.flatten.length ≠ length) := by
  have hne : 0 < (bufs.flatten.length : ℤ) → bufs.flatten ≠ [] := fun hpos hnil => by
    rw [hnil] at hpos
    exact absurd hpos (lt_irrefl _)
  constructor
  · rintro hsame hdiffer length hpos (rfl | rfl) hlength
    · rw [bodyOf, if_neg fun h => hdiffer (hlength.symm.trans h.2), bodyOf,
        if_pos ⟨hpos, hlength⟩] at hsame
      exact hne (by omega) hsame.symm
    · rw [bodyOf, if_pos ⟨hpos, hlength⟩, bodyOf,
        if_neg fun h => hdiffer (h.2.symm.trans hlength)] at hsame
      exact hne (by omega) hsame
  · intro h
    by_cases hsame : m = n
    · rw [hsame]
    · rw [bodyOf, if_neg fun hn => h hsame n hn.1 (.inr rfl) hn.2, bodyOf,
        if_neg fun hm => h hsame m hm.1 (.inl rfl) hm.2]

/-- A body is received exactly if its buffers fit. -/
theorem postRight_iff {header : Option (Option Bytes)} :
    PostRight header bufs ↔ BuffersFit header bufs := by
  rw [PostRight]
  simp only [post_iff, forall_const, bodyOf_eq_iff]
  exact ⟨fun h => ⟨h.1.1, h.1.2, h.2⟩, fun h => ⟨⟨h.positive, h.minusOne⟩, h.sameLength⟩⟩

end

/-! ## Searching a buffer -/

section

variable {pattern text front rest data key buffer pre : Bytes} {start n : ℕ} {c : UInt8}

/-- A search behind other bytes reads up to the NUL. -/
theorem strstr_append (hstart : front.length = start) (hzero : 0 ∈ buffer) :
    strstr (front ++ buffer) start pattern =
      some ((find pattern (cstr buffer)).map (start + ·)) := by
  rw [strstr, ← hstart, List.drop_left]
  cases find pattern (cstr buffer) with
  | none => exact if_pos hzero
  | some n => rfl

/-- One byte is written over. -/
theorem writeAt_singleton (hstart : front.length = start) (b : UInt8) :
    writeAt (front ++ c :: rest) start [b] = some (front ++ b :: rest) := by
  rw [writeAt_append hstart (by simp)]
  simp

/-- A text that starts with a byte is found behind a text without it. -/
theorem find_append_of_notMem (h : c ∉ pre) (pattern rest : Bytes) :
    find (c :: pattern) (pre ++ (c :: pattern) ++ rest) = some pre.length := by
  induction pre with
  | nil =>
    rw [List.nil_append, List.cons_append, find, if_pos]
    · rfl
    · exact List.prefix_append (c :: pattern) rest
  | cons b pre ih =>
    obtain ⟨hb, hpre⟩ := not_or.mp (mt List.mem_cons.mpr h)
    have hstart : ¬ c :: pattern <+: b :: (pre ++ c :: pattern ++ rest) := fun hprefix =>
      hb (List.cons_prefix_cons.mp hprefix).1
    rw [List.cons_append, List.cons_append, find, if_neg hstart, ih hpre]
    rfl

/-- A text whose first byte does not come again is found behind a text that does not have it. -/
theorem find_append_of_not_occurs (hfirst : c ∉ pattern) (h : ¬ c :: pattern <:+: pre)
    (rest : Bytes) : find (c :: pattern) (pre ++ (c :: pattern) ++ rest) = some pre.length := by
  induction pre with
  | nil => exact find_append_of_notMem List.not_mem_nil pattern rest
  | cons b pre ih =>
    have hpre : ¬ c :: pattern <:+: pre := fun hinfix => h (List.infix_cons_iff.mpr (.inr hinfix))
    have hstart : ¬ c :: pattern <+: b :: (pre ++ c :: pattern ++ rest) := by
      intro hprefix
      have hthis : b :: pre <+: b :: (pre ++ c :: pattern ++ rest) := by
        rw [List.append_assoc, ← List.cons_append]
        exact List.prefix_append _ _
      obtain hle | hle := Nat.le_total (c :: pattern).length (b :: pre).length
      · exact h (List.prefix_of_prefix_length_le hprefix hthis hle).isInfix
      · -- the first byte of the second occurrence would be inside the first one
        obtain ⟨tail, htail⟩ := List.prefix_of_prefix_length_le hthis hprefix hle
        cases tail with
        | nil =>
          rw [List.append_nil] at htail
          exact h (htail ▸ List.infix_rfl)
        | cons t tail =>
          rw [← htail, List.cons_append, List.append_assoc, List.cons_prefix_cons,
            List.prefix_append_right_inj, List.cons_append, List.cons_prefix_cons] at hprefix
          obtain ⟨hb, hpattern⟩ := List.cons_eq_cons.mp htail
          rw [← hpattern, hprefix.2.1, hb] at hfirst
          exact hfirst (List.mem_append_right pre List.mem_cons_self)
    rw [List.cons_append, List.cons_append, find, if_neg hstart, ih hpre]
    rfl

/-- With a NUL in the text, `strncmp` looks for the key at its start. -/
theorem strncmpEq_eq (hzero : 0 ∈ data) (htext : 0 ∉ text) (rest : Bytes) :
    strncmpEq data (text ++ rest) text.length = some (decide (text <+: data)) := by
  induction text generalizing data with
  | nil =>
    rw [List.length_nil, strncmpEq]
    simp
  | cons d text ih =>
    obtain ⟨hd, htail⟩ := not_or.mp (mt List.mem_cons.mpr htext)
    cases data with
    | nil => exact absurd hzero List.not_mem_nil
    | cons c data =>
      rw [List.cons_append, List.length_cons, strncmpEq]
      by_cases hsame : c = d
      · subst hsame
        have hdata : 0 ∈ data := (List.mem_cons.mp hzero).resolve_left hd
        rw [if_neg (not_not.mpr rfl), if_neg (Ne.symm hd), ih hdata htail]
        simp
      · rw [if_pos hsame, decide_eq_false]
        exact fun hprefix => hsame (List.cons_prefix_cons.mp hprefix).1.symm

/-- In data that end with a NUL the loop finds the first occurrence of the key. -/
theorem dataEnd_eq (htext : 0 ∉ text) (hne : text ≠ []) (rest : Bytes) (i : ℕ) :
    dataEnd (text ++ rest) text.length (data ++ [0]) i =
      some ((find text (data ++ [0])).elim 0 (i + ·)) := by
  have hnil : find text [] = none := if_neg hne
  have hstep : ∀ c tail i, 0 ∈ c :: tail → dataEnd (text ++ rest) text.length tail (i + 1) =
      some ((find text tail).elim 0 (i + 1 + ·)) →
        dataEnd (text ++ rest) text.length (c :: tail) i =
          some ((find text (c :: tail)).elim 0 (i + ·)) := by
    intro c tail i hzero htail
    rw [dataEnd, strncmpEq_eq hzero htext, Option.bind_some, find]
    by_cases hprefix : text <+: c :: tail
    · rw [if_pos (decide_eq_true hprefix), if_pos hprefix]
      rfl
    · rw [if_neg (by simpa using hprefix), if_neg hprefix, htail]
      cases find text tail with
      | none => rfl
      | some n => exact congrArg some (by simp; omega)
  induction data generalizing i with
  | nil =>
    refine hstep 0 [] i List.mem_cons_self ?_
    rw [hnil]
    rfl
  | cons c data ih => exact hstep c (data ++ [0]) i (by simp) (ih (i + 1))

end

/-! ## The lines of a body -/

section

variable {src line disposition type data buffer pattern : Bytes} {fresh : ℕ → UInt8} {n : ℕ}

/-- What is returned for a first line and what follows the empty line, if the line fits. -/
def fileAt (line data : Bytes) : Bytes :=
  if (crlf ++ line).length < 32 ∨ 120 < (crlf ++ line).length then []
  else data.take ((find (crlf ++ line) data).getD 0)

/-- The key is printed behind the search. -/
theorem findFile_eq {front : Bytes} (hline : cstr (front ++ (data ++ [0])) = line) :
    findFile fresh (front ++ (data ++ [0])) front.length =
      if line.length ≤ 125 then some (fileAt line (data ++ [0])) else none := by
  have hzero : 0 ∉ line := by
    rw [← hline]
    exact zero_notMem_cstr _
  have htext : 0 ∉ crlf ++ line := by
    rw [List.mem_append, not_or]
    exact ⟨by decide, hzero⟩
  rw [findFile, hline, List.drop_left]
  -- `sprintf` needs the line, two bytes in front and one behind
  by_cases hfits : line.length ≤ 125
  · have hkey : writeAt ((List.range 128).map fresh) 0 (crlf ++ line ++ [0]) =
        some (crlf ++ line ++ [0] ++
          ((List.range 128).map fresh).drop (crlf ++ line ++ [0]).length) :=
      writeAt_zero (by simp [crlf]; omega)
    rw [if_pos hfits, hkey, fileAt, List.append_assoc (crlf ++ line)]
    simp only [Option.bind_eq_bind, Option.bind_some]
    by_cases hsize : (crlf ++ line).length < 32 ∨ 120 < (crlf ++ line).length
    · rw [if_pos hsize, if_pos hsize]
      rfl
    · rw [if_neg hsize, if_neg hsize, dataEnd_eq htext (by simp [crlf])]
      cases find (crlf ++ line) (data ++ [0]) with
      | none => rfl
      | some n =>
        cases n with
        | zero => rfl
        | succ n => simp
  · have hkey : writeAt ((List.range 128).map fresh) 0 (crlf ++ line ++ [0]) = none :=
      if_neg (by simp [crlf]; omega)
    rw [if_neg hfits, hkey]
    rfl

/-- A text is found first behind `pre`. -/
structure Split (pattern buffer pre rest : Bytes) : Prop where
  eq : buffer = pre ++ (pattern ++ rest)
  find : find pattern (cstr buffer) = some pre.length
  zero : 0 ∉ pre

/-- What `strstr` finds splits the buffer. -/
theorem exists_split (hpattern : pattern ≠ []) (h : find pattern (cstr buffer) = some n) :
    ∃ pre rest, Split pattern buffer pre rest := by
  have htext := eq_of_find h
  have hsplit : cstr buffer ++ buffer.dropWhile (· ≠ 0) = buffer :=
    List.takeWhile_append_dropWhile
  have hle := add_length_le_of_find hpattern h
  refine ⟨(cstr buffer).take n, (cstr buffer).drop (n + pattern.length) ++
    buffer.dropWhile (· ≠ 0), ?_, ?_, ?_⟩
  · rw [← List.append_assoc, ← List.append_assoc, ← htext, hsplit]
  · rw [List.length_take, Nat.min_eq_left (by omega)]
    exact h
  · exact fun hmem => zero_notMem_cstr buffer (List.mem_of_mem_take hmem)

/-- What is left of a buffer that ends with a NUL. -/
theorem Split.rest_eq {pre rest b : Bytes} (h : Split pattern (b ++ [0]) pre rest)
    (hpattern : 0 ∉ pattern) : ∃ rest', rest = rest' ++ [0] := by
  obtain rfl | ⟨rest', c, rfl⟩ := List.eq_nil_or_concat rest
  · have hmem : (0 : UInt8) ∈ pre ++ (pattern ++ []) := by
      rw [← h.eq]
      exact List.mem_append_right b List.mem_cons_self
    rw [List.append_nil, List.mem_append] at hmem
    exact (hmem.elim h.zero hpattern).elim
  · refine ⟨rest', ?_⟩
    have heq := h.eq
    rw [List.concat_eq_append, ← List.append_assoc, ← List.append_assoc] at heq
    obtain ⟨-, hlast⟩ := List.append_inj' heq rfl
    rw [List.concat_eq_append, ← hlast]

/-- The last byte of the body is cut off for the end of the string. -/
theorem terminate_eq (hsrc : src ≠ []) : terminate src = some (src.dropLast ++ [0]) := by
  have hlast := List.dropLast_append_getLast hsrc
  rw [terminate, if_neg hsrc]
  have hlen : src.dropLast.length = src.length - 1 := List.length_dropLast
  have hwrite := @writeAt_singleton src.dropLast [] (src.length - 1) (src.getLast hsrc) hlen 0
  rwa [hlast] at hwrite

/-- The end of a line is a C string. -/
theorem zero_notMem_crlf : (0 : UInt8) ∉ crlf := by decide

/-- The pattern is found, and its first byte becomes a NUL. -/
theorem cutAt_of_split {c : UInt8} {front pre rest b : Bytes} {start : ℕ}
    (h : Split (c :: pattern) (b ++ [0]) pre rest) (hstart : front.length = start) :
    cutAt (front ++ (b ++ [0])) start (c :: pattern) =
      some (some (start + pre.length, front ++ pre ++ (0 :: pattern ++ rest))) := by
  have hfound : strstr (front ++ (b ++ [0])) start (c :: pattern) =
      some (some (start + pre.length)) := by
    rw [strstr_append hstart (List.mem_append_right b List.mem_cons_self), h.find]
    rfl
  have hlen : (front ++ pre).length = start + pre.length := by rw [List.length_append, hstart]
  rw [cutAt, hfound, Option.bind_some, h.eq, ← List.append_assoc, List.cons_append]
  dsimp only
  rw [writeAt_singleton hlen]
  rfl

/-- Without the pattern nothing is cut. -/
theorem cutAt_of_none {front b : Bytes} {start : ℕ} (h : find pattern (cstr (b ++ [0])) = none)
    (hstart : front.length = start) : cutAt (front ++ (b ++ [0])) start pattern = some none := by
  rw [cutAt, strstr_append hstart (List.mem_append_right b List.mem_cons_self), h]
  rfl

/-- All line ends are found: the first line, and what is behind the empty one. -/
structure Lines (src line disposition type rest₁ rest₂ data : Bytes) : Prop where
  first : Split crlf (src.dropLast ++ [0]) line (rest₁ ++ [0])
  second : Split crlf (rest₁ ++ [0]) disposition (rest₂ ++ [0])
  third : Split (crlf ++ crlf) (rest₂ ++ [0]) type (data ++ [0])

section

variable {rest₁ rest₂ : Bytes}

/-- The first cut, behind the boundary line. -/
theorem cutAt_first {rest : Bytes} (h : Split crlf (src.dropLast ++ [0]) line rest) :
    cutAt (src.dropLast ++ [0]) 0 crlf = some (some (line.length, line ++ [0, 10] ++ rest)) := by
  have hcut := @cutAt_of_split [10] 13 [] line rest src.dropLast 0 h rfl
  simpa [crlf] using hcut

/-- The second cut, behind the disposition. -/
theorem cutAt_second {rest : Bytes} (h : Split crlf (rest₁ ++ [0]) disposition rest) :
    cutAt (line ++ [0, 10] ++ (rest₁ ++ [0])) (line.length + 2) crlf =
      some (some (line.length + 2 + disposition.length,
        line ++ [0, 10] ++ disposition ++ [0, 10] ++ rest)) := by
  have hcut := @cutAt_of_split [10] 13 (line ++ [0, 10]) disposition rest rest₁
    (line.length + 2) h (by simp)
  simpa [crlf] using hcut

/-- The third cut, behind the type and the empty line. -/
theorem cutAt_third {rest : Bytes} (h : Split (crlf ++ crlf) (rest₂ ++ [0]) type rest) :
    cutAt (line ++ [0, 10] ++ disposition ++ [0, 10] ++ (rest₂ ++ [0]))
        (line.length + 2 + disposition.length + 2) (crlf ++ crlf) =
      some (some (line.length + 2 + disposition.length + 2 + type.length,
        line ++ [0, 10] ++ disposition ++ [0, 10] ++ type ++ [0, 10, 13, 10] ++ rest)) := by
  have hcut := @cutAt_of_split [10, 13, 10] 13 (line ++ [0, 10] ++ disposition ++ [0, 10]) type rest
    rest₂ (line.length + 2 + disposition.length + 2) h (by simp; omega)
  simpa [crlf] using hcut

/-- With all line ends, the file is looked for with the first line. -/
theorem upload_of_lines (hsrc : src ≠ [])
    (h : Lines src line disposition type rest₁ rest₂ data) :
    adxNetworkUploadFile fresh src =
      if line.length ≤ 125 then some (fileAt line (data ++ [0])) else none := by
  have hline : cstr (line ++ [0, 10] ++ disposition ++ [0, 10] ++ type ++ [0, 10, 13, 10] ++
      (data ++ [0])) = line := by
    have hcut : ∀ rest : Bytes, cstr (line ++ 0 :: rest) = line := by
      intro rest
      rw [cstr, List.takeWhile_append_of_pos fun c hc => by
        simpa using ne_of_mem_of_not_mem hc h.first.zero]
      simp
    simpa using hcut (10 :: (disposition ++ 0 :: 10 :: (type ++ 0 :: 10 :: 13 :: 10 ::
      (data ++ [0]))))
  have hplace : (line ++ [0, 10] ++ disposition ++ [0, 10] ++ type ++ [0, 10, 13, 10]).length =
      line.length + 2 + disposition.length + 2 + type.length + 4 := by
    simp
    omega
  have hfile := @findFile_eq _ data fresh _ hline
  rw [hplace] at hfile
  rw [adxNetworkUploadFile, terminate_eq hsrc]
  simp only [Option.bind_eq_bind, Option.bind_some, cutAt_first h.first, cutAt_second h.second,
    cutAt_third h.third]
  exact hfile

/-- Without a line end nothing is returned. -/
theorem upload_of_not_lines (hsrc : src ≠ [])
    (h : ∀ line disposition type rest₁ rest₂ data,
      ¬ Lines src line disposition type rest₁ rest₂ data) :
    adxNetworkUploadFile fresh src = some [] := by
  rw [adxNetworkUploadFile, terminate_eq hsrc]
  -- each line end is there or not; the first that is not ends the call
  cases hfirst : find crlf (cstr (src.dropLast ++ [0])) with
  | none =>
    have hnone := @cutAt_of_none crlf [] src.dropLast 0 hfirst rfl
    rw [List.nil_append] at hnone
    simp only [Option.bind_eq_bind, Option.bind_some, hnone]
    rfl
  | some n₁ =>
    obtain ⟨line, rest, h₁⟩ := exists_split (by decide) hfirst
    obtain ⟨rest₁, rfl⟩ := h₁.rest_eq zero_notMem_crlf
    cases hsecond : find crlf (cstr (rest₁ ++ [0])) with
    | none =>
      have hnone := @cutAt_of_none crlf (line ++ [0, 10]) rest₁ (line.length + 2) hsecond (by simp)
      simp only [Option.bind_eq_bind, Option.bind_some, cutAt_first h₁, hnone]
      rfl
    | some n₂ =>
      obtain ⟨disposition, rest, h₂⟩ := exists_split (by decide) hsecond
      obtain ⟨rest₂, rfl⟩ := h₂.rest_eq zero_notMem_crlf
      cases hthird : find (crlf ++ crlf) (cstr (rest₂ ++ [0])) with
      | none =>
        have hnone := @cutAt_of_none (crlf ++ crlf) (line ++ [0, 10] ++ disposition ++ [0, 10])
          rest₂ (line.length + 2 + disposition.length + 2) hthird (by simp; omega)
        simp only [Option.bind_eq_bind, Option.bind_some, cutAt_first h₁, cutAt_second h₂, hnone]
        rfl
      | some n₃ =>
        obtain ⟨type, rest, h₃⟩ := exists_split (by decide) hthird
        obtain ⟨data, rfl⟩ := h₃.rest_eq (by decide)
        exact absurd ⟨h₁, h₂, h₃⟩ (h line disposition type rest₁ rest₂ data)

end

/-! ## Bodies with long lines, and with files -/

/-- A text without a zero byte in front of another one. -/
theorem cstr_append_of_notMem {pre : Bytes} (h : 0 ∉ pre) (rest : Bytes) :
    cstr (pre ++ rest) = pre ++ cstr rest := by
  rw [cstr, List.takeWhile_append_of_pos fun c hc => by simpa using ne_of_mem_of_not_mem hc h]
  rfl

/-- The string of a split buffer goes through the pattern. -/
theorem Split.cstr_eq {pre rest : Bytes} (h : Split pattern buffer pre rest)
    (hpattern : 0 ∉ pattern) : cstr buffer = pre ++ (pattern ++ cstr rest) := by
  rw [h.eq, cstr_append_of_notMem h.zero, cstr_append_of_notMem hpattern]

/-- The first occurrence is not behind another one. -/
theorem exists_find_le (pre rest : Bytes) :
    ∃ n ≤ pre.length, find pattern (pre ++ (pattern ++ rest)) = some n := by
  induction pre with
  | nil =>
    refine ⟨0, le_rfl, ?_⟩
    cases hlist : pattern ++ rest with
    | nil => exact if_pos (List.append_eq_nil_iff.mp hlist).1
    | cons c tail => exact if_pos (hlist ▸ List.prefix_append pattern rest)
  | cons c pre ih =>
    obtain ⟨n, hle, hfind⟩ := ih
    rw [List.cons_append, find]
    split_ifs
    · exact ⟨0, Nat.zero_le _, rfl⟩
    · exact ⟨n + 1, Nat.succ_le_succ hle, by rw [hfind]; rfl⟩

/-- The part before the first pattern has no pattern. -/
theorem Split.not_infix {pre rest : Bytes} (h : Split pattern buffer pre rest)
    (hpattern : 0 ∉ pattern) (hne : pattern ≠ []) : ¬ pattern <:+: pre := by
  rintro ⟨before, after, rfl⟩
  have hfind := h.find
  rw [h.cstr_eq hpattern, List.append_assoc, List.append_assoc, List.append_assoc] at hfind
  obtain ⟨n, hle, hfind'⟩ := @exists_find_le pattern before
    (after ++ (pattern ++ cstr rest))
  rw [hfind] at hfind'
  obtain rfl := Option.some.inj hfind'
  have hpos := List.length_pos_iff.mpr hne
  rw [List.length_append, List.length_append] at hle
  omega

/-- The string in the buffer is the body without its last byte. -/
theorem bodyText_eq (src : Bytes) : cstr (src.dropLast ++ [0]) = bodyText src :=
  cstr_append_newBuffer src.dropLast 1

/-- The first line is too long for the key. -/
theorem longLine_iff : LongLine src ↔
    ∃ line disposition type rest₁ rest₂ data,
      Lines src line disposition type rest₁ rest₂ data ∧ 125 < line.length := by
  constructor
  · rintro ⟨line, disposition, type, rest, htext, hline, hlong⟩
    have hbody : bodyText src =
        line ++ (crlf ++ (disposition ++ (crlf ++ (type ++ crlf ++ crlf ++ rest)))) := by
      rw [htext]
      simp
    have hfirst : find crlf (cstr (src.dropLast ++ [0])) = some line.length := by
      have hfind := @find_append_of_not_occurs [10] line 13 (by decide) hline
        (disposition ++ (crlf ++ (type ++ crlf ++ crlf ++ rest)))
      rw [bodyText_eq, hbody, ← List.append_assoc]
      exact hfind
    obtain ⟨pre, tail, h₁⟩ := exists_split (by decide) hfirst
    obtain ⟨rest₁, rfl⟩ := h₁.rest_eq zero_notMem_crlf
    have hlen : pre.length = line.length := Option.some.inj (h₁.find.symm.trans hfirst)
    have hcut := h₁.cstr_eq zero_notMem_crlf
    rw [bodyText_eq, hbody] at hcut
    obtain ⟨rfl, hbehind⟩ := List.append_inj hcut hlen.symm
    have hsecond := List.append_cancel_left hbehind
    obtain ⟨n₂, hle, hfind₂⟩ := @exists_find_le crlf disposition (type ++ crlf ++ crlf ++ rest)
    rw [hsecond] at hfind₂
    obtain ⟨pre₂, tail, h₂⟩ := exists_split (by decide) hfind₂
    obtain ⟨rest₂, rfl⟩ := h₂.rest_eq zero_notMem_crlf
    have hlen₂ : pre₂.length = n₂ := Option.some.inj (h₂.find.symm.trans hfind₂)
    rw [h₂.cstr_eq zero_notMem_crlf] at hsecond
    -- the second line may end earlier, so that the rest has the empty line as well
    have hwhole : type ++ crlf ++ crlf ++ rest <:+
        disposition ++ (crlf ++ (type ++ crlf ++ crlf ++ rest)) :=
      (List.suffix_append _ _).trans (List.suffix_append _ _)
    have hsuffix : type ++ crlf ++ crlf ++ rest <:+ cstr (rest₂ ++ [0]) := by
      refine List.suffix_of_suffix_length_le hwhole ?_ ?_
      · rw [hsecond]
        exact (List.suffix_append _ _).trans (List.suffix_append _ _)
      · have := congrArg List.length hsecond
        simp only [List.length_append] at this ⊢
        omega
    have hinfix : crlf ++ crlf <:+: cstr (rest₂ ++ [0]) := by
      refine List.IsInfix.trans ⟨type, rest, ?_⟩ hsuffix.isInfix
      simp
    obtain ⟨n₃, hfind₃⟩ := exists_find_of_infix hinfix
    obtain ⟨pre₃, tail, h₃⟩ := exists_split (by decide) hfind₃
    obtain ⟨data, rfl⟩ := h₃.rest_eq (by decide)
    exact ⟨line, pre₂, pre₃, rest₁, rest₂, data, ⟨h₁, h₂, h₃⟩, hlong⟩
  · rintro ⟨line, disposition, type, rest₁, rest₂, data, ⟨h₁, h₂, h₃⟩, hlong⟩
    refine ⟨line, disposition, type, cstr (data ++ [0]), ?_,
      h₁.not_infix zero_notMem_crlf (by decide), hlong⟩
    rw [← bodyText_eq, h₁.cstr_eq zero_notMem_crlf, h₂.cstr_eq zero_notMem_crlf,
      h₃.cstr_eq (by decide)]
    simp

/-- A line is followed by its end. -/
theorem split_of_line {pre rest : Bytes} (h : ∀ c ∈ pre, IsLineByte c) (hpattern : 0 ∉ pattern) :
    Split (13 :: pattern) (pre ++ (13 :: pattern ++ rest)) pre rest where
  eq := rfl
  find := by
    have hzero : 0 ∉ pre := fun hmem => (h 0 hmem).2.2 rfl
    have hfirst : 13 ∉ pre := fun hmem => (h 13 hmem).1 rfl
    rw [cstr_append_of_notMem hzero, cstr_append_of_notMem (by simpa using hpattern),
      ← List.append_assoc]
    exact find_append_of_notMem hfirst pattern (cstr rest)
  zero := fun hmem => (h 0 hmem).2.2 rfl

/-- The file of a body is found. -/
theorem upload_of_holdsFile (h : HoldsFile src data) :
    adxNetworkUploadFile fresh src = some data := by
  obtain ⟨boundary, disposition, type, rest, rfl, hlines, hmin, hmax, hdata, hrest⟩ := h.form
  rw [List.forall_mem_append, List.forall_mem_append] at hlines
  obtain ⟨⟨hboundary, hdisposition⟩, htype⟩ := hlines
  have hfound : Lines (boundary ++ crlf ++ disposition ++ crlf ++ type ++ crlf ++ crlf ++ data ++
      crlf ++ boundary ++ rest) boundary disposition type
      (disposition ++ crlf ++ type ++ crlf ++ crlf ++ data ++ crlf ++ boundary ++ rest.dropLast)
      (type ++ crlf ++ crlf ++ data ++ crlf ++ boundary ++ rest.dropLast)
      (data ++ crlf ++ boundary ++ rest.dropLast) := by
    -- the three lines are cut off one by one
    refine ⟨?_, ?_, ?_⟩
    · rw [List.dropLast_append_of_ne_nil hrest]
      have hsplit := @split_of_line [10] boundary (disposition ++ crlf ++ type ++ crlf ++ crlf ++
        data ++ crlf ++ boundary ++ rest.dropLast ++ [0]) hboundary (by decide)
      simpa [crlf] using hsplit
    · have hsplit := @split_of_line [10] disposition (type ++ crlf ++ crlf ++ data ++ crlf ++
        boundary ++ rest.dropLast ++ [0]) hdisposition (by decide)
      simpa [crlf] using hsplit
    · have hsplit := @split_of_line [10, 13, 10] type (data ++ crlf ++ boundary ++ rest.dropLast ++
        [0]) htype (by decide)
      simpa [crlf] using hsplit
  -- the end of the data is the first place that has the boundary
  have hfirst : (13 : UInt8) ∉ 10 :: boundary := by
    rw [List.mem_cons, not_or]
    exact ⟨by decide, fun hmem => (hboundary 13 hmem).1 rfl⟩
  have hfind := find_append_of_not_occurs hfirst hdata (rest.dropLast ++ [0])
  have hlen : (crlf ++ boundary).length = boundary.length + 2 := by simp [crlf]
  rw [upload_of_lines (by simp [crlf]) hfound, if_pos (by omega), fileAt, if_neg (by omega)]
  have hform : data ++ crlf ++ boundary ++ rest.dropLast ++ [0] =
      data ++ (13 :: 10 :: boundary) ++ (rest.dropLast ++ [0]) := by simp [crlf]
  rw [hform, show crlf ++ boundary = 13 :: 10 :: boundary from rfl, hfind, Option.getD_some,
    List.append_assoc, List.take_left]

/-- A body is read as it should exactly if it has a byte, and no long first line before all line
ends. -/
theorem uploadRight_iff : UploadRight src ↔ src ≠ [] ∧ ¬ LongLine src := by
  by_cases hsrc : src = []
  · refine iff_of_false (fun hright => ?_) fun h => h.1 hsrc
    obtain ⟨result, hresult, -⟩ := hright fun _ => 0
    rw [adxNetworkUploadFile, terminate, if_pos hsrc] at hresult
    cases hresult
  · constructor
    · refine fun hright => ⟨hsrc, fun hlong => ?_⟩
      obtain ⟨line, disposition, type, rest₁, rest₂, data, hfound, hlength⟩ := longLine_iff.mp hlong
      obtain ⟨result, hresult, -⟩ := hright fun _ => 0
      rw [upload_of_lines hsrc hfound, if_neg (by omega)] at hresult
      cases hresult
    · rintro ⟨-, hshort⟩ fresh
      -- nothing is written or read outside, with all line ends or without
      have hsafe : ∃ result, adxNetworkUploadFile fresh src = some result := by
        by_cases hlines : ∃ line disposition type rest₁ rest₂ data,
            Lines src line disposition type rest₁ rest₂ data
        · obtain ⟨line, disposition, type, rest₁, rest₂, data, hfound⟩ := hlines
          have hfits : line.length ≤ 125 := by
            by_contra hlength
            exact hshort (longLine_iff.mpr ⟨line, disposition, type, rest₁, rest₂, data, hfound,
              by omega⟩)
          exact ⟨_, (upload_of_lines hsrc hfound).trans (if_pos hfits)⟩
        · refine ⟨[], upload_of_not_lines hsrc ?_⟩
          intro line disposition type rest₁ rest₂ data hfound
          exact hlines ⟨line, disposition, type, rest₁, rest₂, data, hfound⟩
      obtain ⟨result, hresult⟩ := hsafe
      refine ⟨result, hresult, fun data hfile => ?_⟩
      rw [upload_of_holdsFile hfile] at hresult
      exact (Option.some.inj hresult).symm

end

/-- For every header, every chain of buffers and every body: the buffers are put together as they
should exactly if they fit in the length that is read, which is the announced one unless the body
has neither, and the file is looked for as it should exactly if the
body has a byte and no long first line. -/
theorem body_right_iff (header : Option (Option Bytes)) (bufs : List Bytes) (src : Bytes) :
    (PostRight header bufs ↔ BuffersFit header bufs) ∧
      (UploadRight src ↔ src ≠ [] ∧ ¬ LongLine src) :=
  ⟨postRight_iff, uploadRight_iff⟩

/-- Three bytes with an announced length of 1 are copied into a block of 2; the announced 2 ^ 32 + 1 is
read as 1, and 2 ^ 63 as -1, for which the block is empty; and the last place of an empty body is
before its start. -/
theorem long_buffer_and_empty_body :
    (adxNetworkGetPostBuffer (fun _ => 0) (some (some [49])) [[97, 98, 99]] = none ∧
      ¬ PostRight (some (some [49])) [[97, 98, 99]]) ∧
    (adxNetworkGetPostBuffer (fun _ => 0) (some (some (bytes "4294967297"))) [[97]] = some [97] ∧
      ¬ PostRight (some (some (bytes "4294967297"))) [[97]]) ∧
    (adxNetworkGetPostBuffer (fun _ => 0) (some (some (bytes "9223372036854775808"))) [[97]] = none ∧
      ¬ PostRight (some (some (bytes "9223372036854775808"))) [[97]]) ∧
    adxNetworkUploadFile (fun _ => 0) [] = none ∧ ¬ UploadRight [] := by
  have hlong : adxNetworkGetPostBuffer (fun _ => 0) (some (some [49])) [[97, 98, 99]] = none := by
    decide
  have hcut : adxNetworkGetPostBuffer (fun _ => 0) (some (some (bytes "4294967297"))) [[97]] =
      some [97] := by decide
  have hnone : adxNetworkGetPostBuffer (fun _ => 0) (some (some (bytes "9223372036854775808")))
      [[97]] = none := by decide
  refine ⟨⟨hlong, fun hright => ?_⟩, ⟨hcut, fun hright => ?_⟩, ⟨hnone, fun hright => ?_⟩, rfl,
    fun hright => ?_⟩
  · have hsome := hright fun _ => 0
    rw [hlong] at hsome
    cases hsome
  · have hsome := (hright fun _ => 0).symm.trans hcut
    exact absurd (Option.some.inj hsome) (by decide)
  · have hsome := hright fun _ => 0
    rw [hnone] at hsome
    cases hsome
  · obtain ⟨result, hresult, -⟩ := hright fun _ => 0
    cases hresult

end NetworkBody

end AdxDsp
