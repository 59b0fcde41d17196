import AdxDsp.Json.Parse
import AdxDsp.Lib.Blocks
import AdxDsp.Lib.Replace

/-!
# `adx_macro_replace`

The macros of a template are replaced in a fresh block (`adx_string.c`), which is exchanged for one
of twice the size whenever the text does not fit.  The lengths are of type `int`, and a block cannot
have 2 GiB; then, and when there is nothing to append, the template itself is returned.

* **The functions**: `adxStrcat`, `adxMacroReplace`.
* **What they compute** (`append`, `scan`): the text alone, or why there is none.
* **The block holds the text** (`Holds`, `adxStrcat_spec`, `macroReplaceLoop_spec`).
* `replaces_iff`: when the text is the right one.
-/

namespace AdxDsp

open CText

namespace AdxString

/-! ## The functions -/

/-- Memory that is not theirs is used, or the fuel is used up. -/
inductive Failure where
  | fault
  | unfinished
  deriving DecidableEq

/-- The memory, and `adx_buffer`. -/
structure State where
  blocks : List Bytes
  total : ℤ
  len : ℤ
  str : Option ℕ

/-- `adx_alloc`, which fills the block with zeros. -/
def adxAlloc (blocks : List Bytes) (size : ℤ) : Option (List Bytes × ℕ) :=
  if Json.allocates size then some (Blocks.alloc blocks size.toNat, blocks.length) else none

/-- `memcpy(&str[off], w, w.length)` -/
def memcpy (blocks : List Bytes) (str : ℕ) (off : ℤ) (w : Bytes) :
    Except Failure (List Bytes) :=
  if off < 0 then .error .fault
  else (Blocks.write blocks str off.toNat w).elim (.error .fault) .ok

/-- The loop of `adx_strcat`: the block at `str` is exchanged until `len` more bytes fit.  The block
that has room for them, or `none` when `adx_alloc` fails. -/
def grow (len : ℤ) : ℕ → State → ℕ → Except Failure (State × Option ℕ)
  | 0, _, _ => .error .unfinished
  | fuel + 1, buffer, str =>
    if toInt32 (len + buffer.len) < buffer.total - 1 then .ok (buffer, some str)
    else
      -- from 2 ^ 30 on the product is no `int` any more
      let total := toInt32 (buffer.total * 2)
      match adxAlloc buffer.blocks total with
      | none => .ok ({ buffer with total := total }, none)
      | some (blocks, new) => do
        let text ← (Blocks.read blocks str 0 buffer.len.toNat).elim (.error .fault) .ok
        let blocks ← memcpy blocks new 0 text
        grow len fuel ⟨blocks, total, buffer.len, some new⟩ new

/-- The end of `adx_strcat`: the bytes and a `NUL` behind them. -/
def put (buffer : State) (p : ℕ) (str : Bytes) (len : ℤ) : Except Failure (State × Bool) :=
  if 0 ≤ len ∧ len ≤ str.length then do
    let blocks ← memcpy buffer.blocks p buffer.len (str.take len.toNat)
    let newLen := toInt32 (buffer.len + len)
    -- `buffer->str[buffer->len] = 0`
    let blocks ← memcpy blocks p newLen [0]
    .ok (⟨blocks, buffer.total, newLen, some p⟩, true)
  else .error .fault

/-- `adx_strcat`; `false` stands for `NULL`. -/
def adxStrcat (fuel : ℕ) (buffer : State) (str : Bytes) (len : ℤ) :
    Except Failure (State × Bool) :=
  if len = 0 then .ok (buffer, false)
  else
    -- the block is made when there is none yet
    match buffer.str.elim (adxAlloc buffer.blocks buffer.total)
        fun p => some (buffer.blocks, p) with
    | none => .ok (buffer, false)
    | some (blocks, p) => do
      let (buffer, room) ← grow len fuel { buffer with blocks := blocks, str := some p } p
      room.elim (.ok (buffer, false)) fun p => put buffer p str len

/-- The string at a place of a block; `strncmp` reads up to its `NUL` at most. -/
def readString (blocks : List Bytes) (buf : ℕ) (s : ℤ) : Except Failure Bytes :=
  match blocks[buf]? with
  | some block =>
    if 0 ≤ s ∧ 0 ∈ block.drop s.toNat then .ok (cstr (block.drop s.toNat)) else .error .fault
  | none => .error .fault

/-- `strncmp(s, src, n) == 0`, where the `int` becomes a `size_t`. -/
def strncmpEq (s src : Bytes) (n : ℤ) : Bool :=
  s.take (n % 2 ^ 64).toNat = src.take (n % 2 ^ 64).toNat

/-- Go on after `adx_strcat`, unless it has returned `NULL`. -/
def unlessNull (r : Except Failure (State × Bool)) (f : State → Except Failure (State × Bool)) :
    Except Failure (State × Bool) :=
  r >>= fun x => if x.2 then f x.1 else .ok (x.1, false)

/-- The loop of `adx_macro_replace`; `false` when `adx_strcat` has returned `NULL`. -/
def macroReplaceLoop (buf : ℕ) (src dest : Bytes) : ℕ → State → ℤ → Except Failure (State × Bool)
  | 0, _, _ => .error .unfinished
  | fuel + 1, buffer, s => do
    match ← readString buffer.blocks buf s with
    | [] => .ok (buffer, true)
    | c :: rest =>
      if strncmpEq (c :: rest) src (toInt32 src.length) then
        -- the loop adds 1 to `s` in each of the two cases
        let s := s + (toInt32 src.length - 1)
        unlessNull (adxStrcat fuel buffer dest (toInt32 dest.length)) fun buffer =>
          macroReplaceLoop buf src dest fuel buffer (s + 1)
      else
        unlessNull (adxStrcat fuel buffer [c] 1) fun buffer =>
          macroReplaceLoop buf src dest fuel buffer (s + 1)

/-- `adx_macro_replace`: the memory afterwards and the address that is returned; `none` stands for
`NULL`, also as an argument. -/
def adxMacroReplace (fuel : ℕ) (blocks : List Bytes) (pool : Bool) (buf : Option ℕ)
    (src dest : Option Bytes) : Except Failure (List Bytes × Option ℕ) :=
  match pool, buf, src, dest with
  | true, some buf, some src, some dest =>
    if toInt32 src.length = 0 then .ok (blocks, some buf)
    else do
      let (buffer, more) ← macroReplaceLoop buf src dest fuel ⟨blocks, 1024, 0, none⟩ 0
      if more then .ok (buffer.blocks, buffer.str) else .ok (buffer.blocks, some buf)
  | _, _, _, _ => .ok (blocks, buf)

/-! ## What they compute -/

/-- The text so far, `NULL`, or memory that is not theirs. -/
inductive Outcome where
  | text (t : Bytes)
  | null
  | fault
  deriving DecidableEq

/-- Go on with the text, if there is one. -/
def Outcome.andThen (o : Outcome) (f : Bytes → Outcome) : Outcome :=
  match o with
  | .text t => f t
  | .null => .null
  | .fault => .fault

/-- A text that is shorter than this fits in a block. -/
@[irreducible] def maxText : ℕ := 2 ^ 30 - 1

/-- The longest text. -/
theorem maxText_eq : maxText = 2 ^ 30 - 1 := by rw [maxText]

/-- There is room at the start. -/
theorem length_nil_lt : ([] : Bytes).length < maxText := by
  rw [List.length_nil, maxText_eq]
  norm_num

/-- `adx_strcat` on texts. -/
def append (out str : Bytes) (len : ℤ) : Outcome :=
  if len = 0 then .null
  else if len < 0 then .fault
  else if out.length + len < maxText then .text (out ++ str.take len.toNat)
  else if out.length + len < 2 ^ 31 then .null
  else .fault

/-- The loop of `adx_macro_replace` on texts. -/
def scan (src dest : Bytes) (out : Bytes) : Bytes → Outcome
  | [] => .text out
  | c :: t =>
    if src <+: c :: t then
      (append out dest (toInt32 dest.length)).andThen fun out =>
        scan src dest out (t.drop (src.length - 1))
    else (append out [c] 1).andThen fun out => scan src dest out t
termination_by t => t.length
decreasing_by
  · rw [List.length_drop, List.length_cons]
    omega
  · exact Nat.lt_succ_self _

/-! ## The block holds the text -/

/-- The block at `p` has the text and zeros behind it; the blocks of `before` are what they were. -/
structure Holds (before : List Bytes) (buffer : State) (p : ℕ) (out : Bytes) (k : ℕ) : Prop where
  lo : 10 ≤ k
  hi : k ≤ 30
  total : buffer.total = (2 ^ k : ℕ)
  len : buffer.len = out.length
  str : buffer.str = some p
  fresh : before.length ≤ p
  frame : before <+: buffer.blocks
  block : buffer.blocks[p]? = some (out ++ List.replicate (2 ^ k - out.length) 0)
  room : out.length + 1 < 2 ^ k

/-- The sizes of the buffer, from the first one to the largest. -/
theorem two_pow_bounds {k : ℕ} (hlo : 10 ≤ k) (hhi : k ≤ 30) : 2 ^ 10 ≤ 2 ^ k ∧ 2 ^ k ≤ 2 ^ 30 :=
  ⟨Nat.pow_le_pow_right (by omega) hlo, Nat.pow_le_pow_right (by omega) hhi⟩

/-- Up to 2^30 bytes an allocation succeeds. -/
theorem adxAlloc_eq_some (blocks : List Bytes) {size : ℕ} (h : size ≤ 2 ^ 30) :
    adxAlloc blocks size = some (Blocks.alloc blocks size, blocks.length) := by
  have hallocates : Json.allocates size = true := by
    rw [Json.allocates, decide_eq_true_eq]
    omega
  rw [adxAlloc, if_pos hallocates]
  rfl

/-- A copy inside its block. -/
theorem memcpy_eq_ok {blocks blocks' : List Bytes} {str off : ℕ} {w : Bytes}
    (h : Blocks.write blocks str off w = some blocks') : memcpy blocks str off w = .ok blocks' := by
  rw [memcpy, if_neg (by omega), Int.toNat_natCast, h]
  rfl

/-- A block of 2 GiB is refused, since its size is a negative `int`. -/
theorem adxAlloc_eq_none (blocks : List Bytes) : adxAlloc blocks (-2 ^ 31) = none := by
  rw [adxAlloc]
  exact if_neg (by decide)

section

variable {before : List Bytes} {buffer : State} {p k : ℕ} {out : Bytes}

/-- A block of twice the size, with the text copied into it. -/
theorem Holds.double (h : Holds before buffer p out k) (hk : k < 30) (len : ℤ) (fuel : ℕ)
    (hfull : ¬ toInt32 (len + buffer.len) < buffer.total - 1) :
    ∃ buffer' p', grow len (fuel + 1) buffer p = grow len fuel buffer' p' ∧
      Holds before buffer' p' out (k + 1) := by
  have hbounds := two_pow_bounds h.lo h.hi
  have hlt : 2 ^ k ≤ 2 ^ 29 := Nat.pow_le_pow_right (by omega) (by omega)
  have hdouble : 2 ^ (k + 1) = 2 ^ k * 2 := Nat.pow_succ 2 k
  -- the total is still an `int` when it is doubled
  have htotal : toInt32 (buffer.total * 2) = (2 ^ (k + 1) : ℕ) := by
    rw [h.total, toInt32_of_bounds (by omega) (by omega), hdouble, Nat.cast_mul]
    rfl
  have hframe := Blocks.prefix_alloc h.frame (2 ^ (k + 1))
  have hnew := Blocks.getElem?_alloc buffer.blocks (2 ^ (k + 1))
  -- what is written so far is copied from the old block into the new one
  have htext : Blocks.read (Blocks.alloc buffer.blocks (2 ^ (k + 1))) p 0 buffer.len.toNat =
      some out := by
    rw [h.len]
    exact Blocks.read_text (Blocks.getElem?_of_frame (List.prefix_append _ _) h.block)
  have hroom := h.room
  have hempty : (Blocks.alloc buffer.blocks (2 ^ (k + 1)))[buffer.blocks.length]? =
      some ([] ++ List.replicate (2 ^ (k + 1)) 0) := hnew
  obtain ⟨blocks, hwrite, hblock⟩ := Blocks.write_text hempty (w := out) (by omega)
  refine ⟨⟨blocks, (2 ^ (k + 1) : ℕ), buffer.len, some buffer.blocks.length⟩,
    buffer.blocks.length, ?_, ?_⟩
  · rw [grow, if_neg hfull]
    dsimp only
    rw [htotal, adxAlloc_eq_some _ (by omega)]
    dsimp only
    rw [htext, Option.elim_some]
    change memcpy _ _ (([] : Bytes).length : ℤ) out >>= _ = _
    rw [memcpy_eq_ok hwrite]
    rfl
  · exact
      { lo := by have := h.lo; omega
        hi := hk
        total := rfl
        len := h.len
        str := rfl
        fresh := h.frame.length_le
        frame := Blocks.prefix_write hframe h.frame.length_le hwrite
        block := by rw [hblock]; rfl
        room := by omega }

/-- The loop of `adx_strcat`: the block has room for the bytes, or no block can have it. -/
theorem grow_spec {fuel : ℕ} (h : Holds before buffer p out k) (len : ℤ) (hfuel : 30 - k < fuel) :
    (toInt32 (len + out.length) < maxText ∧ ∃ buffer' p' k', grow len fuel buffer p =
      .ok (buffer', some p') ∧ Holds before buffer' p' out k' ∧
        toInt32 (len + out.length) < 2 ^ k' - 1) ∨
    (maxText ≤ toInt32 (len + out.length) ∧ ∃ buffer', grow len fuel buffer p =
      .ok (buffer', none) ∧ before <+: buffer'.blocks) := by
  -- each turn doubles the block, and there are at most 20 of them
  induction fuel generalizing buffer p k with
  | zero => omega
  | succ fuel ih =>
    have hbounds := two_pow_bounds h.lo h.hi
    have hmax := maxText_eq
    by_cases hfits : toInt32 (len + buffer.len) < buffer.total - 1
    · refine .inl ⟨?_, buffer, p, k, if_pos hfits, h, ?_⟩
      · rw [h.len, h.total] at hfits
        omega
      · rw [h.len, h.total, Nat.cast_pow] at hfits
        exact hfits
    · rcases lt_or_eq_of_le h.hi with hk | rfl
      · obtain ⟨buffer', p', hgrow, hnext⟩ := h.double hk len fuel hfits
        rw [hgrow]
        exact ih hnext (by omega)
      · -- the block of 1 GiB is full
        refine .inr ⟨?_, { buffer with total := -2 ^ 31 }, ?_, h.frame⟩
        · rw [h.len, h.total] at hfits
          omega
        · have htotal : toInt32 (buffer.total * 2) = -2 ^ 31 := by
            rw [h.total, toInt32_eq]
            norm_num
          rw [grow, if_neg hfits]
          dsimp only
          rw [htotal, adxAlloc_eq_none]

/-- A buffer with the text `out`; the first block is made when something is appended. -/
def Represents (before : List Bytes) (buffer : State) (out : Bytes) : Prop :=
  (buffer.str = none ∧ out = [] ∧ buffer.total = 1024 ∧ buffer.len = 0 ∧
    before <+: buffer.blocks) ∨ ∃ p k, Holds before buffer p out k

/-- The result of a function is what its counterpart on texts says. -/
def Refines (before : List Bytes) (r : Except Failure (State × Bool)) : Outcome → Prop
  | .text out => ∃ buffer, r = .ok (buffer, true) ∧ Represents before buffer out
  | .null => ∃ buffer, r = .ok (buffer, false) ∧ before <+: buffer.blocks
  | .fault => r = .error .fault

/-- A text in the buffer is shorter than the longest one. -/
theorem Represents.length_lt (h : Represents before buffer out) : out.length < maxText := by
  have hmax := maxText_eq
  rcases h with ⟨-, rfl, -⟩ | ⟨p, k, h⟩
  · rw [List.length_nil]
    omega
  · have hbounds := two_pow_bounds h.lo h.hi
    have hroom := h.room
    omega

/-- The blocks of the caller are untouched. -/
theorem Represents.frame (h : Represents before buffer out) : before <+: buffer.blocks := by
  rcases h with ⟨-, -, -, -, hframe⟩ | ⟨p, k, h⟩
  · exact hframe
  · exact h.frame

/-- `adx_strcat` has a block then. -/
theorem Represents.allocated (h : Represents before buffer out) :
    ∃ blocks p k, (buffer.str.elim (adxAlloc buffer.blocks buffer.total)
        fun p => some (buffer.blocks, p)) = some (blocks, p) ∧
      Holds before { buffer with blocks := blocks, str := some p } p out k := by
  rcases h with ⟨hstr, rfl, htotal, hlen, hframe⟩ | ⟨p, k, h⟩
  · refine ⟨Blocks.alloc buffer.blocks 1024, buffer.blocks.length, 10, ?_, ?_⟩
    · rw [hstr, htotal]
      exact adxAlloc_eq_some _ (by norm_num)
    · exact
        { lo := le_rfl
          hi := by norm_num
          total := htotal
          len := hlen
          str := rfl
          fresh := hframe.length_le
          frame := Blocks.prefix_alloc hframe _
          block := Blocks.getElem?_alloc _ _
          room := by norm_num }
  · exact ⟨buffer.blocks, p, k, by rw [h.str]; rfl, { h with str := rfl }⟩

/-- A text that fits is appended, and a `NUL` behind it. -/
theorem Holds.put (h : Holds before buffer p out k) {str : Bytes} {len : ℕ}
    (hlen : len ≤ str.length) (hfits : out.length + len + 1 < 2 ^ k) :
    ∃ buffer', put buffer p str len = .ok (buffer', true) ∧
      Holds before buffer' p (out ++ str.take len) k := by
  have hbounds := two_pow_bounds h.lo h.hi
  have htake : (str.take len).length = len := List.length_take_of_le hlen
  have hnew : toInt32 (buffer.len + len) = (out ++ str.take len).length := by
    rw [h.len, List.length_append, htake, toInt32_of_bounds (by omega) (by omega), Nat.cast_add]
  -- the piece is written behind the text, and a NUL behind the piece
  obtain ⟨blocks, hwrite, hblock⟩ := Blocks.write_text h.block (w := str.take len) (by omega)
  obtain ⟨blocks', hwrite', hblock'⟩ := Blocks.write_text hblock (w := [0]) (by
    rw [List.length_singleton]
    omega)
  have hframe := Blocks.prefix_write h.frame h.fresh hwrite
  -- the NUL is one of the zeros that are there
  have hzeros : [0] ++ List.replicate (2 ^ k - out.length - (str.take len).length - 1) (0 : UInt8) =
      List.replicate (2 ^ k - (out ++ str.take len).length) 0 := by
    rw [List.length_append, List.singleton_append, ← List.replicate_succ]
    congr 1
    omega
  refine ⟨⟨blocks', buffer.total, (out ++ str.take len).length, some p⟩, ?_, ?_⟩
  · rw [AdxString.put, if_pos ⟨by omega, by omega⟩, hnew, Int.toNat_natCast, h.len,
      memcpy_eq_ok hwrite]
    change memcpy _ _ _ _ >>= _ = _
    rw [memcpy_eq_ok hwrite']
    rfl
  · exact
      { lo := h.lo
        hi := h.hi
        total := h.total
        len := rfl
        str := rfl
        fresh := h.fresh
        frame := Blocks.prefix_write hframe h.fresh hwrite'
        block := by rw [hblock', List.append_assoc, List.length_singleton, hzeros]
        room := by rw [List.length_append]; omega }

/-- No block has room for a text of 1 GiB, and a negative length is a very great one. -/
theorem Holds.put_eq_fault (h : Holds before buffer p out k) {str : Bytes} {len : ℤ}
    (hlen : len ≤ str.length) (hout : len < 0 ∨ 2 ^ 30 < out.length + len) :
    AdxString.put buffer p str len = .error .fault := by
  have hbounds := two_pow_bounds h.lo h.hi
  have hroom := h.room
  rw [AdxString.put]
  split_ifs with hargs
  · have htake : (str.take len.toNat).length = len.toNat := List.length_take_of_le (by omega)
    have hwrite := Blocks.write_eq_none h.block (w := str.take len.toNat) (by omega)
    have hfault : memcpy buffer.blocks p buffer.len (str.take len.toNat) = .error .fault := by
      rw [memcpy, h.len, if_neg (by omega), Int.toNat_natCast, hwrite]
      rfl
    rw [hfault]
    rfl
  · rfl

/-- Appending to the buffer refines appending to the text. -/
theorem adxStrcat_spec (h : Represents before buffer out) {fuel : ℕ} (hfuel : 20 < fuel)
    {str : Bytes} {len : ℤ} (hlo : -2 ^ 31 ≤ len) (hhi : len < 2 ^ 31) (hlen : len ≤ str.length) :
    Refines before (adxStrcat fuel buffer str len) (append out str len) := by
  have hmax := maxText_eq
  have hout := h.length_lt
  by_cases hzero : len = 0
  · subst hzero
    exact ⟨buffer, rfl, h.frame⟩
  obtain ⟨blocks, p, k, hallocated, hholds⟩ := h.allocated
  have hk := hholds.lo
  rw [adxStrcat, if_neg hzero, hallocated, append, if_neg hzero]
  dsimp only
  have hturns : 30 - k < fuel := by omega
  rcases grow_spec hholds len hturns with
    ⟨hsum, buffer', p', k', hgrow, hgrown, hroom⟩ | ⟨hsum, buffer', hgrow, hframe⟩
  · rw [hgrow]
    change Refines before (put buffer' p' str len) _
    rw [toInt32_eq] at hsum hroom
    have hsmall : (2 ^ k' : ℤ) ≤ 2 ^ 30 := by exact_mod_cast (two_pow_bounds hgrown.lo hgrown.hi).2
    -- a negative length passes the test of the loop, as a sum that wraps does
    split_ifs with hneg hfits hwrap
    · exact hgrown.put_eq_fault hlen (.inl hneg)
    · obtain ⟨n, rfl⟩ := Int.eq_ofNat_of_zero_le (not_lt.mp hneg)
      have hbytes : out.length + n + 1 < 2 ^ k' := by
        have : (out.length + n + 1 : ℤ) < 2 ^ k' := by split_ifs at hroom <;> omega
        exact_mod_cast this
      have hbytesOf : n ≤ str.length := by omega
      obtain ⟨buffer'', hput, hputs⟩ := hgrown.put hbytesOf hbytes
      exact ⟨buffer'', hput, .inr ⟨p', k', hputs⟩⟩
    · split_ifs at hsum <;> omega
    · exact hgrown.put_eq_fault hlen (.inr (by omega))
  · rw [hgrow]
    rw [toInt32_eq] at hsum
    rw [if_neg (by split_ifs at hsum <;> omega), if_neg (by split_ifs at hsum <;> omega),
      if_pos (by split_ifs at hsum <;> omega)]
    exact ⟨_, rfl, hframe⟩

/-- Two steps in a row, the second one only if the first one gives no null. -/
theorem Refines.andThen {r : Except Failure (State × Bool)} {o : Outcome}
    {f : State → Except Failure (State × Bool)} {g : Bytes → Outcome} (h : Refines before r o)
    (hf : ∀ buffer out, Represents before buffer out → Refines before (f buffer) (g out)) :
    Refines before (unlessNull r f) (o.andThen g) := by
  cases o with
  | text out =>
    obtain ⟨buffer, rfl, hbuffer⟩ := h
    exact hf buffer out hbuffer
  | null =>
    obtain ⟨buffer, rfl, hframe⟩ := h
    exact ⟨buffer, rfl, hframe⟩
  | fault =>
    have hfault : r = .error .fault := h
    rw [hfault]
    rfl

/-- The input is read where it was. -/
theorem readString_eq {blocks : List Bytes} {buf : ℕ} {done rest after : Bytes}
    (hframe : before <+: blocks) (hbuf : before[buf]? = some (done ++ rest ++ 0 :: after))
    (hrest : 0 ∉ rest) : readString blocks buf done.length = .ok rest := by
  have hdrop : (done ++ rest ++ 0 :: after).drop done.length = rest ++ 0 :: after := by
    rw [List.append_assoc, List.drop_left]
  have hcstr : cstr (rest ++ 0 :: after) = rest := by
    rw [cstr, List.takeWhile_append_of_pos, List.takeWhile_cons_of_neg (by simp), List.append_nil]
    intro b hb
    have hne : b ≠ 0 := fun h => hrest (h ▸ hb)
    simpa using hne
  rw [readString, Blocks.getElem?_of_frame hframe hbuf]
  dsimp only
  rw [Int.toNat_natCast, hdrop, hcstr, if_pos]
  exact ⟨by omega, List.mem_append_right _ List.mem_cons_self⟩

/-- The comparison of the first bytes tells whether the text begins with `src`. -/
theorem strncmpEq_iff {s src : Bytes} (hsrc : src.length < 2 ^ 31) :
    strncmpEq s src (toInt32 src.length) = true ↔ src <+: s := by
  have hlen : (toInt32 src.length % 2 ^ 64).toNat = src.length := by
    rw [toInt32_of_bounds (by omega) (by omega)]
    omega
  rw [strncmpEq, decide_eq_true_eq, hlen, List.take_length, List.prefix_iff_eq_take]
  exact eq_comm

/-- A truncated length is not longer. -/
theorem toInt32_length_le (dest : Bytes) : toInt32 dest.length ≤ dest.length := by
  rw [toInt32_eq]
  split_ifs <;> omega

/-- The loop refines the scan of what is left of the text. -/
theorem macroReplaceLoop_spec {fuel buf : ℕ} {src dest done rest after : Bytes}
    (hsrc : src ≠ []) (hlen : src.length < 2 ^ 31)
    (hbuf : before[buf]? = some (done ++ rest ++ 0 :: after)) (hrest : 0 ∉ rest)
    (h : Represents before buffer out) (hfuel : rest.length + 21 < fuel) :
    Refines before (macroReplaceLoop buf src dest fuel buffer done.length)
      (scan src dest out rest) := by
  -- the input is `done ++ rest`, and `out` is what `done` has become
  induction fuel generalizing buffer out done rest with
  | zero => omega
  | succ fuel ih =>
    rw [macroReplaceLoop, readString_eq h.frame hbuf hrest]
    cases rest with
    | nil =>
      rw [scan]
      exact ⟨buffer, rfl, h⟩
    | cons c rest =>
      rw [List.length_cons] at hfuel
      have hturns : 20 < fuel := by omega
      rw [scan]
      change Refines before (if strncmpEq (c :: rest) src (toInt32 src.length) then _ else _) _
      by_cases hfound : src <+: c :: rest
      · rw [if_pos ((strncmpEq_iff hlen).mpr hfound), if_pos hfound]
        obtain ⟨tail, htail⟩ := hfound
        have hpos : 0 < src.length := List.length_pos_iff.mpr hsrc
        have hskip : rest.drop (src.length - 1) = tail := by
          rw [← drop_cons_of_ne_nil hsrc c, ← htail, List.drop_left]
        have hnext : (done.length : ℤ) + (toInt32 src.length - 1) + 1 = (done ++ src).length := by
          rw [toInt32_of_bounds (by omega) (by omega), List.length_append]
          omega
        have hshorter := congrArg List.length htail
        rw [List.length_append, List.length_cons] at hshorter
        have hstrcat := adxStrcat_spec h hturns (by rw [toInt32]; exact BitVec.le_toInt _)
          (by rw [toInt32]; exact BitVec.toInt_lt) (toInt32_length_le dest)
        refine hstrcat.andThen fun buffer out h => ?_
        rw [hskip, hnext]
        apply ih _ _ h (by omega)
        · rw [List.append_assoc done, htail]
          exact hbuf
        · intro hmem
          exact hrest (htail ▸ List.mem_append_right _ hmem)
      · rw [if_neg (fun hcmp => hfound ((strncmpEq_iff hlen).mp hcmp)), if_neg hfound]
        have hnext : (done.length : ℤ) + 1 = (done ++ [c]).length := by
          rw [List.length_append, List.length_singleton, Nat.cast_add]
          rfl
        have hstrcat := @adxStrcat_spec _ _ _ h _ hturns [c] 1 (by norm_num) (by norm_num) (by simp)
        refine hstrcat.andThen fun buffer out h => ?_
        rw [hnext]
        apply ih _ _ h (by omega)
        · rw [List.append_assoc done, List.singleton_append]
          exact hbuf
        · exact fun hmem => hrest (List.mem_cons_of_mem c hmem)

end

/-! ## The text -/

section

variable {src dest out t : Bytes}

/-- One byte fits or makes the text too long. -/
theorem append_one (hout : out.length < maxText) (c : UInt8) :
    append out [c] 1 = if out.length + 1 < maxText then .text (out ++ [c]) else .null := by
  have hmax := maxText_eq
  rw [append, if_neg (by norm_num), if_neg (by norm_num)]
  split_ifs with h h' h' h'
  · rfl
  · omega
  · omega
  · rfl
  · omega
  · omega

/-- A text in which nothing is replaced. -/
theorem scan_of_find_eq_none (hout : out.length < maxText) (h : find src t = none) :
    scan src dest out t = if out.length + t.length < maxText then .text (out ++ t) else .null := by
  induction t generalizing out with
  | nil => rw [scan, List.append_nil, List.length_nil, Nat.add_zero, if_pos hout]
  | cons c t ih =>
    by_cases hfound : src <+: c :: t
    · rw [find, if_pos hfound] at h
      cases h
    · rw [find_cons_of_not_start hfound, Option.map_eq_none_iff] at h
      rw [scan, if_neg hfound, append_one hout, List.length_cons]
      split_ifs with hone hall hall
      · rw [Outcome.andThen, ih (by rwa [List.length_append]) h, List.append_assoc,
          List.length_append, List.length_singleton]
        rw [if_pos (by omega), List.singleton_append]
      · rw [Outcome.andThen, ih (by rwa [List.length_append]) h, List.length_append,
          List.length_singleton]
        exact if_neg (by omega)
      · omega
      · rfl

/-- The bytes before the first occurrence are copied, if there is room. -/
theorem scan_of_find_eq_some (hsrc : src ≠ []) (hout : out.length < maxText) {n : ℕ}
    (h : find src t = some n) :
    scan src dest out t =
      if out.length + n < maxText then
        (append (out ++ t.take n) dest (toInt32 dest.length)).andThen fun out =>
          scan src dest out (t.drop (n + src.length))
      else .null := by
  induction t generalizing out n with
  | nil =>
    rw [find, if_neg hsrc] at h
    cases h
  | cons c t ih =>
    by_cases hfound : src <+: c :: t
    · rw [find, if_pos hfound, Option.some_inj] at h
      subst h
      rw [scan, if_pos hfound, Nat.add_zero, if_pos hout, Nat.zero_add, drop_cons_of_ne_nil hsrc,
        List.take_zero, List.append_nil]
    · rw [find_cons_of_not_start hfound] at h
      obtain ⟨n, hn, rfl⟩ := Option.map_eq_some_iff.mp h
      rw [scan, if_neg hfound, append_one hout]
      split_ifs with hone hall hall
      · rw [Outcome.andThen, ih (by rwa [List.length_append]) hn, List.length_append,
          List.length_singleton, if_pos (by omega), List.append_assoc, List.singleton_append,
          List.take_succ_cons, Nat.add_right_comm, List.drop_succ_cons]
      · rw [Outcome.andThen, ih (by rwa [List.length_append]) hn, List.length_append,
          List.length_singleton]
        exact if_neg (by omega)
      · omega
      · rfl

/-- Two steps that end in a text, taken apart. -/
theorem Outcome.andThen_eq_text {o : Outcome} {f : Bytes → Outcome} {r : Bytes}
    (h : o.andThen f = .text r) : ∃ out, o = .text out ∧ f out = .text r := by
  cases o with
  | text out => exact ⟨out, rfl, h⟩
  | null => cases h
  | fault => cases h

/-- Appending gives a text just below the longest one. -/
theorem append_eq_text {str r : Bytes} {len : ℤ} (h : append out str len = .text r) :
    len ≠ 0 ∧ r.length < maxText := by
  rw [append] at h
  split_ifs at h with hzero hneg hfits
  cases h
  refine ⟨hzero, ?_⟩
  have htake := List.length_take_le len.toNat str
  rw [List.length_append]
  omega

/-- A text that is replaced by itself or by a shorter one than 2 GiB. -/
theorem append_dest (hdest : dest.length < 2 ^ 31) :
    append out dest (toInt32 dest.length) =
      if dest = [] then .null
      else if out.length + dest.length < maxText then .text (out ++ dest)
      else if out.length + dest.length < 2 ^ 31 then .null
      else .fault := by
  have hzero : (dest.length : ℤ) = 0 ↔ dest = [] := by
    rw [Nat.cast_eq_zero, List.length_eq_zero_iff]
  rw [toInt32_of_bounds (by omega) (by omega), append, if_congr hzero rfl rfl,
    if_neg (show ¬ (dest.length : ℤ) < 0 by omega), Int.toNat_natCast, List.take_length]
  norm_cast

variable (hsrc : src ≠ [])
include hsrc

/-- The loop comes to the end of the input only with a text that fits. -/
theorem length_lt_of_scan {r : Bytes} (hout : out.length < maxText)
    (h : scan src dest out t = .text r) : r.length < maxText := by
  induction hlength : t.length using Nat.strongRecOn generalizing t out with
  | ind _ ih =>
    subst hlength
    cases hfind : find src t with
    | none =>
      rw [scan_of_find_eq_none hout hfind] at h
      split_ifs at h with hfits
      cases h
      rw [List.length_append]
      exact hfits
    | some n =>
      rw [scan_of_find_eq_some hsrc hout hfind] at h
      split_ifs at h
      obtain ⟨out', hout', hrest⟩ := Outcome.andThen_eq_text h
      exact ih _ (length_drop_of_find hsrc hfind) (append_eq_text hout').2 hrest rfl

/-- Nothing is appended for an empty replacement: `adx_strcat` returns `NULL`. -/
theorem dest_ne_nil_of_scan {r : Bytes} {n : ℕ} (hout : out.length < maxText)
    (hfind : find src t = some n) (h : scan src dest out t = .text r) : dest ≠ [] := by
  rw [scan_of_find_eq_some hsrc hout hfind] at h
  split_ifs at h
  obtain ⟨out', hout', -⟩ := Outcome.andThen_eq_text h
  rintro rfl
  exact (append_eq_text hout').1 rfl

/-- As long as everything fits, every occurrence is replaced. -/
theorem scan_eq_text (hdest : find src t = none ∨ dest ≠ [])
    (hfits : out.length + (replaceAll src dest t).length < maxText) :
    scan src dest out t = .text (out ++ replaceAll src dest t) := by
  induction hlength : t.length using Nat.strongRecOn generalizing t out with
  | ind _ ih =>
    subst hlength
    have hmax := maxText_eq
    cases hfind : find src t with
    | none =>
      rw [replaceAll_of_find_eq_none dest hfind] at hfits ⊢
      rw [scan_of_find_eq_none (by omega) hfind, if_pos hfits]
    | some n =>
      have hne : dest ≠ [] := hdest.resolve_left (by rw [hfind]; exact Option.some_ne_none n)
      have hend := add_length_le_of_find hsrc hfind
      have htake : (t.take n).length = n := List.length_take_of_le (by omega)
      rw [replaceAll_of_find_eq_some hsrc dest hfind] at hfits ⊢
      rw [List.length_append, List.length_append, htake] at hfits
      rw [scan_of_find_eq_some hsrc (by omega) hfind, if_pos (by omega),
        append_dest (by omega), if_neg hne,
        if_pos (by rw [List.length_append]; omega), Outcome.andThen,
        ih _ (length_drop_of_find hsrc hfind) (.inr hne) (by simp only [List.length_append]; omega)
          rfl]
      simp only [List.append_assoc]

/-- A replacement of less than 1 GiB never leads out of a block. -/
theorem scan_ne_fault (hout : out.length < maxText) (hdest : dest.length < 2 ^ 30) :
    scan src dest out t ≠ .fault := by
  induction hlength : t.length using Nat.strongRecOn generalizing t out with
  | ind _ ih =>
    subst hlength
    have hmax := maxText_eq
    cases hfind : find src t with
    | none =>
      rw [scan_of_find_eq_none hout hfind]
      split_ifs <;> simp
    | some n =>
      have hend := add_length_le_of_find hsrc hfind
      have htake : (t.take n).length = n := List.length_take_of_le (by omega)
      rw [scan_of_find_eq_some hsrc hout hfind]
      by_cases hroom : out.length + n < maxText
      · rw [if_pos hroom, append_dest (by omega)]
        split_ifs with hnil hfits hwrap
        · simp [Outcome.andThen]
        · exact ih _ (length_drop_of_find hsrc hfind) (by rwa [List.length_append]) rfl
        · simp [Outcome.andThen]
        · rw [List.length_append, htake] at hwrap
          omega
      · rw [if_neg hroom]
        simp

omit hsrc in
/-- A byte of the result comes from one of the parts. -/
theorem mem_of_append {str r : Bytes} {len : ℤ} (h : append out str len = .text r) {b : UInt8}
    (hb : b ∈ r) : b ∈ out ∨ b ∈ str := by
  rw [append] at h
  split_ifs at h
  cases h
  exact (List.mem_append.mp hb).imp_right List.mem_of_mem_take

/-- No other bytes get into the text. -/
theorem mem_of_scan {r : Bytes} (hout : out.length < maxText) (h : scan src dest out t = .text r)
    {b : UInt8} (hb : b ∈ r) : b ∈ out ∨ b ∈ t ∨ b ∈ dest := by
  induction hlength : t.length using Nat.strongRecOn generalizing t out with
  | ind _ ih =>
    subst hlength
    cases hfind : find src t with
    | none =>
      rw [scan_of_find_eq_none hout hfind] at h
      split_ifs at h
      cases h
      exact (List.mem_append.mp hb).imp_right .inl
    | some n =>
      rw [scan_of_find_eq_some hsrc hout hfind] at h
      split_ifs at h
      obtain ⟨out', hout', hrest⟩ := Outcome.andThen_eq_text h
      rcases ih _ (length_drop_of_find hsrc hfind) (append_eq_text hout').2 hrest rfl with
        hb | hb | hb
      · rcases mem_of_append hout' hb with hb | hb
        · exact (List.mem_append.mp hb).imp_right fun hb => .inl (List.mem_of_mem_take hb)
        · exact .inr (.inr hb)
      · exact .inr (.inl (List.mem_of_mem_drop hb))
      · exact .inr (.inr hb)

/-- A text that comes out is the right one. -/
theorem eq_of_scan {r : Bytes} (hout : out.length < maxText) (hdest : dest.length < 2 ^ 31)
    (h : scan src dest out t = .text r) : r = out ++ replaceAll src dest t := by
  induction hlength : t.length using Nat.strongRecOn generalizing t out with
  | ind _ ih =>
    subst hlength
    cases hfind : find src t with
    | none =>
      rw [scan_of_find_eq_none hout hfind] at h
      split_ifs at h
      cases h
      rw [replaceAll_of_find_eq_none dest hfind]
    | some n =>
      rw [scan_of_find_eq_some hsrc hout hfind, append_dest hdest] at h
      split_ifs at h with hroom hnil hfits
      · cases h
      · rw [ih _ (length_drop_of_find hsrc hfind) (by rwa [List.length_append]) h rfl,
          replaceAll_of_find_eq_some hsrc dest hfind]
        simp only [List.append_assoc]
      · cases h
      · cases h

/-! ## When the text is the right one -/

/-- No occurrence; or a replacement that is not empty and a text that fits; or nothing changes, and
the first occurrence does not lead out of the block. -/
def Fits (src dest text : Bytes) : Prop :=
  find src text = none ∨
    (dest ≠ [] ∧ text.length + (gaps src 0 text).length * dest.length <
      maxText + (gaps src 0 text).length * src.length) ∨
    (src = dest ∧ ∀ n, find src text = some n → n + src.length < 2 ^ 31 ∨ maxText ≤ n)

/-- The length of the text, from the number of the occurrences. -/
theorem length_replaceAll_lt_iff {text : Bytes} :
    (replaceAll src dest text).length < maxText ↔
      text.length + (gaps src 0 text).length * dest.length <
        maxText + (gaps src 0 text).length * src.length := by
  have hlength := length_replaceAll hsrc dest text
  omega

/-- The new text, or the input when it stays the same. -/
theorem scan_right_iff (hlen : src.length < 2 ^ 31) {text : Bytes} :
    (scan src dest [] text = .text (replaceAll src dest text) ∨
      (scan src dest [] text = .null ∧ replaceAll src dest text = text)) ↔
      Fits src dest text := by
  have hmax := maxText_eq
  have hstart := length_nil_lt
  constructor
  · rintro (h | ⟨h, hsame⟩)
    · -- a text that has been built fits
      cases hfind : find src text with
      | none => exact .inl hfind
      | some n =>
        exact .inr (.inl ⟨dest_ne_nil_of_scan hsrc hstart hfind h,
          (length_replaceAll_lt_iff hsrc).mp (length_lt_of_scan hsrc hstart h)⟩)
    · rcases (replaceAll_eq_self_iff hsrc).mp hsame with hnone | rfl
      · exact .inl hnone
      · refine .inr (.inr ⟨rfl, fun n hfind => ?_⟩)
        have hend := add_length_le_of_find hsrc hfind
        have htake : (text.take n).length = n := List.length_take_of_le (by omega)
        by_contra hlarge
        push Not at hlarge
        -- the first occurrence does not fit, and the sum of the lengths wraps
        rw [scan_of_find_eq_some hsrc hstart hfind, if_pos (by rw [List.length_nil]; omega),
          append_dest hlen, if_neg hsrc, List.nil_append, htake, if_neg (by omega),
          if_neg (by omega)] at h
        cases h
  · rintro (hnone | ⟨hdest, hfits⟩ | ⟨rfl, hfirst⟩)
    · -- a copy, or the input itself if the copy does not fit
      rw [scan_of_find_eq_none hstart hnone, replaceAll_of_find_eq_none dest hnone]
      split_ifs
      · exact .inl rfl
      · exact .inr ⟨rfl, rfl⟩
    · rw [← length_replaceAll_lt_iff hsrc] at hfits
      exact .inl (scan_eq_text hsrc (.inr hdest) (by rwa [List.length_nil, Nat.zero_add]))
    · rw [replaceAll_self hsrc]
      cases hscan : scan src src [] text with
      | text r =>
        rw [eq_of_scan hsrc hstart hlen hscan, replaceAll_self hsrc]
        exact .inl rfl
      | null => exact .inr ⟨rfl, rfl⟩
      | fault =>
        -- only the first occurrence could lead out of a block, since a text that fits is short
        exfalso
        cases hfind : find src text with
        | none =>
          rw [scan_of_find_eq_none hstart hfind] at hscan
          split_ifs at hscan
        | some n =>
          have hend := add_length_le_of_find hsrc hfind
          have htake : (text.take n).length = n := List.length_take_of_le (by omega)
          have hwrap := hfirst n hfind
          rw [scan_of_find_eq_some hsrc hstart hfind, List.nil_append, append_dest hlen, htake,
            if_neg hsrc, List.length_nil, Nat.zero_add] at hscan
          split_ifs at hscan with hroom hshort hlong
          · refine scan_ne_fault hsrc ?_ (by omega) hscan
            rwa [List.length_append, htake]
          · cases hscan
          · omega

end

/-- The C string at an address. -/
def IsString (blocks : List Bytes) (p : ℕ) (text : Bytes) : Prop :=
  0 ∉ text ∧ ∃ after, blocks[p]? = some (text ++ 0 :: after)

/-- One address holds one text. -/
theorem IsString.unique {blocks : List Bytes} {p : ℕ} {text text' : Bytes}
    (h : IsString blocks p text) (h' : IsString blocks p text') : text = text' := by
  obtain ⟨hnul, after, hp⟩ := h
  obtain ⟨hnul', after', hp'⟩ := h'
  rw [hp, Option.some_inj] at hp'
  exact ((append_sep_inj hnul hnul').mp hp').1

/-- With enough fuel `adx_macro_replace` returns the text in which each occurrence is replaced, and
every block that was there before is as it was, the input among them. -/
def Replaces (blocks : List Bytes) (buf : ℕ) (src dest text : Bytes) : Prop :=
  ∃ turns, ∀ fuel ≥ turns, ∃ blocks' p,
    adxMacroReplace fuel blocks true (some buf) (some src) (some dest) = .ok (blocks', some p) ∧
      blocks <+: blocks' ∧ IsString blocks' p (replaceAll src dest text)

section

variable {blocks : List Bytes} {buf : ℕ} {src dest text : Bytes}

/-- A text that has been built is a C string. -/
theorem Represents.isString {buffer : State} {p : ℕ} (h : Represents blocks buffer text)
    (hstr : buffer.str = some p) (hnul : 0 ∉ text) : IsString buffer.blocks p text := by
  rcases h with ⟨hnone, -⟩ | ⟨q, k, h⟩
  · rw [hstr] at hnone
    cases hnone
  · rw [h.str, Option.some_inj] at hstr
    subst hstr
    have hroom := h.room
    obtain ⟨n, hn⟩ : ∃ n, 2 ^ k - text.length = n + 1 := ⟨2 ^ k - text.length - 1, by omega⟩
    refine ⟨hnul, List.replicate n 0, ?_⟩
    rw [h.block, hn, List.replicate_succ]

/-- A text that is not empty has an address. -/
theorem Represents.str_isSome {buffer : State} (h : Represents blocks buffer text)
    (hne : text ≠ []) : ∃ p, buffer.str = some p := by
  rcases h with ⟨-, hnil, -⟩ | ⟨q, k, h⟩
  · exact absurd hnil hne
  · exact ⟨q, h.str⟩

/-- With all arguments given the function is its loop. -/
theorem adxMacroReplace_eq (hsrc : src ≠ []) (hlen : src.length < 2 ^ 31) (fuel : ℕ) :
    adxMacroReplace fuel blocks true (some buf) (some src) (some dest) =
      (macroReplaceLoop buf src dest fuel ⟨blocks, 1024, 0, none⟩ 0).map fun x =>
        if x.2 then (x.1.blocks, x.1.str) else (x.1.blocks, some buf) := by
  have hpos : 0 < src.length := List.length_pos_iff.mpr hsrc
  have hnonzero : ¬ toInt32 src.length = 0 := by
    rw [toInt32_of_bounds (by omega) (by omega)]
    omega
  rw [adxMacroReplace]
  dsimp only
  rw [if_neg hnonzero]
  cases macroReplaceLoop buf src dest fuel ⟨blocks, 1024, 0, none⟩ 0 with
  | error e => rfl
  | ok x =>
    change (if x.2 = true then _ else _) = Except.ok (if x.2 = true then _ else _)
    split_ifs <;> rfl

/-- A text stays when blocks are added. -/
theorem IsString.of_frame {blocks' : List Bytes} (h : IsString blocks buf text)
    (hframe : blocks <+: blocks') : IsString blocks' buf text := by
  obtain ⟨hnul, after, hp⟩ := h
  exact ⟨hnul, after, Blocks.getElem?_of_frame hframe hp⟩

/-- For an empty input no block is made. -/
theorem macroReplaceLoop_nil (h : IsString blocks buf []) (fuel : ℕ) :
    macroReplaceLoop buf src dest (fuel + 1) ⟨blocks, 1024, 0, none⟩ 0 =
      .ok (⟨blocks, 1024, 0, none⟩, true) := by
  obtain ⟨hnul, after, hp⟩ := h
  have hread : readString blocks buf ([] : Bytes).length = .ok [] :=
    readString_eq List.prefix_rfl hp hnul
  rw [macroReplaceLoop]
  change readString blocks buf ([] : Bytes).length >>= _ = _
  rw [hread]
  rfl

/-- Replacing adds no zero byte. -/
theorem notMem_replaceAll (hnul : 0 ∉ text) (hdest : 0 ∉ dest) : 0 ∉ replaceAll src dest text := by
  intro h
  rcases mem_of_mem_replaceAll h with h | h
  · exact hnul h
  · exact hdest h

/-- A text that has been built from bytes has bytes. -/
theorem replaceAll_ne_nil (hsrc : src ≠ []) (hne : text ≠ [])
    (h : scan src dest [] text = .text (replaceAll src dest text)) :
    replaceAll src dest text ≠ [] := by
  have hstart := length_nil_lt
  cases hfind : find src text with
  | none => rwa [replaceAll_of_find_eq_none dest hfind]
  | some n =>
    have hdest := dest_ne_nil_of_scan hsrc hstart hfind h
    rw [replaceAll_of_find_eq_some hsrc dest hfind]
    simp [hdest]

variable (hbuf : IsString blocks buf text) (hsrc : src ≠ []) (hlen : src.length < 2 ^ 31)
include hbuf hsrc hlen

/-- The loop from the start refines the scan of the whole text. -/
theorem macroReplace_spec (dest : Bytes) {fuel : ℕ} (hfuel : text.length + 21 < fuel) :
    Refines blocks (macroReplaceLoop buf src dest fuel ⟨blocks, 1024, 0, none⟩ 0)
      (scan src dest [] text) := by
  obtain ⟨hnul, after, hp⟩ := hbuf
  have hinput : blocks[buf]? = some ([] ++ text ++ 0 :: after) := hp
  exact macroReplaceLoop_spec hsrc hlen hinput hnul
    (.inl ⟨rfl, rfl, rfl, rfl, List.prefix_rfl⟩) hfuel

/-- Whatever is returned, the input is not written to. -/
theorem prefix_of_adxMacroReplace {fuel : ℕ} (hfuel : text.length + 21 < fuel)
    {blocks' : List Bytes} {p : Option ℕ}
    (h : adxMacroReplace fuel blocks true (some buf) (some src) (some dest) = .ok (blocks', p)) :
    blocks <+: blocks' := by
  have hspec := macroReplace_spec hbuf hsrc hlen dest hfuel
  rw [adxMacroReplace_eq hsrc hlen] at h
  cases hscan : scan src dest [] text with
  | text r =>
    rw [hscan] at hspec
    obtain ⟨buffer, hloop, hbuffer⟩ := hspec
    rw [hloop] at h
    obtain ⟨rfl, -⟩ := Prod.mk.inj (Except.ok.inj h)
    exact hbuffer.frame
  | null =>
    rw [hscan] at hspec
    obtain ⟨buffer, hloop, hframe⟩ := hspec
    rw [hloop] at h
    obtain ⟨rfl, -⟩ := Prod.mk.inj (Except.ok.inj h)
    exact hframe
  | fault =>
    have hloop : macroReplaceLoop buf src dest fuel ⟨blocks, 1024, 0, none⟩ 0 = .error .fault := by
      rw [hscan] at hspec
      exact hspec
    rw [hloop] at h
    cases h

/-- If the code replaces, the text fits. -/
theorem fits_of_replaces (hdest : 0 ∉ dest) :
    Replaces blocks buf src dest text → text ≠ [] ∧ Fits src dest text := by
  have hstart := length_nil_lt
  rintro ⟨turns, h⟩
  obtain ⟨blocks', p, hrun, hframe, hresult⟩ :=
    h (max turns (text.length + 22)) (le_max_left _ _)
  -- what the loop does is known from the text alone
  have hspec := macroReplace_spec hbuf hsrc hlen dest
    (show text.length + 21 < max turns (text.length + 22) by omega)
  rw [adxMacroReplace_eq hsrc hlen] at hrun
  constructor
  · -- `buffer.str` is still `NULL`
    rintro rfl
    obtain ⟨fuel, hfuel⟩ : ∃ fuel, max turns (([] : Bytes).length + 22) = fuel + 1 :=
      ⟨max turns (([] : Bytes).length + 22) - 1, by omega⟩
    rw [hfuel, macroReplaceLoop_nil hbuf] at hrun
    cases hrun
  · rw [← scan_right_iff hsrc hlen]
    -- by the outcome of the scan of the text
    cases hscan : scan src dest [] text with
    | text r =>
      rw [hscan] at hspec
      obtain ⟨buffer, hloop, hbuffer⟩ := hspec
      rw [hloop] at hrun
      obtain ⟨rfl, hp⟩ := Prod.mk.inj (Except.ok.inj hrun)
      have hnul : 0 ∉ r := by
        intro hmem
        rcases mem_of_scan hsrc hstart hscan hmem with hmem | hmem | hmem
        · cases hmem
        · exact hbuf.1 hmem
        · exact hdest hmem
      exact .inl (congrArg _ ((hbuffer.isString hp hnul).unique hresult))
    | null =>
      rw [hscan] at hspec
      obtain ⟨buffer, hloop, hbuffer⟩ := hspec
      rw [hloop] at hrun
      obtain ⟨rfl, hp⟩ := Prod.mk.inj (Except.ok.inj hrun)
      cases hp
      exact .inr ⟨rfl, hresult.unique (hbuf.of_frame hframe)⟩
    | fault =>
      rw [hscan] at hspec
      have hloop : macroReplaceLoop buf src dest (max turns (text.length + 22))
        ⟨blocks, 1024, 0, none⟩ 0 = .error .fault := hspec
      rw [hloop] at hrun
      cases hrun

/-- If the text fits, the code replaces. -/
theorem replaces_of_fits (hdest : 0 ∉ dest) :
    text ≠ [] ∧ Fits src dest text → Replaces blocks buf src dest text := by
  rintro ⟨hne, hfits⟩
  refine ⟨text.length + 22, fun fuel hfuel => ?_⟩
  have hspec := macroReplace_spec hbuf hsrc hlen dest
    (show text.length + 21 < fuel by omega)
  rw [adxMacroReplace_eq hsrc hlen]
  rcases (scan_right_iff hsrc hlen).mpr hfits with hscan | ⟨hscan, hsame⟩
  · rw [hscan] at hspec
    obtain ⟨buffer, hloop, hbuffer⟩ := hspec
    obtain ⟨p, hp⟩ := hbuffer.str_isSome (replaceAll_ne_nil hsrc hne hscan)
    refine ⟨buffer.blocks, p, ?_, hbuffer.frame, hbuffer.isString hp ?_⟩
    · rw [hloop, ← hp]
      rfl
    · exact notMem_replaceAll hbuf.1 hdest
  · rw [hscan] at hspec
    obtain ⟨buffer, hloop, hframe⟩ := hspec
    refine ⟨buffer.blocks, buf, ?_, hframe, ?_⟩
    · rw [hloop]
      rfl
    · rw [hsame]
      exact hbuf.of_frame hframe

/-- When `adx_macro_replace` returns the right text. -/
theorem replaces_iff (hdest : 0 ∉ dest) :
    Replaces blocks buf src dest text ↔ text ≠ [] ∧ Fits src dest text :=
  ⟨fits_of_replaces hbuf hsrc hlen hdest, replaces_of_fits hbuf hsrc hlen hdest⟩

end

/-- A page with one macro, followed by a `NUL`. -/
def page : List Bytes := [bytes "x=#IP#;" ++ [0]]

/-- The sample page is a text in memory. -/
theorem isString_page : IsString page 0 (bytes "x=#IP#;") := ⟨by decide, [], rfl⟩

/-- A page where the macro is replaced. -/
theorem replaces_page :
    Replaces page 0 (bytes "#IP#") (bytes "10.0.0.1") (bytes "x=#IP#;") ↔
      bytes "x=#IP#;" ≠ [] ∧ Fits (bytes "#IP#") (bytes "10.0.0.1") (bytes "x=#IP#;") :=
  replaces_iff isString_page (by decide) (by decide) (by decide)

/-- An empty address leaves the macro in the page. -/
theorem not_replaces_by_nil :
    ¬ ∀ (blocks : List Bytes) (buf : ℕ) (src dest text : Bytes), IsString blocks buf text →
      src ≠ [] → 0 ∉ dest → Replaces blocks buf src dest text := by
  intro h
  have hreplaces := h page 0 (bytes "#IP#") [] (bytes "x=#IP#;") isString_page (by decide)
    (by decide)
  obtain ⟨-, hnone | ⟨hdest, -⟩ | ⟨hsame, -⟩⟩ :=
    fits_of_replaces isString_page (by decide) (by decide) (by decide) hreplaces
  · exact absurd hnone (by decide)
  · exact hdest rfl
  · exact absurd hsame (by decide)

end AdxString

end AdxDsp
