import AdxDsp.Json.Shape
import Mathlib.Data.Nat.Size

/-!
# The JSON printer

`adx_json_to_buffer` with all it calls (`adx_json.c`): a tree is written into a block, which is
replaced by one of twice the size when it is nearly full.

* **The printer**: `Buffer`, `adxJsonToBuffer`.
* **Its text**: `printChildren`, what is written as long as the block has room.
* `adxJsonToBuffer_eq_ok_iff`: when the printer succeeds, and with which text.
-/

namespace AdxDsp

open CText

namespace Json

/-! ## The block -/

/-- Why there is no text: the functions return -1 or `NULL`, or they use memory that is not theirs,
or the fuel is used up. -/
inductive Failure where
  | null
  | fault
  | unfinished
  deriving DecidableEq

/-- `adx_json_buffer`: the bytes that are written, whose number is `len`, and the size of the
block. -/
structure Buffer where
  text : Bytes
  total : ℤ

/-- A byte as `adx_json_buffer_strcat_escapes` writes it. -/
def escapeByte (c : UInt8) : Bytes :=
  if c = 8 then [92, 98] else if c = 12 then [92, 102] else if c = 13 then [92, 114]
  else if c = 10 then [92, 110] else if c = 9 then [92, 116] else if c = 92 then [92, 92]
  else if c = 34 then [92, 34] else if c = 47 then [92, 47] else [c]

/-- A text with its escapes. -/
def escape (str : Bytes) : Bytes := str.flatMap escapeByte

namespace Buffer

/-- `adx_json_buffer_realloc` -/
def realloc (b : Buffer) : Except Failure Buffer :=
  let total := toInt32 (b.total * 2)
  if allocates total then
    if b.text.length ≤ total then .ok ⟨b.text, total⟩ else .error .fault
  else .error .null

/-- `adx_json_buffer_strcat`: the block grows at most once. -/
def strcat (b : Buffer) (str : Bytes) : Except Failure Buffer :=
  let len := toInt32 (cstr str).length
  (if b.total - 1 ≤ toInt32 (b.text.length + len) then b.realloc else .ok b) >>= fun b =>
    if 0 ≤ len ∧ b.text.length + len ≤ b.total then
      .ok ⟨b.text ++ (cstr str).take len.toNat, b.total⟩
    else .error .fault

/-- The loop of `adx_json_buffer_strcat_escapes`, from a place in the block on: whether all of the
text could be written before the block was nearly full. -/
def escapesFit (total : ℤ) (pos : ℕ) : Bytes → Except Failure Bool
  | [] => .ok true
  | c :: str =>
    let pos := pos + (escapeByte c).length
    if total < pos then .error .fault
    else if total - 1 ≤ toInt32 pos then .ok false
    else escapesFit total pos str

/-- `adx_json_buffer_strcat_escapes`, which starts again in a greater block. -/
def strcatEscapes : ℕ → Buffer → Bytes → Except Failure Buffer
  | 0, _, _ => .error .unfinished
  | fuel + 1, b, str => do
    if ← escapesFit b.total b.text.length (cstr str) then .ok ⟨b.text ++ escape (cstr str), b.total⟩
    else
      let b ← b.realloc
      strcatEscapes fuel b str

/-- A key with its colon and what follows it, or only this. -/
def fromHead (fuel : ℕ) (b : Buffer) (key : Option Bytes) (after : Bytes) :
    Except Failure Buffer :=
  match key with
  | some key => do
    let b ← b.strcat [34]
    let b ← strcatEscapes fuel b key
    b.strcat ([34, 58] ++ after)
  | none => b.strcat after

/-- `adx_json_buffer_from_object` and `adx_json_buffer_from_array`: the brackets, with the loop over
the children between them. -/
def fromList (fuel : ℕ) (openBracket closeBracket : UInt8) (b : Buffer) (key : Option Bytes)
    (children : Buffer → Except Failure Buffer) : Except Failure Buffer := do
  let b ← fromHead fuel b key [openBracket]
  let b ← children b
  b.strcat [closeBracket]

/-- `adx_json_buffer_from_object`, with its loop. -/
def fromObject (fuel : ℕ) (b : Buffer) (key : Option Bytes)
    (children : Buffer → Except Failure Buffer) : Except Failure Buffer :=
  fromList fuel 123 125 b key children

/-- `adx_json_buffer_from_array`, with its loop. -/
def fromArray (fuel : ℕ) (b : Buffer) (key : Option Bytes)
    (children : Buffer → Except Failure Buffer) : Except Failure Buffer :=
  fromList fuel 91 93 b key children

/-- `adx_json_buffer_from_string`; without a value it reads through a null pointer. -/
def fromString (fuel : ℕ) (b : Buffer) (key val : Option Bytes) : Except Failure Buffer := do
  let b ← fromHead fuel b key [34]
  match val with
  | none => .error .fault
  | some val =>
    let b ← strcatEscapes fuel b val
    b.strcat [34]

/-- A key with its colon, if there is one. -/
def fromKey (fuel : ℕ) (b : Buffer) (key : Option Bytes) : Except Failure Buffer :=
  if key.isSome then fromHead fuel b key [] else .ok b

/-- `adx_json_buffer_from_other`; without a value it reads through a null pointer. -/
def fromOther (fuel : ℕ) (b : Buffer) (key val : Option Bytes) : Except Failure Buffer := do
  let b ← fromKey fuel b key
  match val with
  | none => .error .fault
  | some val => b.strcat val

/-- What the loop over the children does for a child; an empty one is left out. -/
def fromEntry (fuel : ℕ) (b : Buffer) (type : JsonType) (key val : Option Bytes)
    (children : Buffer → Except Failure Buffer) : Except Failure Buffer :=
  match type with
  | .object => b.fromObject fuel key children
  | .array => b.fromArray fuel key children
  | .string => b.fromString fuel key val
  | .number => b.fromOther fuel key val
  | .bool => b.fromOther fuel key val
  | .null => b.fromOther fuel key val
  | .empty => .ok b
  | .unset => .error .null

/-- The comma between two children. -/
def fromComma (comma : Bool) (b : Buffer) : Except Failure Buffer :=
  if comma then b.strcat [44] else .ok b

/-- The loop over the children, the same in objects and in arrays; `comma` says whether the child
before was written. -/
def fromChildren (fuel : ℕ) : Bool → JsonList → Buffer → Except Failure Buffer
  | _, .nil, b => .ok b
  | comma, .cons type key val child next, b => do
    let b ← fromComma comma b
    let b ← b.fromEntry fuel type key val (fromChildren fuel false child)
    fromChildren fuel (type ≠ .empty) next b

end Buffer

/-- `adx_json_to_buffer` -/
def adxJsonToBuffer (fuel : ℕ) (node : AdxJson) : Except Failure Bytes := do
  let b ← Buffer.fromObject fuel ⟨[], 2048⟩ node.key (Buffer.fromChildren fuel false node.child)
  if b.text.length ≤ 0 then .error .null
  else if b.text.length < b.total then .ok b.text
  else .error .fault

/-! ## The text -/

/-- A key with its colon and what follows it. -/
def printHead (key : Option Bytes) (after : Bytes) : Bytes :=
  key.elim after fun key => [34] ++ (escape key ++ ([34, 58] ++ after))

/-- The text of a child whose own children have a text. -/
def printEntry (type : JsonType) (key val : Option Bytes) (children : Bytes) : Bytes :=
  match type with
  | .object => printHead key [123] ++ (children ++ [125])
  | .array => printHead key [91] ++ (children ++ [93])
  | .string => printHead key [34] ++ (escape (val.getD []) ++ [34])
  | .number => printHead key [] ++ val.getD []
  | .bool => printHead key [] ++ val.getD []
  | .null => printHead key [] ++ val.getD []
  | .empty => []
  | .unset => []

/-- The text of a list of children. -/
def printChildren : Bool → JsonList → Bytes
  | _, .nil => []
  | comma, .cons type key val child next =>
    (if comma then [44] else []) ++ (printEntry type key val (printChildren false child) ++
      printChildren (type ≠ .empty) next)

/-- The size of the block when `n` bytes are written. -/
def capacity (n : ℕ) : ℕ := 2 ^ max 11 (Nat.size (n + 1))

/-- A value that is written without escapes fits into a block of twice the size. -/
def ValueFits (n : ℕ) (val : Bytes) : Prop := n + val.length ≤ 2 * capacity n

/-- The value of a child fits, where `n` bytes have been written before; those of its children
do. -/
def EntryFits (n : ℕ) (type : JsonType) (key val : Option Bytes) (children : Prop) : Prop :=
  match type with
  | .object => children
  | .array => children
  | .string => True
  | .number => ValueFits (n + (printHead key []).length) (val.getD [])
  | .bool => ValueFits (n + (printHead key []).length) (val.getD [])
  | .null => ValueFits (n + (printHead key []).length) (val.getD [])
  | .empty => True
  | .unset => False

/-- All such values of a list of children fit. -/
def OthersFit : ℕ → Bool → JsonList → Prop
  | _, _, .nil => True
  | n, comma, .cons type key val child next =>
    let n := n + if comma then 1 else 0
    EntryFits n type key val (OthersFit (n + (printHead key [123]).length) false child) ∧
      OthersFit (n + (printEntry type key val (printChildren false child)).length)
        (type ≠ .empty) next

/-- A value that is written without escapes does no harm behind `n` bytes: it fits, and its end is
an `int`.  From 2^30 - 1 bytes on, nothing is written any more. -/
def ValueSafe (n : ℕ) (val : Bytes) : Prop :=
  n + 1 < 2 ^ 30 → ValueFits n val ∧ n + val.length < 2 ^ 31

/-- The value of a child does no harm, where `n` bytes have been written before; those of its
children do none. -/
def EntrySafe (n : ℕ) (type : JsonType) (key val : Option Bytes) (children : Prop) : Prop :=
  match type with
  | .object => children
  | .array => children
  | .string => True
  | .number => ValueSafe (n + (printHead key []).length) (val.getD [])
  | .bool => ValueSafe (n + (printHead key []).length) (val.getD [])
  | .null => ValueSafe (n + (printHead key []).length) (val.getD [])
  | .empty => True
  | .unset => True

/-- No such value of a list of children does harm. -/
def OthersSafe : ℕ → Bool → JsonList → Prop
  | _, _, .nil => True
  | n, comma, .cons type key val child next =>
    let n := n + if comma then 1 else 0
    EntrySafe n type key val (OthersSafe (n + (printHead key [123]).length) false child) ∧
      OthersSafe (n + (printEntry type key val (printChildren false child)).length)
        (type ≠ .empty) next

/-- Behind 2^30 bytes there is nothing left to go wrong. -/
theorem othersSafe_of_le {n : ℕ} {comma : Bool} {l : JsonList} (h : 2 ^ 30 ≤ n + 1) :
    OthersSafe n comma l := by
  induction l generalizing n comma with
  | nil => trivial
  | cons type key val child next ihc ih =>
    have hvalue : ∀ m v, n ≤ m → ValueSafe m v := fun m v hm hlt => by omega
    refine ⟨?_, ih (by omega)⟩
    cases type with
    | object => exact ihc (by omega)
    | array => exact ihc (by omega)
    | number => exact hvalue _ _ (by omega)
    | bool => exact hvalue _ _ (by omega)
    | null => exact hvalue _ _ (by omega)
    | string => trivial
    | empty => trivial
    | unset => trivial

/-! ## Trees that can be printed -/

section

variable (P : Bytes → Prop)

/-- The value that a type needs: a C string, in `P` where it is written without escapes. -/
def NodeTyped (type : JsonType) (val : Option Bytes) (children : Prop) : Prop :=
  match type with
  | .unset => False
  | .object => children
  | .array => children
  | .empty => True
  | .string => ∃ v, val = some v ∧ 0 ∉ v
  | .number => ∃ v, val = some v ∧ 0 ∉ v ∧ P v
  | .bool => ∃ v, val = some v ∧ 0 ∉ v ∧ P v
  | .null => ∃ v, val = some v ∧ 0 ∉ v ∧ P v

/-- Every child has a type and the value that it needs, and keys are C strings. -/
def Typed : JsonList → Prop
  | .nil => True
  | .cons type key val child next =>
    (∀ k ∈ key, 0 ∉ k) ∧ NodeTyped P type val (Typed child) ∧ Typed next

end

/-! ## Blocks with room -/

namespace Buffer

/-- The block is the smallest one, or it is needed; what is written fits into it. -/
def Room (b : Buffer) : Prop :=
  ∃ k, 11 ≤ k ∧ k ≤ 30 ∧ b.total = (2 ^ k : ℕ) ∧ b.text.length ≤ 2 ^ k ∧
    (k = 11 ∨ 2 ^ (k - 1) ≤ b.text.length + 1)

/-- Two bytes more fit. -/
def Roomy (b : Buffer) : Prop := b.Room ∧ (b.text.length : ℤ) + 1 < b.total

/-- What becomes of printing a text behind what is written: it is there, or the block cannot grow
any more, or it has been left. -/
def Writes (r : Except Failure Buffer) (before text : Bytes) (fits safe : Prop)
    (Q : Buffer → Prop) : Prop :=
  match r with
  | .ok b => b.text = before ++ text ∧ Q b ∧ fits ∧ safe
  | .error .null => 2 ^ 30 ≤ before.length + text.length + 1 ∧ safe
  | .error .fault => ¬safe ∧ (fits → 2 ^ 30 ≤ before.length + text.length)
  | .error .unfinished => False

section

variable {r : Except Failure Buffer} {f : Buffer → Except Failure Buffer} {b : Buffer}
  {before text text' : Bytes} {fits fits' safe safe' : Prop} {Q Q' : Buffer → Prop}

/-- Writing nothing. -/
theorem writes_ok (hb : Q b) : Writes (.ok b) b.text [] True True Q :=
  ⟨(List.append_nil _).symm, hb, trivial, trivial⟩

/-- The same writing, with its conditions put otherwise. -/
theorem Writes.mono (h : Writes r before text fits safe Q) (hQ : ∀ b, Q b → Q' b)
    (hfits : fits ↔ fits') (hsafe : safe ↔ safe') : Writes r before text fits' safe' Q' := by
  cases r with
  | ok b => exact ⟨h.1, hQ b h.2.1, hfits.mp h.2.2.1, hsafe.mp h.2.2.2⟩
  | error e =>
    cases e with
    | null => exact ⟨h.1, hsafe.mp h.2⟩
    | fault => exact ⟨fun hs => h.1 (hsafe.mpr hs), fun hf => h.2 (hfits.mpr hf)⟩
    | unfinished => exact h

/-- The outcome of the second text, told from before the first one. -/
theorem Writes.prepend (h : Writes r (before ++ text) text' fits' safe' Q') (hfits : fits)
    (hsafe : safe) : Writes r before (text ++ text') (fits ∧ fits') (safe ∧ safe') Q' := by
  have hlen : (before ++ text).length + text'.length =
      before.length + (text ++ text').length := by
    simp only [List.length_append]
    omega
  cases r with
  | ok b => exact ⟨h.1.trans (List.append_assoc _ _ _), h.2.1, ⟨hfits, h.2.2.1⟩, hsafe, h.2.2.2⟩
  | error e =>
    cases e with
    | null => exact ⟨hlen ▸ h.1, hsafe, h.2⟩
    | fault => exact ⟨fun hs => h.1 hs.2, fun hf => hlen ▸ h.2 hf.2⟩
    | unfinished => exact h

/-- The rule for one text after another; where nothing is written any more, the second text does no
harm. -/
theorem Writes.bind (h : Writes r before text fits safe Q)
    (hf : ∀ b, b.text = before ++ text → Q b → Writes (f b) b.text text' fits' safe' Q')
    (hend : 2 ^ 30 ≤ before.length + text.length + 1 → safe') :
    Writes (r >>= f) before (text ++ text') (fits ∧ fits') (safe ∧ safe') Q' := by
  cases r with
  | ok b =>
    obtain ⟨htext, hQ, hfits, hsafe⟩ := h
    have h' := hf b htext hQ
    rw [htext] at h'
    exact h'.prepend hfits hsafe
  | error e =>
    cases e with
    | null =>
      refine ⟨?_, h.2, hend h.1⟩
      have := h.1
      rw [List.length_append]
      omega
    | fault =>
      refine ⟨fun hs => h.1 hs.1, fun hfits => ?_⟩
      have := h.2 hfits.1
      rw [List.length_append]
      omega
    | unfinished => exact h

/-- The rule when the second text has no values. -/
theorem Writes.bind_text (h : Writes r before text fits safe Q)
    (hf : ∀ b, b.text = before ++ text → Q b → Writes (f b) b.text text' True True Q') :
    Writes (r >>= f) before (text ++ text') fits safe Q' :=
  (h.bind hf fun _ => trivial).mono (fun _ => id) (iff_of_eq (and_true _))
    (iff_of_eq (and_true _))

end

section

variable {b : Buffer} {k : ℕ}

/-- The sizes of the buffer, from the first one to the largest. -/
theorem two_pow_bounds (hlo : 11 ≤ k) (hhi : k ≤ 30) : 2 ^ 11 ≤ 2 ^ k ∧ 2 ^ k ≤ 2 ^ 30 :=
  ⟨Nat.pow_le_pow_right (by omega) hlo, Nat.pow_le_pow_right (by omega) hhi⟩

/-- The size of the block is the capacity for what is written. -/
theorem Roomy.total_eq (h : b.Roomy) : b.total = capacity b.text.length := by
  obtain ⟨⟨k, hlo, hhi, htotal, -, hneeded⟩, hroom⟩ := h
  rw [htotal] at hroom ⊢
  have hsize : Nat.size (b.text.length + 1) ≤ k := Nat.size_le.mpr (by exact_mod_cast hroom)
  unfold capacity
  have hmax : max 11 (Nat.size (b.text.length + 1)) = k := by
    -- a block that is larger than the first one is needed
    rcases hneeded with rfl | hneeded
    · exact max_eq_left hsize
    · have hlt : k - 1 < Nat.size (b.text.length + 1) := Nat.lt_size.mpr hneeded
      omega
  rw [hmax]

/-- Doubling the block, which fails at 2^30 bytes. -/
theorem realloc_eq (hlo : 11 ≤ k) (hhi : k ≤ 30) (htotal : b.total = (2 ^ k : ℕ))
    (hle : b.text.length ≤ 2 ^ k) :
    b.realloc = if k < 30 then .ok ⟨b.text, (2 ^ (k + 1) : ℕ)⟩ else .error .null := by
  unfold realloc
  dsimp only
  rw [htotal]
  by_cases hk : k < 30
  · obtain ⟨hmin, hmax⟩ : 2 ^ 11 ≤ 2 ^ k ∧ 2 ^ k ≤ 2 ^ 29 :=
      ⟨Nat.pow_le_pow_right (by omega) hlo, Nat.pow_le_pow_right (by omega) (by omega)⟩
    have hsucc : 2 ^ (k + 1) = 2 ^ k * 2 := Nat.pow_succ ..
    have htwo : toInt32 (((2 ^ k : ℕ) : ℤ) * 2) = (2 ^ (k + 1) : ℕ) := by
      rw [toInt32_of_bounds (by omega) (by omega), hsucc]
      rfl
    have halloc : allocates (2 ^ (k + 1) : ℕ) = true := by
      unfold allocates
      rw [decide_eq_true_iff, hsucc]
      omega
    rw [htwo, if_pos halloc, if_pos (by rw [hsucc]; omega), if_pos hk]
  · -- twice 2^30 is no positive `int`
    obtain rfl : k = 30 := by omega
    rw [if_neg (by decide), if_neg hk]

/-- Where a text whose length is an `int` is written: into the block, into one of twice the size, or
nowhere. -/
theorem strcat_cases {str : Bytes} (hlo : 11 ≤ k) (hhi : k ≤ 30) (htotal : b.total = (2 ^ k : ℕ))
    (hle : b.text.length ≤ 2 ^ k) (hzero : 0 ∉ str) (hlen : str.length < 2 ^ 31) :
    b.text.length + str.length + 1 < 2 ^ k ∧ b.strcat str = .ok ⟨b.text ++ str, (2 ^ k : ℕ)⟩ ∨
      2 ^ k ≤ b.text.length + str.length + 1 ∧ k < 30 ∧
        b.text.length + str.length ≤ 2 ^ (k + 1) ∧
        b.strcat str = .ok ⟨b.text ++ str, (2 ^ (k + 1) : ℕ)⟩ ∨
      2 ^ k ≤ b.text.length + str.length + 1 ∧
        ¬(k < 30 ∧ b.text.length + str.length ≤ 2 ^ (k + 1)) ∧ b.strcat str =
          .error (if k < 30 ∨ 2 ^ 31 ≤ b.text.length + str.length then .fault else .null) := by
  obtain ⟨hmin, hmax⟩ := two_pow_bounds hlo hhi
  have hint : toInt32 (str.length : ℤ) = str.length := toInt32_of_bounds (by omega) (by omega)
  -- the copy is made where there is room for all of it
  have hwrite : ∀ total : ℤ,
      (if 0 ≤ (str.length : ℤ) ∧ (b.text.length : ℤ) + str.length ≤ total then
        .ok ⟨b.text ++ str.take (str.length : ℤ).toNat, total⟩ else .error .fault :
          Except Failure Buffer) =
        if (b.text.length : ℤ) + str.length ≤ total then .ok ⟨b.text ++ str, total⟩
        else .error .fault := by
    intro total
    rw [Int.toNat_natCast, List.take_length]
    simp only [Int.natCast_nonneg, true_and]
  -- the block grows before the copy, by one step at most
  have hstrcat : b.strcat str =
      (if b.total - 1 ≤ toInt32 ((b.text.length : ℤ) + str.length) then b.realloc else .ok b).bind
        fun b' => if 0 ≤ (str.length : ℤ) ∧ (b'.text.length : ℤ) + str.length ≤ b'.total then
          .ok ⟨b'.text ++ str.take (str.length : ℤ).toNat, b'.total⟩ else .error .fault := by
    unfold strcat
    rw [cstr_eq_self hzero, hint]
    rfl
  rw [hstrcat, realloc_eq hlo hhi htotal hle, htotal]
  by_cases hsmall : b.text.length + str.length + 1 < 2 ^ k
  · left
    have hsum : toInt32 ((b.text.length : ℤ) + str.length) = b.text.length + str.length :=
      toInt32_of_bounds (by omega) (by omega)
    rw [hsum, if_neg (by omega)]
    refine ⟨hsmall, ?_⟩
    rw [Except.bind, hwrite, htotal, if_pos (by omega)]
  -- the block is too small, and is doubled where it can be
  · right
    by_cases hwrap : b.text.length + str.length < 2 ^ 31
    · have hsum : toInt32 ((b.text.length : ℤ) + str.length) = b.text.length + str.length :=
        toInt32_of_bounds (by omega) (by omega)
      rw [hsum, if_pos (by omega)]
      by_cases hk : k < 30
      · rw [if_pos hk, Except.bind, hwrite]
        dsimp only
        by_cases hfit : b.text.length + str.length ≤ 2 ^ (k + 1)
        · exact .inl ⟨by omega, hk, hfit, by rw [if_pos (by omega)]⟩
        · exact .inr ⟨by omega, fun h => hfit h.2, by rw [if_neg (by omega), if_pos (.inl hk)]⟩
      · rw [if_neg hk, if_neg (by omega)]
        exact .inr ⟨by omega, fun h => hk h.1, rfl⟩
    · -- the sum of the lengths is negative, so that the block does not grow
      right
      have hsucc : 2 ^ (k + 1) = 2 ^ k * 2 := Nat.pow_succ ..
      have hsum : toInt32 ((b.text.length : ℤ) + str.length) < 0 := by
        rw [toInt32_eq]
        split_ifs <;> omega
      refine ⟨by omega, fun h => ?_, ?_⟩
      · have : 2 ^ k ≤ 2 ^ 29 := Nat.pow_le_pow_right (by omega) (by omega)
        omega
      · rw [if_neg (by omega), Except.bind, hwrite, htotal, if_neg (by omega), if_pos (by omega)]

/-- A text whose length is a negative `int` is no text that can be copied. -/
theorem strcat_negative {str : Bytes} (h : b.Roomy) (hzero : 0 ∉ str)
    (hlo : 2 ^ 31 ≤ str.length) (hhi : str.length < 2 ^ 32) : b.strcat str = .error .fault := by
  obtain ⟨⟨k, hklo, hkhi, htotal, -, -⟩, hroom⟩ := h
  obtain ⟨hmin, hmax⟩ := two_pow_bounds hklo hkhi
  have hneg : toInt32 (str.length : ℤ) = str.length - 2 ^ 32 := by
    rw [toInt32_eq]
    split_ifs <;> omega
  have hsum : toInt32 ((b.text.length : ℤ) + (str.length - 2 ^ 32)) =
      b.text.length + (str.length - 2 ^ 32) := toInt32_of_bounds (by omega) (by omega)
  unfold strcat
  rw [cstr_eq_self hzero, hneg]
  dsimp only
  rw [hsum, if_neg (by omega)]
  exact if_neg (by omega)

/-- A value is written if it fits. -/
theorem Writes.value {str : Bytes} (h : b.Roomy) (hzero : 0 ∉ str) (hlen : str.length < 2 ^ 32) :
    Writes (b.strcat str) b.text str (ValueFits b.text.length str) (ValueSafe b.text.length str)
      Room := by
  by_cases hint : 2 ^ 31 ≤ str.length
  · rw [strcat_negative h hzero hint hlen]
    obtain ⟨⟨k, hlo, hhi, htotal, -, -⟩, hroom⟩ := h
    have := two_pow_bounds hlo hhi
    refine ⟨fun hsafe => ?_, fun _ => by omega⟩
    have := (hsafe (by omega)).2
    omega
  have hcap := h.total_eq
  obtain ⟨⟨k, hlo, hhi, htotal, hle, hneeded⟩, hroom⟩ := h
  have hcapk : capacity b.text.length = 2 ^ k := by exact_mod_cast hcap.symm.trans htotal
  have hsucc : 2 ^ (k + 1) = 2 ^ k * 2 := Nat.pow_succ ..
  obtain ⟨hmin, hmax⟩ := two_pow_bounds hlo hhi
  unfold ValueSafe ValueFits
  rw [hcapk]
  -- there is room, or the block is doubled, or the call fails
  rcases strcat_cases hlo hhi htotal hle hzero (not_le.mp hint) with
    ⟨hsmall, heq⟩ | ⟨hlarge, hk, hfit, heq⟩ | ⟨hlarge, hnot, heq⟩
  · rw [heq]
    refine ⟨rfl, ⟨k, hlo, hhi, rfl, ?_, hneeded.imp_right fun h => ?_⟩, by omega, by omega⟩
    · rw [List.length_append]
      omega
    · rw [List.length_append]
      omega
  · rw [heq]
    have : 2 ^ (k + 1) ≤ 2 ^ 30 := Nat.pow_le_pow_right (by omega) hk
    refine ⟨rfl, ⟨k + 1, by omega, hk, rfl, ?_, .inr ?_⟩, by omega, by omega⟩
    · rw [List.length_append]
      exact hfit
    · rw [List.length_append, Nat.add_sub_cancel]
      exact hlarge
  · -- the block could grow, but not enough; or it cannot grow
    rw [heq]
    split_ifs with hfault
    · refine ⟨fun hsafe => ?_, fun hfits => ?_⟩
      · have := hsafe (by omega)
        omega
      · omega
    · obtain rfl : k = 30 := by omega
      exact ⟨by omega, by omega⟩

/-- A short text is written if the block can grow, and leaves room. -/
theorem Writes.literal {str : Bytes} (h : b.Room) (hzero : 0 ∉ str) (hpos : 0 < str.length)
    (hlen : str.length ≤ 3) : Writes (b.strcat str) b.text str True True Roomy := by
  obtain ⟨k, hlo, hhi, htotal, hle, hneeded⟩ := h
  obtain ⟨hmin, hmax⟩ := two_pow_bounds hlo hhi
  have hsucc : 2 ^ (k + 1) = 2 ^ k * 2 := Nat.pow_succ ..
  rcases strcat_cases hlo hhi htotal hle hzero (by omega) with
    ⟨hsmall, heq⟩ | ⟨hlarge, hk, hfit, heq⟩ | ⟨hlarge, hnot, heq⟩
  · rw [heq]
    refine ⟨rfl, ⟨⟨k, hlo, hhi, rfl, ?_, hneeded.imp_right fun h => ?_⟩, ?_⟩, trivial, trivial⟩
    all_goals
      dsimp only
      rw [List.length_append]
      omega
  · rw [heq]
    refine ⟨rfl, ⟨⟨k + 1, by omega, hk, rfl, ?_, .inr ?_⟩, ?_⟩, trivial, trivial⟩
    · rw [List.length_append]
      exact hfit
    · rw [List.length_append, Nat.add_sub_cancel]
      exact hlarge
    · dsimp only
      rw [List.length_append, hsucc]
      omega
  · obtain rfl : k = 30 := by omega
    rw [heq, if_neg (by omega)]
    exact ⟨hlarge, trivial⟩

/-- An escaped byte has one byte or two. -/
theorem length_escapeByte (c : UInt8) :
    1 ≤ (escapeByte c).length ∧ (escapeByte c).length ≤ 2 := by
  unfold escapeByte
  split_ifs <;> simp

/-- The loop over a text goes to its end if two bytes more fit behind it. -/
theorem escapesFit_eq (hlo : 11 ≤ k) (hhi : k ≤ 30) {pos : ℕ} (hpos : pos + 1 < 2 ^ k)
    (str : Bytes) :
    escapesFit (2 ^ k : ℕ) pos str = .ok (decide (pos + (escape str).length + 1 < 2 ^ k)) := by
  obtain ⟨hmin, hmax⟩ := two_pow_bounds hlo hhi
  induction str generalizing pos with
  | nil => simp [escapesFit, escape, hpos]
  | cons c str ih =>
    obtain ⟨hone, htwo⟩ := length_escapeByte c
    have hint : toInt32 ((pos + (escapeByte c).length : ℕ) : ℤ) =
        (pos + (escapeByte c).length : ℕ) :=
      toInt32_of_bounds (by omega) (by omega)
    have hlen : (escape (c :: str)).length = (escapeByte c).length + (escape str).length := by
      simp [escape]
    rw [escapesFit, hlen, if_neg (by omega), hint]
    -- the loop stops as soon as one byte less than two is left
    by_cases hfull : 2 ^ k ≤ pos + (escapeByte c).length + 1
    · rw [if_pos (by omega), decide_eq_false (by omega)]
    · rw [if_neg (by omega), ih (by omega)]
      exact congrArg Except.ok (decide_eq_decide.mpr (by omega))

/-- A text with escapes: the block grows until the text fits. -/
theorem strcatEscapes_spec {fuel : ℕ} {str : Bytes} (hlo : 11 ≤ k) (hhi : k ≤ 30)
    (htotal : b.total = (2 ^ k : ℕ)) (hroom : b.text.length + 1 < 2 ^ k)
    (hneeded : k = 11 ∨ 2 ^ (k - 1) ≤ b.text.length + (escape str).length + 1)
    (hzero : 0 ∉ str) (hfuel : 31 ≤ k + fuel) :
    Writes (strcatEscapes fuel b str) b.text (escape str) True True Roomy := by
  -- by induction on the fuel; each turn doubles the block
  induction fuel generalizing b k with
  | zero => omega
  | succ fuel ih =>
    have hstep : strcatEscapes (fuel + 1) b str =
        if b.text.length + (escape str).length + 1 < 2 ^ k then .ok ⟨b.text ++ escape str, b.total⟩
        else b.realloc >>= fun b => strcatEscapes fuel b str := by
      rw [strcatEscapes, cstr_eq_self hzero, htotal, escapesFit_eq hlo hhi hroom]
      by_cases hfit : b.text.length + (escape str).length + 1 < 2 ^ k
      · rw [if_pos hfit, decide_eq_true hfit]
        rfl
      · rw [if_neg hfit, decide_eq_false hfit]
        rfl
    rw [hstep, realloc_eq hlo hhi htotal (by omega)]
    by_cases hfit : b.text.length + (escape str).length + 1 < 2 ^ k
    · rw [if_pos hfit]
      refine ⟨rfl, ⟨⟨k, hlo, hhi, htotal, ?_, hneeded.imp_right fun h => ?_⟩, ?_⟩, trivial,
        trivial⟩
      all_goals
        dsimp only
        rw [List.length_append]
        omega
    · rw [if_neg hfit]
      by_cases hk : k < 30
      · -- the loop starts again, with the text where it was
        rw [if_pos hk]
        have hsucc : 2 ^ (k + 1) = 2 ^ k * 2 := Nat.pow_succ ..
        refine ih (b := ⟨b.text, (2 ^ (k + 1) : ℕ)⟩) (k := k + 1) (by omega) hk rfl ?_ (.inr ?_)
          (by omega)
        · dsimp only
          omega
        · rw [Nat.add_sub_cancel]
          dsimp only
          omega
      -- the largest block is full
      · rw [if_neg hk]
        obtain rfl : k = 30 := by omega
        exact ⟨not_lt.mp hfit, trivial⟩

/-- An escaped text is written byte by byte. -/
theorem Writes.escapes {fuel : ℕ} {str : Bytes} (h : b.Roomy) (hzero : 0 ∉ str)
    (hfuel : 20 ≤ fuel) :
    Writes (strcatEscapes fuel b str) b.text (escape str) True True Roomy := by
  obtain ⟨⟨k, hlo, hhi, htotal, -, hneeded⟩, hroom⟩ := h
  exact strcatEscapes_spec hlo hhi htotal (by omega)
    (hneeded.imp_right fun h => (show _ ≤ b.text.length + (escape str).length + 1 by omega)) hzero
    (show 31 ≤ k + fuel by omega)

/-- The name, the colon and the bytes behind it. -/
theorem Writes.head {fuel : ℕ} {key : Option Bytes} {after : Bytes} (h : b.Room)
    (hkey : ∀ k ∈ key, 0 ∉ k) (hzero : 0 ∉ after) (hlen : after.length ≤ 1)
    (hpos : key.isSome ∨ 0 < after.length) (hfuel : 20 ≤ fuel) :
    Writes (fromHead fuel b key after) b.text (printHead key after) True True Roomy := by
  cases key with
  | none => exact .literal h hzero (hpos.resolve_left nofun) (by omega)
  | some key =>
    have hend : 0 ∉ [34, 58] ++ after := by simpa using hzero
    refine Writes.bind_text (.literal h (by decide) (by decide) (by decide)) fun b₁ _ h₁ =>
      Writes.bind_text (.escapes h₁ (hkey key rfl) hfuel) fun b₂ _ h₂ =>
        .literal h₂.1 hend ?_ ?_
    · simp
    · simp only [List.length_append, List.length_cons, List.length_nil]
      omega

/-- Keys and values that the parser copies can be printed. -/
def Printable (v : Bytes) : Prop := 0 ∉ v ∧ v.length < 2 ^ 31

section

variable {fuel : ℕ} {key val : Option Bytes} {children : Buffer → Except Failure Buffer}
  {text : Bytes} {fits safe : Prop} (h : b.Roomy) (hkey : ∀ k ∈ key, 0 ∉ k) (hfuel : 20 ≤ fuel)

include h hkey hfuel

/-- A list: what opens it, the children, what closes it. -/
theorem Writes.list {openBracket closeBracket : UInt8} (hopen : openBracket ≠ 0)
    (hclose : closeBracket ≠ 0)
    (hchildren : ∀ b', b'.text = b.text ++ printHead key [openBracket] → b'.Roomy →
      Writes (children b') b'.text text fits safe Room)
    (hend : 2 ^ 30 ≤ b.text.length + (printHead key [openBracket]).length + 1 → safe) :
    Writes (fromList fuel openBracket closeBracket b key children) b.text
      (printHead key [openBracket] ++ (text ++ [closeBracket])) fits safe Roomy := by
  have hzero : ∀ c : UInt8, c ≠ 0 → 0 ∉ [c] := fun c hc => by simpa using hc.symm
  refine Writes.mono (Writes.bind (.head h.1 hkey (hzero _ hopen) (by simp) (.inr (by simp))
    hfuel) (fun b₁ htext h₁ => Writes.bind_text (hchildren b₁ htext h₁) fun b₂ _ h₂ =>
      .literal h₂ (hzero _ hclose) (by simp) (by simp)) hend) (fun _ => id)
      (iff_of_eq (true_and _)) (iff_of_eq (true_and _))

/-- A string in its quotation marks. -/
theorem Writes.string (hval : ∃ v, val = some v ∧ 0 ∉ v) :
    Writes (fromString fuel b key val) b.text
      (printHead key [34] ++ (escape (val.getD []) ++ [34])) True True Room := by
  obtain ⟨v, rfl, hv⟩ := hval
  refine Writes.mono (Writes.bind_text (.head h.1 hkey (by decide) (by decide) (.inr (by decide))
    hfuel) fun b₁ _ h₁ => Writes.bind_text (.escapes h₁ hv hfuel) fun b₂ _ h₂ =>
      .literal h₂.1 (by decide) (by decide) (by decide)) (fun _ hb => hb.1) Iff.rfl Iff.rfl

/-- A number or a literal, whose copy needs room. -/
theorem Writes.other (hval : ∃ v, val = some v ∧ 0 ∉ v ∧ v.length < 2 ^ 32) :
    Writes (fromOther fuel b key val) b.text (printHead key [] ++ val.getD [])
      (ValueFits (b.text.length + (printHead key []).length) (val.getD []))
      (ValueSafe (b.text.length + (printHead key []).length) (val.getD [])) Room := by
  obtain ⟨v, rfl, hv, hlen⟩ := hval
  have hhead : Writes (fromKey fuel b key) b.text (printHead key []) True True Roomy := by
    cases key with
    | none => exact writes_ok h
    | some key => exact .head h.1 hkey (by decide) (by decide) (.inl rfl) hfuel
  refine Writes.mono (Writes.bind hhead (fun b₁ htext h₁ => ?_) fun hend hlt => ?_)
    (fun _ => id) (iff_of_eq (true_and _)) (iff_of_eq (true_and _))
  · have hpos : b.text.length + (printHead key []).length = b₁.text.length := by
      rw [htext, List.length_append]
    rw [hpos]
    exact .value h₁ hv hlen
  · omega

omit h hkey hfuel in
/-- The length of a head does not depend on its last byte. -/
theorem length_printHead (c d : UInt8) :
    (printHead key [c]).length = (printHead key [d]).length := by
  cases key <;> simp [printHead]

/-- What is written for a child. -/
theorem Writes.entry {type : JsonType} {typed : Prop}
    (htyped : NodeTyped (·.length < 2 ^ 32) type val typed)
    (hchildren : typed → ∀ c b', b'.text = b.text ++ printHead key [c] → b'.Roomy →
      Writes (children b') b'.text text fits safe Room)
    (hend : 2 ^ 30 ≤ b.text.length + (printHead key [123]).length + 1 → safe) :
    Writes (fromEntry fuel b type key val children) b.text (printEntry type key val text)
      (EntryFits b.text.length type key val fits) (EntrySafe b.text.length type key val safe)
      fun b' => b'.Room ∧ (type = .empty → b'.Roomy) := by
  have hroom : ∀ {b' : Buffer}, type ≠ .empty → b'.Room →
      b'.Room ∧ (type = .empty → b'.Roomy) := fun hne hb => ⟨hb, fun heq => absurd heq hne⟩
  -- each type has its own function, and a lemma about it
  cases type with
  | unset => exact htyped.elim
  | object =>
    exact (Writes.list h hkey hfuel (by decide) (by decide) (hchildren htyped 123) hend).mono
      (fun _ hb => hroom nofun hb.1) Iff.rfl Iff.rfl
  | array =>
    rw [length_printHead 123 91] at hend
    exact (Writes.list h hkey hfuel (by decide) (by decide) (hchildren htyped 91) hend).mono
      (fun _ hb => hroom nofun hb.1) Iff.rfl Iff.rfl
  | empty => exact writes_ok ⟨h.1, fun _ => h⟩
  | string =>
    exact (Writes.string h hkey hfuel htyped).mono (fun _ => hroom nofun) Iff.rfl Iff.rfl
  | number =>
    exact (Writes.other h hkey hfuel htyped).mono (fun _ => hroom nofun) Iff.rfl Iff.rfl
  | bool =>
    exact (Writes.other h hkey hfuel htyped).mono (fun _ => hroom nofun) Iff.rfl Iff.rfl
  | null =>
    exact (Writes.other h hkey hfuel htyped).mono (fun _ => hroom nofun) Iff.rfl Iff.rfl

end

/-- The loop over the children writes their text: by induction on the list. -/
theorem writes_children {fuel : ℕ} {comma : Bool} {l : JsonList}
    (htyped : Typed (·.length < 2 ^ 32) l) (h : b.Room) (hcomma : comma = false → b.Roomy)
    (hfuel : 20 ≤ fuel) :
    Writes (fromChildren fuel comma l b) b.text (printChildren comma l)
      (OthersFit b.text.length comma l) (OthersSafe b.text.length comma l) Room := by
  induction l generalizing b comma with
  | nil => exact writes_ok h
  | cons type key val child next ihc ih =>
    obtain ⟨hkey, hnode, hnext⟩ := htyped
    have hfirst :
        Writes (fromComma comma b) b.text (if comma then [44] else []) True True Roomy := by
      cases comma with
      | true => exact .literal h (by decide) (by decide) (by decide)
      | false => exact writes_ok (hcomma rfl)
    have hrest : ∀ b₁ : Buffer, b₁.Roomy →
        Writes (fromEntry fuel b₁ type key val (fromChildren fuel false child) >>=
          fromChildren fuel (type ≠ .empty) next) b₁.text
          (printEntry type key val (printChildren false child) ++
            printChildren (type ≠ .empty) next)
          (EntryFits b₁.text.length type key val
              (OthersFit (b₁.text.length + (printHead key [123]).length) false child) ∧
            OthersFit (b₁.text.length +
              (printEntry type key val (printChildren false child)).length) (type ≠ .empty) next)
          (EntrySafe b₁.text.length type key val
              (OthersSafe (b₁.text.length + (printHead key [123]).length) false child) ∧
            OthersSafe (b₁.text.length +
              (printEntry type key val (printChildren false child)).length) (type ≠ .empty) next)
          Room := by
      intro b₁ h₁
      refine Writes.bind (Writes.entry h₁ hkey hfuel hnode ?_ othersSafe_of_le) ?_
        othersSafe_of_le
      · intro hchild c b₂ htext h₂
        have hlen : b₁.text.length + (printHead key [123]).length = b₂.text.length := by
          rw [htext, List.length_append, length_printHead c 123]
        rw [hlen]
        exact ihc hchild h₂.1 fun _ => h₂
      · intro b₂ htext h₂
        have hlen : b₁.text.length +
            (printEntry type key val (printChildren false child)).length = b₂.text.length := by
          rw [htext, List.length_append]
        rw [hlen]
        exact ih hnext h₂.1 fun hempty => h₂.2 (by simpa using hempty)
    have hlen : (if comma then [44] else [] : Bytes).length = if comma then 1 else 0 := by
      cases comma <;> rfl
    -- the comma, the child, and the other children
    refine (Writes.bind hfirst (fun b₁ htext h₁ => ?_) fun hend => ?_).mono (fun _ => id)
      (iff_of_eq (true_and _)) (iff_of_eq (true_and _))
    · have hpos : b₁.text.length = b.text.length + if comma then 1 else 0 := by
        rw [htext, List.length_append, hlen]
      have hboth := hrest b₁ h₁
      rw [hpos] at hboth
      exact hboth
    · rw [hlen] at hend
      exact @othersSafe_of_le _ false (.cons type key val child next) hend

end

/-- The first block, with nothing in it. -/
theorem roomy_first : Roomy ⟨[], 2048⟩ :=
  ⟨⟨11, le_rfl, by decide, rfl, by decide, .inl rfl⟩, by decide⟩

end Buffer

/-! ## The printer -/

open Buffer

/-- The text of a tree. -/
def print (node : AdxJson) : Bytes :=
  printHead node.key [123] ++ (printChildren false node.child ++ [125])

/-- The block can be made large enough for the text of a tree, and grows in time. -/
def Fits (node : AdxJson) : Prop :=
  (print node).length + 1 < 2 ^ 30 ∧
    OthersFit (printHead node.key [123]).length false node.child

/-- The outcome of the printer: the text is there if it fits, the block could not grow any more, or
it has been left. -/
theorem adxJsonToBuffer_cases {fuel : ℕ} {node : AdxJson} (hkey : ∀ k ∈ node.key, 0 ∉ k)
    (htyped : Typed (·.length < 2 ^ 32) node.child) (hfuel : 20 ≤ fuel) :
    (adxJsonToBuffer fuel node = .ok (print node) ∧ Fits node ∧
        OthersSafe (printHead node.key [123]).length false node.child) ∨
      (adxJsonToBuffer fuel node = .error .null ∧ ¬Fits node ∧
        OthersSafe (printHead node.key [123]).length false node.child) ∨
      (adxJsonToBuffer fuel node = .error .fault ∧ ¬Fits node ∧
        ¬OthersSafe (printHead node.key [123]).length false node.child) := by
  have hwrites : Writes (fromObject fuel ⟨[], 2048⟩ node.key (fromChildren fuel false node.child))
      [] (print node) (OthersFit (printHead node.key [123]).length false node.child)
      (OthersSafe (printHead node.key [123]).length false node.child) Roomy := by
    refine Writes.list roomy_first hkey hfuel (by decide) (by decide) (fun b htext hb => ?_)
      fun hend => othersSafe_of_le (by simpa using hend)
    have hpos : (printHead node.key [123]).length = b.text.length := by rw [htext]; rfl
    rw [hpos]
    exact writes_children htyped hb.1 (fun _ => hb) hfuel
  unfold adxJsonToBuffer
  cases hr : fromObject fuel ⟨[], 2048⟩ node.key (fromChildren fuel false node.child) with
  | ok b =>
    rw [hr] at hwrites
    obtain ⟨htext, ⟨⟨k, -, hhi, htotal, -, -⟩, hroom⟩, hfits, hsafe⟩ := hwrites
    rw [List.nil_append] at htext
    have hmax : 2 ^ k ≤ 2 ^ 30 := Nat.pow_le_pow_right (by omega) hhi
    have hne : b.text.length ≠ 0 := by
      rw [htext, print]
      simp
    -- the block has room for the NUL
    refine .inl ⟨?_, ⟨by rw [← htext]; omega, hfits⟩, hsafe⟩
    change (if _ then _ else if _ then _ else _) = _
    rw [if_neg (by omega), if_pos (by omega), htext]
  | error e =>
    rw [hr] at hwrites
    right
    cases e with
    | null => exact .inl ⟨rfl, fun hfits => absurd hfits.1 (by simpa using hwrites.1), hwrites.2⟩
    | fault =>
      refine .inr ⟨rfl, fun hfits => ?_, hwrites.1⟩
      have hend := hwrites.2 hfits.2
      have := hfits.1
      rw [List.length_nil, Nat.zero_add] at hend
      omega
    | unfinished => exact hwrites.elim

/-- Trees of the parser can be printed. -/
theorem typed_of_shaped {keyed : Bool} {l : JsonList} (h : Shaped Printable keyed l) :
    Typed (·.length < 2 ^ 32) l := by
  induction l generalizing keyed with
  | nil => trivial
  | cons type key val child next ihc ih =>
    obtain ⟨⟨-, hkey⟩, hshape, hnext⟩ := h
    refine ⟨fun k hk => (hkey k hk).1, ?_, ih hnext⟩
    have hlen : ∀ v : Bytes, v.length < 2 ^ 31 → v.length < 2 ^ 32 := fun v hv => by omega
    cases type with
    | unset => exact hshape
    | object => exact ihc hshape.2.2
    | array => exact ihc hshape.2.2
    | empty => trivial
    | string =>
      obtain ⟨-, v, hv, hprint⟩ := hshape
      exact ⟨v, hv, hprint.1⟩
    | number =>
      obtain ⟨-, v, hv, hprint, -⟩ := hshape
      exact ⟨v, hv, hprint.1, hlen v hprint.2⟩
    | bool =>
      rcases hshape.2 with hv | hv
      · exact ⟨_, hv, by decide, by decide⟩
      · exact ⟨_, hv, by decide, by decide⟩
    | null => exact ⟨_, hshape.2, by decide, by decide⟩

/-- The printer succeeds if and only if the text fits, and then with this text. -/
theorem adxJsonToBuffer_eq_ok_iff {fuel : ℕ} {node : AdxJson} {text : Bytes} {keyed : Bool}
    (hkey : ∀ k ∈ node.key, Printable k) (hshaped : Shaped Printable keyed node.child)
    (hfuel : 20 ≤ fuel) :
    adxJsonToBuffer fuel node = .ok text ↔ text = print node ∧ Fits node := by
  rcases adxJsonToBuffer_cases (fun k hk => (hkey k hk).1) (typed_of_shaped hshaped) hfuel with
    ⟨heq, hfits, -⟩ | ⟨heq, hnot, -⟩ | ⟨heq, hnot, -⟩
  · rw [heq]
    refine ⟨fun h => ⟨(Except.ok.inj h).symm, hfits⟩, fun h => ?_⟩
    rw [h.1]
  · rw [heq]
    exact iff_of_false nofun fun h => hnot h.2
  · rw [heq]
    exact iff_of_false nofun fun h => hnot h.2

end Json

end AdxDsp
