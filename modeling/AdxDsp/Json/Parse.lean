import AdxDsp.Lib.Bytes

/-!
# The JSON parser

`adx_json_parse` with all it calls (`adx_json.c`): a cursor moves over a string that ends with a NUL
and tokens are copied by `adx_json_strdup`, which undoes escapes.

* **Cursors**: `Scan`, a computation that may read behind the NUL.
* **Copies**: `Token.copy`, and what a copy writes (`Token.written`).
* **The parser**: `adxJsonParse`.
-/

namespace AdxDsp

open CText

namespace Json

/-! ## Trees -/

/-- `adx_json_type`; `unset` is the 0 of a new node. -/
inductive JsonType where
  | unset
  | object
  | array
  | empty
  | string
  | number
  | bool
  | null
  deriving DecidableEq

/-- A list of nodes, linked by `next`.  The length of an array is the number of its children. -/
inductive JsonList where
  | nil
  | cons (type : JsonType) (key val : Option Bytes) (child next : JsonList)
  deriving DecidableEq

/-- `adx_json_t` -/
structure AdxJson where
  type : JsonType
  key : Option Bytes
  val : Option Bytes
  child : JsonList
  deriving DecidableEq

/-- The nodes of a list, one after the other. -/
def JsonList.nodes : JsonList → List AdxJson
  | .nil => []
  | .cons type key val child next => ⟨type, key, val, child⟩ :: next.nodes

/-! ## Copying a token -/

/-- What `adx_json_strdup` is called with: the bytes from the token on, and the number of its
bytes. -/
structure Token where
  src : Bytes
  count : ℕ
  deriving DecidableEq

/-- `adx_alloc` gets a block from `malloc`: its header of 24 bytes is added to the `size_t`, and
`malloc` refuses more than half of the address space. -/
def allocates (size : ℤ) : Bool := (24 + size) % 2 ^ 64 < 2 ^ 63

/-- The byte that an escaped byte stands for. -/
def unescapeByte (c : UInt8) : UInt8 :=
  if c = 98 then 8 else if c = 102 then 12 else if c = 114 then 13 else if c = 110 then 10
  else if c = 116 then 9 else c

/-- The loop of `adx_json_strdup` for the next `n` bytes.  A byte behind a backslash may lie outside
them, but not outside the text: a token has at most the bytes up to the NUL, and this is the one
that `src[++i]` reads where `src` ends. -/
def strdupLoop : ℕ → Bytes → Bytes
  | 0, _ => []
  | _ + 1, [] => []
  | n + 1, c :: src =>
    if c = 92 then
      match src with
      | [] => [0]
      | e :: rest => unescapeByte e :: strdupLoop (n - 1) rest
    else c :: strdupLoop n src

section

variable (n : ℕ) (src : Bytes) {c : UInt8}

/-- The copy ends when its length is used up. -/
@[simp] theorem strdupLoop_zero : strdupLoop 0 src = [] := by cases src <;> rfl

/-- The copy ends with the text. -/
@[simp] theorem strdupLoop_nil : strdupLoop n [] = [] := by cases n <;> rfl

/-- A backslash and the byte behind it are one byte of the copy, and two of the length. -/
theorem strdupLoop_escape (e : UInt8) :
    strdupLoop (n + 1) (92 :: e :: src) = unescapeByte e :: strdupLoop (n - 1) src := rfl

/-- Any other byte is copied. -/
theorem strdupLoop_of_ne (h : c ≠ 92) :
    strdupLoop (n + 1) (c :: src) = c :: strdupLoop n src := by
  cases src <;> simp [strdupLoop, h]

end

namespace Token

variable (token : Token)

/-- `int len` -/
def len : ℤ := toInt32 token.count

/-- The bytes that are copied, without the NUL behind them. -/
def copy : Bytes := strdupLoop token.len.toNat token.src

/-- `adx_json_strdup` -/
def adxJsonStrdup : Option Bytes :=
  if allocates (toInt32 (token.len + 1)) then some token.copy else none

/-- How many bytes `adx_json_strdup` writes. -/
def written : ℕ := token.adxJsonStrdup.elim 0 fun dest => dest.length + 1

end Token

/-! ## Cursors -/

/-- `parse->pos`: the bytes before the NUL that are left, or a place behind the NUL. -/
abbrev Cursor := Option Bytes

/-- How a computation ends: with a value, with `ADX_JSON_ERROE` or `NULL`, with a read behind the
NUL, or not within its fuel. -/
inductive Outcome (α : Type) where
  | ok (value : α) (pos : Cursor)
  | error
  | overread
  | unfinished

/-- An outcome, with the tokens passed to `adx_json_strdup` on the way. -/
structure Reply (α : Type) where
  tokens : List Token
  outcome : Outcome α

/-- A computation that moves the cursor. -/
def Scan (α : Type) : Type := Cursor → Reply α

namespace Scan

variable {α β : Type}

/-- The second computation goes on where the first one ends with a value. -/
protected def bind (x : Scan α) (f : α → Scan β) : Scan β := fun pos =>
  match (x pos).outcome with
  | .ok value pos' => ⟨(x pos).tokens ++ (f value pos').tokens, (f value pos').outcome⟩
  | .error => ⟨(x pos).tokens, .error⟩
  | .overread => ⟨(x pos).tokens, .overread⟩
  | .unfinished => ⟨(x pos).tokens, .unfinished⟩

instance : Monad Scan where
  pure value := fun pos => ⟨[], .ok value pos⟩
  bind := Scan.bind

/-- `return ADX_JSON_ERROE` -/
def fail : Scan α := fun _ => ⟨[], .error⟩

/-- The fuel is used up. -/
def exhausted : Scan α := fun _ => ⟨[], .unfinished⟩

/-- The bytes from the cursor on, which the source goes through up to the NUL at most. -/
def rest : Scan Bytes := fun pos => ⟨[], pos.elim .overread fun s => .ok s pos⟩

/-- `*parse->pos` -/
def peek : Scan UInt8 := do
  let s ← rest
  return s.headD 0

/-- `parse->pos += n`, which reads nothing. -/
def advance (n : ℕ) : Scan Unit := fun pos =>
  ⟨[], .ok () (pos.bind fun s => if n ≤ s.length then some (s.drop n) else none)⟩

/-- `if (*parse->pos++ != c) return ADX_JSON_ERROE` -/
def expect (c : UInt8) : Scan Unit := do
  let d ← peek
  advance 1
  if d ≠ c then fail else return ()

section

variable (s : Bytes) (f : α → Scan β)

@[simp] theorem pure_bind (value : α) : ((pure value : Scan α) >>= f) = f value := rfl

@[simp] theorem fail_bind (pos : Cursor) : ((fail : Scan α) >>= f) pos = ⟨[], .error⟩ := rfl

@[simp] theorem rest_bind (f : Bytes → Scan β) : (rest >>= f) (some s) = f s (some s) := rfl

@[simp] theorem peek_bind (f : UInt8 → Scan β) :
    (peek >>= f) (some s) = f (s.headD 0) (some s) := rfl

/-- A step over the end leaves the text. -/
theorem advance_bind_nil (f : Unit → Scan β) : (advance 1 >>= f) (some []) = f () none := rfl

/-- A step inside the text. -/
theorem advance_bind {s : Bytes} {n : ℕ} (h : n ≤ s.length) (f : Unit → Scan β) :
    (advance n >>= f) (some s) = f () (some (s.drop n)) := by
  change Scan.bind _ _ _ = _
  unfold Scan.bind advance
  rw [Option.bind_some, if_pos h]
  rfl

end

section

variable {x : Scan α} {f : α → Scan β} {pos pos' : Cursor} {value : α}

/-- After a computation that ends with a value the next one goes on. -/
theorem bind_of_ok (h : (x pos).outcome = .ok value pos') : (x >>= f) pos =
    ⟨(x pos).tokens ++ (f value pos').tokens, (f value pos').outcome⟩ := by
  change Scan.bind x f pos = _
  unfold Scan.bind
  rw [h]

/-- After a success the next scan decides. -/
theorem outcome_bind_of_ok (h : (x pos).outcome = .ok value pos') :
    ((x >>= f) pos).outcome = (f value pos').outcome := by rw [bind_of_ok h]

/-- An error ends the scan. -/
theorem outcome_bind_of_error (h : (x pos).outcome = .error) :
    ((x >>= f) pos).outcome = .error := by
  change (Scan.bind x f pos).outcome = _
  unfold Scan.bind
  rw [h]

/-- The copies of the first scan are copies of both. -/
theorem mem_tokens_bind_left {token : Token} (h : token ∈ (x pos).tokens) :
    token ∈ ((x >>= f) pos).tokens := by
  change token ∈ (Scan.bind x f pos).tokens
  unfold Scan.bind
  cases (x pos).outcome with
  | ok value pos' => exact List.mem_append_left _ h
  | error => exact h
  | overread => exact h
  | unfinished => exact h

/-- After a success the copies of the next scan are copies of both. -/
theorem mem_tokens_bind_right {token : Token} (h : (x pos).outcome = .ok value pos')
    (ht : token ∈ (f value pos').tokens) : token ∈ ((x >>= f) pos).tokens := by
  rw [bind_of_ok h]
  exact List.mem_append_right _ ht

end

/-- The expected byte is passed. -/
@[simp] theorem outcome_expect (c : UInt8) (s : Bytes) :
    (expect c (some (c :: s))).outcome = .ok () (some s) := by
  unfold expect
  rw [peek_bind, advance_bind (by simp), List.headD_cons, if_neg (not_not.mpr rfl)]
  rfl

/-- Another byte is an error. -/
theorem outcome_expect_of_ne {c d : UInt8} {s : Bytes} (hd : s.headD 0 = d) (h : d ≠ c) :
    (expect c (some s)).outcome = .error := by
  unfold expect
  rw [peek_bind, hd]
  cases s with
  | nil =>
    rw [advance_bind_nil, if_pos h]
    rfl
  | cons e s =>
    rw [advance_bind (by simp), if_pos h]
    rfl

/-- A call of `adx_json_strdup`; its callers fail where it returns `NULL`. -/
def strdup (token : Token) : Scan Bytes := fun pos =>
  ⟨[token], token.adxJsonStrdup.elim .error fun dest => .ok dest pos⟩

end Scan

open Scan

/-! ## Tokens -/

/-- A byte that `adx_json_skip_space` skips: as a signed `char` it is at most 32. -/
def isBlank (c : UInt8) : Bool := c ≤ 32 || 128 ≤ c

/-- `adx_json_skip_space` -/
def skipSpace : Scan Unit := do
  let s ← rest
  advance (s.takeWhile isBlank).length

/-- White space is passed. -/
theorem outcome_skipSpace (s : Bytes) :
    (skipSpace (some s)).outcome = .ok () (some (s.dropWhile isBlank)) := by
  unfold skipSpace
  rw [Scan.rest_bind]
  unfold Scan.advance
  rw [Option.bind_some, if_pos (List.takeWhile_prefix _).length_le]
  refine congrArg (fun rest => Outcome.ok () (some rest)) ?_
  calc s.drop (s.takeWhile isBlank).length
      = (s.takeWhile isBlank ++ s.dropWhile isBlank).drop (s.takeWhile isBlank).length := by
        rw [List.takeWhile_append_dropWhile]
    _ = s.dropWhile isBlank := List.drop_left

/-- The number of bytes before the quotation mark that ends a string. -/
def closingQuote : Bytes → Option ℕ
  | [] => none
  | c :: s =>
    if c = 92 then
      match s with
      | [] => none
      | _ :: s' => (closingQuote s').map (· + 2)
    else if c = 34 then some 0
    else (closingQuote s).map (· + 1)

section

variable (s : Bytes) {c : UInt8}

/-- The byte behind a backslash closes nothing. -/
theorem closingQuote_escape (e : UInt8) :
    closingQuote (92 :: e :: s) = (closingQuote s).map (· + 2) := rfl

/-- A quotation mark closes the string. -/
@[simp] theorem closingQuote_quote : closingQuote (34 :: s) = some 0 := by
  cases s <;> rfl

/-- Any other byte is passed. -/
theorem closingQuote_of_ne (hc : c ≠ 92) (hq : c ≠ 34) :
    closingQuote (c :: s) = (closingQuote s).map (· + 1) := by
  cases s <;> simp [closingQuote, hc, hq]

end

/-- `adx_json_parse_string`; `none` is `ADX_JSON_EMPTY`. -/
def parseString : Scan (Option Token) := do
  expect 34
  let c ← peek
  if c = 34 then
    advance 1
    return none
  else
    let s ← rest
    match closingQuote s with
    | none => fail
    | some n =>
      advance (n + 1)
      return some ⟨s, n⟩

/-- Two quotation marks in a row are the empty string. -/
theorem outcome_parseString_empty (s : Bytes) :
    (parseString (some (34 :: 34 :: s))).outcome = .ok none (some s) := by
  unfold parseString
  rw [Scan.outcome_bind_of_ok (Scan.outcome_expect 34 _), Scan.peek_bind, List.headD_cons,
    if_pos rfl, Scan.advance_bind (by simp)]
  rfl

/-- The string up to the closing quotation mark. -/
theorem outcome_parseString {s : Bytes} {n : ℕ} (hhead : s.headD 0 ≠ 34)
    (hn : closingQuote s = some n) (hlt : n < s.length) :
    (parseString (some (34 :: s))).outcome = .ok (some ⟨s, n⟩) (some (s.drop (n + 1))) := by
  unfold parseString
  rw [Scan.outcome_bind_of_ok (Scan.outcome_expect 34 _), Scan.peek_bind, if_neg hhead,
    Scan.rest_bind, hn]
  dsimp only
  rw [Scan.advance_bind hlt]
  rfl

/-- `adx_json_parse_key`, with the test of the length in `adx_json_create_key`. -/
def parseKey : Scan Bytes := do
  let str ← parseString
  match str with
  | none => fail
  | some token => if token.len = 0 then fail else strdup token

/-- The type and the value of a node, and its children. -/
abbrev Value := JsonType × Option Bytes × JsonList

/-- `adx_json_parse_value_string` -/
def parseValueString : Scan Value := do
  let str ← parseString
  match str with
  | none => return (.empty, none, .nil)
  | some token =>
    let val ← strdup token
    return (.string, some val, .nil)

/-- A byte of a number. -/
def isNumberByte (c : UInt8) : Bool :=
  isDigit c || c = 43 || c = 45 || c = 101 || c = 69 || c = 46

/-- `adx_json_parse_value_number` -/
def parseValueNumber : Scan Value := do
  let s ← rest
  let n := (s.takeWhile isNumberByte).length
  if n = s.length then fail
  else
    let val ← strdup ⟨s, n⟩
    advance n
    return (.number, some val, .nil)

/-- `adx_json_parse_other` -/
def parseOther (type : JsonType) (str : Bytes) : Scan Value := do
  advance str.length
  let val ← strdup ⟨str, str.length⟩
  return (type, some val, .nil)

/-! ## Objects and arrays -/

/-- `adx_json_parse_object` and `adx_json_parse_array`: the brackets, with the loop over the members
or elements between them. -/
def parseList (openBracket closeBracket : UInt8) (type : JsonType) (entries : Scan JsonList) :
    Scan Value := do
  expect openBracket
  skipSpace
  let c ← peek
  if c = closeBracket then
    advance 1
    return (.empty, none, .nil)
  else
    let child ← entries
    expect closeBracket
    return (type, none, child)

/-- `adx_json_parse_object`, with its loop. -/
def parseObject (entries : Bool → Scan JsonList) : Scan Value :=
  parseList 123 125 .object (entries true)

/-- `adx_json_parse_array`, with its loop. -/
def parseArray (entries : Bool → Scan JsonList) : Scan Value :=
  parseList 91 93 .array (entries false)

/-- `adx_json_parse_value`, with the loops of objects and arrays. -/
def parseValue (entries : Bool → Scan JsonList) : Scan Value := do
  skipSpace
  let c ← peek
  let s ← rest
  if c = 123 then parseObject entries
  else if c = 91 then parseArray entries
  else if c = 34 then parseValueString
  else if c = 45 ∨ isDigit c then parseValueNumber
  else if bytes "true" <+: s then parseOther .bool (bytes "true")
  else if bytes "false" <+: s then parseOther .bool (bytes "false")
  else if bytes "null" <+: s then parseOther .null (bytes "null")
  else fail

/-- The key of a member with its colon; an element of an array has none. -/
def parseMemberKey (keyed : Bool) : Scan (Option Bytes) := do
  if keyed then
    skipSpace
    let key ← parseKey
    skipSpace
    expect 58
    return some key
  else return none

/-- The loops of `adx_json_parse_object`, where `keyed`, and of `adx_json_parse_array`. -/
def parseEntries : ℕ → Bool → Scan JsonList
  | 0, _ => exhausted
  | fuel + 1, keyed => do
    let c ← peek
    if c = 0 then return .nil
    else
      let key ← parseMemberKey keyed
      let (type, val, child) ← parseValue (parseEntries fuel)
      skipSpace
      let c ← peek
      if c = 44 then
        advance 1
        let next ← parseEntries fuel keyed
        return .cons type key val child next
      else return .cons type key val child .nil

/-- The computation of `adx_json_parse`.  The type of the root stays 0; what follows its bracket is
not read. -/
def parseRoot (fuel : ℕ) : Scan AdxJson := do
  skipSpace
  let (type, _, child) ← parseObject (parseEntries fuel)
  if type = .object then return ⟨.unset, none, none, child⟩ else fail

/-- `adx_json_parse` of a string up to its NUL; `NULL` is the outcome `error`. -/
def adxJsonParse (fuel : ℕ) (str : Bytes) : Reply AdxJson := parseRoot fuel (some (cstr str))

end Json

end AdxDsp
