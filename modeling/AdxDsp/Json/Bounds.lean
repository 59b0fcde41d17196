import AdxDsp.Json.Buffer

/-!
# The bytes of the printer

Whether `adx_json_to_buffer` writes into its block only.  A text with escapes is tested after each
byte, and quotes, brackets and commas are short; a number, `true`, `false` or `null` is copied at
once after the block has been doubled once.

* **Long values** (`fromChildren_cutOthers`): of the length of such a value only the low 32 bits
  are used.
* **The bounds** (`adxJsonToBuffer_inBounds_iff`): the printer stays in its block exactly when these
  values do no harm.
-/

namespace AdxDsp

open CText

namespace Json

/-! ## Long values -/

/-- What a length of 32 bits leaves of a value. -/
def cutValue (val : Bytes) : Bytes := val.take (val.length % 2 ^ 32)

/-- What is left of the value of a child. -/
def cutEntry (type : JsonType) (val : Option Bytes) : Option Bytes :=
  match type with
  | .number => val.map cutValue
  | .bool => val.map cutValue
  | .null => val.map cutValue
  | .unset => val
  | .empty => val
  | .object => val
  | .array => val
  | .string => val

/-- A list of children with what is left of their values. -/
def cutOthers : JsonList → JsonList
  | .nil => .nil
  | .cons type key val child next =>
    .cons type key (cutEntry type val) (cutOthers child) (cutOthers next)

section

variable {val : Bytes}

/-- What is left of a value has its length modulo 2^32. -/
theorem length_cutValue (val : Bytes) : (cutValue val).length = val.length % 2 ^ 32 := by
  rw [cutValue, List.length_take]
  exact min_eq_left (Nat.mod_le _ _)

/-- A cut value has no zero byte either. -/
theorem not_mem_cutValue (h : 0 ∉ val) : 0 ∉ cutValue val := fun hmem =>
  h (List.mem_of_mem_take hmem)

/-- An `int` does not see the bits above. -/
theorem toInt32_length_cutValue (val : Bytes) :
    toInt32 ((cutValue val).length : ℤ) = toInt32 (val.length : ℤ) := by
  rw [length_cutValue, toInt32_eq, toInt32_eq]
  push_cast
  rw [Int.emod_emod_of_dvd _ dvd_rfl]

/-- `strcat` cuts the value already: its length is an `int`. -/
theorem strcat_cutValue (b : Buffer) (h : 0 ∉ val) : b.strcat (cutValue val) = b.strcat val := by
  have hlen : (toInt32 (val.length : ℤ)).toNat ≤ val.length % 2 ^ 32 := by
    rw [toInt32_eq]
    split_ifs <;> omega
  have htake : (cutValue val).take (toInt32 (val.length : ℤ)).toNat =
      val.take (toInt32 (val.length : ℤ)).toNat := by
    rw [cutValue, List.take_take, min_eq_left hlen]
  unfold Buffer.strcat
  rw [cstr_eq_self (not_mem_cutValue h), cstr_eq_self h, toInt32_length_cutValue]
  dsimp only
  rw [htake]

end

/-- A literal is printed as what is left of it. -/
theorem fromOther_cutValue {fuel : ℕ} {b : Buffer} {key val : Option Bytes}
    (hval : ∃ v, val = some v ∧ 0 ∉ v ∧ True) :
    b.fromOther fuel key (val.map cutValue) = b.fromOther fuel key val := by
  obtain ⟨v, rfl, hzero, -⟩ := hval
  unfold Buffer.fromOther
  simp only [Option.map_some, strcat_cutValue _ hzero]

/-- The loop over the children prints what is left of their values. -/
theorem fromChildren_cutOthers {fuel : ℕ} {l : JsonList} (htyped : Typed (fun _ => True) l)
    (comma : Bool) (b : Buffer) :
    Buffer.fromChildren fuel comma (cutOthers l) b = Buffer.fromChildren fuel comma l b := by
  induction l generalizing comma b with
  | nil => rfl
  | cons type key val child next ihc ih =>
    obtain ⟨-, hnode, hnext⟩ := htyped
    -- each entry is written the same, whatever is behind the end of its value
    have hentry : ∀ b : Buffer,
        b.fromEntry fuel type key (cutEntry type val)
          (Buffer.fromChildren fuel false (cutOthers child)) =
        b.fromEntry fuel type key val (Buffer.fromChildren fuel false child) := by
      intro b
      cases type with
      | unset => rfl
      | empty => rfl
      | string => rfl
      | object =>
        have hchild : Buffer.fromChildren fuel false (cutOthers child) =
            Buffer.fromChildren fuel false child := funext (ihc hnode false)
        rw [hchild]
        rfl
      | array =>
        have hchild : Buffer.fromChildren fuel false (cutOthers child) =
            Buffer.fromChildren fuel false child := funext (ihc hnode false)
        rw [hchild]
        rfl
      | number => exact fromOther_cutValue hnode
      | bool => exact fromOther_cutValue hnode
      | null => exact fromOther_cutValue hnode
    simp only [cutOthers, Buffer.fromChildren, hentry, ih hnext]

/-- After cutting every value is short enough. -/
theorem typed_cutOthers {l : JsonList} (h : Typed (fun _ => True) l) :
    Typed (·.length < 2 ^ 32) (cutOthers l) := by
  induction l with
  | nil => trivial
  | cons type key val child next ihc ih =>
    obtain ⟨hkey, hnode, hnext⟩ := h
    have hcut : (∃ v, val = some v ∧ 0 ∉ v ∧ True) →
        ∃ v, val.map cutValue = some v ∧ 0 ∉ v ∧ v.length < 2 ^ 32 := by
      rintro ⟨v, rfl, hzero, -⟩
      refine ⟨cutValue v, rfl, not_mem_cutValue hzero, ?_⟩
      rw [length_cutValue]
      exact Nat.mod_lt _ (by decide)
    refine ⟨hkey, ?_, ih hnext⟩
    cases type with
    | unset => exact hnode
    | empty => trivial
    | string => exact hnode
    | object => exact ihc hnode
    | array => exact ihc hnode
    | number => exact hcut hnode
    | bool => exact hcut hnode
    | null => exact hcut hnode

/-! ## The bounds -/

/-- No value that is written without escapes does harm: while less than 2^30 - 1 bytes have been
written, the `n` bytes before it and the low 32 bits of its length together are at most twice the
capacity for `n` bytes, and an `int`. -/
def LiteralsFit (node : AdxJson) : Prop :=
  OthersSafe (printHead node.key [123]).length false (cutOthers node.child)

/-- **The bytes of the printer.**  For each tree of C strings, the printer comes to its end, and it
writes into its block only if and only if the values that are written without escapes do no
harm. -/
theorem adxJsonToBuffer_inBounds_iff {fuel : ℕ} {node : AdxJson} (hkey : ∀ k ∈ node.key, 0 ∉ k)
    (htyped : Typed (fun _ => True) node.child) (hfuel : 20 ≤ fuel) :
    adxJsonToBuffer fuel node ≠ .error .unfinished ∧
      (adxJsonToBuffer fuel node ≠ .error .fault ↔ LiteralsFit node) := by
  have hcut : adxJsonToBuffer fuel node =
      adxJsonToBuffer fuel { node with child := cutOthers node.child } := by
    have hchild : Buffer.fromChildren fuel false (cutOthers node.child) =
        Buffer.fromChildren fuel false node.child := funext (fromChildren_cutOthers htyped false)
    unfold adxJsonToBuffer
    dsimp only
    rw [hchild]
  rw [hcut, LiteralsFit]
  rcases @adxJsonToBuffer_cases fuel { node with child := cutOthers node.child } hkey
    (typed_cutOthers htyped) hfuel with ⟨heq, -, hsafe⟩ | ⟨heq, -, hsafe⟩ | ⟨heq, -, hsafe⟩
  · rw [heq]
    exact ⟨nofun, iff_of_true nofun hsafe⟩
  · rw [heq]
    exact ⟨nofun, iff_of_true nofun hsafe⟩
  · rw [heq]
    exact ⟨nofun, iff_of_false (fun h => h rfl) hsafe⟩

/-- An object with a number of so many digits. -/
def sampleDigits (n : ℕ) : AdxJson :=
  ⟨.object, none, none, .cons .number none (some (List.replicate n 49)) .nil .nil⟩

/-- The sample has numbers where it says so. -/
theorem typed_sampleDigits (n : ℕ) : Typed (fun _ => True) (sampleDigits n).child :=
  ⟨nofun, ⟨_, rfl, fun h => absurd (List.eq_of_mem_replicate h) (by decide), trivial⟩, trivial⟩

/-- A hundred digits are written into the first block. -/
theorem hundred_digits_inBounds :
    adxJsonToBuffer 20 (sampleDigits 100) ≠ .error .unfinished ∧
      (adxJsonToBuffer 20 (sampleDigits 100) ≠ .error .fault ↔ LiteralsFit (sampleDigits 100)) :=
  adxJsonToBuffer_inBounds_iff nofun (typed_sampleDigits 100) le_rfl

/-- The first block grows to 4096 bytes, however long a number is. -/
theorem fault_sampleDigits {n : ℕ} (hlo : 4096 ≤ n) (hhi : n < 2 ^ 32) :
    adxJsonToBuffer 20 (sampleDigits n) = .error .fault := by
  have hlong : ¬OthersSafe (printHead (sampleDigits n).key [123]).length false
      (sampleDigits n).child := by
    rintro ⟨hsafe, -⟩
    have hfits : 1 + (List.replicate n (49 : UInt8)).length ≤ 2 * capacity 1 :=
      (hsafe (show 1 + 1 < 2 ^ 30 by decide)).1
    have hcap : capacity 1 = 2048 := by decide
    rw [hcap, List.length_replicate] at hfits
    omega
  have htyped : Typed (·.length < 2 ^ 32) (sampleDigits n).child := by
    refine ⟨nofun, ⟨_, rfl, fun h => absurd (List.eq_of_mem_replicate h) (by decide), ?_⟩, trivial⟩
    dsimp only
    rwa [List.length_replicate]
  rcases @adxJsonToBuffer_cases 20 (sampleDigits n) nofun htyped le_rfl with h | h | h
  · exact absurd h.2.2 hlong
  · exact absurd h.2.2 hlong
  · exact h.1

/-- Five thousand digits are written beyond the block. -/
theorem long_number_leaves_block :
    Typed (fun _ => True) (sampleDigits 5000).child ∧
      adxJsonToBuffer 20 (sampleDigits 5000) = .error .fault :=
  ⟨typed_sampleDigits 5000, fault_sampleDigits (by decide) (by decide)⟩

end Json

end AdxDsp
