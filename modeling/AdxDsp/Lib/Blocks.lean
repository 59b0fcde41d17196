import AdxDsp.Lib.Bytes

/-!
# Blocks of memory

A memory is a list of blocks, whose places are their addresses.  A new block is filled with zeros
and gets the next address; a write outside of a block fails.

* **Frame** (`prefix_alloc`, `prefix_write`): the blocks that were there before keep their bytes as
  long as only later ones are written to.
* **A text at the start of a block** (`write_text`, `read_text`): it grows into the zeros behind it.
-/

namespace Blocks

open CText

variable {m before : List Bytes}

/-- A new block, whose address is `m.length`. -/
def alloc (m : List Bytes) (size : ℕ) : List Bytes := m ++ [List.replicate size 0]

/-- `n` bytes of a block. -/
def read (m : List Bytes) (p off n : ℕ) : Option Bytes :=
  match m[p]? with
  | some block => if off + n ≤ block.length then some ((block.drop off).take n) else none
  | none => none

/-- Write a text into a block. -/
def write (m : List Bytes) (p off : ℕ) (w : Bytes) : Option (List Bytes) :=
  match m[p]? with
  | some block =>
    if off + w.length ≤ block.length then
      some (m.set p (block.take off ++ w ++ block.drop (off + w.length)))
    else none
  | none => none

/-- A new block is zeroed and lies behind the others. -/
theorem getElem?_alloc (m : List Bytes) (size : ℕ) :
    (alloc m size)[m.length]? = some (List.replicate size 0) := by
  rw [alloc, List.getElem?_append_right le_rfl, Nat.sub_self]
  rfl

/-- An allocation keeps the blocks that were there before. -/
theorem prefix_alloc (h : before <+: m) (size : ℕ) : before <+: alloc m size :=
  h.trans (List.prefix_append _ _)

/-- A block with an address from `before.length` on is none of those before. -/
theorem prefix_write {m' : List Bytes} {p off : ℕ} {w : Bytes} (h : before <+: m)
    (hp : before.length ≤ p) (hwrite : write m p off w = some m') : before <+: m' := by
  obtain ⟨later, rfl⟩ := h
  rw [write] at hwrite
  split at hwrite
  · split_ifs at hwrite
    rw [Option.some_inj, List.set_append_right _ _ hp] at hwrite
    exact ⟨_, hwrite⟩
  · cases hwrite

/-- A block of the memory before is still there. -/
theorem getElem?_of_frame {p : ℕ} {block : Bytes} (h : before <+: m)
    (hp : before[p]? = some block) : m[p]? = some block := by
  obtain ⟨later, rfl⟩ := h
  rw [List.getElem?_append_left (List.getElem?_eq_some_iff.mp hp).1, hp]

section

variable {p n : ℕ} {text : Bytes} (h : m[p]? = some (text ++ List.replicate n 0))
include h

/-- The bytes written so far. -/
theorem read_text : read m p 0 text.length = some text := by
  rw [read, h]
  dsimp only
  rw [if_pos (by rw [List.length_append]; omega), List.drop_zero, List.take_left]

/-- A text is written behind the one that is there. -/
theorem write_text {w : Bytes} (hw : w.length ≤ n) :
    ∃ m', write m p text.length w = some m' ∧
      m'[p]? = some (text ++ w ++ List.replicate (n - w.length) 0) := by
  have hp : p < m.length := (List.getElem?_eq_some_iff.mp h).1
  have hroom : text.length + w.length ≤ (text ++ List.replicate n 0).length := by
    rw [List.length_append, List.length_replicate]
    omega
  rw [write, h]
  dsimp only
  rw [if_pos hroom]
  refine ⟨_, rfl, ?_⟩
  -- the text takes the place of the first of the zeros
  rw [List.getElem?_set_self hp, List.take_left, List.drop_length_add_append, List.drop_replicate]

/-- There is no room for a longer text. -/
theorem write_eq_none {w : Bytes} (hw : n < w.length) : write m p text.length w = none := by
  rw [write, h]
  dsimp only
  rw [if_neg]
  rw [List.length_append, List.length_replicate]
  omega

end

end Blocks
