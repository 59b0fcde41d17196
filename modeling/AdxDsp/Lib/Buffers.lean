import AdxDsp.Lib.Bytes

/-!
# Buffers of a fixed size

A buffer is the list of its elements; reading or writing behind its end fails.

* **Access** (`le_of_readAt`, `le_of_writeAt`, `length_of_writeAt`).
* **Parts** (`writeAt_append`, `readAt_append`): a buffer that is filled from its start on, one part
  behind the other.
* **Texts** (`readText_append_newBuffer`): a text that ends inside its buffer.
-/

namespace Buffers

variable {α : Type*} {b b' w : List α} {off n : ℕ}

/-- `n` elements from a place on. -/
def readAt (b : List α) (off n : ℕ) : Option (List α) :=
  if off + n ≤ b.length then some ((b.drop off).take n) else none

/-- Write elements from a place on. -/
def writeAt (b : List α) (off : ℕ) (w : List α) : Option (List α) :=
  if off + w.length ≤ b.length then some (b.take off ++ w ++ b.drop (off + w.length)) else none

/-- A read inside the buffer. -/
theorem readAt_of_le (h : off + n ≤ b.length) : readAt b off n = some ((b.drop off).take n) :=
  if_pos h

/-- A read that yields bytes is inside the buffer. -/
theorem le_of_readAt (h : readAt b off n = some w) : off + n ≤ b.length := by
  by_contra hnot
  rw [readAt, if_neg hnot] at h
  cases h

/-- A write that succeeds is inside the buffer. -/
theorem le_of_writeAt (h : writeAt b off w = some b') : off + w.length ≤ b.length := by
  by_contra hnot
  rw [writeAt, if_neg hnot] at h
  cases h

/-- A write keeps the buffer's size. -/
theorem length_of_writeAt (h : writeAt b off w = some b') : b'.length = b.length := by
  have hle := le_of_writeAt h
  rw [writeAt, if_pos hle, Option.some_inj] at h
  rw [← h, List.length_append, List.length_append, List.length_take, List.length_drop]
  omega

section

variable {before part rest : List α}

/-- A part is written behind those before it. -/
theorem writeAt_append (hoff : before.length = off) (h : w.length ≤ rest.length) :
    writeAt (before ++ rest) off w = some (before ++ w ++ rest.drop w.length) := by
  subst hoff
  rw [writeAt, if_pos (by rw [List.length_append]; omega), List.take_left,
    List.drop_length_add_append]

/-- A write at the start keeps what is behind it. -/
theorem writeAt_zero (h : w.length ≤ b.length) : writeAt b 0 w = some (w ++ b.drop w.length) :=
  @writeAt_append α w 0 [] b rfl h

/-- A part is read behind those before it. -/
theorem readAt_append (hoff : before.length = off) (hn : part.length = n) :
    readAt (before ++ part ++ rest) off n = some part := by
  subst hoff hn
  rw [readAt_of_le (by rw [List.length_append, List.length_append]; omega), List.append_assoc,
    List.drop_left, List.take_left]

/-- A read of just the first part. -/
theorem readAt_zero (hn : part.length = n) : readAt (part ++ rest) 0 n = some part :=
  @readAt_append α 0 n [] part rest rfl hn

end

/-! ## Texts -/

section

open CText

/-- A buffer of zeros. -/
def newBuffer (size : ℕ) : Bytes := List.replicate size 0

/-- The text at the start of a buffer, up to its terminator. -/
def readText (buffer : Bytes) : Option Bytes := if 0 ∈ buffer then some (cstr buffer) else none

/-- A new buffer has the size that was asked for. -/
theorem length_newBuffer (size : ℕ) : (newBuffer size).length = size := List.length_replicate

/-- The zero bytes behind a text end it and add nothing. -/
theorem cstr_append_newBuffer (t : Bytes) (n : ℕ) : cstr (t ++ newBuffer n) = cstr t := by
  induction t with
  | nil => cases n <;> rfl
  | cons b t ih =>
    by_cases hb : b = 0
    · subst hb
      rfl
    · have hcons : ∀ t : Bytes, cstr (b :: t) = b :: cstr t := fun t =>
        List.takeWhile_cons_of_pos (by simpa using hb)
      rw [List.cons_append, hcons, hcons, ih]

/-- A text with at least one zero byte behind it can be read. -/
theorem readText_append_newBuffer (t : Bytes) {n : ℕ} (hn : 0 < n) :
    readText (t ++ newBuffer n) = some (cstr t) := by
  have hmem : (0 : UInt8) ∈ newBuffer n := List.mem_replicate.mpr ⟨hn.ne', rfl⟩
  rw [readText, if_pos (List.mem_append_right t hmem), cstr_append_newBuffer]

/-- A text with its terminator behind it. -/
theorem readText_append_cons {t : Bytes} (h : 0 ∉ t) (rest : Bytes) :
    readText (t ++ 0 :: rest) = some t := by
  rw [readText, if_pos (List.mem_append_right t List.mem_cons_self), cstr,
    List.takeWhile_append_of_pos (by simpa using fun b hb => ne_of_mem_of_not_mem hb h)]
  simp

end

end Buffers
