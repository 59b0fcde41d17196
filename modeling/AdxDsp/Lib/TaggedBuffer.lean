import Mathlib.Data.List.Range
import Mathlib.Logic.Function.Basic
import Mathlib.Tactic.Common

/-!
# Buffers that remember who wrote them

A buffer of bytes in which every cell is either not initialised or holds a byte together with a
mark of who wrote it, and which remembers at which indexes a call has written.  A write outside
the buffer is remembered and changes no cell.

* **Cells** (`write_cell`, `writeAll_cell_of_lt`, `writeAll_cell_of_le`, `grow_cell`).
* **Indexes** (`writeAll_written`).
-/

/-- A buffer of `size` bytes with marks of type `ω`. -/
structure TaggedBuffer (ω : Type*) where
  size : ℕ
  cell : ℕ → Option (ω × UInt8)
  written : List ℕ

namespace TaggedBuffer

variable {ω : Type*} (b : TaggedBuffer ω)

/-- A buffer fresh from `malloc`. -/
def fresh (size : ℕ) : TaggedBuffer ω := ⟨size, fun _ => none, []⟩

/-- A call starts: no index has been written yet. -/
def begin : TaggedBuffer ω := { b with written := [] }

/-- `data[i] = v`. -/
def write (i : ℕ) (w : ω) (v : UInt8) : TaggedBuffer ω where
  size := b.size
  cell := if i < b.size then Function.update b.cell i (some (w, v)) else b.cell
  written := b.written ++ [i]

/-- Copy bytes to the cells from `i` on. -/
def writeAll (b : TaggedBuffer ω) (i : ℕ) (w : ω) : List UInt8 → TaggedBuffer ω
  | [] => b
  | v :: vs => writeAll (b.write i w v) (i + 1) w vs

/-- `realloc` to a larger size: the cells behind the old ones are not initialised. -/
def grow (size : ℕ) : TaggedBuffer ω :=
  { b with size := size, cell := fun i => if i < b.size then b.cell i else none }

/-- The cell holds a byte with the mark `w`. -/
def Holds (i : ℕ) (w : ω) : Prop := ∃ v, b.cell i = some (w, v)

@[simp] theorem begin_size : b.begin.size = b.size := rfl

@[simp] theorem begin_cell : b.begin.cell = b.cell := rfl

@[simp] theorem begin_written : b.begin.written = [] := rfl

@[simp] theorem write_size (i : ℕ) (w : ω) (v : UInt8) : (b.write i w v).size = b.size := rfl

@[simp] theorem write_written (i : ℕ) (w : ω) (v : UInt8) :
    (b.write i w v).written = b.written ++ [i] := rfl

@[simp] theorem grow_size (size : ℕ) : (b.grow size).size = size := rfl

@[simp] theorem grow_written (size : ℕ) : (b.grow size).written = b.written := rfl

/-- Growing keeps the cells, and the new ones are not written. -/
theorem grow_cell (size i : ℕ) :
    (b.grow size).cell i = if i < b.size then b.cell i else none := rfl

variable {b} {w : ω} {v : UInt8} {vs : List UInt8} {i j : ℕ}

/-- A written cell has its mark and its value. -/
theorem write_cell_self (h : i < b.size) : (b.write i w v).cell i = some (w, v) := by
  simp [write, h]

/-- A write leaves the other cells alone. -/
theorem write_cell_of_ne (h : j ≠ i) : (b.write i w v).cell j = b.cell j := by
  simp only [write]
  split
  · rw [Function.update_of_ne h]
  · rfl

/-- Writing keeps the size. -/
@[simp] theorem writeAll_size : (b.writeAll i w vs).size = b.size := by
  induction vs generalizing b i with
  | nil => rfl
  | cons v vs ih =>
    rw [writeAll, ih, write_size]

/-- Writing a list of values writes as many cells in a row. -/
theorem writeAll_written : (b.writeAll i w vs).written = b.written ++ List.range' i vs.length := by
  induction vs generalizing b i with
  | nil => simp [writeAll]
  | cons v vs ih =>
    rw [writeAll, ih, write_written, List.append_assoc, List.length_cons, List.range'_succ,
      List.singleton_append]

/-- The cells before the copied bytes, and behind them, are left alone. -/
theorem writeAll_cell_of_le (h : j < i ∨ i + vs.length ≤ j) :
    (b.writeAll i w vs).cell j = b.cell j := by
  induction vs generalizing b i with
  | nil => rfl
  | cons v vs ih =>
    rw [List.length_cons] at h
    rw [writeAll, ih (by omega), write_cell_of_ne (by omega)]

/-- The cells that the copied bytes reach hold them. -/
theorem writeAll_cell_of_lt (hlo : i ≤ j) (hhi : j < i + vs.length) (hsize : j < b.size) :
    (b.writeAll i w vs).Holds j w := by
  induction vs generalizing b i with
  | nil => exact absurd hhi (by simpa using hlo)
  | cons v vs ih =>
    rw [List.length_cons] at hhi
    by_cases hj : j = i
    · subst hj
      refine ⟨v, ?_⟩
      rw [writeAll, writeAll_cell_of_le (by omega), write_cell_self hsize]
    · exact ih (by omega) (by omega) hsize

/-! ## Marks -/

/-- Every mark in the buffer has the property. -/
def AllMarks (b : TaggedBuffer ω) (P : ω → Prop) : Prop := ∀ i w v, b.cell i = some (w, v) → P w

variable {P Q : ω → Prop}

/-- A condition on all marks, weakened. -/
theorem AllMarks.mono (h : b.AllMarks P) (hPQ : ∀ w, P w → Q w) : b.AllMarks Q :=
  fun i w v hc => hPQ w (h i w v hc)

/-- A write by an allowed mark. -/
theorem AllMarks.write (h : b.AllMarks P) (hw : P w) : (b.write i w v).AllMarks P := by
  intro j w' v' hc
  by_cases hj : j = i
  · subst hj
    by_cases hs : j < b.size
    · rw [write_cell_self hs] at hc
      cases hc
      exact hw
    · rw [TaggedBuffer.write] at hc
      simp only [if_neg hs] at hc
      exact h j w' v' hc
  · rw [write_cell_of_ne hj] at hc
    exact h j w' v' hc

/-- Writes by an allowed mark. -/
theorem AllMarks.writeAll (h : b.AllMarks P) (hw : P w) : (b.writeAll i w vs).AllMarks P := by
  induction vs generalizing b i with
  | nil => exact h
  | cons v vs ih => exact ih (h.write hw)

/-- New cells have no mark. -/
theorem AllMarks.grow {size : ℕ} (h : b.AllMarks P) : (b.grow size).AllMarks P := by
  intro j w' v' hc
  rw [grow_cell] at hc
  split at hc
  · exact h j w' v' hc
  · cases hc

end TaggedBuffer
