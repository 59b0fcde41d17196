import Mathlib.Data.Nat.Basic
import Mathlib.Tactic.Common

/-!
# Objects on a heap

A heap gives every new object an address of its own.  Deleting an object empties its cell for ever,
so that a pointer to it can be told from a pointer to any later object.

* **Cells** (`Heap.cell_new`, `Heap.cell_delete`): each operation changes one cell.
* **A new object** (`Heap.modify_new`): writing to it is as good as making it so.
* **Freshness** (`Heap.lt_next_of_cell`): a cell in use lies below the next address.
-/

/-- The objects of one type, by address. -/
@[ext]
structure Heap (α : Type*) where
  cell : ℕ → Option α
  /-- The address of the next object. -/
  next : ℕ
  unborn : ∀ p, next ≤ p → cell p = none

namespace Heap

variable {α : Type*} (h : Heap α)

/-- A heap without objects. -/
def empty : Heap α := ⟨fun _ => none, 0, fun _ _ => rfl⟩

/-- Every address in use is below the next free one. -/
theorem lt_next_of_cell {p : ℕ} {x : α} (hp : h.cell p = some x) : p < h.next := by
  by_contra hge
  rw [h.unborn p (by omega)] at hp
  cases hp

/-- `new`: the object gets the address `next`. -/
def new (x : α) : Heap α where
  cell p := if p = h.next then some x else h.cell p
  next := h.next + 1
  unborn p hp := by
    rw [if_neg (by omega)]
    exact h.unborn p (by omega)

/-- `delete` -/
def delete (q : ℕ) : Heap α where
  cell p := if p = q then none else h.cell p
  next := h.next
  unborn p hp := by
    split_ifs
    · rfl
    · exact h.unborn p hp

/-- Write to the object at an address. -/
def modify (q : ℕ) (f : α → α) : Heap α where
  cell p := if p = q then (h.cell p).map f else h.cell p
  next := h.next
  unborn p hp := by
    rw [h.unborn p hp]
    exact ite_self none

@[simp] theorem next_new (x : α) : (h.new x).next = h.next + 1 := rfl

@[simp] theorem next_delete (q : ℕ) : (h.delete q).next = h.next := rfl

@[simp] theorem cell_new (x : α) (p : ℕ) :
    (h.new x).cell p = if p = h.next then some x else h.cell p := rfl

@[simp] theorem cell_delete (q p : ℕ) :
    (h.delete q).cell p = if p = q then none else h.cell p := rfl

/-- Writing to an object that has just been made. -/
@[simp] theorem modify_new (x : α) (f : α → α) :
    (h.new x).modify h.next f = h.new (f x) := by
  ext1
  · funext p
    show (if p = h.next then ((h.new x).cell p).map f else (h.new x).cell p) = _
    rw [cell_new, cell_new]
    split_ifs <;> rfl
  · rfl

end Heap
