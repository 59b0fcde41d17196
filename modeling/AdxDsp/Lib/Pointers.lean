import Mathlib.Logic.Basic
import Mathlib.Data.Option.Basic

/-!
# Reading through pointers

A pointer is `none` where it is `NULL`.  A computation that reads through it ends there
(`Pointer.deref`), and `Pointer.Safe` says that a computation does not end this way.
-/

/-- A pointer, which may be `NULL`. -/
abbrev Pointer (α : Type) := Option α

namespace Pointer

variable {α β γ : Type}

/-- How a computation may end without a value. -/
inductive Fault where
  | null
  deriving DecidableEq

/-- A computation that reads through pointers. -/
abbrev Reads (α : Type) := Except Fault α

/-- Read what the pointer points to. -/
def deref : Pointer α → Reads α
  | none => .error .null
  | some a => .ok a

/-- The computation ends with a value. -/
def Safe (x : Reads α) : Prop := ∃ a, x = .ok a

instance (x : Reads α) : Decidable (Safe x) :=
  match x with
  | .ok a => .isTrue ⟨a, rfl⟩
  | .error _ => .isFalse (fun ⟨_, h⟩ => nomatch h)

@[simp] theorem deref_some (a : α) : deref (some a) = .ok a := rfl

/-- A result is safe. -/
@[simp] theorem safe_ok (a : α) : Safe (.ok a : Reads α) := ⟨a, rfl⟩

/-- A pure result is safe. -/
@[simp] theorem safe_pure (a : α) : Safe (pure a : Reads α) := ⟨a, rfl⟩

/-- A fault is not safe. -/
@[simp] theorem not_safe_error (e : Fault) : ¬ Safe (.error e : Reads α) := fun ⟨_, h⟩ => nomatch h

/-- A sequence is safe if its first part is, and its second part for the value of the first. -/
theorem safe_bind_iff {x : Reads α} {f : α → Reads β} :
    Safe (x >>= f) ↔ ∃ a, x = .ok a ∧ Safe (f a) := by
  cases x with
  | error e =>
    constructor
    · exact fun h => absurd h (not_safe_error e)
    · rintro ⟨a, h, -⟩
      cases h
  | ok a =>
    constructor
    · exact fun h => ⟨a, rfl, h⟩
    · rintro ⟨b, h, hsafe⟩
      cases h
      exact hsafe

/-- Safe reads in a row are safe. -/
theorem Safe.bind {x : Reads α} {f : α → Reads β} (hx : Safe x) (hf : ∀ a, Safe (f a)) :
    Safe (x >>= f) := by
  obtain ⟨a, rfl⟩ := hx
  exact hf a

/-- Following a pointer is safe just if it is not NULL and what follows is safe. -/
theorem safe_deref_bind_iff {p : Pointer α} {f : α → Reads β} :
    Safe (deref p >>= f) ↔ ∃ a, p = some a ∧ Safe (f a) := by
  rw [safe_bind_iff]
  cases p with
  | none => simp [deref]
  | some b => simp

/-- A loop is safe if its body is. -/
theorem safe_mapM {f : α → Reads β} (hf : ∀ a, Safe (f a)) (l : List α) : Safe (l.mapM f) := by
  induction l with
  | nil =>
    rw [List.mapM_nil]
    exact safe_pure []
  | cons a l ih =>
    rw [List.mapM_cons]
    exact (hf a).bind fun b => ih.bind fun bs => safe_pure (b :: bs)

end Pointer
