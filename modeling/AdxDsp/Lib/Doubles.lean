import AdxDsp.Lib.Prog

/-!
# Doubles as exact rationals

The numbers of a calculation are exact rationals, and the infinities and what is not a number are
one further value.  A calculation says which divisions it makes, so that a division by zero is seen
also where its quotient is of no consequence.

* `quotient_some`: what a division by another number than zero gives.
* `dividesByZero_bind`: the divisions of a sequence are those of its parts.
-/

/-- A double: an exact rational, or `none` for an infinity and for what is not a number. -/
abbrev Double := Option ℚ

namespace Double

/-- `x * q`. -/
def scale (x : Double) (q : ℚ) : Double := x.map (· * q)

/-- `x > y ? x : y`. -/
def larger : Double → Double → Double
  | some x, some y => if x > y then some x else some y
  | _, y => y

/-- `ceil`, for a result that is an integer. -/
def ceil (x : Double) : ℤ := (x.map fun q => ⌈q⌉).getD 0

/-- A division gives no rational when a number is divided by zero. -/
def quotient : Double × Double → Double
  | (some x, some y) => if y = 0 then none else some (x / y)
  | _ => none

variable {x y q : ℚ}

@[simp] theorem scale_some : scale (some x) q = some (x * q) := rfl

/-- Of two numbers the larger one. -/
@[simp] theorem larger_some : larger (some x) (some y) = some (max x y) := by
  simp only [larger]
  split_ifs with h
  · rw [max_eq_left h.le]
  · rw [max_eq_right (not_lt.mp h)]

@[simp] theorem ceil_some : ceil (some x) = ⌈x⌉ := rfl

/-- A quotient whose divisor is not zero. -/
theorem quotient_some (hy : y ≠ 0) : quotient (some x, some y) = some (x / y) := if_neg hy

end Double

/-- A calculation with doubles, which says what it divides. -/
abbrev Calculation (α : Type) := Prog (Double × Double) Double α

namespace Calculation

variable {α β : Type}

/-- The division of one double by another. -/
def divide (x y : Double) : Calculation Double := Prog.call (x, y)

/-- A division gives its quotient. -/
def exec (_ : Unit) (c : Double × Double) : Unit × Double := ((), Double.quotient c)

/-- The result of a calculation. -/
def value (p : Calculation α) : α := (p.eval exec ()).1

/-- Some division of the calculation is one by zero. -/
def DividesByZero (p : Calculation α) : Prop := ∃ x, (x, some 0) ∈ p.sent exec ()

instance (p : Calculation α) : Decidable p.DividesByZero :=
  decidable_of_iff ((p.sent exec ()).any fun c => decide (c.2 = some 0)) (by
    simp only [List.any_eq_true, decide_eq_true_eq]
    constructor
    · rintro ⟨⟨x, y⟩, hmem, rfl⟩
      exact ⟨x, hmem⟩
    · rintro ⟨x, hmem⟩
      exact ⟨(x, some 0), hmem, rfl⟩)

@[simp] theorem value_ret (a : α) : value (Prog.ret a : Calculation α) = a := rfl

@[simp] theorem value_divide (x y : Double) : (divide x y).value = Double.quotient (x, y) := rfl

/-- The value of two calculations in a row. -/
@[simp] theorem value_bind (p : Calculation α) (f : α → Calculation β) :
    value (p >>= f) = (f p.value).value := by
  rw [value, Prog.eval_bind]
  rfl

/-- A result divides nothing. -/
@[simp] theorem not_dividesByZero_ret (a : α) :
    ¬DividesByZero (Prog.ret a : Calculation α) := fun ⟨_, hmem⟩ => List.not_mem_nil hmem

/-- A division divides by zero just if its divisor is zero. -/
@[simp] theorem dividesByZero_divide (x y : Double) :
    (divide x y).DividesByZero ↔ y = some 0 := by
  simp [DividesByZero, divide, eq_comm]

/-- Two calculations in a row divide by zero if one of them does. -/
@[simp] theorem dividesByZero_bind (p : Calculation α) (f : α → Calculation β) :
    DividesByZero (p >>= f) ↔ p.DividesByZero ∨ (f p.value).DividesByZero := by
  simp only [DividesByZero, Prog.sent_bind, List.mem_append, exists_or]
  rfl

end Calculation
