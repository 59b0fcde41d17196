import Mathlib.Data.List.Basic
import Mathlib.Data.List.Induction
import Mathlib.Data.Set.Basic

/-!
# A loop that reads unknown values

A loop goes over a list and keeps the last of the values that satisfy a condition.  Some entries have
no value; what is read for them is an arbitrary element of a set.

* `lastKept`: the loop, with what is read at each place that has no value.
* `lastKnown`: the last of the values that are there.
* `forall_lastKept_eq_iff`: when what is read for the others makes no difference.
-/

namespace UnknownValues

universe u

variable {α : Type u} (p : α → Prop)

/-- Behind each entry without a value comes one with a value that satisfies the condition. -/
def Covered (l : List (Option α)) : Prop :=
  ∀ before after, l = before ++ none :: after → ∃ v, some v ∈ after ∧ p v

section

variable {p} {v : α} {l : List (Option α)}

/-- The empty list has no entry without a value. -/
theorem covered_nil : Covered p [] := fun before _ h => by simp at h

/-- A list whose last entry has no value is not covered. -/
theorem not_covered_concat_none : ¬ Covered p (l ++ [none]) := by
  intro h
  obtain ⟨v, hmem, -⟩ := h l [] rfl
  cases hmem

/-- One more value covers the list if it satisfies the condition; else the list was covered. -/
theorem covered_concat_some : Covered p (l ++ [some v]) ↔ p v ∨ Covered p l := by
  constructor
  · intro h
    by_cases hv : p v
    · exact .inl hv
    · refine .inr fun before after hl => ?_
      obtain ⟨w, hmem, hw⟩ := h before (after ++ [some v]) (by simp [hl])
      rcases List.mem_append.mp hmem with hmem | hmem
      · exact ⟨w, hmem, hw⟩
      · obtain rfl := Option.some.inj (List.mem_singleton.mp hmem)
        exact absurd hw hv
  · intro h before after hl
    -- the new entry is the last one behind the entry without a value
    rcases List.eq_nil_or_concat' after with rfl | ⟨rest, y, rfl⟩
    · have hlast := (List.append_inj' hl rfl).2
      simp at hlast
    · rw [← List.cons_append, ← List.append_assoc] at hl
      obtain ⟨hl, hy⟩ := List.append_inj' hl rfl
      rw [← hy]
      rcases h with hv | h
      · exact ⟨v, by simp, hv⟩
      · obtain ⟨w, hmem, hw⟩ := h before rest hl
        exact ⟨w, List.mem_append_left _ hmem, hw⟩

end

variable [DecidablePred p]

/-- The value that is kept behind the loop, of which the first turn has the number `i`. -/
def lastKept (read : ℕ → α) : ℕ → α → List (Option α) → α
  | _, kept, [] => kept
  | i, kept, x :: l =>
    lastKept read (i + 1) (if p (x.getD (read i)) then x.getD (read i) else kept) l

/-- The last value that is there and satisfies the condition. -/
def lastKnown (kept : α) (l : List (Option α)) : α :=
  ((l.filterMap id).filter (p ·)).getLast?.getD kept

section

variable {p} {v : α} {l : List (Option α)} {read : ℕ → α} {i : ℕ} {kept : α} {x : Option α}

/-- The kept value after one more. -/
theorem lastKept_concat : lastKept p read i kept (l ++ [x]) =
    if p (x.getD (read (i + l.length))) then x.getD (read (i + l.length))
      else lastKept p read i kept l := by
  induction l generalizing i kept with
  | nil => rfl
  | cons y l ih =>
    rw [List.cons_append, lastKept, ih, lastKept, List.length_cons, Nat.add_right_comm, Nat.add_assoc]

/-- The known value after one more. -/
theorem lastKnown_concat_some : lastKnown p kept (l ++ [some v]) =
    if p v then v else lastKnown p kept l := by
  by_cases hv : p v <;> simp [lastKnown, hv]

/-- If any value may be read that is kept, but for one, the loop keeps the last of the known values
exactly when they come behind the unknown ones. -/
theorem forall_lastKept_eq_iff {s : Set α} (hother : ∀ v, ∃ w ∈ s, p w ∧ w ≠ v) :
    (∀ read : ℕ → α, (∀ i, read i ∈ s) → lastKept p read 0 kept l = lastKnown p kept l) ↔
      Covered p l := by
  induction l using List.reverseRecOn with
  | nil => exact iff_of_true (fun _ _ => rfl) covered_nil
  | append_singleton l x ih =>
    cases x with
    | none =>
      refine iff_of_false (fun h => ?_) not_covered_concat_none
      obtain ⟨w, hw, hkept, hne⟩ := hother (lastKnown p kept (l ++ [none]))
      have hlast := h (fun _ => w) fun _ => hw
      rw [lastKept_concat, Option.getD_none, if_pos hkept] at hlast
      exact hne hlast
    | some v =>
      simp only [lastKept_concat, lastKnown_concat_some, Option.getD_some, covered_concat_some, ← ih]
      by_cases hv : p v
      · simp [hv]
      · simp [hv]

end

end UnknownValues
