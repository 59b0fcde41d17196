import Mathlib.Data.List.Basic

/-!
# Machines that read a list and append outputs

A machine goes from state to state with the inputs of a list, and appends some outputs at each one.

* `outputs`: the outputs of a run.
* **Memory** (`outputs_eq_flatMap_iff`): the outputs are those of the inputs alone if and only if
  they are so in each state that the run comes through; `flatMap_eq_flatMap_iff`.
-/

namespace AdxDsp.Transducer

variable {σ ι ο : Type*} {next : σ → ι → σ} {out : σ → ι → List ο} {s : σ}

/-- The outputs of a run from a state. -/
def outputs (next : σ → ι → σ) (out : σ → ι → List ο) : σ → List ι → List ο
  | _, [] => []
  | s, i :: is => out s i ++ outputs next out (next s i) is

/-- If every step writes as much as its own text, all of them do. -/
theorem length_outputs {own : ι → List ο} (hlen : ∀ s i, (out s i).length = (own i).length)
    (is : List ι) : (outputs next out s is).length = (is.flatMap own).length := by
  induction is generalizing s with
  | nil => rfl
  | cons i is ih =>
    rw [outputs, List.flatMap_cons, List.length_append, List.length_append, hlen, ih]

/-- Where the number of outputs does not depend on the state, the outputs of a run are given by the
inputs alone if and only if those of each input are, after what comes before it. -/
theorem outputs_eq_flatMap_iff {own : ι → List ο}
    (hlen : ∀ s i, (out s i).length = (own i).length) (is : List ι) :
    outputs next out s is = is.flatMap own ↔
      ∀ pre i post, is = pre ++ i :: post → out (pre.foldl next s) i = own i := by
  induction is generalizing s with
  | nil => exact iff_of_true rfl fun pre i post h => absurd h.symm (by simp)
  | cons i is ih =>
    rw [outputs, List.flatMap_cons]
    constructor
    · intro h pre j post heq
      obtain ⟨hfirst, hrest⟩ := List.append_inj h (hlen s i)
      cases pre with
      | nil =>
        obtain ⟨rfl, -⟩ := List.cons.inj heq
        exact hfirst
      | cons k pre =>
        obtain ⟨rfl, rfl⟩ := List.cons.inj heq
        exact ih.mp hrest pre j post rfl
    · intro h
      rw [show out s i = own i from h [] i is rfl,
        ih.mpr fun pre j post heq => h (i :: pre) j post (by rw [heq]; rfl)]

/-- The same for outputs that depend on the inputs only, in two ways. -/
theorem flatMap_eq_flatMap_iff {own own' : ι → List ο}
    (hlen : ∀ i, (own i).length = (own' i).length) (is : List ι) :
    is.flatMap own = is.flatMap own' ↔ ∀ i ∈ is, own i = own' i := by
  induction is with
  | nil => exact iff_of_true rfl fun i hi => absurd hi List.not_mem_nil
  | cons i is ih =>
    rw [List.flatMap_cons, List.flatMap_cons, List.forall_mem_cons, ← ih]
    constructor
    · intro h
      exact List.append_inj h (hlen i)
    · rintro ⟨hi, his⟩
      rw [hi, his]

end AdxDsp.Transducer
