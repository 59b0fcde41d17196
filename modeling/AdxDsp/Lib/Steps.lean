import Mathlib.Data.List.Induction
import Mathlib.Data.Option.Basic
import Mathlib.Tactic.Common

/-!
# Runs of a guarded step function

`step s e` is the state after event `e`, or `none` where `e` cannot happen in `s`.  A run is a list
of events, each of which can happen where it stands.

* **Induction** (`run_induction`, `run_invariant`): what holds at the start and is kept by every
  step, given the events before it, holds after every run.
* **Conditions** (`run_keeps`): what is kept by the steps that meet a condition holds after every
  run of such steps.
* **Progress** (`run_descends`): where some step can always be made that lowers a measure, some run
  ends at measure zero.
* **Simulation** (`run_simulates`): if the image of a state makes the image of its step, the image
  of a run is the run of the image.
-/

namespace Steps

variable {σ ε τ δ : Type*} (step : σ → ε → Option σ)

/-- The state after the events, if each of them can happen where it stands. -/
def run (s : σ) : List ε → Option σ
  | [] => some s
  | e :: es => (step s e).bind fun s' => run s' es

@[simp] theorem run_nil (s : σ) : run step s [] = some s := rfl

@[simp] theorem run_cons (s : σ) (e : ε) (es : List ε) :
    run step s (e :: es) = (step s e).bind fun s' => run step s' es := rfl

variable {step}

/-- A run in two parts. -/
theorem run_append {s s' : σ} {es fs : List ε} :
    run step s (es ++ fs) = some s' ↔ ∃ t, run step s es = some t ∧ run step t fs = some s' := by
  induction es generalizing s with
  | nil => simp
  | cons e es ih =>
    rw [List.cons_append, run_cons, run_cons]
    cases step s e with
    | none => simp
    | some t => exact ih

/-- A run with one more step. -/
theorem run_concat {s s' : σ} {es : List ε} {e : ε} :
    run step s (es ++ [e]) = some s' ↔ ∃ t, run step s es = some t ∧ step t e = some s' := by
  rw [run_append]
  simp

/-- An invariant that may speak of the events so far. -/
theorem run_induction {P : List ε → σ → Prop} {s₀ : σ} (h₀ : P [] s₀)
    (hstep : ∀ {es s e s'}, P es s → step s e = some s' → P (es ++ [e]) s') {es : List ε} {s : σ}
    (h : run step s₀ es = some s) : P es s := by
  induction es using List.reverseRecOn generalizing s with
  | nil =>
    cases h
    exact h₀
  | append_singleton es e ih =>
    obtain ⟨t, ht, hs⟩ := run_concat.mp h
    exact hstep (ih ht) hs

/-- What every step keeps. -/
theorem run_invariant {P : σ → Prop} (hstep : ∀ {s e s'}, P s → step s e = some s' → P s')
    {es : List ε} {s s' : σ} (hs : P s) (h : run step s es = some s') : P s' :=
  run_induction (P := fun _ => P) hs hstep h

/-- Every step of the run meets the condition, in the state in which it is made. -/
def Along (step : σ → ε → Option σ) (ok : σ → ε → Prop) (s : σ) : List ε → Prop
  | [] => True
  | e :: es => ok s e ∧ ∀ s', step s e = some s' → Along step ok s' es

/-- A run can be checked step by step. -/
instance decidableAlong {ok : σ → ε → Prop} [∀ s e, Decidable (ok s e)] :
    ∀ (s : σ) (es : List ε), Decidable (Along step ok s es)
  | _, [] => inferInstanceAs (Decidable True)
  | s, e :: es =>
    have : DecidablePred fun s' => Along step ok s' es := fun s' => decidableAlong s' es
    inferInstanceAs (Decidable (ok s e ∧ ∀ s' ∈ step s e, Along step ok s' es))

/-- A condition along a run with one more step. -/
theorem along_concat {ok : σ → ε → Prop} {s : σ} {es : List ε} {e : ε} :
    Along step ok s (es ++ [e]) ↔ Along step ok s es ∧ ∀ t, run step s es = some t → ok t e := by
  induction es generalizing s with
  | nil => simp [Along]
  | cons e' es ih =>
    rw [List.cons_append, Along, Along, run_cons]
    simp only [ih, Option.bind_eq_some_iff]
    constructor
    · rintro ⟨hok, hrest⟩
      exact ⟨⟨hok, fun s' hs' => (hrest s' hs').1⟩,
        fun t ⟨s', hs', ht⟩ => (hrest s' hs').2 t ht⟩
    · rintro ⟨⟨hok, hrest⟩, hlast⟩
      exact ⟨hok, fun s' hs' => ⟨hrest s' hs', fun t ht => hlast t ⟨s', hs', ht⟩⟩⟩

/-- What is kept by the steps that meet a condition holds after a run of such steps. -/
theorem run_keeps {P : σ → Prop} {ok : σ → ε → Prop}
    (hstep : ∀ {s e s'}, P s → ok s e → step s e = some s' → P s') {es : List ε} {s s' : σ}
    (hs : P s) (hok : Along step ok s es) (h : run step s es = some s') : P s' := by
  induction es generalizing s with
  | nil =>
    cases h
    exact hs
  | cons e es ih =>
    rw [run_cons, Option.bind_eq_some_iff] at h
    obtain ⟨t, ht, hrun⟩ := h
    exact ih (hstep hs hok.1 ht) (hok.2 t ht) hrun

/-- Where some step lowers the measure, some run ends at measure zero. -/
theorem run_descends {P : σ → Prop} (μ : σ → ℕ)
    (hstep : ∀ {s}, P s → μ s ≠ 0 → ∃ e s', step s e = some s' ∧ P s' ∧ μ s' < μ s) {s : σ}
    (hs : P s) : ∃ es s', run step s es = some s' ∧ P s' ∧ μ s' = 0 := by
  induction hm : μ s using Nat.strongRecOn generalizing s with
  | ind m ih =>
    by_cases hzero : μ s = 0
    · exact ⟨[], s, rfl, hs, hzero⟩
    · obtain ⟨e, t, ht, hP, hlt⟩ := hstep hs hzero
      obtain ⟨es, s', hrun, hend⟩ := ih (μ t) (hm ▸ hlt) hP rfl
      refine ⟨e :: es, s', ?_, hend⟩
      rw [run_cons, ht]
      exact hrun

/-- A step that the image makes too, as the events `label s e`, makes a run that the image makes
too. -/
theorem run_simulates {astep : τ → δ → Option τ} {abs : σ → τ} (label : σ → ε → List δ)
    {P : σ → Prop}
    (hstep : ∀ {s e s'}, P s → step s e = some s' →
      P s' ∧ run astep (abs s) (label s e) = some (abs s'))
    {es : List ε} {s s' : σ} (hs : P s) (h : run step s es = some s') :
    ∃ ds, run astep (abs s) ds = some (abs s') := by
  induction es generalizing s with
  | nil =>
    cases h
    exact ⟨[], rfl⟩
  | cons e es ih =>
    rw [run_cons, Option.bind_eq_some_iff] at h
    obtain ⟨t, ht, hrun⟩ := h
    obtain ⟨hP, hsim⟩ := hstep hs ht
    obtain ⟨ds, hds⟩ := ih hP hrun
    exact ⟨label s e ++ ds, run_append.mpr ⟨abs t, hsim, hds⟩⟩

end Steps
