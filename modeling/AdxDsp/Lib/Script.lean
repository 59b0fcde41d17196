import Mathlib.Data.Fintype.Card
import Mathlib.Data.Finset.Card

/-!
# Threads with a script

A thread that works off a list of actions.  What it holds at each point of the list follows from the
list alone: `Script.Fits` says that every action finds what it needs and that nothing is left at the
end.

* **Scripts** (`Script.fits_append`): a script that leaves nothing can be followed by another one.
* **Points of a script** (`Script.eq_of_find?`): what the next action of a kind needs is there
  already.
* **Holders** (`card_holders_take`, `card_holders_drop`): the number of threads that hold one of
  several things, when a thread takes one or drops it.
-/

namespace Script

variable {α η : Type*} (pre : α → η → Prop) (eff : α → η → η) (done : η → Prop)

/-- Each action of the script finds what it needs, and the last one leaves a state that is done. -/
def Fits : List α → η → Prop
  | [], h => done h
  | a :: rest, h => pre a h ∧ Fits rest (eff a h)

variable {pre eff done}

/-- A script in two parts fits if both do, each from where the one before has ended. -/
theorem fits_append {l r : List α} {h : η} (hl : Fits pre eff done l h)
    (hr : ∀ h', done h' → Fits pre eff done r h') : Fits pre eff done (l ++ r) h := by
  induction l generalizing h with
  | nil => exact hr h hl
  | cons a l ih => exact ⟨hl.1, ih hl.2⟩

/-- A part of the state that only the actions of a kind change.  If the next action of the kind
needs it to be `v`, and so does the end, it is `v`. -/
theorem eq_of_find? {β : Type*} {f : η → β} {v : β} {kind : α → Bool} {first : α}
    (hkeep : ∀ a h, kind a = false → f (eff a h) = f h) (hfirst : ∀ h, pre first h → f h = v)
    (hdone : ∀ h, done h → f h = v) {l : List α} {h : η} (hl : Fits pre eff done l h)
    (hnext : ∀ a, l.find? kind = some a → a = first) : f h = v := by
  induction l generalizing h with
  | nil => exact hdone h hl
  | cons a l ih =>
    cases hkind : kind a with
    | true =>
      have ha : a = first := hnext a (List.find?_cons_of_pos hkind)
      exact hfirst h (ha ▸ hl.1)
    | false =>
      rw [← hkeep a h hkind]
      apply ih hl.2
      intro a' ha'
      exact hnext a' (by rwa [List.find?_cons_of_neg (by rw [hkind]; exact Bool.false_ne_true)])

end Script

/-! ## Holders -/

section

variable {ι β : Type*} [Fintype ι] [DecidableEq ι] [DecidableEq β]

omit [DecidableEq ι] in
/-- The threads that hold a thing. -/
def holders (hold : ι → Option β) (b : β) : Finset ι := Finset.univ.filter fun i => hold i = some b

variable (hold : ι → Option β) {i : ι} {x : β}

/-- A thread that holds nothing takes one. -/
theorem card_holders_take (hi : hold i = none) (b : β) :
    (holders (Function.update hold i (some x)) b).card =
      (holders hold b).card + if b = x then 1 else 0 := by
  by_cases hb : b = x
  · subst hb
    have hset : holders (Function.update hold i (some b)) b = insert i (holders hold b) := by
      ext j
      by_cases hj : j = i
      · subst hj
        simp [holders]
      · simp [holders, hj]
    have hnot : i ∉ holders hold b := by simp [holders, hi]
    rw [hset, Finset.card_insert_of_notMem hnot, if_pos rfl]
  · have hset : holders (Function.update hold i (some x)) b = holders hold b := by
      ext j
      by_cases hj : j = i
      · subst hj
        simp [holders, hi, Ne.symm hb]
      · simp [holders, hj]
    rw [hset, if_neg hb, Nat.add_zero]

/-- A thread drops what it holds. -/
theorem card_holders_drop (hi : hold i = some x) (b : β) :
    (holders hold b).card =
      (holders (Function.update hold i none) b).card + if b = x then 1 else 0 := by
  have htake := card_holders_take (Function.update hold i none) (x := x)
    (Function.update_self i none hold) b
  rw [Function.update_idem, ← hi, Function.update_eq_self] at htake
  exact htake

end
