import Mathlib.Data.Option.Basic
import Mathlib.Logic.Function.Iterate
import Mathlib.Tactic.Common

/-!
# Counters that expire

Hashes of counters under a discrete clock.  A hash is given by the increments it has received since
it was created; `hincrby` creates it without an expiry and never changes its expiry, `expire` sets
the expiry of a hash that is there.  A hash is gone from its expiry on.

* `find_hincrby`, `find_expire`, `find_tick`: what an operation does to the hashes that are there.
* `find_tick_iterate`: a hash without an expiry stays.
-/

namespace Expiry

variable {κ α : Type*}

/-- A hash: the increments of its counters, and when it expires. -/
structure Cell (α : Type*) where
  counted : List α
  expireAt : Option ℕ
  deriving DecidableEq

/-- The hash is there at time `t`. -/
def Cell.live (t : ℕ) (c : Cell α) : Bool :=
  match c.expireAt with
  | none => true
  | some e => t < e

/-- One more increment; a hash that is not there is created. -/
def Cell.add (a : α) : Option (Cell α) → Cell α
  | none => ⟨[a], none⟩
  | some c => { c with counted := a :: c.counted }

/-- The hashes and the time. -/
structure Store (κ α : Type*) where
  now : ℕ
  cell : κ → Option (Cell α)

namespace Store

/-- No hashes, at time zero. -/
def empty : Store κ α := ⟨0, fun _ => none⟩

variable (s : Store κ α)

/-- The hash of a key, if it is there. -/
def find (k : κ) : Option (Cell α) := (s.cell k).filter (Cell.live s.now)

/-- The clock goes on. -/
def tick : Store κ α := { s with now := s.now + 1 }

variable [DecidableEq κ]

/-- `HINCRBY`. -/
def hincrby (k : κ) (a : α) : Store κ α :=
  { s with cell := Function.update s.cell k (some (Cell.add a (s.find k))) }

/-- `EXPIRE`. -/
def expire (k : κ) (seconds : ℕ) : Store κ α :=
  match s.find k with
  | none => s
  | some c =>
    { s with cell := Function.update s.cell k (some { c with expireAt := some (s.now + seconds) }) }

variable {s}

omit [DecidableEq κ] in
/-- What a lookup yields has not expired. -/
theorem live_of_find {k : κ} {c : Cell α} (h : s.find k = some c) : c.live s.now = true :=
  (Option.filter_eq_some_iff.mp h).2

@[simp] theorem now_hincrby (k : κ) (a : α) : (s.hincrby k a).now = s.now := rfl

/-- Setting a lifetime takes no time. -/
@[simp] theorem now_expire (k : κ) (seconds : ℕ) : (s.expire k seconds).now = s.now := by
  rw [expire]
  split <;> rfl

omit [DecidableEq κ] in
@[simp] theorem now_tick : s.tick.now = s.now + 1 := rfl

/-- Storing a hash that is there. -/
theorem find_update {k : κ} {c : Cell α} (hc : c.live s.now = true) (j : κ) :
    ({ s with cell := Function.update s.cell k (some c) } : Store κ α).find j =
      if j = k then some c else s.find j := by
  show Option.filter (Cell.live s.now) (Function.update s.cell k (some c) j) = _
  split_ifs with h
  · subst h
    rw [Function.update_self, Option.filter_some, hc]
    rfl
  · rw [Function.update_of_ne h]
    rfl

/-- An increment changes its own key only, and creates it where it is missing. -/
theorem find_hincrby (k j : κ) (a : α) :
    (s.hincrby k a).find j = if j = k then some (Cell.add a (s.find k)) else s.find j := by
  apply find_update
  cases h : s.find k with
  | none => rfl
  | some c =>
    have hlive : c.live s.now = true := live_of_find h
    exact hlive

/-- A lifetime changes the expiry of its own key only. -/
theorem find_expire {seconds : ℕ} (hpos : 0 < seconds) (k j : κ) :
    (s.expire k seconds).find j =
      if j = k then (s.find k).map fun c => { c with expireAt := some (s.now + seconds) }
      else s.find j := by
  rw [expire]
  cases hk : s.find k with
  | none =>
    split_ifs with h
    · exact h ▸ hk
    · rfl
  | some c =>
    apply find_update
    simp [Cell.live, hpos]

omit [DecidableEq κ] in
/-- What is there later is there now. -/
theorem find_tick {k : κ} {c : Cell α} :
    s.tick.find k = some c ↔ s.find k = some c ∧ c.live (s.now + 1) = true := by
  rw [find, find, Option.filter_eq_some_iff, Option.filter_eq_some_iff]
  refine and_congr_left fun hlive => (and_iff_left ?_).symm
  -- a hash that is there at the next time is there now
  cases h : c.expireAt with
  | none => simp [Cell.live, h]
  | some e =>
    rw [Cell.live, h] at hlive ⊢
    have hlt : s.now + 1 < e := of_decide_eq_true hlive
    exact decide_eq_true (by omega)

omit [DecidableEq κ] in
/-- A hash without an expiry stays for ever. -/
theorem find_tick_iterate {k : κ} {c : Cell α} (h : s.find k = some c) (hc : c.expireAt = none)
    (n : ℕ) : (tick^[n] s).find k = some c ∧ (tick^[n] s).now = s.now + n := by
  induction n with
  | zero => exact ⟨h, rfl⟩
  | succ n ih =>
    rw [Function.iterate_succ_apply']
    refine ⟨find_tick.mpr ⟨ih.1, ?_⟩, ?_⟩
    · simp [Cell.live, hc]
    · rw [now_tick, ih.2]
      rfl

end Store

end Expiry
