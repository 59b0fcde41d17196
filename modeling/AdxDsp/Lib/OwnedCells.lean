import Mathlib

/-!
# Programs that own cells

A program reads and changes the cells of a memory.  What is known of the memory is a multiset of
cells with their addresses, so that the order in which they are named does not matter, and the cells
that a step does not touch are a summand of their own.

* `Owns`: the memory has these cells, at different addresses.
* `Runs`: a program ends, with what is known of the memory before and behind it.
* **The rules**: `Runs.deref_bind`, `Runs.modify_bind`, `Runs.assign`, `Runs.pre`.
* **Allocation** (`OwnsAll`): the memory has these cells and no others, so that no cell gets lost.
-/

namespace OwnedCells

variable {ρ ω γ α β : Type}

/-! ## Programs -/

/-- The variables of a program, and the cells of its memory at their addresses. -/
structure State (ρ ω γ : Type) where
  vars : ρ
  cells : ω → Option γ

/-- A program that may end without a result: it follows an address without a cell, or does not
stop. -/
abbrev Prog (ρ ω γ : Type) := StateT (State ρ ω γ) Option

/-- There is no result. -/
def fail : Prog ρ ω γ α := fun _ => none

/-- The cell at an address. -/
def deref (a : ω) : Prog ρ ω γ γ := fun s => (s.cells a).map fun c => (c, s)

/-- Change the cell at an address. -/
def modify [DecidableEq ω] (a : ω) (g : γ → γ) : Prog ρ ω γ Unit := fun s =>
  (s.cells a).map fun c => ((), { s with cells := Function.update s.cells a (some (g c)) })

/-- The variables. -/
def vars : Prog ρ ω γ ρ := fun s => some (s.vars, s)

/-- Change the variables. -/
def assign (r : ρ) : Prog ρ ω γ Unit := fun s => some ((), { s with vars := r })

/-- An address that is not `NULL`. -/
def nonNull (p : Option ω) : Prog ρ ω γ ω := fun s => p.map fun a => (a, s)

/-! ## What is known of the memory -/

/-- The variables have these values, and the memory has these cells, at different addresses. -/
structure Owns (r : ρ) (M : Multiset (ω × γ)) (s : State ρ ω γ) : Prop where
  vars : s.vars = r
  apart : (M.map Prod.fst).Nodup
  cells : ∀ e ∈ M, s.cells e.1 = some e.2

/-- The program ends with a result, and what is known before it gives what is known behind. -/
def Runs (P : State ρ ω γ → Prop) (m : Prog ρ ω γ α) (Q : α → State ρ ω γ → Prop) : Prop :=
  ∀ s, P s → ∃ a s', m s = some (a, s') ∧ Q a s'

section

variable {r r' : ρ} {M N : Multiset (ω × γ)} {s : State ρ ω γ} {a b : ω} {c d : γ}
  {P P' : State ρ ω γ → Prop} {Q Q' : α → State ρ ω γ → Prop} {S : β → State ρ ω γ → Prop}

/-- An owned cell holds its contents. -/
theorem Owns.cell (h : Owns r ({(a, c)} + N) s) : s.cells a = some c :=
  h.cells (a, c) (by simp)

/-- An owned cell can be read. -/
theorem Owns.deref (h : Owns r ({(a, c)} + N) s) : deref a s = some (c, s) := by
  rw [OwnedCells.deref, h.cell]
  rfl

/-- Cells that are named twice have one address only once. -/
theorem Owns.ne (h : Owns r ({(a, c)} + ({(b, d)} + N)) s) : a ≠ b := by
  have hapart := h.apart
  simp only [Multiset.singleton_add, Multiset.map_cons, Multiset.nodup_cons, Multiset.mem_cons,
    not_or] at hapart
  exact hapart.1.1

omit a b c d in
/-- Cells of two summands have different addresses. -/
theorem ne_of_nodup_map (h : ((M + N).map Prod.fst).Nodup) {e f : ω × γ} (he : e ∈ M) (hf : f ∈ N) :
    e.1 ≠ f.1 := by
  rw [Multiset.map_add, Multiset.nodup_add] at h
  exact Multiset.disjoint_left.mp h.2.2 (Multiset.mem_map_of_mem _ he) ∘
    fun heq => heq ▸ Multiset.mem_map_of_mem _ hf

/-- Less is known. -/
theorem Owns.mono (h : Owns r M s) (hle : N ≤ M) : Owns r N s where
  vars := h.vars
  apart := Multiset.nodup_of_le (Multiset.map_le_map hle) h.apart
  cells e he := h.cells e (Multiset.mem_of_le hle he)

/-- An owned cell can be written; the other owned ones stay. -/
theorem Owns.modify [DecidableEq ω] (h : Owns r ({(a, c)} + N) s) (c' : γ) :
    Owns r ({(a, c')} + N) { s with cells := Function.update s.cells a (some c') } := by
  have hapart := h.apart
  simp only [Multiset.singleton_add, Multiset.map_cons, Multiset.nodup_cons] at hapart
  refine ⟨h.vars, by simpa using hapart, ?_⟩
  intro e he
  rcases Multiset.mem_add.mp he with he | he
  · rw [Multiset.mem_singleton.mp he]
    simp
  · -- the other cells have other addresses
    have hne : e.1 ≠ a := fun heq => hapart.1 (heq ▸ Multiset.mem_map_of_mem Prod.fst he)
    simp only [Function.update_of_ne hne]
    exact h.cells e (Multiset.mem_add.mpr (.inr he))

/-! ## The rules -/

/-- A program after one that has ended. -/
theorem bind_apply {m : Prog ρ ω γ α} {f : α → Prog ρ ω γ β} {s s' : State ρ ω γ} {x : α}
    (h : m s = some (x, s')) : (m >>= f) s = f x s' := by
  show (m s).bind (fun y => f y.1 y.2) = _
  rw [h]
  rfl

/-- A result that meets the postcondition. -/
theorem Runs.pure {x : α} (h : ∀ s, P s → Q x s) : Runs P (pure x : Prog ρ ω γ α) Q :=
  fun s hs => ⟨x, s, rfl, h s hs⟩

/-- Two programs in a row. -/
theorem Runs.bind {m : Prog ρ ω γ α} {f : α → Prog ρ ω γ β} (hm : Runs P m Q)
    (hf : ∀ x, Runs (Q x) (f x) S) : Runs P (m >>= f) S := by
  intro s hs
  obtain ⟨x, s', hx, hs'⟩ := hm s hs
  obtain ⟨y, s'', hy, hs''⟩ := hf x s' hs'
  exact ⟨y, s'', (bind_apply hx).trans hy, hs''⟩

/-- The rule of consequence. -/
theorem Runs.mono {m : Prog ρ ω γ α} (h : Runs P m Q) (hP : ∀ s, P' s → P s)
    (hQ : ∀ x s, Q x s → Q' x s) : Runs P' m Q' := by
  intro s hs
  obtain ⟨x, s', hx, hs'⟩ := h s (hP s hs)
  exact ⟨x, s', hx, hQ x s' hs'⟩

/-- A program may be written otherwise. -/
theorem Runs.congr {m m' : Prog ρ ω γ α} (h : Runs P m' Q) (hm : m = m') : Runs P m Q := hm ▸ h

/-- The cells can be named in any order. -/
theorem Runs.pre {m : Prog ρ ω γ α} (h : Runs (Owns r N) m Q) (hM : M = N) :
    Runs (Owns r M) m Q := hM ▸ h

/-- A fact that does not depend on the memory. -/
theorem Runs.of_fact {p : Prop} {m : Prog ρ ω γ α} (h : p → Runs P m Q) :
    Runs (fun s => p ∧ P s) m Q :=
  fun s hs => h hs.1 s hs.2

/-- The cells that are known are at different addresses. -/
theorem Runs.of_owns {m : Prog ρ ω γ α} (h : (M.map Prod.fst).Nodup → Runs (Owns r M) m Q) :
    Runs (Owns r M) m Q :=
  fun s hs => h hs.apart s hs

/-- A program that changes nothing. -/
theorem Runs.reads_bind {m : Prog ρ ω γ α} {f : α → Prog ρ ω γ β} {x : α}
    (hm : ∀ s, P s → m s = some (x, s)) (h : Runs P (f x) S) : Runs P (m >>= f) S := by
  intro s hs
  obtain ⟨y, s', hy, hs'⟩ := h s hs
  exact ⟨y, s', (bind_apply (hm s hs)).trans hy, hs'⟩

/-- Reading an owned cell, and what follows with its contents. -/
theorem Runs.deref_bind {f : γ → Prog ρ ω γ β} (h : Runs (Owns r ({(a, c)} + N)) (f c) S) :
    Runs (Owns r ({(a, c)} + N)) (deref a >>= f) S :=
  Runs.reads_bind (fun _ hs => hs.deref) h

/-- Writing an owned cell, and what follows. -/
theorem Runs.modify_bind [DecidableEq ω] {g : γ → γ} {f : Unit → Prog ρ ω γ β}
    (h : Runs (Owns r ({(a, g c)} + N)) (f ()) S) :
    Runs (Owns r ({(a, c)} + N)) (OwnedCells.modify a g >>= f) S := by
  intro s hs
  obtain ⟨y, s', hy, hs'⟩ := h _ (hs.modify (g c))
  refine ⟨y, s', (bind_apply ?_).trans hy, hs'⟩
  rw [OwnedCells.modify, hs.cell]
  rfl

/-- A change at the end of a program. -/
theorem Runs.modify [DecidableEq ω] {g : γ → γ} :
    Runs (Owns r ({(a, c)} + N)) (OwnedCells.modify a g)
      fun _ => Owns r ({(a, g c)} + N) := by
  intro s hs
  refine ⟨(), _, ?_, hs.modify (g c)⟩
  rw [OwnedCells.modify, hs.cell]
  rfl

/-- Reading the variables. -/
theorem Runs.vars_bind {f : ρ → Prog ρ ω γ β} (h : Runs (Owns r M) (f r) S) :
    Runs (Owns r M) (OwnedCells.vars >>= f) S :=
  Runs.reads_bind (fun _ hs => by rw [OwnedCells.vars, hs.vars]) h

/-- Setting the variables. -/
theorem Runs.assign : Runs (Owns r M) (assign r' : Prog ρ ω γ Unit) fun _ => Owns r' M :=
  fun _ hs => ⟨(), _, rfl, rfl, hs.apart, hs.cells⟩

/-- A pointer that is not NULL may be followed. -/
theorem Runs.nonNull_bind {f : ω → Prog ρ ω γ β} (h : Runs P (f a) S) :
    Runs P (nonNull (some a) >>= f) S :=
  h

end

/-! ## Allocation -/

/-- A new cell at an address that has none; `malloc` chooses both. -/
def alloc [DecidableEq ω] (a : ω) (c : γ) : Prog ρ ω γ Unit := fun s =>
  match s.cells a with
  | none => some ((), { s with cells := Function.update s.cells a (some c) })
  | some _ => none

/-- The cell at an address is given back. -/
def free [DecidableEq ω] (a : ω) : Prog ρ ω γ Unit := fun s =>
  (s.cells a).map fun _ => ((), { s with cells := Function.update s.cells a none })

/-- The memory has these cells, and no others. -/
structure OwnsAll (r : ρ) (M : Multiset (ω × γ)) (s : State ρ ω γ) : Prop extends Owns r M s where
  only : ∀ a c, s.cells a = some c → (a, c) ∈ M

section

variable [DecidableEq ω] {r r' : ρ} {M N : Multiset (ω × γ)} {s : State ρ ω γ} {a : ω} {c : γ}
  {S : β → State ρ ω γ → Prop}

omit [DecidableEq ω] in
/-- Setting the variables keeps the memory. -/
theorem OwnsAll.assign (h : OwnsAll r M s) (r' : ρ) : OwnsAll r' M { s with vars := r' } where
  vars := rfl
  apart := h.apart
  cells := h.cells
  only := h.only

/-- Writing a cell of the whole memory. -/
theorem OwnsAll.modify (h : OwnsAll r ({(a, c)} + N) s) (c' : γ) :
    OwnsAll r ({(a, c')} + N) { s with cells := Function.update s.cells a (some c') } where
  toOwns := h.toOwns.modify c'
  only b d hb := by
    by_cases hba : b = a
    · subst hba
      simp only [Function.update_self, Option.some.injEq] at hb
      simp [hb]
    · simp only [Function.update_of_ne hba] at hb
      have hmem := h.only b d hb
      simp only [Multiset.singleton_add, Multiset.mem_cons, Prod.mk.injEq] at hmem ⊢
      exact .inr (hmem.resolve_left fun heq => hba heq.1)

/-- A new cell is owned with the others. -/
theorem OwnsAll.alloc (h : OwnsAll r M s) (ha : s.cells a = none) (c : γ) :
    OwnsAll r ({(a, c)} + M) { s with cells := Function.update s.cells a (some c) } := by
  have hnot : a ∉ M.map Prod.fst := by
    intro hmem
    obtain ⟨e, he, rfl⟩ := Multiset.mem_map.mp hmem
    rw [h.cells e he] at ha
    cases ha
  refine ⟨⟨h.vars, ?_, fun e he => ?_⟩, fun b d hb => ?_⟩
  · simp only [Multiset.singleton_add, Multiset.map_cons, Multiset.nodup_cons]
    exact ⟨hnot, h.apart⟩
  · rcases Multiset.mem_add.mp he with he | he
    · rw [Multiset.mem_singleton.mp he]
      simp
    · have hne : e.1 ≠ a := fun heq => hnot (heq ▸ Multiset.mem_map_of_mem Prod.fst he)
      simp only [Function.update_of_ne hne]
      exact h.cells e he
  · by_cases hba : b = a
    · subst hba
      simp only [Function.update_self, Option.some.injEq] at hb
      simp [hb]
    · simp only [Function.update_of_ne hba] at hb
      exact Multiset.mem_add.mpr (.inr (h.only b d hb))

/-- A freed cell is gone, and the others are still all of the memory. -/
theorem OwnsAll.free (h : OwnsAll r ({(a, c)} + N) s) :
    OwnsAll r N { s with cells := Function.update s.cells a none } := by
  have hapart := h.apart
  simp only [Multiset.singleton_add, Multiset.map_cons, Multiset.nodup_cons] at hapart
  refine ⟨⟨h.vars, hapart.2, fun e he => ?_⟩, fun b d hb => ?_⟩
  · have hne : e.1 ≠ a := fun heq => hapart.1 (heq ▸ Multiset.mem_map_of_mem Prod.fst he)
    simp only [Function.update_of_ne hne]
    exact h.cells e (Multiset.mem_add.mpr (.inr he))
  · by_cases hba : b = a
    · subst hba
      simp at hb
    · simp only [Function.update_of_ne hba] at hb
      have hmem := h.only b d hb
      simp only [Multiset.singleton_add, Multiset.mem_cons, Prod.mk.injEq] at hmem
      exact hmem.resolve_left fun heq => hba heq.1

omit [DecidableEq ω] in
/-- The cells can be named in any order. -/
theorem Runs.pre_all {m : Prog ρ ω γ β} (h : Runs (OwnsAll r N) m S) (hM : M = N) :
    Runs (OwnsAll r M) m S := hM ▸ h

omit [DecidableEq ω] in
/-- Reading a cell of the whole memory. -/
theorem Runs.deref_bind_all {f : γ → Prog ρ ω γ β} (h : Runs (OwnsAll r ({(a, c)} + N)) (f c) S) :
    Runs (OwnsAll r ({(a, c)} + N)) (deref a >>= f) S :=
  Runs.reads_bind (fun _ hs => hs.toOwns.deref) h

/-- Writing a cell of the whole memory. -/
theorem Runs.modify_bind_all {g : γ → γ} {f : Unit → Prog ρ ω γ β}
    (h : Runs (OwnsAll r ({(a, g c)} + N)) (f ()) S) :
    Runs (OwnsAll r ({(a, c)} + N)) (OwnedCells.modify a g >>= f) S := by
  intro s hs
  obtain ⟨y, s', hy, hs'⟩ := h _ (hs.modify (g c))
  refine ⟨y, s', (bind_apply ?_).trans hy, hs'⟩
  rw [OwnedCells.modify, hs.cell]
  rfl

/-- Allocating a cell, and what follows. -/
theorem Runs.alloc_bind {f : Unit → Prog ρ ω γ β}
    (h : Runs (OwnsAll r ({(a, c)} + M)) (f ()) S) :
    Runs (fun s => OwnsAll r M s ∧ s.cells a = none) (OwnedCells.alloc a c >>= f) S := by
  intro s hs
  obtain ⟨y, s', hy, hs'⟩ := h _ (hs.1.alloc hs.2 c)
  refine ⟨y, s', (bind_apply ?_).trans hy, hs'⟩
  rw [OwnedCells.alloc, hs.2]

omit [DecidableEq ω] in
/-- The variables are read while an address is known to be free. -/
theorem Runs.vars_bind_fresh {f : ρ → Prog ρ ω γ β}
    (h : Runs (fun s => OwnsAll r M s ∧ s.cells a = none) (f r) S) :
    Runs (fun s => OwnsAll r M s ∧ s.cells a = none) (OwnedCells.vars >>= f) S :=
  Runs.reads_bind (fun _ hs => by rw [OwnedCells.vars, hs.1.vars]) h

omit [DecidableEq ω] in
/-- The variables change while an address is known to be free. -/
theorem Runs.assign_bind_fresh {f : Unit → Prog ρ ω γ β}
    (h : Runs (fun s => OwnsAll r' M s ∧ s.cells a = none) (f ()) S) :
    Runs (fun s => OwnsAll r M s ∧ s.cells a = none) (OwnedCells.assign r' >>= f) S := by
  intro s hs
  obtain ⟨y, s', hy, hs'⟩ := h _ ⟨hs.1.assign r', hs.2⟩
  exact ⟨y, s', (bind_apply rfl).trans hy, hs'⟩

/-- Freeing a cell, and what follows. -/
theorem Runs.free_bind {f : Unit → Prog ρ ω γ β} (h : Runs (OwnsAll r N) (f ()) S) :
    Runs (OwnsAll r ({(a, c)} + N)) (OwnedCells.free a >>= f) S := by
  intro s hs
  obtain ⟨y, s', hy, hs'⟩ := h _ hs.free
  refine ⟨y, s', (bind_apply ?_).trans hy, hs'⟩
  rw [OwnedCells.free, hs.toOwns.cell]
  rfl

omit [DecidableEq ω] in
/-- Reading the variables with the whole memory. -/
theorem Runs.vars_bind_all {f : ρ → Prog ρ ω γ β} (h : Runs (OwnsAll r M) (f r) S) :
    Runs (OwnsAll r M) (OwnedCells.vars >>= f) S :=
  Runs.reads_bind (fun _ hs => by rw [OwnedCells.vars, hs.vars]) h

omit [DecidableEq ω] in
/-- Setting the variables with the whole memory. -/
theorem Runs.assign_bind_all {f : Unit → Prog ρ ω γ β} (h : Runs (OwnsAll r' M) (f ()) S) :
    Runs (OwnsAll r M) (OwnedCells.assign r' >>= f) S := by
  intro s hs
  obtain ⟨y, s', hy, hs'⟩ := h _ (hs.assign r')
  exact ⟨y, s', (bind_apply rfl).trans hy, hs'⟩

end

end OwnedCells
