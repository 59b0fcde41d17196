import Mathlib

/-!
# Setting flags of a shared word by a read and a later write

Processes share a word of flags.  Each tries once to set the flag of its kind: it reads the word,
gives up if the word does not allow its kind, and otherwise writes, in a later step, the word it
read with its flag added.  The read and the write are atomic, the pair is not.

* **Safety** (`Safe`): at most one process of each kind is accepted, and the flag of every accepted
  process is in the word.
* **Freshness** (`Fresh`): a process that writes finds the word it read.
* **Main result** (`safe_iff_fresh`): every prefix of a run is safe iff every write of it is fresh.
-/

namespace ReadModifyWrite

/-- Words in which flags of type `τ` can be tested and set. -/
structure Flags (τ W : Type) where
  /-- The flag is in the word. -/
  has : τ → W → Prop
  /-- The word with the flag added. -/
  set : τ → W → W
  has_set : ∀ {j k : τ} {w : W}, has j (set k w) ↔ j = k ∨ has j w

/-- How far a process is. -/
inductive Phase (W : Type) where
  | idle
  /-- The process has read the word and is about to write. -/
  | holding (seen : W)
  | accepted
  | rejected

/-- The shared word and the phase of every process. -/
structure State (ι W : Type) where
  word : W
  phase : ι → Phase W

variable {ι τ W : Type} [DecidableEq ι] (F : Flags τ W) (kind : ι → τ)
  (allows : τ → W → Prop) [∀ k w, Decidable (allows k w)]

/-- One step of process `i`. -/
def step (s : State ι W) (i : ι) : State ι W :=
  match s.phase i with
  | .idle =>
    ⟨s.word, Function.update s.phase i
      (if allows (kind i) s.word then .holding s.word else .rejected)⟩
  | .holding seen => ⟨F.set (kind i) seen, Function.update s.phase i .accepted⟩
  | .accepted => s
  | .rejected => s

/-- The steps of a schedule, in its order. -/
def run (s : State ι W) (schedule : List ι) : State ι W :=
  schedule.foldl (step F kind allows) s

/-- No process has started. -/
def start (w : W) : State ι W := ⟨w, fun _ => .idle⟩

/-- A run with one more step. -/
theorem run_concat (s : State ι W) (is : List ι) (i : ι) :
    run F kind allows s (is ++ [i]) = step F kind allows (run F kind allows s is) i := by
  simp [run]

/-- At most one process of each kind is accepted, and the word has the flag of every accepted
process. -/
def Safe (s : State ι W) : Prop :=
  (∀ i j, s.phase i = .accepted → s.phase j = .accepted → kind i = kind j → i = j) ∧
    ∀ i, s.phase i = .accepted → F.has (kind i) s.word

/-- If process `i` is about to write, the word is still the one it read. -/
def Fresh (s : State ι W) (i : ι) : Prop := ∀ seen, s.phase i = .holding seen → s.word = seen

/-- The invariant of runs whose writes are all fresh. -/
structure Inv (s : State ι W) : Prop where
  safe : Safe F kind s
  /-- Every flag in the word belongs to an accepted process. -/
  source : ∀ k, F.has k s.word → ∃ i, s.phase i = .accepted ∧ kind i = k
  /-- A process about to write has read a word without its flag. -/
  lacks : ∀ i seen, s.phase i = .holding seen → ¬F.has (kind i) seen
  /-- Flags are never lost after a read. -/
  grows : ∀ i seen, s.phase i = .holding seen → ∀ k, F.has k seen → F.has k s.word
  /-- If the word has changed after a read, it has a new flag. -/
  changed : ∀ i seen, s.phase i = .holding seen →
    s.word = seen ∨ ∃ k, F.has k s.word ∧ ¬F.has k seen

variable {F kind allows}

omit [DecidableEq ι] in
/-- At the start no thread has read the word. -/
theorem inv_start {w : W} (h : ∀ k, ¬F.has k w) : Inv F kind (start w : State ι W) where
  safe := by simp [Safe, start]
  source := fun k hk => absurd hk (h k)
  lacks := by simp [start]
  grows := by simp [start]
  changed := by simp [start]

/-- The first step of a thread reads the word, and is rejected or holds what it has read. -/
theorem step_idle {s : State ι W} {i : ι} (h : s.phase i = .idle) :
    step F kind allows s i = ⟨s.word, Function.update s.phase i
      (if allows (kind i) s.word then .holding s.word else .rejected)⟩ := by
  rw [step, h]

/-- The second step writes what the thread holds, with its own mark. -/
theorem step_holding {s : State ι W} {i : ι} {seen : W} (h : s.phase i = .holding seen) :
    step F kind allows s i =
      ⟨F.set (kind i) seen, Function.update s.phase i .accepted⟩ := by
  rw [step, h]

/-- A read keeps the invariant. -/
theorem Inv.read {s : State ι W} {i : ι} (hs : Inv F kind s) (hi : s.phase i = .idle)
    (hallows : ∀ k w, allows k w → ¬F.has k w) : Inv F kind (step F kind allows s i) := by
  rw [step_idle hi]
  -- the process that read is not accepted, before or after its step
  have hacc : ∀ j, Function.update s.phase i
      (if allows (kind i) s.word then .holding s.word else .rejected) j = .accepted ↔
        s.phase j = .accepted := by
    intro j
    by_cases hj : j = i
    · subst hj
      rw [Function.update_self, hi]
      split_ifs <;> simp
    · rw [Function.update_of_ne hj]
  have hhold : ∀ j seen, Function.update s.phase i
      (if allows (kind i) s.word then .holding s.word else .rejected) j = .holding seen →
        s.phase j = .holding seen ∨ j = i ∧ seen = s.word ∧ allows (kind i) s.word := by
    intro j seen h
    by_cases hj : j = i
    · subst hj
      rw [Function.update_self] at h
      split_ifs at h with ha
      exact .inr ⟨rfl, (Phase.holding.inj h).symm, ha⟩
    · rw [Function.update_of_ne hj] at h
      exact .inl h
  constructor
  · refine ⟨fun j k hj hk => hs.safe.1 j k ((hacc j).mp hj) ((hacc k).mp hk), fun j hj => ?_⟩
    exact hs.safe.2 j ((hacc j).mp hj)
  · intro k hk
    obtain ⟨j, hj, hkind⟩ := hs.source k hk
    exact ⟨j, (hacc j).mpr hj, hkind⟩
  · intro j seen h
    rcases hhold j seen h with h | ⟨rfl, rfl, ha⟩
    · exact hs.lacks j seen h
    · exact hallows _ _ ha
  · intro j seen h
    rcases hhold j seen h with h | ⟨rfl, rfl, ha⟩
    · exact hs.grows j seen h
    · exact fun k hk => hk
  · intro j seen h
    rcases hhold j seen h with h | ⟨rfl, rfl, ha⟩
    · exact hs.changed j seen h
    · exact .inl rfl

/-- A fresh write keeps the invariant. -/
theorem Inv.write {s : State ι W} {i : ι} (hs : Inv F kind s) (hi : s.phase i = .holding s.word) :
    Inv F kind (step F kind allows s i) := by
  rw [step_holding hi]
  have hnew : ¬F.has (kind i) s.word := hs.lacks i _ hi
  have hother : ∀ j, s.phase j = .accepted → kind j ≠ kind i := fun j hj e =>
    hnew (e ▸ hs.safe.2 j hj)
  have hacc : ∀ j, Function.update s.phase i .accepted j = .accepted ↔
      j = i ∨ s.phase j = .accepted := by
    intro j
    by_cases hj : j = i
    · subst hj
      simp
    · rw [Function.update_of_ne hj]
      simp [hj]
  have hhold : ∀ j seen, Function.update s.phase i .accepted j = .holding seen →
      s.phase j = .holding seen := by
    intro j seen h
    by_cases hj : j = i
    · subst hj
      rw [Function.update_self] at h
      exact nomatch h
    · rwa [Function.update_of_ne hj] at h
  constructor
  · refine ⟨fun j k hj hk hkind => ?_, fun j hj => F.has_set.mpr ?_⟩
    · rcases (hacc j).mp hj with hji | hj' <;> rcases (hacc k).mp hk with hki | hk'
      · rw [hji, hki]
      · rw [hji] at hkind
        exact absurd hkind.symm (hother k hk')
      · rw [hki] at hkind
        exact absurd hkind (hother j hj')
      · exact hs.safe.1 j k hj' hk' hkind
    · rcases (hacc j).mp hj with rfl | hj
      · exact .inl rfl
      · exact .inr (hs.safe.2 j hj)
  · intro k hk
    rcases F.has_set.mp hk with rfl | hk
    · exact ⟨i, (hacc i).mpr (.inl rfl), rfl⟩
    · obtain ⟨j, hj, hkind⟩ := hs.source k hk
      exact ⟨j, (hacc j).mpr (.inr hj), hkind⟩
  · exact fun j seen h => hs.lacks j seen (hhold j seen h)
  · exact fun j seen h k hk => F.has_set.mpr (.inr (hs.grows j seen (hhold j seen h) k hk))
  · intro j seen h
    -- the flag of the writer is new for every process that still holds an older word
    refine .inr ⟨kind i, F.has_set.mpr (.inl rfl), fun hk => ?_⟩
    exact hnew (hs.grows j seen (hhold j seen h) _ hk)

/-- A fresh step keeps the invariant. -/
theorem Inv.step {s : State ι W} {i : ι} (hs : Inv F kind s)
    (hallows : ∀ k w, allows k w → ¬F.has k w) (hfresh : Fresh s i) :
    Inv F kind (step F kind allows s i) := by
  cases hi : s.phase i with
  | idle => exact hs.read hi hallows
  | holding seen =>
    have hw := hfresh seen hi
    subst hw
    exact hs.write hi
  | accepted => rwa [ReadModifyWrite.step, hi]
  | rejected => rwa [ReadModifyWrite.step, hi]

/-- A stale write is unsafe: it accepts a second process of a kind, or it loses a flag. -/
theorem Inv.not_safe_of_stale {s : State ι W} {i : ι} (hs : Inv F kind s) (hstale : ¬Fresh s i) :
    ¬Safe F kind (ReadModifyWrite.step F kind allows s i) := by
  simp only [Fresh, not_forall] at hstale
  obtain ⟨seen, hi, hne⟩ := hstale
  obtain ⟨k, hk, hseen⟩ := (hs.changed i seen hi).resolve_left hne
  obtain ⟨j, hj, hkind⟩ := hs.source k hk
  have hji : j ≠ i := by
    rintro rfl
    rw [hi] at hj
    exact nomatch hj
  have hj' : Function.update s.phase i .accepted j = .accepted := by
    rwa [Function.update_of_ne hji]
  rw [step_holding hi]
  rintro ⟨honce, hkept⟩
  rcases F.has_set.mp (hkept j hj') with he | he
  · exact hji (honce j i hj' (Function.update_self ..) he)
  · rw [hkind] at he
    exact hseen he

/-- A run whose writes are all fresh keeps the invariant. -/
theorem inv_run {w : W} (h : ∀ k, ¬F.has k w) (hallows : ∀ k w, allows k w → ¬F.has k w)
    (schedule : List ι)
    (hfresh : ∀ pre i, pre ++ [i] <+: schedule → Fresh (run F kind allows (start w) pre) i) :
    Inv F kind (run F kind allows (start w : State ι W) schedule) := by
  induction schedule using List.reverseRecOn with
  | nil => exact inv_start h
  | append_singleton is i ih =>
    rw [run_concat]
    refine (ih fun pre j hp => hfresh pre j (hp.trans (List.prefix_append _ _))).step hallows ?_
    exact hfresh is i (List.prefix_refl _)

variable (F kind allows) in
/-- Every prefix of a run is safe iff every write of the run is fresh. -/
theorem safe_iff_fresh {w : W} (h : ∀ k, ¬F.has k w) (hallows : ∀ k w, allows k w → ¬F.has k w)
    (schedule : List ι) :
    (∀ pre, pre <+: schedule → Safe F kind (run F kind allows (start w) pre)) ↔
      ∀ pre i, pre ++ [i] <+: schedule → Fresh (run F kind allows (start w) pre) i := by
  constructor
  · intro hsafe
    -- by induction on the schedule: the first stale write would be unsafe
    induction schedule using List.reverseRecOn with
    | nil => exact fun pre i hp => absurd hp (by simp)
    | append_singleton is j ih =>
      have hfresh := ih fun pre hp => hsafe pre (hp.trans (List.prefix_append _ _))
      intro pre i hp
      rcases List.prefix_concat_iff.mp hp with heq | hp
      · obtain ⟨rfl, hij⟩ := List.append_inj' heq rfl
        obtain rfl := List.singleton_inj.mp hij
        by_contra hstale
        have hunsafe : ¬Safe F kind (step F kind allows (run F kind allows (start w) pre) i) :=
          (inv_run h hallows pre hfresh).not_safe_of_stale hstale
        rw [← run_concat] at hunsafe
        exact hunsafe (hsafe _ (List.prefix_refl _))
      · exact hfresh pre i hp
  · intro hfresh pre hpre
    exact (inv_run h hallows pre fun p i hp => hfresh p i (hp.trans hpre)).safe

end ReadModifyWrite
