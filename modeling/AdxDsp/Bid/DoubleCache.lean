import Mathlib.Data.Set.Card
import Mathlib.Logic.Function.Basic
import AdxDsp.Lib.Steps

/-!
# The double buffer

`DoubleCache` keeps two copies of the data.  Readers take a pointer to the current one with
`GetData` and give it back with `ReleaseData`; a thread updates the spare copy and publishes it.
The readers' calls and the publication are made under a mutex, so each is one step.  The updater
reads the spare buffer's semaphore and then writes the buffer without the mutex.

* **Isolation** (`readers_isolated`): in every interleaving a buffer that is being updated has no
  reader, each semaphore counts the holders of its buffer, `ReleaseData` never blocks, and
  `GetData` returns the buffer last published.
* **Refinement** (`refines_snapshot`): the readers see a register that is replaced as a whole.
-/

open Function (update update_self update_of_ne)

namespace AdxDsp

variable {R T : Type*} [DecidableEq R]

namespace DoubleCache

/-- Where the updating thread is in `run`. -/
inductive Updater where
  /-- In `SleepInFlag`, or about to test the run flag. -/
  | sleeping
  /-- In `WaitSwap` for the buffer of `next`. -/
  | waitSwap (next : ℕ)
  /-- In `Update` of the buffer of `next`. -/
  | inUpdate (next : ℕ)
  /-- `Update` has succeeded, the mutex is not taken yet. -/
  | updated (next : ℕ)
  /-- `run` has returned. -/
  | exited

/-- The members of `DoubleCache`, the updating thread, and the pointers the readers hold.  The
counters are unbounded: a run that overflows an `int` has no defined behaviour. -/
structure State (R T : Type*) where
  semidarr : Fin 2 → ℕ
  arr : Fin 2 → T
  extsemid : Fin 2
  cur : ℕ
  updater : Updater
  ptr : R → Option (Fin 2)

/-- `n % 2`, as the index of a buffer. -/
def index (n : ℕ) : Fin 2 := Fin.ofNat 2 n

/-- The next buffer is the other one. -/
theorem index_succ_ne (n : ℕ) : index (n + 1) ≠ index n := by
  intro h
  have := congrArg Fin.val h
  simp only [index, Fin.ofNat] at this
  omega

/-- `Init`, from the contents its first `Update` leaves in the first buffer. -/
def init (t₀ t₁ : T) : State R T where
  semidarr _ := 0
  arr b := if b = 0 then t₀ else t₁
  extsemid := 0
  cur := 0
  updater := .sleeping
  ptr _ := none

/-- `GetData`, called by reader `r`. -/
def getData (s : State R T) (r : R) : State R T :=
  { s with
    semidarr := update s.semidarr s.extsemid (s.semidarr s.extsemid + 1)
    ptr := update s.ptr r (some (index s.cur)) }

/-- `ReleaseData` of the pointer `val`, called by reader `r`; `none` if `sem_wait` blocks. -/
def releaseData (s : State R T) (r : R) (val : Fin 2) : Option (State R T) :=
  let sel : Fin 2 := if val = 1 then 1 else 0
  if s.semidarr sel = 0 then none
  else some { s with
    semidarr := update s.semidarr sel (s.semidarr sel - 1)
    ptr := update s.ptr r none }

/-- What the readers and the updating thread do. -/
inductive Event (R T : Type*) where
  | getData (r : R)
  | releaseData (r : R)
  /-- `SleepInFlag` ends with the run flag set. -/
  | wake
  /-- The run flag is found cleared. -/
  | exit
  /-- `WaitSwap` reads the semaphore. -/
  | poll
  /-- `Update` leaves `t` in the buffer `b`, on its way or at its end. -/
  | write (b : Fin 2) (t : T)
  /-- `Update` of the buffer `b` returns. -/
  | updateReturns (b : Fin 2) (ok : Bool)
  /-- The critical section at the end of the loop. -/
  | publish

/-- One step; `none` where the event cannot happen, or its caller blocks. -/
def step (s : State R T) : Event R T → Option (State R T)
  | .getData r => if s.ptr r = none then some (getData s r) else none
  | .releaseData r => (s.ptr r).bind (releaseData s r)
  | .wake =>
    match s.updater with
    | .sleeping => some { s with updater := .waitSwap (s.cur + 1) }
    | _ => none
  | .exit =>
    match s.updater with
    | .sleeping => some { s with updater := .exited }
    | _ => none
  | .poll =>
    match s.updater with
    | .waitSwap next =>
      some (if s.semidarr (index next) = 0 then { s with updater := .inUpdate next } else s)
    | _ => none
  | .write b t =>
    match s.updater with
    | .inUpdate next =>
      if b = index next then some { s with arr := update s.arr b t } else none
    | _ => none
  | .updateReturns b ok =>
    match s.updater with
    | .inUpdate next =>
      if b = index next then
        some { s with updater := if ok then .updated next else .sleeping }
      else none
    | _ => none
  | .publish =>
    match s.updater with
    | .updated next =>
      some { s with extsemid := index next, cur := s.cur + 1, updater := .sleeping }
    | _ => none

/-- The buffer published last, and the buffer whose `Update` succeeded last. -/
def observe : Fin 2 × Fin 2 → Event R T → Fin 2 × Fin 2
  | (published, _), .updateReturns b true => (published, b)
  | (_, ready), .publish => (ready, ready)
  | seen, _ => seen

/-- The buffer last published after a successful `Update`, or the initial one. -/
def lastPublished (es : List (Event R T)) : Fin 2 := (es.foldl observe (0, 0)).1

/-- The readers that hold the buffer `b`. -/
def holders (s : State R T) (b : Fin 2) : Set R := {r | s.ptr r = some b}

/-- The turn of the loop the updating thread is in. -/
def Updater.next : Updater → Option ℕ
  | .waitSwap n | .inUpdate n | .updated n => some n
  | _ => none

/-- The turn for which the updating thread has found the spare buffer free. -/
def Updater.owns : Updater → Option ℕ
  | .inUpdate n | .updated n => some n
  | _ => none

/-- An updater that owns a buffer prepares the next version. -/
theorem Updater.next_of_owns {u : Updater} {n : ℕ} (h : u.owns = some n) : u.next = some n := by
  cases u <;> simp_all [Updater.owns, Updater.next]

/-- The invariant, given what the events so far have made public. -/
structure Inv (seen : Fin 2 × Fin 2) (s : State R T) : Prop where
  ext : s.extsemid = index s.cur
  count : ∀ b, (s.semidarr b : ℕ∞) = (holders s b).encard
  next : ∀ {n}, s.updater.next = some n → n = s.cur + 1
  free : ∀ {n}, s.updater.owns = some n → s.semidarr (index n) = 0
  published : seen.1 = index s.cur
  ready : ∀ {n}, s.updater = .updated n → seen.2 = index n

omit [DecidableEq R] in
/-- The invariant holds at the start. -/
theorem inv_init (t₀ t₁ : T) : Inv (0, 0) (init t₀ t₁ : State R T) where
  ext := rfl
  count b := by simp [init, holders]
  next h := by cases h
  free h := by cases h
  published := rfl
  ready h := by cases h

/-! ### The readers -/

omit [DecidableEq R] in
/-- A semaphore is zero just if no reader holds its buffer. -/
theorem sem_eq_zero_iff {seen : Fin 2 × Fin 2} {s : State R T} (hs : Inv seen s) {b : Fin 2} :
    s.semidarr b = 0 ↔ ∀ r, s.ptr r ≠ some b := by
  have h : (s.semidarr b : ℕ∞) = 0 ↔ holders s b = ∅ := by
    rw [hs.count b, Set.encard_eq_zero]
  rw [Nat.cast_eq_zero] at h
  rw [h, Set.eq_empty_iff_forall_notMem]
  rfl

/-- The pointer `GetData` returns. -/
theorem getData_ptr (s : State R T) (r : R) : (getData s r).ptr r = some (index s.cur) :=
  update_self ..

/-- A reader that gets the data holds the current buffer. -/
theorem holders_getData {s : State R T} {r : R} (hr : s.ptr r = none) (b : Fin 2) :
    holders (getData s r) b =
      if b = index s.cur then insert r (holders s b) else holders s b := by
  ext q
  by_cases hq : q = r
  · subst hq
    split_ifs with hb <;> simp [holders, getData, hr, hb, eq_comm]
  · split_ifs with hb <;> simp [holders, getData, hq]

/-- Getting the data keeps the invariant. -/
theorem getData_inv {seen : Fin 2 × Fin 2} {s : State R T} (hs : Inv seen s) {r : R}
    (hr : s.ptr r = none) : Inv seen (getData s r) where
  ext := hs.ext
  count b := by
    rw [holders_getData hr]
    by_cases hb : b = index s.cur
    · -- the semaphore of the current buffer is posted, and the reader joins its holders
      have hnot : r ∉ holders s b := by simp [holders, hr]
      rw [if_pos hb, Set.encard_insert_of_notMem hnot, ← hs.count b, hb, ← hs.ext]
      simp [getData]
    · rw [if_neg hb, ← hs.count b]
      have hne : b ≠ s.extsemid := by rwa [hs.ext]
      simp [getData, update_of_ne hne]
  next := hs.next
  free {n} hn := by
    -- the updater owns the spare buffer, and the semaphore posted is that of the other one
    have hne : index n ≠ s.extsemid := by
      rw [hs.next (Updater.next_of_owns hn), hs.ext]
      exact index_succ_ne s.cur
    have hfree := hs.free hn
    simpa [getData, update_of_ne hne] using hfree
  published := hs.published
  ready := hs.ready

/-- A reader that releases holds nothing. -/
theorem holders_release {s : State R T} {r : R} {val : Fin 2} (hr : s.ptr r = some val)
    {f : Fin 2 → ℕ} (b : Fin 2) :
    holders { s with semidarr := f, ptr := update s.ptr r none } b =
      if b = val then holders s b \ {r} else holders s b := by
  ext q
  by_cases hq : q = r
  · subst hq
    split_ifs with hb
    · simp [holders]
    · simp [holders, hr, Ne.symm hb]
  · split_ifs with hb <;> simp [holders, hq]

/-- `ReleaseData` of a pointer that is held: its semaphore goes down by one. -/
theorem releaseData_of_held {seen : Fin 2 × Fin 2} {s : State R T} (hs : Inv seen s) {r : R}
    {val : Fin 2} (hr : s.ptr r = some val) :
    s.semidarr val ≠ 0 ∧ releaseData s r val = some { s with
      semidarr := update s.semidarr val (s.semidarr val - 1)
      ptr := update s.ptr r none } := by
  have hsel : ∀ v : Fin 2, (if v = 1 then 1 else 0 : Fin 2) = v := by decide
  have hpos : s.semidarr val ≠ 0 := by
    rw [Ne, sem_eq_zero_iff hs]
    exact fun h => h r hr
  refine ⟨hpos, ?_⟩
  rw [releaseData, hsel val, if_neg hpos]

/-- Releasing keeps the invariant. -/
theorem released_inv {seen : Fin 2 × Fin 2} {s : State R T} (hs : Inv seen s) {r : R}
    {val : Fin 2} (hr : s.ptr r = some val) (hpos : s.semidarr val ≠ 0) :
    Inv seen { s with
      semidarr := update s.semidarr val (s.semidarr val - 1)
      ptr := update s.ptr r none } where
  ext := hs.ext
  count b := by
    show ((update s.semidarr val (s.semidarr val - 1) b : ℕ) : ℕ∞) = _
    rw [holders_release hr]
    by_cases hb : b = val
    · -- the reader was one of the holders that the semaphore counts
      have hmem : r ∈ holders s b := by rw [hb]; exact hr
      have hcard := Set.encard_sdiff_singleton_of_mem hmem
      rw [if_pos hb, hcard, ← hs.count b, hb, update_self]
      simp
    · rw [if_neg hb, update_of_ne hb, hs.count b]
  next := hs.next
  free {n} hn := by
    have hfree := hs.free hn
    -- the buffer of the updater has no holder, so it is not the one that is given back
    have hne : index n ≠ val := fun h => hpos (h ▸ hfree)
    exact (update_of_ne hne ..).trans hfree
  published := hs.published
  ready := hs.ready

/-! ### The updating thread -/

omit [DecidableEq R] in
/-- A move of the updater keeps the invariant. -/
theorem Inv.moved {seen : Fin 2 × Fin 2} {s : State R T} (hs : Inv seen s) {u : Updater}
    {ready : Fin 2} (hnext : ∀ {n}, u.next = some n → n = s.cur + 1)
    (hfree : ∀ {n}, u.owns = some n → s.semidarr (index n) = 0)
    (hready : ∀ {n}, u = .updated n → ready = index n) :
    Inv (seen.1, ready) { s with updater := u } where
  ext := hs.ext
  count := hs.count
  next := hnext
  free := hfree
  published := hs.published
  ready := hready

omit [DecidableEq R] in
/-- The updating thread goes back to sleep. -/
theorem Inv.rests {seen : Fin 2 × Fin 2} {s : State R T} (hs : Inv seen s) {u : Updater}
    (hu : u.next = none) : Inv seen { s with updater := u } := by
  have howns : ∀ {n}, u.owns ≠ some n := fun h => by
    have := Updater.next_of_owns h
    simp [hu] at this
  apply hs.moved
  · intro n hn
    simp [hu] at hn
  · intro n hn
    exact absurd hn howns
  · intro n hn
    subst hn
    exact absurd rfl howns

/-- Every step keeps the invariant. -/
theorem step_inv {seen : Fin 2 × Fin 2} {s s' : State R T} (hs : Inv seen s) {e : Event R T}
    (h : step s e = some s') : Inv (observe seen e) s' := by
  cases e with
  | getData r =>
    simp only [step] at h
    split_ifs at h with hr
    cases h
    exact getData_inv hs hr
  | releaseData r =>
    simp only [step] at h
    obtain ⟨val, hr, h⟩ := Option.bind_eq_some_iff.mp h
    obtain ⟨hpos, heq⟩ := releaseData_of_held hs hr
    rw [heq] at h
    cases h
    exact released_inv hs hr hpos
  | wake =>
    simp only [step] at h
    split at h <;> cases h
    apply hs.moved
    · intro n hn
      exact (Option.some.inj hn).symm
    · intro n hn
      cases hn
    · intro n hn
      cases hn
  | exit =>
    simp only [step] at h
    split at h <;> cases h
    exact hs.rests rfl
  | poll =>
    simp only [step] at h
    split at h
    next next hu =>
      cases h
      have hnext : next = s.cur + 1 := hs.next (by rw [hu]; rfl)
      split_ifs with hzero
      · -- `WaitSwap` returns: the semaphore it has read is still zero
        apply hs.moved
        · intro n hn
          exact (Option.some.inj hn).symm.trans hnext
        · intro n hn
          exact Option.some.inj hn ▸ hzero
        · intro n hn
          cases hn
      · exact hs
    next => cases h
  | write b t =>
    simp only [step] at h
    split at h
    next next hu =>
      split_ifs at h
      cases h
      -- the invariant does not speak of the contents
      exact ⟨hs.ext, hs.count, hs.next, hs.free, hs.published, hs.ready⟩
    next => cases h
  | updateReturns b ok =>
    simp only [step] at h
    split at h
    next next hu =>
      by_cases hb : b = index next
      · rw [if_pos hb] at h
        cases h
        have hnext : next = s.cur + 1 := hs.next (by rw [hu]; rfl)
        have hfree : s.semidarr (index next) = 0 := hs.free (by rw [hu]; rfl)
        cases ok with
        | true =>
          -- no reader can take the spare buffer before it is published
          apply hs.moved
          · intro n hn
            exact (Option.some.inj hn).symm.trans hnext
          · intro n hn
            exact Option.some.inj hn ▸ hfree
          · intro n hn
            cases hn
            exact hb
        | false =>
          -- the next turn takes the same buffer again
          exact hs.rests rfl
      · rw [if_neg hb] at h
        cases h
    next => cases h
  | publish =>
    simp only [step] at h
    split at h
    next next hu =>
      cases h
      have hnext : next = s.cur + 1 := hs.next (by rw [hu]; rfl)
      -- the two members that name the current buffer move together, under the mutex
      have hready : seen.2 = index next := hs.ready hu
      subst hnext
      constructor
      · rfl
      · exact hs.count
      · intro n hn
        cases hn
      · intro n hn
        cases hn
      · exact hready
      · intro n hn
        cases hn
    next => cases h

/-- The invariant holds after every run. -/
theorem run_inv {t₀ t₁ : T} {es : List (Event R T)} {s : State R T}
    (h : Steps.run step (init t₀ t₁) es = some s) : Inv (es.foldl observe (0, 0)) s :=
  Steps.run_induction (P := fun es s => Inv (es.foldl observe (0, 0)) s) (inv_init t₀ t₁)
    (fun hs h => by rw [List.foldl_concat]; exact step_inv hs h) h

/-- In every interleaving of any readers with the updating thread, a buffer inside `Update` has no
reader, a semaphore is the number of the holders of its buffer, `ReleaseData` does not block, and
`GetData` returns the buffer last published. -/
theorem readers_isolated (t₀ t₁ : T) (es : List (Event R T)) (s : State R T)
    (h : Steps.run step (init t₀ t₁) es = some s) :
    (∀ next, s.updater = .inUpdate next → holders s (index next) = ∅) ∧
    (∀ b, (s.semidarr b : ℕ∞) = (holders s b).encard) ∧
    (∀ r val, s.ptr r = some val → (releaseData s r val).isSome) ∧
    (∀ r, (getData s r).ptr r = some (lastPublished es)) := by
  have hs := run_inv h
  refine ⟨?_, hs.count, ?_, ?_⟩
  · intro next hu
    have hfree : s.semidarr (index next) = 0 := hs.free (by rw [hu]; rfl)
    exact Set.eq_empty_of_forall_notMem ((sem_eq_zero_iff hs).mp hfree)
  · intro r val hr
    rw [(releaseData_of_held hs hr).2]
    rfl
  · intro r
    rw [getData_ptr, lastPublished, hs.published]

/-- A reader keeps the first buffer over a publication, and the next turn waits for it. -/
def sampleRun : List (Event Bool ℕ) :=
  [.getData true, .wake, .poll, .write 1 8, .getData false, .updateReturns 1 true, .publish,
    .releaseData true, .getData true, .wake, .poll]

/-- A run with two readers and one update. -/
theorem readers_isolated_sample :
    ∃ s : State Bool ℕ, Steps.run step (init 7 0) sampleRun = some s ∧
      (∀ next, s.updater = .inUpdate next → holders s (index next) = ∅) ∧
      (∀ b, (s.semidarr b : ℕ∞) = (holders s b).encard) ∧
      (∀ r val, s.ptr r = some val → (releaseData s r val).isSome) ∧
      (∀ r, (getData s r).ptr r = some 1) := by
  obtain ⟨s, hs⟩ : ∃ s, Steps.run step (init 7 0) sampleRun = some s := ⟨_, rfl⟩
  exact ⟨s, hs, readers_isolated 7 0 sampleRun s hs⟩

/-! ### What the readers see -/

/-- A register that is replaced as a whole, and the copies the readers hold. -/
structure Snapshot (R T : Type*) where
  current : T
  held : R → Option T

/-- The accesses to a snapshot store. -/
inductive Snapshot.Access (R T : Type*) where
  | get (r : R)
  | release (r : R)
  | replace (t : T)

/-- One access; a copy is held until it is released, whatever happens to the register. -/
def Snapshot.access (a : Snapshot R T) : Access R T → Option (Snapshot R T)
  | .get r =>
    match a.held r with
    | none => some { a with held := update a.held r (some a.current) }
    | some _ => none
  | .release r =>
    match a.held r with
    | none => none
    | some _ => some { a with held := update a.held r none }
  | .replace t => some { a with current := t }

/-- The register that the double buffer stands for. -/
def toSnapshot (s : State R T) : Snapshot R T where
  current := s.arr (index s.cur)
  held r := (s.ptr r).map s.arr

/-- The accesses a step makes. -/
def accesses (s : State R T) : Event R T → List (Snapshot.Access R T)
  | .getData r => [.get r]
  | .releaseData r => [.release r]
  | .publish => [.replace (s.arr (index (s.cur + 1)))]
  | _ => []

/-- The pointer of one reader changes, and with it the copy it holds. -/
theorem toSnapshot_update (s : State R T) (f : Fin 2 → ℕ) (r : R) (p : Option (Fin 2)) :
    toSnapshot { s with semidarr := f, ptr := update s.ptr r p } =
      { toSnapshot s with held := update (toSnapshot s).held r (p.map s.arr) } := by
  simp only [toSnapshot, Snapshot.mk.injEq, true_and]
  funext q
  by_cases hq : q = r
  · subst hq
    simp
  · simp [update_of_ne hq]

omit [DecidableEq R] in
/-- A write to a buffer that is neither current nor held is not seen. -/
theorem toSnapshot_write {s : State R T} {b : Fin 2} (hcur : b ≠ index s.cur)
    (hfree : ∀ r, s.ptr r ≠ some b) (t : T) :
    toSnapshot { s with arr := update s.arr b t } = toSnapshot s := by
  simp only [toSnapshot, update_of_ne hcur.symm, Snapshot.mk.injEq, true_and]
  funext r
  cases hr : s.ptr r with
  | none => rfl
  | some c =>
    have hc : c ≠ b := fun h => hfree r (h ▸ hr)
    simp [update_of_ne hc]

/-- A step is simulated by its accesses to the snapshots. -/
theorem step_simulates {seen : Fin 2 × Fin 2} {s s' : State R T} (hs : Inv seen s)
    {e : Event R T} (h : step s e = some s') :
    Steps.run Snapshot.access (toSnapshot s) (accesses s e) = some (toSnapshot s') := by
  cases e with
  | getData r =>
    simp only [step] at h
    split_ifs at h with hr
    cases h
    have hheld : (toSnapshot s).held r = none := by simp [toSnapshot, hr]
    have himage := toSnapshot_update s
      (update s.semidarr s.extsemid (s.semidarr s.extsemid + 1)) r (some (index s.cur))
    rw [getData, himage]
    simp [accesses, Snapshot.access, hheld]
    rfl
  | releaseData r =>
    simp only [step] at h
    obtain ⟨val, hr, h⟩ := Option.bind_eq_some_iff.mp h
    rw [(releaseData_of_held hs hr).2] at h
    cases h
    have hheld : (toSnapshot s).held r = some (s.arr val) := by simp [toSnapshot, hr]
    rw [toSnapshot_update]
    simp [accesses, Snapshot.access, hheld]
  | write b t =>
    simp only [step] at h
    split at h
    next next hu =>
      split_ifs at h with hb
      cases h
      have hnext : next = s.cur + 1 := hs.next (by rw [hu]; rfl)
      have hfree : s.semidarr (index next) = 0 := hs.free (by rw [hu]; rfl)
      have hcur : b ≠ index s.cur := by
        rw [hb, hnext]
        exact index_succ_ne s.cur
      -- the updater writes a buffer that is neither current nor held
      rw [toSnapshot_write hcur (hb ▸ (sem_eq_zero_iff hs).mp hfree)]
      rfl
    next => cases h
  | publish =>
    simp only [step] at h
    split at h
    next next hu =>
      cases h
      rfl
    next => cases h
  | poll =>
    simp only [step] at h
    split at h
    next => cases h; split_ifs <;> rfl
    next => cases h
  | updateReturns b ok =>
    simp only [step] at h
    split at h
    next => split_ifs at h <;> cases h <;> rfl
    next => cases h
  | wake | exit =>
    -- the readers do not see where the updater is
    simp only [step] at h
    split at h <;> cases h
    rfl

/-- The readers cannot tell the double buffer from a register that is replaced as a whole: in every
interleaving their pointers show what such a register gives them. -/
theorem refines_snapshot {t₀ t₁ : T} {es : List (Event R T)} {s : State R T}
    (h : Steps.run step (init t₀ t₁) es = some s) :
    ∃ as, Steps.run Snapshot.access (⟨t₀, fun _ => none⟩ : Snapshot R T) as =
      some (toSnapshot s) := by
  have hinit : (⟨t₀, fun _ => none⟩ : Snapshot R T) = toSnapshot (init t₀ t₁) := rfl
  rw [hinit]
  apply Steps.run_simulates accesses (P := fun s => ∃ seen, Inv seen s) ?_
    ⟨_, inv_init t₀ t₁⟩ h
  rintro s e s' ⟨seen, hs⟩ hstep
  exact ⟨⟨_, step_inv hs hstep⟩, step_simulates hs hstep⟩

end DoubleCache

end AdxDsp
