import AdxDsp.Lib.Steps
import Mathlib.Data.Int.CardIntervalMod

/-!
# One request in so many

`SendSwitch::NeedSend` (`util.cpp`) tells a worker whether the details of its request are to be
sent.  The workers share a countdown, which they change under a lock.

* **The threads** (`step`): every access to a member of the switch is a step of its own.
* **The countdown** (`Inv`): what the thread in the locked section knows of it.
* **The calls** (`needSend_spec`): which of them return true.
-/

namespace AdxDsp.SendSwitch

/-- Where a thread is in `NeedSend`. -/
inductive Phase where
  | outside
  /-- `_dest` has been read; the lock is next. -/
  | entering
  /-- In the locked section, before `_count` is compared with `_dest`. -/
  | comparing
  /-- Before `_count` is lowered, with the value of `ret`. -/
  | lowering (ret : Bool)
  /-- Before `_count` is compared with 0. -/
  | resetting (ret : Bool)
  /-- Before the lock is left. -/
  | leaving (ret : Bool)
  deriving DecidableEq

/-- The members of `SendSwitch`, where every thread is, and what the calls so far have returned, in
the order in which they left the lock. -/
structure State (ι : Type*) where
  dest : ℤ
  count : ℤ
  lock : Option ι
  phase : ι → Phase
  returned : List (ι × Bool)

variable {ι : Type*} [DecidableEq ι]

omit [DecidableEq ι] in
/-- `SendSwitch::Init`, before any thread calls. -/
def init (dest : ℤ) : State ι where
  dest := if dest < 0 then 0 else dest
  count := if dest < 0 then 0 else dest
  lock := none
  phase := fun _ => .outside
  returned := []

/-- Thread `i` goes on to a phase. -/
def State.goto (s : State ι) (i : ι) (p : Phase) : State ι :=
  { s with phase := Function.update s.phase i p }

/-- The next step of thread `i`.  A thread that finds the lock taken cannot make one. -/
def step (s : State ι) (i : ι) : Option (State ι) :=
  match s.phase i with
  | .outside =>
    if s.dest = 0 then some { s with returned := s.returned ++ [(i, false)] }
    else if s.dest = 1 then some { s with returned := s.returned ++ [(i, true)] }
    else some (s.goto i .entering)
  | .entering => if s.lock = none then some { s.goto i .comparing with lock := some i } else none
  | .comparing => some (s.goto i (.lowering (s.count = s.dest)))
  | .lowering ret => some { s.goto i (.resetting ret) with count := s.count - 1 }
  | .resetting ret =>
    some { s.goto i (.leaving ret) with count := if s.count = 0 then s.dest else s.count }
  | .leaving ret =>
    some { s.goto i .outside with lock := none, returned := s.returned ++ [(i, ret)] }

/-- The results of the calls, in their order. -/
def State.results (s : State ι) : List Bool := s.returned.map Prod.snd

/-! ## The countdown -/

/-- The value of `_count` before call number `m`. -/
def countdown (k m : ℕ) : ℤ := k - (m % k : ℕ)

/-- Whether call number `m` returns true. -/
def sends (k m : ℕ) : Bool := k ∣ m

/-- The countdown is full just at the calls that send. -/
theorem countdown_eq_iff {k m : ℕ} : countdown k m = k ↔ sends k m = true := by
  rw [countdown, sends, decide_eq_true_iff, Nat.dvd_iff_mod_eq_zero]
  omega

/-- One call lowers the countdown, or starts it again. -/
theorem countdown_succ {k m : ℕ} (hk : 1 < k) :
    (if countdown k m - 1 = 0 then (k : ℤ) else countdown k m - 1) = countdown k (m + 1) := by
  have hlt : m % k < k := Nat.mod_lt m (by omega)
  have hsucc : (m + 1) % k = if m % k + 1 = k then 0 else m % k + 1 := by
    rw [← Nat.mod_add_mod]
    split_ifs with h
    · rw [h, Nat.mod_self]
    · exact Nat.mod_eq_of_lt (by omega)
  unfold countdown
  rw [hsucc]
  split_ifs <;> omega

/-- What is known of `_count` in the phases of the locked section, where call number `m` is made. -/
def Phase.Knows (k m : ℕ) (count : ℤ) : Phase → Prop
  | .outside => False
  | .entering => False
  | .comparing => count = countdown k m
  | .lowering ret => count = countdown k m ∧ ret = sends k m
  | .resetting ret => count = countdown k m - 1 ∧ ret = sends k m
  | .leaving ret => count = countdown k (m + 1) ∧ ret = sends k m

/-- The invariant of the runs: the countdown is right for the number of calls that have been made,
and only the thread with the lock is in the locked section. -/
structure Inv (k : ℕ) (s : State ι) : Prop where
  dest : s.dest = k
  results : s.results = (List.range s.returned.length).map (sends k)
  free : s.lock = none → s.count = countdown k s.returned.length
  held : ∀ i, s.lock = some i → (s.phase i).Knows k s.returned.length s.count
  waits : ∀ i, s.lock ≠ some i → s.phase i = .outside ∨ s.phase i = .entering

section

variable {k : ℕ} {s s' : State ι} {i : ι}

omit [DecidableEq ι] in
/-- The invariant holds at the start. -/
theorem inv_init (hk : 1 < k) : Inv k (init k : State ι) where
  dest := by rw [init, if_neg (by omega)]
  results := rfl
  free := fun _ => by
    rw [init, if_neg (by omega)]
    simp [countdown]
  held := fun _ h => nomatch h
  waits := fun _ _ => .inl rfl

omit [DecidableEq ι] in
/-- A thread in the locked section has the lock, and what is known there is true. -/
theorem Inv.knows (h : Inv k s) {p : Phase} (hphase : s.phase i = p) (hout : p ≠ .outside)
    (hent : p ≠ .entering) : s.lock = some i ∧ p.Knows k s.returned.length s.count := by
  subst hphase
  have hlock : s.lock = some i := by
    by_contra hlock
    exact (h.waits i hlock).elim hout hent
  exact ⟨hlock, h.held i hlock⟩

/-- A thread with the lock goes on within the section. -/
theorem Inv.inside (h : Inv k s) (hlock : s.lock = some i) {p : Phase} {count : ℤ}
    (hknows : p.Knows k s.returned.length count) :
    Inv k { s.goto i p with count := count } where
  dest := h.dest
  results := h.results
  free := fun hfree => by
    rw [show s.lock = none from hfree] at hlock
    cases hlock
  held := by
    intro j hj
    obtain rfl : i = j := Option.some_inj.mp (hlock.symm.trans hj)
    simpa [State.goto] using hknows
  waits := by
    intro j hj
    have hne : j ≠ i := fun hji => hj (hji ▸ hlock)
    simpa [State.goto, Function.update_of_ne hne] using h.waits j hj

/-- Every step keeps the invariant, one case for each phase. -/
theorem inv_step (hk : 1 < k) (h : Inv k s) (hstep : step s i = some s') : Inv k s' := by
  have hdest := h.dest
  unfold step at hstep
  cases hphase : s.phase i with
  | outside =>
    rw [hphase] at hstep
    dsimp only at hstep
    rw [if_neg (by omega), if_neg (by omega), Option.some_inj] at hstep
    subst hstep
    refine ⟨hdest, h.results, h.free, fun j hj => ?_, fun j hj => ?_⟩
    · have hknows := h.held j hj
      by_cases hji : j = i
      · subst hji
        rw [hphase] at hknows
        exact hknows.elim
      · simpa [State.goto, Function.update_of_ne hji] using hknows
    · by_cases hji : j = i
      · exact .inr (by simp [State.goto, hji])
      · simpa [State.goto, Function.update_of_ne hji] using h.waits j hj
  | entering =>
    rw [hphase] at hstep
    dsimp only at hstep
    rw [Option.ite_none_right_eq_some, Option.some_inj] at hstep
    obtain ⟨hfree, rfl⟩ := hstep
    refine ⟨hdest, h.results, nofun, fun j hj => ?_, fun j hj => ?_⟩
    · obtain rfl := Option.some_inj.mp hj
      simpa [State.goto, Phase.Knows] using h.free hfree
    · have hji : j ≠ i := fun hji => hj (congrArg some hji.symm)
      simpa [State.goto, Function.update_of_ne hji] using h.waits j (by rw [hfree]; exact nofun)
  | comparing =>
    rw [hphase] at hstep
    obtain rfl := Option.some_inj.mp hstep
    obtain ⟨hlock, hknows⟩ := h.knows hphase nofun nofun
    have hret : decide (s.count = s.dest) = sends k s.returned.length := by
      rw [hdest, hknows, Bool.eq_iff_iff, decide_eq_true_iff, countdown_eq_iff]
    exact h.inside hlock ⟨hknows, hret⟩
  | lowering ret =>
    rw [hphase] at hstep
    obtain rfl := Option.some_inj.mp hstep
    obtain ⟨hlock, hknows⟩ := h.knows hphase nofun nofun
    exact h.inside hlock ⟨by rw [hknows.1], hknows.2⟩
  | resetting ret =>
    rw [hphase] at hstep
    obtain rfl := Option.some_inj.mp hstep
    obtain ⟨hlock, hknows⟩ := h.knows hphase nofun nofun
    refine h.inside hlock ⟨?_, hknows.2⟩
    rw [hknows.1, hdest]
    exact countdown_succ hk
  | leaving ret =>
    rw [hphase] at hstep
    obtain rfl := Option.some_inj.mp hstep
    obtain ⟨hlock, hknows⟩ := h.knows hphase nofun nofun
    have hlen : (s.returned ++ [(i, ret)]).length = s.returned.length + 1 := by simp
    -- the call has been made, and the next one finds the countdown after it
    refine ⟨hdest, ?_, fun _ => ?_, nofun, fun j _ => ?_⟩
    · have hresults := h.results
      unfold State.results at hresults ⊢
      dsimp only
      rw [hlen, List.range_succ, List.map_append, List.map_append, hresults, hknows.2]
      rfl
    · dsimp only
      rw [hlen]
      exact hknows.1
    · by_cases hji : j = i
      · exact .inl (by simp [State.goto, hji])
      · have hne : s.lock ≠ some j := by
          rw [hlock]
          exact fun heq => hji (Option.some_inj.mp heq).symm
        simpa [State.goto, Function.update_of_ne hji] using h.waits j hne

end

/-! ## The calls -/

section

variable {k : ℕ}

/-- The results of the first calls. -/
theorem take_map_range {n m : ℕ} (h : n ≤ m) (f : ℕ → Bool) :
    ((List.range m).map f).take n = (List.range n).map f := by
  rw [← List.map_take, List.take_range, Nat.min_eq_left h]

/-- One number in `k` is a multiple, beginning with the first. -/
theorem count_sends (hk : 0 < k) (n : ℕ) :
    (((List.range n).map (sends k)).count true : ℤ) = ⌈(n : ℚ) / k⌉ := by
  have hcount : ((List.range n).map (sends k)).count true = Nat.count (· ≡ 0 [MOD k]) n := by
    induction n with
    | zero => rfl
    | succ n ih =>
      rw [List.range_succ, List.map_append, List.count_append, ih, Nat.count_succ,
        List.map_singleton, List.count_singleton]
      simp [sends, Nat.modEq_zero_iff_dvd]
  rw [hcount, Nat.count_modEq_card_eq_ceil n hk 0]
  simp

/-- Any `k` numbers in a row have one multiple among them. -/
theorem count_sends_window (hk : 0 < k) {m j : ℕ} (h : j + k ≤ m) :
    ((((List.range m).map (sends k)).drop j).take k).count true = 1 := by
  have hsplit : ((List.range m).map (sends k)).take (j + k) =
      ((List.range m).map (sends k)).take j ++ (((List.range m).map (sends k)).drop j).take k :=
    List.take_add
  have hcount := congrArg (fun l : List Bool => (l.count true : ℤ)) hsplit
  simp only [List.count_append, Nat.cast_add] at hcount
  rw [take_map_range h, take_map_range (by omega), count_sends hk, count_sends hk, Nat.cast_add,
    add_div, div_self (by exact_mod_cast hk.ne'), Int.ceil_add_one] at hcount
  omega

end

/-- With a value above 1 the calls that return true are, in the order of the lock, those whose
numbers are multiples of it: one in every row of so many calls, the first one among them. -/
theorem needSend_spec {d : ℤ} (hd : 1 < d) {schedule : List ι} {s : State ι}
    (h : Steps.run step (init d) schedule = some s) :
    (∀ n ≤ s.results.length, ((s.results.take n).count true : ℤ) = ⌈(n : ℚ) / d⌉) ∧
      (∀ j, j + d.toNat ≤ s.results.length →
        ((s.results.drop j).take d.toNat).count true = 1) ∧
      ∀ j < s.results.length, s.results[j]? = some (decide (d ∣ j)) := by
  obtain ⟨k, rfl⟩ := Int.eq_ofNat_of_zero_le (show 0 ≤ d by omega)
  have hk : 1 < k := by exact_mod_cast hd
  have hinv : Inv k s := Steps.run_invariant (fun hs hstep => inv_step hk hs hstep) (inv_init hk) h
  have hlen : s.results.length = s.returned.length := List.length_map _
  rw [hlen, hinv.results]
  refine ⟨fun n hn => ?_, fun j hj => count_sends_window (by omega) hj, fun j hj => ?_⟩
  · rw [take_map_range hn]
    exact count_sends (by omega) n
  · rw [List.getElem?_map, List.getElem?_range hj]
    simp [sends, Int.natCast_dvd_natCast]

/-- Two threads, the second of which waits for the lock while the first one has it; then the first
one calls again. -/
def sampleSchedule : List Bool :=
  [false, true, false, false, false, false, false, true, true, true, true, true] ++
    List.replicate 6 false

/-- Two threads, every second call sends. -/
theorem needSend_sample : ∃ s : State Bool, Steps.run step (init 2) sampleSchedule = some s ∧
    s.returned = [(false, true), (true, false), (false, true)] ∧
      ((s.results.take 3).count true : ℤ) = ⌈(3 : ℚ) / (2 : ℤ)⌉ :=
  ⟨_, rfl, by decide,
    (@needSend_spec Bool _ 2 (by decide) sampleSchedule _ rfl).1 3 (by decide)⟩

end AdxDsp.SendSwitch
