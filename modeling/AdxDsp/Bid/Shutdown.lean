import AdxDsp.Bid.Permits

/-!
# The end of a bidder

`BidContext::Uninit` closes the table of IP addresses, cancels and joins the workers one after the
other, and then joins the threads that update the two double buffers.

* **One step** (`good_step`): what holds as long as no worker is stopped while it holds a buffer or
  a mutex of a double buffer.
* **The end** (`Good.finishes`): once all workers are joined, the updaters come to their end.
* **Any run** (`shut_run`): this is what happens when, besides, the table is closed only when no
  worker can still look up an address.
* **Otherwise** (`Stuck.never_finishes`): a worker that takes a buffer with it keeps the updater
  waiting for good.
-/

open Function (update update_self update_of_ne)

namespace AdxDsp.Shutdown

open DoubleCache (index)

variable {n : ℕ}

/-! ## What is wanted -/

/-- All workers are joined. -/
def Main.Joined (n : ℕ) : Main → Prop
  | .term i => n ≤ i
  | .joinData => True
  | .joinCtrl => True
  | .finished => True
  | _ => False

/-- The bidder can come to its end. -/
structure Shut (s : State n) : Prop where
  /-- No semaphore counts a reader that is gone. -/
  readers : s.main.Joined n → ∀ c b, s.sem c b = 0
  /-- No mutex of a double buffer belongs to a worker that is gone. -/
  mutexes : s.main.Joined n → ∀ c w, s.mutex (.cache c) ≠ some (.worker w)
  /-- The updaters can be joined. -/
  finishes : s.main.Joined n →
    ∃ events s', Steps.run step s events = some s' ∧ s'.main = .finished
  /-- The IP table was not looked up after it was closed. -/
  lookups : s.misused = false

/-- The action is about the mutex of the double buffer. -/
def Act.isMutex (c : Cache) : Act → Bool
  | .lock m => m = .cache c
  | .unlock m => m = .cache c
  | _ => false

/-- The action is about the semaphores of the double buffer or its pointer. -/
def Act.isSem (c : Cache) : Act → Bool
  | .post c' => c' = c
  | .load c' => c' = c
  | .wait c' => c' = c
  | _ => false

/-- The point of a script lies outside what is between the first line of `GetData` and the last
line of `ReleaseData`: if a double buffer is used at all from here, `GetData` comes first. -/
def Outside (rest : List Act) : Prop :=
  ∀ c, (∀ a, rest.find? (Act.isMutex c) = some a → a = .lock (.cache c)) ∧
    ∀ a, rest.find? (Act.isSem c) = some a → a = .post c

/-- The worker has the IP table still to look up in its turn. -/
def Worker.LooksUp (k : Worker) : Prop := k.status = .running ∧ Act.lookup ∈ k.rest

/-- The condition on a step.  A worker is stopped only outside its use of the double buffers.  The
IP table is closed only when no worker has it still to look up, and no request that needs it is
accepted later. -/
def Ok (s : State n) : Event n → Prop
  | .cancel w => Outside (s.worker w).rest
  | .main => s.main = .closeIPB → ∀ w, ¬(s.worker w).LooksUp
  | .worker w turn =>
    s.ipb = false → (s.worker w).rest.head? = some .accept → Act.lookup ∉ turn.acts
  | _ => True

instance (rest : List Act) : Decidable (Outside rest) :=
  inferInstanceAs (Decidable (∀ c, (∀ a ∈ rest.find? (Act.isMutex c), a = .lock (.cache c)) ∧
    ∀ a ∈ rest.find? (Act.isSem c), a = .post c))

instance (k : Worker) : Decidable k.LooksUp := inferInstanceAs (Decidable (_ ∧ _))

instance (s : State n) : (e : Event n) → Decidable (Ok s e)
  | .cancel w => inferInstanceAs (Decidable (Outside (s.worker w).rest))
  | .main => inferInstanceAs (Decidable (s.main = .closeIPB → ∀ w, ¬(s.worker w).LooksUp))
  | .worker w turn => inferInstanceAs (Decidable (s.ipb = false →
    (s.worker w).rest.head? = some .accept → Act.lookup ∉ turn.acts))
  | .stopBid => inferInstanceAs (Decidable True)
  | .updater _ _ => inferInstanceAs (Decidable True)

/-! ## One step of the system -/

section

variable {s s' : State n} {w : Fin n} {c : Cache}

/-- The mutex of a double buffer at a point of a script. -/
theorem Outside.mutex {rest : List Act} (hout : Outside rest) {h : Hold} (hfits : Fits rest h) :
    h.mutex (.cache c) = false := by
  refine Script.eq_of_find? (f := fun h => h.mutex (.cache c)) ?_ (fun _ h => h)
    (fun h hempty => by rw [hempty]; rfl) hfits (hout c).1
  intro a h hkind
  cases a with
  | lock m =>
    have hne : Mutex.cache c ≠ m := fun h => of_decide_eq_false hkind h.symm
    exact update_of_ne hne _ _
  | unlock m =>
    have hne : Mutex.cache c ≠ m := fun h => of_decide_eq_false hkind h.symm
    exact update_of_ne hne _ _
  | _ => rfl

/-- The permit of a double buffer at a point of a script. -/
theorem Outside.stage {rest : List Act} (hout : Outside rest) {h : Hold} (hfits : Fits rest h) :
    h.stage c = 0 := by
  -- nothing touches the permit before `post`, and `post` needs it to be free
  refine Script.eq_of_find? (f := fun h => h.stage c) ?_ (fun _ h => h.2)
    (fun h hempty => by rw [hempty]; rfl) hfits (hout c).2
  intro a h hkind
  cases a with
  | post c' =>
    have hne : c ≠ c' := fun h => of_decide_eq_false hkind h.symm
    exact update_of_ne hne _ _
  | load c' =>
    have hne : c ≠ c' := fun h => of_decide_eq_false hkind h.symm
    exact update_of_ne hne _ _
  | wait c' =>
    have hne : c ≠ c' := fun h => of_decide_eq_false hkind h.symm
    exact update_of_ne hne _ _
  | _ => rfl

/-- Outside its use of the double buffers a worker holds none. -/
theorem Inv.holds_none (hi : Inv s) (hne : (s.worker w).status ≠ .stopped)
    (hout : Outside (s.worker w).rest) (c : Cache) :
    (s.worker w).permit c = .none ∧ s.mutex (.cache c) ≠ some (.worker w) := by
  have hfits := (hi.worker w).fits hne
  exact ⟨Permit.eq_none (hout.stage hfits), of_decide_eq_false (hout.mutex hfits)⟩

/-- A step that changes no worker and no double buffer. -/
theorem Inv.of_same (hi : Inv s) (hworker : s'.worker = s.worker) (hmutex : s'.mutex = s.mutex)
    (hsem : s'.sem = s.sem) (hext : s'.extsem = s.extsem) (hcur : s'.cur = s.cur)
    (hupdater : s'.updater = s.updater) : Inv s' where
  worker w := by
    rw [hworker]
    exact (hi.worker w).congr (fun _ => by rw [hmutex]) (fun _ _ => by rw [hext])
  updater c := (hi.updater c).congr (fun _ => by rw [hmutex]) (by rw [hext]) (by rw [hcur])
    (by rw [hupdater])
  count c b := by
    rw [hsem, hworker]
    exact hi.count c b

/-- A step of the main thread keeps the invariant. -/
theorem inv_stepMain (hi : Inv s) (h : stepMain s = some s') : Inv s' := by
  cases stepMain_cases h with
  | term i hlt _ =>
    -- the worker is the same but for the request to stop
    refine hi.of_worker rfl (fun _ _ _ => Iff.rfl) rfl rfl rfl ?_ (hi.count_keep fun _ => rfl)
    have hold := hi.worker ⟨i, hlt⟩
    exact
      { fits := hold.fits
        returned := hold.returned
        stopped := hold.stopped
        posted := hold.posted
        loaded := hold.loaded }
  | monitor | closeIPB | last | join | joinData | joinCtrl =>
    exact hi.of_same rfl rfl rfl rfl rfl rfl

/-- Each step that meets the condition keeps the invariant. -/
theorem inv_step {e : Event n} (hi : Inv s) (hok : Ok s e) (h : step s e = some s') : Inv s' := by
  cases e with
  | stopBid =>
    cases h
    exact hi.of_same rfl rfl rfl rfl rfl rfl
  | worker w turn =>
    rw [step] at h
    split at h
    · next hrun => exact inv_stepWorker hi hrun h
    · cases h
  | cancel w =>
    rw [step] at h
    split at h
    · next hrun =>
      cases h
      have hnone := hi.holds_none (by rw [hrun.1]; exact nofun) hok
      refine hi.of_worker rfl (fun _ _ _ => Iff.rfl) rfl rfl rfl ?_ (hi.count_keep fun _ => rfl)
      exact
        { fits := fun h => absurd rfl h
          returned := nofun
          stopped := fun _ => hnone
          posted := (hi.worker w).posted
          loaded := (hi.worker w).loaded }
    · cases h
  | updater c ok => exact inv_stepUpdater hi h
  | main => exact inv_stepMain hi h

end

/-! ## The way to the end -/

/-- The worker is not joined yet. -/
def Main.Unjoined (i : ℕ) : Main → Prop
  | .monitor => True
  | .closeIPB => True
  | .term j => j ≤ i
  | .join j => j ≤ i
  | _ => False

/-- What is true of the end of the bidder. -/
structure Ending (s : State n) : Prop where
  flag : s.main ≠ .monitor → s.runFlag = false
  quiet : s.ipb = false → ∀ w, ¬(s.worker w).LooksUp
  unused : s.misused = false
  unjoined : ∀ w : Fin n, (s.worker w).status = .running → s.main.Unjoined w

/-- At the start nothing has ended. -/
theorem ending_init : Ending (State.init n) where
  flag h := absurd rfl h
  quiet h := nomatch h
  unused := rfl
  unjoined _ _ := trivial

section

variable {s s' : State n} {w : Fin n}

/-- What a step of a worker can do besides the double buffers. -/
theorem stepWorker_keeps {turn : Turn} (h : stepWorker s w turn = some s') :
    s'.main = s.main ∧ s'.runFlag = s.runFlag ∧ s'.ipb = s.ipb ∧
      (s'.misused = true → s.misused = true ∨ s.ipb = false ∧ .lookup ∈ (s.worker w).rest) ∧
      ∃ k, s'.worker = update s.worker w k ∧ ∀ a ∈ k.rest,
        a ∈ (s.worker w).rest ∨ a ∈ turnHead ∨
          (s.worker w).rest.head? = some .accept ∧ a ∈ turn.acts := by
  unfold stepWorker at h
  -- a new turn of the loop, or the next statement of this one
  cases hrest : (s.worker w).rest with
  | nil =>
    simp only [hrest] at h
    split at h
    · cases h
      exact ⟨rfl, rfl, rfl, .inl, _, rfl, fun a ha => .inr (.inl ha)⟩
    · cases h
      exact ⟨rfl, rfl, rfl, .inl, _, rfl, nofun⟩
  | cons a rest =>
    have hmem : ∀ b ∈ rest, b ∈ a :: rest := fun b => List.mem_cons_of_mem a
    simp only [hrest] at h
    cases a with
    | accept =>
      cases h
      refine ⟨rfl, rfl, rfl, .inl, _, rfl, fun b hb => ?_⟩
      rcases List.mem_append.mp hb with hb | hb
      · exact .inl (hmem b hb)
      · exact .inr (.inr ⟨rfl, hb⟩)
    | lookup =>
      cases h
      refine ⟨rfl, rfl, rfl, fun hmisused => ?_, _, rfl, fun b hb => .inl (hmem b hb)⟩
      rcases Bool.or_eq_true_iff.mp hmisused with h | h
      · exact .inl h
      · exact .inr ⟨by simpa using h, List.mem_cons_self⟩
    | ret =>
      cases h
      exact ⟨rfl, rfl, rfl, .inl, _, rfl, nofun⟩
    | lock m =>
      simp only at h
      split at h
      · cases h
        exact ⟨rfl, rfl, rfl, .inl, _, rfl, fun b hb => .inl (hmem b hb)⟩
      · cases h
    | wait c =>
      simp only at h
      split at h
      · cases h
      · cases h
        exact ⟨rfl, rfl, rfl, .inl, _, rfl, fun b hb => .inl (hmem b hb)⟩
    | _ =>
      cases h
      exact ⟨rfl, rfl, rfl, .inl, _, rfl, fun b hb => .inl (hmem b hb)⟩

/-- No worker gets a lookup. -/
theorem quiet_of_update {k : Worker} {ipb : Bool} (hq : ipb = false → ∀ w, ¬(s.worker w).LooksUp)
    (hk : ipb = false → ¬k.LooksUp) :
    ipb = false → ∀ v, ¬(update s.worker w k v).LooksUp := by
  intro hclosed
  rw [Function.forall_update_iff s.worker fun _ k => ¬k.LooksUp]
  exact ⟨hk hclosed, fun v _ => hq hclosed v⟩

/-- No worker starts to run. -/
theorem unjoined_of_update {k : Worker} {main : Main}
    (hu : ∀ v : Fin n, (s.worker v).status = .running → main.Unjoined v)
    (hk : k.status = .running → (s.worker w).status = .running) :
    ∀ v : Fin n, (update s.worker w k v).status = .running → main.Unjoined v := by
  rw [Function.forall_update_iff s.worker fun v k => k.status = .running → main.Unjoined v]
  exact ⟨fun hrun => hu w (hk hrun), fun v _ => hu v⟩

/-- A step of a worker keeps the order of the ending. -/
theorem ending_stepWorker (he : Ending s) (hrun : (s.worker w).status = .running) {turn : Turn}
    (hok : Ok s (.worker w turn)) (h : stepWorker s w turn = some s') : Ending s' := by
  obtain ⟨hmain, hflag, hipb, hmisused, k, hworker, hrest⟩ := stepWorker_keeps h
  have hquiet : s.ipb = false → Act.lookup ∉ (s.worker w).rest :=
    fun hclosed hlookup => he.quiet hclosed w ⟨hrun, hlookup⟩
  constructor
  · rw [hmain, hflag]
    exact he.flag
  · rw [hipb, hworker]
    refine quiet_of_update he.quiet fun hclosed hlooks => ?_
    -- a lookup was there before, or came with a request
    rcases hrest _ hlooks.2 with h | h | ⟨haccept, h⟩
    · exact hquiet hclosed h
    · revert h
      decide
    · exact hok hclosed haccept h
  · by_contra h
    rcases hmisused (by simpa using h) with h | ⟨hclosed, hlookup⟩
    · rw [he.unused] at h
      cases h
    · exact hquiet hclosed hlookup
  · rw [hmain, hworker]
    exact unjoined_of_update he.unjoined fun _ => hrun

/-- A step of the main thread keeps the order of the ending. -/
theorem ending_stepMain (he : Ending s) (hok : Ok s .main) (h : stepMain s = some s') :
    Ending s' := by
  obtain ⟨hflag, hquiet, hunused, hunjoined⟩ := he
  cases stepMain_cases h with
  | monitor hm hstop => exact ⟨fun _ => hstop, hquiet, hunused, fun _ _ => trivial⟩
  | closeIPB hm =>
    -- here, and only here, the condition is about the workers that look up the table
    rw [hm] at hflag
    exact ⟨fun _ => hflag nofun, fun _ => hok hm, hunused, fun w _ => Nat.zero_le w⟩
  | term i hlt hm =>
    rw [hm] at hflag hunjoined
    -- the worker may be stopped from now on, but it runs on until it is
    exact ⟨fun _ => hflag nofun,
      quiet_of_update hquiet fun hclosed => hquiet hclosed ⟨i, hlt⟩, hunused,
      unjoined_of_update hunjoined id⟩
  | last i hle hm =>
    rw [hm] at hflag hunjoined
    refine ⟨fun _ => hflag nofun, hquiet, hunused, fun v hv => ?_⟩
    have : i ≤ v := hunjoined v hv
    omega
  | join i hlt hm hgone =>
    rw [hm] at hflag hunjoined
    refine ⟨fun _ => hflag nofun, hquiet, hunused, fun v hv => ?_⟩
    have hle : i ≤ v := hunjoined v hv
    -- the worker that is joined now has ended
    have hne : (v : ℕ) ≠ i := by
      rintro rfl
      exact hgone hv
    show i + 1 ≤ (v : ℕ)
    omega
  | joinData hm hexited =>
    rw [hm] at hflag hunjoined
    exact ⟨fun _ => hflag nofun, hquiet, hunused, hunjoined⟩
  | joinCtrl hm hexited =>
    rw [hm] at hflag hunjoined
    exact ⟨fun _ => hflag nofun, hquiet, hunused, hunjoined⟩

/-- A step of an updater leaves the workers and the main thread alone. -/
theorem stepUpdater_keeps {c : Cache} {ok : Bool} (h : stepUpdater s c ok = some s') :
    s'.main = s.main ∧ s'.runFlag = s.runFlag ∧ s'.ipb = s.ipb ∧ s'.misused = s.misused ∧
      s'.worker = s.worker ∧ s'.sem = s.sem ∧ ∀ c', c' ≠ c → s'.updater c' = s.updater c' := by
  unfold stepUpdater at h
  repeat' split at h
  all_goals
    cases h
    try exact ⟨rfl, rfl, rfl, rfl, rfl, rfl, fun c' hc => by simp [hc]⟩

/-- Every step keeps the order of the ending. -/
theorem ending_step {e : Event n} (he : Ending s) (hok : Ok s e) (h : step s e = some s') :
    Ending s' := by
  cases e with
  | stopBid =>
    cases h
    exact ⟨fun _ => rfl, he.quiet, he.unused, he.unjoined⟩
  | worker w turn =>
    rw [step] at h
    split at h
    · next hrun => exact ending_stepWorker he hrun hok h
    · cases h
  | cancel w =>
    rw [step] at h
    split at h
    · cases h
      have hquiet : s.ipb = false →
          ¬({ s.worker w with status := .stopped } : Worker).LooksUp := by
        rintro _ ⟨hrun, _⟩
        cases hrun
      exact ⟨he.flag, quiet_of_update he.quiet hquiet, he.unused,
        unjoined_of_update he.unjoined (fun hrun => (nomatch hrun))⟩
    · cases h
  | updater c ok =>
    obtain ⟨hmain, hflag, hipb, hmisused, hworker, -⟩ := stepUpdater_keeps h
    constructor
    · rw [hmain, hflag]
      exact he.flag
    · rw [hipb, hworker]
      exact he.quiet
    · rw [hmisused]
      exact he.unused
    · rw [hworker, hmain]
      exact he.unjoined
  | main => exact ending_stepMain he hok h

end

/-! ## The end -/

section

variable {s s' : State n} {w : Fin n} {c : Cache}

/-- What holds of a bidder in a run that meets the condition. -/
structure Good (s : State n) : Prop where
  inv : Inv s
  ending : Ending s

/-- The start is good. -/
theorem good_init : Good (State.init n) := ⟨inv_init, ending_init⟩

/-- Every step keeps the state good. -/
theorem good_step {e : Event n} (hg : Good s) (hok : Ok s e) (h : step s e = some s') : Good s' :=
  ⟨inv_step hg.inv hok h, ending_step hg.ending hok h⟩

/-- When workers have been joined the run flag is down. -/
theorem Good.flag (hg : Good s) (hj : s.main.Joined n) : s.runFlag = false := by
  apply hg.ending.flag
  intro hm
  rw [hm] at hj
  exact hj

/-- A joined worker does not run. -/
theorem Good.not_running (hg : Good s) (hj : s.main.Joined n) (w : Fin n) :
    (s.worker w).status ≠ .running := by
  intro hrun
  have hunjoined := hg.ending.unjoined w hrun
  cases hm : s.main with
  | term i =>
    rw [hm] at hj hunjoined
    have hn : n ≤ i := hj
    have hle : i ≤ w := hunjoined
    omega
  | joinData => rwa [hm] at hunjoined
  | joinCtrl => rwa [hm] at hunjoined
  | finished => rwa [hm] at hunjoined
  | _ => rwa [hm] at hj

/-- A joined worker holds nothing: it has returned or was stopped outside its use. -/
theorem Good.holds_none (hg : Good s) (hj : s.main.Joined n) (w : Fin n) (c : Cache) :
    (s.worker w).permit c = .none ∧ s.mutex (.cache c) ≠ some (.worker w) := by
  cases hstatus : (s.worker w).status with
  | running => exact absurd hstatus (hg.not_running hj w)
  | returned =>
    have hrest := (hg.inv.worker w).returned hstatus
    refine hg.inv.holds_none (by rw [hstatus]; exact nofun) ?_ c
    rw [hrest]
    exact fun c => ⟨nofun, nofun⟩
  | stopped => exact (hg.inv.worker w).stopped hstatus c

/-- No semaphore counts a joined worker. -/
theorem Good.sem (hg : Good s) (hj : s.main.Joined n) (c : Cache) (b : Fin 2) : s.sem c b = 0 := by
  rw [hg.inv.count, Finset.card_eq_zero, holders, Finset.filter_eq_empty_iff]
  intro w _ hbuffer
  rw [(hg.holds_none hj w c).1] at hbuffer
  cases hbuffer

/-- How far an updater is from its end. -/
def Updater.left : Updater → ℕ
  | .test => 1
  | .sleeping => 1
  | .waitSwap _ => 3
  | .inUpdate _ => 2
  | .updated _ => 5
  | .locked _ => 4
  | .published _ => 3
  | .counted => 2
  | .exited => 0

/-- Without readers an updater comes to its end. -/
theorem Good.updater_moves (hg : Good s) (hj : s.main.Joined n) (hleft : (s.updater c).left ≠ 0) :
    ∃ s', stepUpdater s c false = some s' ∧ (s'.updater c).left < (s.updater c).left := by
  have hold := hg.inv.updater c
  cases hu : s.updater c with
  | exited =>
    rw [hu] at hleft
    exact absurd rfl hleft
  | updated next =>
    -- neither a worker nor an updater has the mutex
    have hfree : s.mutex (.cache c) = none := by
      cases howner : s.mutex (.cache c) with
      | none => rfl
      | some o =>
        cases o with
        | worker w => exact absurd howner (hg.holds_none hj w c).2
        | updater c' =>
          have hc : Mutex.cache c = .cache c' := (hg.inv.updater c').owns _ howner
          cases hc
          have hlocks := hold.locks.mp howner
          rw [hu] at hlocks
          exact hlocks.elim
    refine ⟨_, by rw [stepUpdater, hu]; exact if_pos hfree, ?_⟩
    show (update s.updater c _ c).left < _
    rw [update_self]
    simp [Updater.left]
  | waitSwap next =>
    refine ⟨_, by rw [stepUpdater, hu]; exact if_pos (hg.sem hj c _), ?_⟩
    show (update s.updater c _ c).left < _
    rw [update_self]
    simp [Updater.left]
  | test =>
    refine ⟨_, by rw [stepUpdater, hu], ?_⟩
    show (update s.updater c _ c).left < _
    rw [update_self, hg.flag hj]
    simp [Updater.left]
  | sleeping =>
    refine ⟨_, by rw [stepUpdater, hu], ?_⟩
    show (update s.updater c _ c).left < _
    rw [update_self, hg.flag hj]
    simp [Updater.left]
  | _ =>
    refine ⟨_, by rw [stepUpdater, hu], ?_⟩
    show (update s.updater c _ c).left < _
    rw [update_self]
    simp [Updater.left]

/-- How far the main thread is from its end, when the workers are joined. -/
def Main.left : Main → ℕ
  | .joinData => 2
  | .joinCtrl => 1
  | .finished => 0
  | _ => 3

/-- How far the bidder is from its end, when the workers are joined. -/
def State.left (s : State n) : ℕ :=
  s.main.left + (s.updater .data).left + (s.updater .ctrl).left

/-- An updater with nothing left has exited. -/
theorem left_eq_zero {u : Updater} (hu : u.left = 0) : u = .exited := by
  cases u with
  | exited => rfl
  | _ => cases hu

/-- The main thread goes on when the updaters have ended. -/
theorem main_moves (hj : s.main.Joined n) (hdata : s.updater .data = .exited)
    (hctrl : s.updater .ctrl = .exited) (hleft : s.main.left ≠ 0) :
    ∃ s', stepMain s = some s' ∧ s'.main.Joined n ∧ s'.main.left < s.main.left ∧
      s'.updater = s.updater := by
  cases hm : s.main with
  | term i =>
    rw [hm] at hj
    refine ⟨{ s with main := .joinData }, ?_, trivial, Nat.lt_succ_self 2, rfl⟩
    rw [stepMain, hm]
    exact dif_neg (Nat.not_lt.mpr hj)
  | joinData =>
    refine ⟨{ s with main := .joinCtrl }, ?_, trivial, Nat.lt_succ_self 1, rfl⟩
    rw [stepMain, hm]
    exact if_pos hdata
  | joinCtrl =>
    refine ⟨{ s with main := .finished }, ?_, trivial, Nat.lt_succ_self 0, rfl⟩
    rw [stepMain, hm]
    exact if_pos hctrl
  | finished =>
    rw [hm] at hleft
    exact absurd rfl hleft
  | _ =>
    rw [hm] at hj
    exact hj.elim

/-- Once all workers are joined, the bidder can come to its end. -/
theorem Good.finishes (hg : Good s) (hj : s.main.Joined n) :
    ∃ events s', Steps.run step s events = some s' ∧ s'.main = .finished := by
  -- an updater that has not ended makes a step; else the main thread does
  have hdescends : ∀ {s : State n}, Good s ∧ s.main.Joined n → s.left ≠ 0 →
      ∃ e s', step s e = some s' ∧ (Good s' ∧ s'.main.Joined n) ∧ s'.left < s.left := by
    rintro s ⟨hg, hj⟩ hleft
    by_cases hdata : (s.updater .data).left = 0
    · by_cases hctrl : (s.updater .ctrl).left = 0
      · obtain ⟨s', hs', hj', hlt, hupdater⟩ := main_moves hj (left_eq_zero hdata)
          (left_eq_zero hctrl) fun h => hleft (by rw [State.left, h, hdata, hctrl])
        refine ⟨.main, s', hs', ⟨good_step (e := .main) hg ?_ hs', hj'⟩, ?_⟩
        · intro hm
          rw [hm] at hj
          exact hj.elim
        · rw [State.left, State.left, hupdater]
          omega
      · obtain ⟨s', hs', hlt⟩ := hg.updater_moves hj hctrl
        obtain ⟨hmain, -, -, -, -, -, hother⟩ := stepUpdater_keeps hs'
        have hg' := good_step (e := .updater .ctrl false) hg trivial hs'
        refine ⟨.updater .ctrl false, s', hs', ⟨hg', hmain ▸ hj⟩, ?_⟩
        rw [State.left, State.left, hmain, hother .data nofun]
        omega
    · obtain ⟨s', hs', hlt⟩ := hg.updater_moves hj hdata
      obtain ⟨hmain, -, -, -, -, -, hother⟩ := stepUpdater_keeps hs'
      have hg' := good_step (e := .updater .data false) hg trivial hs'
      refine ⟨.updater .data false, s', hs', ⟨hg', hmain ▸ hj⟩, ?_⟩
      rw [State.left, State.left, hmain, hother .ctrl nofun]
      omega
  obtain ⟨events, s', hrun, ⟨_, hj'⟩, hleft⟩ := Steps.run_descends State.left hdescends ⟨hg, hj⟩
  refine ⟨events, s', hrun, ?_⟩
  cases hm : s'.main with
  | finished => rfl
  | _ =>
    rw [State.left, hm] at hleft
    simp [Main.left] at hleft

/-- In every run in which each worker is stopped outside its use of the double buffers, and the IP
table is closed only when it is not needed any more, the bidder can come to its end. -/
theorem shut_run {events : List (Event n)} (hok : Steps.Along step Ok (State.init n) events)
    (h : Steps.run step (State.init n) events = some s) : Shut s := by
  have hg : Good s := Steps.run_keeps good_step good_init hok h
  exact
    { readers := hg.sem
      mutexes := fun hj c w => (hg.holds_none hj w c).2
      finishes := hg.finishes
      lookups := hg.ending.unused }

/-- The worker `v` serves a request, while the updater publishes another buffer, and is stopped behind
its turn; the worker `w` is stopped while it waits for a request. -/
def serveAndStop (v w : Fin n) : List (Event n) :=
  List.replicate 12 (.worker v (.serve 1 false)) ++ List.replicate 10 (.updater .ctrl true) ++
    List.replicate 7 (.worker v .failed) ++ List.replicate 2 (.worker w .failed) ++
    [.stopBid, .main, .main, .main, .cancel v, .main, .main, .cancel w, .main, .main]

/-- A worker serves a request, another one stops outside the buffers, and the program shuts down. -/
theorem shut_run_serveAndStop :
    ∃ s, Steps.run step (State.init 2) (serveAndStop 0 1) = some s ∧ s.main = .joinData ∧ Shut s := by
  have hmain : (Steps.run step (State.init 2) (serveAndStop 0 1)).map State.main =
      some .joinData := by
    decide +kernel
  obtain ⟨s, hs, hmain⟩ := Option.map_eq_some_iff.mp hmain
  exact ⟨s, hs, hmain, shut_run (by decide +kernel) hs⟩

/-! ## A worker that is stopped in its turn -/

/-- The updater is joined. -/
def Main.Joins : Cache → Main → Prop
  | .data, .joinCtrl => True
  | _, .finished => True
  | _, _ => False

/-- All workers are gone, and `WaitSwap` waits for a buffer that one of them has. -/
structure Stuck (s : State n) (c : Cache) (next : ℕ) : Prop where
  gone : ∀ w, (s.worker w).status ≠ .running
  waits : s.updater c = .waitSwap next
  counted : s.sem c (index next) ≠ 0
  unfinished : ¬s.main.Joins c

/-- The main thread stays stuck. -/
theorem stuck_stepMain {next : ℕ} (hs : Stuck s c next) (h : stepMain s = some s') :
    Stuck s' c next := by
  obtain ⟨hgone, hwaits, hcounted, hunfinished⟩ := hs
  have hexit : s.updater c ≠ .exited := by
    rw [hwaits]
    exact nofun
  cases stepMain_cases h with
  | monitor | closeIPB | last | join =>
    exact ⟨hgone, hwaits, hcounted, by cases c <;> exact id⟩
  | term i hlt hm =>
    refine ⟨?_, hwaits, hcounted, by cases c <;> exact id⟩
    show ∀ w, (update s.worker ⟨i, hlt⟩ _ w).status ≠ .running
    rw [Function.forall_update_iff s.worker fun _ k => k.status ≠ .running]
    exact ⟨hgone ⟨i, hlt⟩, fun w _ => hgone w⟩
  | joinData hm hexited =>
    -- the join of the updater that waits does not come back
    cases c with
    | data => exact absurd hexited hexit
    | ctrl => exact ⟨hgone, hwaits, hcounted, id⟩
  | joinCtrl hm hexited =>
    rw [hm] at hunfinished
    cases c with
    | data => exact absurd trivial hunfinished
    | ctrl => exact absurd hexited hexit

/-- Every step leaves the main thread stuck. -/
theorem stuck_step {next : ℕ} {e : Event n} (hs : Stuck s c next) (h : step s e = some s') :
    Stuck s' c next := by
  cases e with
  | stopBid =>
    cases h
    exact ⟨hs.gone, hs.waits, hs.counted, hs.unfinished⟩
  | worker w turn =>
    rw [step, if_neg (hs.gone w)] at h
    cases h
  | cancel w =>
    rw [step, if_neg fun hrun => hs.gone w hrun.1] at h
    cases h
  | updater c' ok =>
    by_cases hc : c' = c
    · subst hc
      -- it sleeps and looks at the semaphore again
      rw [step, stepUpdater, hs.waits] at h
      cases (if_neg hs.counted).symm.trans h
      exact hs
    · obtain ⟨hmain, -, -, -, hworker, hsem, hother⟩ := stepUpdater_keeps h
      constructor
      · rw [hworker]
        exact hs.gone
      · rw [hother c (Ne.symm hc)]
        exact hs.waits
      · rw [hsem]
        exact hs.counted
      · rw [hmain]
        exact hs.unfinished
  | main => exact stuck_stepMain hs h

/-- A buffer that a worker has taken with it keeps the bidder from its end, whatever happens. -/
theorem Stuck.never_finishes {next : ℕ} (hs : Stuck s c next) {events : List (Event n)}
    (h : Steps.run step s events = some s') : s'.main ≠ .finished := by
  have hstuck : Stuck s' c next := Steps.run_invariant stuck_step hs h
  intro hm
  apply hstuck.unfinished
  rw [hm]
  cases c <;> trivial

/-- A worker has both buffers, the updater has gone on to the next one and wants the first again.
The worker looks an address up after the table is closed, and is stopped in `ReleaseData`. -/
def stopInTurn : List (Event 1) :=
  List.replicate 12 (.worker 0 (.serve 1 false)) ++ List.replicate 10 (.updater .ctrl true) ++
    [.stopBid, .main, .main, .worker 0 .failed, .worker 0 .failed, .main, .cancel 0, .main, .main]

/-- A worker that stops in a turn keeps its permit and its mutex, and the program hangs. -/
theorem worker_stopped_in_turn :
    ∃ s, Steps.run step (State.init 1) stopInTurn = some s ∧ s.main.Joined 1 ∧
      s.sem .ctrl (index 0) = 1 ∧ s.mutex (.cache .data) = some (.worker 0) ∧ s.misused = true ∧
      (∀ events s', Steps.run step s events = some s' → s'.main ≠ .finished) ∧ ¬Shut s := by
  have hmain : (Steps.run step (State.init 1) stopInTurn).map (fun s =>
      (s.main, s.sem .ctrl (index 0), s.mutex (.cache .data))) =
      some (.joinData, 1, some (.worker 0)) := by decide +kernel
  have hthreads : (Steps.run step (State.init 1) stopInTurn).map (fun s =>
      (s.misused, s.updater .ctrl, (s.worker 0).status)) =
      some (true, .waitSwap 2, .stopped) := by decide +kernel
  obtain ⟨s, hs, hmain⟩ := Option.map_eq_some_iff.mp hmain
  rw [hs] at hthreads
  simp only [Option.map_some, Option.some.injEq, Prod.mk.injEq] at hmain hthreads
  obtain ⟨hmain, hsem, hmutex⟩ := hmain
  obtain ⟨hmisused, hwaits, hstatus⟩ := hthreads
  have hstuck : Stuck s .ctrl 2 := by
    refine ⟨fun w => ?_, hwaits, ?_, ?_⟩
    · rw [Subsingleton.elim w 0, hstatus]
      exact nofun
    · show s.sem .ctrl (index 0) ≠ 0
      omega
    · rw [hmain]
      exact id
  refine ⟨s, hs, ?_, hsem, hmutex, hmisused, fun events s' => hstuck.never_finishes, fun h => ?_⟩
  · rw [hmain]
    trivial
  · rw [h.lookups] at hmisused
    cases hmisused

end

end AdxDsp.Shutdown
