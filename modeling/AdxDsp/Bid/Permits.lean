import AdxDsp.Bid.Workers

/-!
# The readers of a double buffer

What is true of the workers and of the double buffers, as long as no worker is stopped while it
uses one.

* **Permits** (`Inv`): a semaphore counts the workers that hold its buffer, and `GetData` hands out
  the buffer that it counts.
* **Workers** (`inv_stepWorker`) and **updaters** (`inv_stepUpdater`): each of their steps keeps it.
-/

open Function (update update_self update_of_ne)

namespace AdxDsp.Shutdown

open DoubleCache (index)

variable {n : ℕ}

/-! ## The invariant -/

/-- The stage of a permit. -/
def Permit.stage : Permit → ℕ
  | .none => 0
  | .posted _ => 1
  | .loaded _ => 2

/-- What a worker holds. -/
def Worker.hold (k : Worker) (mutex : Mutex → Option (Owner n)) (w : Fin n) : Hold where
  mutex m := decide (mutex m = some (.worker w))
  stage c := (k.permit c).stage

/-- The updater is in its critical section. -/
def Updater.Locks : Updater → Prop
  | .locked _ => True
  | .published _ => True
  | .counted => True
  | _ => False

/-- The turn of the loop the updater is in. -/
def Updater.next : Updater → Option ℕ
  | .waitSwap k | .inUpdate k | .updated k | .locked k | .published k => some k
  | _ => none

/-- The buffer that `_extsemid` belongs to, for a value of `_cur`. -/
def Updater.shown (cur : ℕ) : Updater → Fin 2
  | .published next => index next
  | _ => index cur

/-- What is true of an updater and its double buffer. -/
structure UpdaterOk (s : State n) (c : Cache) : Prop where
  locks : s.mutex (.cache c) = some (.updater c) ↔ (s.updater c).Locks
  owns : ∀ m, s.mutex m = some (.updater c) → m = .cache c
  shown : s.extsem c = (s.updater c).shown (s.cur c)
  next : ∀ k, (s.updater c).next = some k → k = s.cur c + 1

/-- What is true of a worker. -/
structure WorkerOk (s : State n) (w : Fin n) (k : Worker) : Prop where
  fits : k.status ≠ .stopped → Fits k.rest (k.hold s.mutex w)
  returned : k.status = .returned → k.rest = []
  /-- A worker that was stopped holds nothing. -/
  stopped : k.status = .stopped →
    ∀ c, k.permit c = .none ∧ s.mutex (.cache c) ≠ some (.worker w)
  /-- Between the first two lines of `GetData`. -/
  posted : ∀ c b, k.permit c = .posted b →
    s.mutex (.cache c) = some (.worker w) ∧ s.extsem c = b
  loaded : ∀ c b, k.permit c = .loaded b → k.ptr c = some b

/-- The invariant of the workers and the double buffers. -/
structure Inv (s : State n) : Prop where
  worker : ∀ w, WorkerOk s w (s.worker w)
  updater : ∀ c, UpdaterOk s c
  count : ∀ c b, s.sem c b = (holders (fun w => ((s.worker w).permit c).buffer) b).card

/-- The invariant holds at the start. -/
theorem inv_init : Inv (State.init n) where
  worker w :=
    { fits := fun _ => rfl
      returned := fun h => nomatch h
      stopped := fun h => nomatch h
      posted := fun c b h => nomatch h
      loaded := fun c b h => nomatch h }
  updater c :=
    { locks := ⟨fun h => (nomatch h), fun h => h.elim⟩
      owns := fun m h => nomatch h
      shown := rfl
      next := fun k h => nomatch h }
  count c b := by
    show 0 = _
    rw [eq_comm, Finset.card_eq_zero, holders, Finset.filter_eq_empty_iff]
    intro w _ h
    cases h

/-! ## One step of a worker -/

section

variable {s s' : State n} {w : Fin n} {k : Worker}

/-- What is true of a worker stays true while its mutexes stay. -/
theorem WorkerOk.congr (hk : WorkerOk s w k)
    (hmutex : ∀ m, s'.mutex m = some (.worker w) ↔ s.mutex m = some (.worker w))
    (hext : ∀ c, s.mutex (.cache c) = some (.worker w) → s'.extsem c = s.extsem c) :
    WorkerOk s' w k where
  fits h := by
    have hhold : k.hold s'.mutex w = k.hold s.mutex w := by
      ext1
      · funext m
        exact decide_eq_decide.mpr (hmutex m)
      · rfl
    rw [hhold]
    exact hk.fits h
  returned := hk.returned
  stopped h c := ⟨(hk.stopped h c).1, fun hm => (hk.stopped h c).2 ((hmutex _).mp hm)⟩
  posted c b h := by
    obtain ⟨hm, hb⟩ := hk.posted c b h
    exact ⟨(hmutex _).mpr hm, (hext c hm).trans hb⟩
  loaded := hk.loaded

/-- What is true of an updater stays true while its mutex and its values stay. -/
theorem UpdaterOk.congr {c : Cache} (hc : UpdaterOk s c)
    (hmutex : ∀ m, s'.mutex m = some (.updater c) ↔ s.mutex m = some (.updater c))
    (hext : s'.extsem c = s.extsem c) (hcur : s'.cur c = s.cur c)
    (hupdater : s'.updater c = s.updater c) : UpdaterOk s' c where
  locks := by rw [hmutex, hupdater, hc.locks]
  owns m h := hc.owns m ((hmutex m).mp h)
  shown := by rw [hext, hupdater, hcur, hc.shown]
  next k h := by
    rw [hupdater] at h
    rw [hcur]
    exact hc.next k h

/-- A step that changes one worker. -/
theorem Inv.of_worker (hi : Inv s) (hworker : s'.worker = update s.worker w k)
    (hmutex : ∀ m o, o ≠ .worker w → (s'.mutex m = some o ↔ s.mutex m = some o))
    (hext : s'.extsem = s.extsem) (hcur : s'.cur = s.cur) (hupdater : s'.updater = s.updater)
    (hk : WorkerOk s' w k)
    (hcount : ∀ c b, s'.sem c b =
      (holders (update (fun v => ((s.worker v).permit c).buffer) w (k.permit c).buffer) b).card) :
    Inv s' where
  worker v := by
    -- the worker that has moved, and those that have not
    by_cases hv : v = w
    · subst hv
      rw [hworker, update_self]
      exact hk
    · rw [hworker, update_of_ne hv]
      apply (hi.worker v).congr
      · intro m
        exact hmutex m _ (by simp [hv])
      · intro c _
        rw [hext]
  updater c := (hi.updater c).congr (fun m => hmutex m _ (by simp)) (by rw [hext]) (by rw [hcur])
    (by rw [hupdater])
  count c b := by
    rw [hcount, hworker]
    congr 2
    funext v
    by_cases hv : v = w
    · subst hv
      simp
    · simp [hv]

/-- The semaphores while no permit changes. -/
theorem Inv.count_keep (hi : Inv s)
    (hk : ∀ c, (k.permit c).buffer = ((s.worker w).permit c).buffer) (c : Cache) (b : Fin 2) :
    s.sem c b = (holders
      (update (fun v => ((s.worker v).permit c).buffer) w (k.permit c).buffer) b).card := by
  rw [hk, Function.update_eq_self (f := fun v => ((s.worker v).permit c).buffer) w]
  exact hi.count c b

/-- A step of a worker that leaves the mutexes and its permits. -/
theorem Inv.of_rest (hi : Inv s) (hworker : s'.worker = update s.worker w k)
    (hpermit : k.permit = (s.worker w).permit) (hptr : k.ptr = (s.worker w).ptr)
    (hmutex : s'.mutex = s.mutex) (hext : s'.extsem = s.extsem) (hcur : s'.cur = s.cur)
    (hupdater : s'.updater = s.updater) (hsem : s'.sem = s.sem)
    (hrun : k.status ≠ .stopped) (hfits : Fits k.rest ((s.worker w).hold s.mutex w))
    (hreturned : k.status = .returned → k.rest = []) : Inv s' := by
  have hold : k.hold s'.mutex w = (s.worker w).hold s.mutex w := by
    simp only [Worker.hold, hmutex, hpermit]
  refine hi.of_worker hworker (fun m o _ => by rw [hmutex]) hext hcur hupdater ?_ fun c b => ?_
  · exact
      { fits := fun _ => hold ▸ hfits
        returned := hreturned
        stopped := fun h => absurd h hrun
        posted := fun c b h => by
          rw [hmutex, hext]
          exact (hi.worker w).posted c b (hpermit ▸ h)
        loaded := fun c b h => by
          rw [hptr]
          exact (hi.worker w).loaded c b (hpermit ▸ h) }
  · rw [hsem]
    exact hi.count_keep (fun c => by rw [hpermit]) c b

/-- What a worker holds after a mutex has changed hands. -/
theorem hold_update_mutex (k : Worker) (mutex : Mutex → Option (Owner n)) (m : Mutex)
    (o : Option (Owner n)) :
    k.hold (update mutex m o) w =
      { k.hold mutex w with
        mutex := update (k.hold mutex w).mutex m (decide (o = some (.worker w))) } := by
  ext1
  · exact Function.comp_update (fun o : Option (Owner n) => decide (o = some (.worker w))) mutex m o
  · rfl

/-- What a worker holds after its permit has moved on. -/
theorem hold_update_permit {k' : Worker} {c : Cache} {p : Permit}
    (hk : k'.permit = update k.permit c p) (mutex : Mutex → Option (Owner n)) :
    k'.hold mutex w =
      { k.hold mutex w with stage := update (k.hold mutex w).stage c p.stage } := by
  ext1
  · rfl
  · simp only [Worker.hold, hk]
    exact Function.comp_update Permit.stage k.permit c p

variable {m : Mutex} {c : Cache} {rest : List Act}

/-- A worker that runs has a script that fits. -/
theorem Inv.fits (hi : Inv s) (hrun : (s.worker w).status = .running) :
    Fits (s.worker w).rest ((s.worker w).hold s.mutex w) :=
  (hi.worker w).fits (by rw [hrun]; exact nofun)

/-- What has to be shown of a worker that runs. -/
theorem WorkerOk.of_running (hrun : k.status = .running) (hfits : Fits k.rest (k.hold s.mutex w))
    (hposted : ∀ c b, k.permit c = .posted b →
      s.mutex (.cache c) = some (.worker w) ∧ s.extsem c = b)
    (hloaded : ∀ c b, k.permit c = .loaded b → k.ptr c = some b) : WorkerOk s w k where
  fits _ := hfits
  returned h := absurd (hrun.symm.trans h) nofun
  stopped h := absurd (hrun.symm.trans h) nofun
  posted := hposted
  loaded := hloaded

/-- The other owners when a mutex is taken or given back. -/
theorem owner_update {m m' : Mutex} {o x y : Option (Owner n)} (hm : s.mutex m = x) (hx : o ≠ x)
    (hy : o ≠ y) : update s.mutex m y m' = o ↔ s.mutex m' = o := by
  by_cases h : m' = m
  · subst h
    rw [update_self, hm]
    exact iff_of_false hy.symm hx.symm
  · rw [update_of_ne h]

/-- Taking a mutex keeps the invariant. -/
theorem inv_lock (hi : Inv s) (hrun : (s.worker w).status = .running)
    (hrest : (s.worker w).rest = .lock m :: rest) (hfree : s.mutex m = none) :
    Inv { s.setWorker w { s.worker w with rest := rest } with
      mutex := update s.mutex m (some (.worker w)) } := by
  have hfits := hi.fits hrun
  rw [hrest, fits_cons] at hfits
  refine hi.of_worker rfl ?_ rfl rfl rfl (.of_running hrun ?_ ?_ (hi.worker w).loaded)
    (hi.count_keep fun _ => rfl)
  · exact fun m' o ho => owner_update hfree nofun (by simpa using ho)
  · rw [hold_update_mutex, decide_eq_true rfl]
    exact hfits.2
  · intro c b h
    obtain ⟨hmine, hb⟩ := (hi.worker w).posted c b h
    -- the mutex that is free is not the one it has
    have hne : Mutex.cache c ≠ m := by
      rintro rfl
      cases hmine.symm.trans hfree
    exact ⟨(update_of_ne hne _ _).trans hmine, hb⟩

/-- Releasing a mutex keeps the invariant. -/
theorem inv_unlock (hi : Inv s) (hrun : (s.worker w).status = .running)
    (hrest : (s.worker w).rest = .unlock m :: rest) :
    Inv { s.setWorker w { s.worker w with rest := rest } with
      mutex := update s.mutex m none } := by
  have hfits := hi.fits hrun
  rw [hrest, fits_cons] at hfits
  obtain ⟨⟨hmine, hstage⟩, hfits⟩ := hfits
  have hmine : s.mutex m = some (.worker w) := of_decide_eq_true hmine
  refine hi.of_worker rfl ?_ rfl rfl rfl (.of_running hrun ?_ ?_ (hi.worker w).loaded)
    (hi.count_keep fun _ => rfl)
  · exact fun m' o ho => owner_update hmine (by simpa using ho) nofun
  · rw [hold_update_mutex, decide_eq_false nofun]
    exact hfits
  · intro c b h
    -- the mutex is not given back between `post` and `load`
    have hne : Mutex.cache c ≠ m := by
      intro hm
      apply hstage c hm.symm
      show ((s.worker w).permit c).stage = 1
      rw [h]
      rfl
    obtain ⟨hcache, hb⟩ := (hi.worker w).posted c b h
    exact ⟨(update_of_ne hne _ _).trans hcache, hb⟩

/-- At stage 0 there is no permit. -/
theorem Permit.eq_none {p : Permit} (hp : p.stage = 0) : p = .none := by
  cases p with
  | none => rfl
  | posted b => cases hp
  | loaded b => cases hp

/-- At stage 1 the permit is posted. -/
theorem Permit.eq_posted {p : Permit} (hp : p.stage = 1) : ∃ b, p = .posted b := by
  cases p with
  | none => cases hp
  | posted b => exact ⟨b, rfl⟩
  | loaded b => cases hp

/-- At stage 2 the permit is loaded. -/
theorem Permit.eq_loaded {p : Permit} (hp : p.stage = 2) : ∃ b, p = .loaded b := by
  cases p with
  | none => cases hp
  | posted b => cases hp
  | loaded b => exact ⟨b, rfl⟩

/-- Outside its lock the updater shows the current buffer. -/
theorem Updater.shown_of_not_locks {u : Updater} {cur : ℕ} (hu : ¬u.Locks) :
    u.shown cur = index cur := by
  cases u with
  | published next => exact absurd trivial hu
  | _ => rfl

/-- A semaphore is changed with a permit of its buffer. -/
theorem Inv.count_update (hi : Inv s) {p : Permit} {b : Fin 2} {x : ℕ}
    (hk : k.permit = update (s.worker w).permit c p)
    (hcard : ∀ b', (if b' = b then x else s.sem c b') =
      (holders (update (fun v => ((s.worker v).permit c).buffer) w p.buffer) b').card)
    (c' : Cache) (b' : Fin 2) :
    update s.sem c (update (s.sem c) b x) c' b' =
      (holders (update (fun v => ((s.worker v).permit c').buffer) w (k.permit c').buffer)
        b').card := by
  by_cases hc : c' = c
  · subst hc
    rw [hk, update_self, update_self, ← hcard b', Function.update_apply]
  · rw [update_of_ne hc, hk, update_of_ne hc,
      Function.update_eq_self (f := fun v => ((s.worker v).permit c').buffer) w]
    exact hi.count c' b'

/-- The permits that are posted after a change of one of them. -/
theorem Inv.posted_update (hi : Inv s) {p : Permit}
    (hp : ∀ b, p = .posted b → s.mutex (.cache c) = some (.worker w) ∧ s.extsem c = b) :
    ∀ c' b, update (s.worker w).permit c p c' = .posted b →
      s.mutex (.cache c') = some (.worker w) ∧ s.extsem c' = b :=
  (Function.forall_update_iff (s.worker w).permit fun c' p => ∀ b, p = .posted b →
    s.mutex (.cache c') = some (.worker w) ∧ s.extsem c' = b).mpr
      ⟨hp, fun c' _ => (hi.worker w).posted c'⟩

/-- The permits that are loaded after a change of one of them and of its pointer. -/
theorem Inv.loaded_update (hi : Inv s) {p : Permit} {ptr : Option (Fin 2)}
    (hp : ∀ b, p = .loaded b → ptr = some b) :
    ∀ c' b, update (s.worker w).permit c p c' = .loaded b →
      update (s.worker w).ptr c ptr c' = some b := by
  refine (Function.forall_update_iff (s.worker w).permit fun c' p => ∀ b, p = .loaded b →
    update (s.worker w).ptr c ptr c' = some b).mpr ⟨?_, ?_⟩
  · intro b h
    rw [update_self]
    exact hp b h
  · intro c' hc b h
    rw [update_of_ne hc]
    exact (hi.worker w).loaded c' b h

/-- Posting a permit keeps the invariant. -/
theorem inv_post (hi : Inv s) (hrun : (s.worker w).status = .running)
    (hrest : (s.worker w).rest = .post c :: rest) :
    Inv { s.setWorker w { s.worker w with
        rest := rest, permit := update (s.worker w).permit c (.posted (s.extsem c)) } with
      sem := update s.sem c (update (s.sem c) (s.extsem c) (s.sem c (s.extsem c) + 1)) } := by
  have hfits := hi.fits hrun
  rw [hrest, fits_cons] at hfits
  obtain ⟨⟨hmine, hstage⟩, hfits⟩ := hfits
  have hnone : (s.worker w).permit c = .none := Permit.eq_none hstage
  refine hi.of_worker rfl (fun m o _ => Iff.rfl) rfl rfl rfl (.of_running hrun ?_ ?_ ?_)
    (hi.count_update rfl ?_)
  · rw [hold_update_permit rfl]
    exact hfits
  · apply hi.posted_update
    rintro b ⟨⟩
    exact ⟨of_decide_eq_true hmine, rfl⟩
  · refine (Function.forall_update_iff (s.worker w).permit fun c' p => ∀ b, p = .loaded b →
      (s.worker w).ptr c' = some b).mpr ⟨nofun, ?_⟩
    exact fun c' _ => (hi.worker w).loaded c'
  · -- one more worker holds the buffer of `_extsemid`
    intro b
    have hbuffer : ((s.worker w).permit c).buffer = none := by rw [hnone]; rfl
    rw [Permit.buffer, card_holders_take (fun v => ((s.worker v).permit c).buffer) hbuffer,
      ← hi.count c b]
    split
    · next hb => rw [hb]
    · rfl

/-- `load` reads the buffer that `post` counted. -/
theorem inv_load (hi : Inv s) (hrun : (s.worker w).status = .running)
    (hrest : (s.worker w).rest = .load c :: rest) :
    Inv (s.setWorker w { s.worker w with
      rest := rest
      ptr := update (s.worker w).ptr c (some (index (s.cur c)))
      permit := update (s.worker w).permit c ((s.worker w).permit c).load }) := by
  have hfits := hi.fits hrun
  rw [hrest, fits_cons] at hfits
  obtain ⟨⟨hmine, hstage⟩, hfits⟩ := hfits
  have hmine : s.mutex (.cache c) = some (.worker w) := of_decide_eq_true hmine
  obtain ⟨b, hb⟩ : ∃ b, (s.worker w).permit c = .posted b := Permit.eq_posted hstage
  -- the mutex keeps the updater out of the lines between `_extsemid` and `_cur`
  have hshown : index (s.cur c) = b := by
    rw [← ((hi.worker w).posted c b hb).2, (hi.updater c).shown]
    exact (Updater.shown_of_not_locks fun hlocks => by
      cases hmine.symm.trans ((hi.updater c).locks.mpr hlocks)).symm
  have hload : ((s.worker w).permit c).load = .loaded b := by rw [hb]; rfl
  rw [hload]
  refine hi.of_worker rfl (fun m o _ => Iff.rfl) rfl rfl rfl (.of_running hrun ?_ ?_ ?_)
    (hi.count_keep ?_)
  · rw [hold_update_permit rfl]
    exact hfits
  · exact hi.posted_update nofun
  · apply hi.loaded_update
    rintro b' ⟨⟩
    rw [hshown]
  · refine (Function.forall_update_iff (s.worker w).permit fun c' p =>
      p.buffer = ((s.worker w).permit c').buffer).mpr ⟨?_, fun _ _ => rfl⟩
    rw [hb]
    rfl

/-- `wait` takes back the permit that `post` gave. -/
theorem inv_wait (hi : Inv s) (hrun : (s.worker w).status = .running)
    (hrest : (s.worker w).rest = .wait c :: rest) {b : Fin 2}
    (hsel : sel ((s.worker w).ptr c) = b) :
    Inv { s.setWorker w { s.worker w with
        rest := rest
        ptr := update (s.worker w).ptr c none
        permit := update (s.worker w).permit c .none } with
      sem := update s.sem c (update (s.sem c) b (s.sem c b - 1)) } := by
  have hfits := hi.fits hrun
  rw [hrest, fits_cons] at hfits
  obtain ⟨hstage, hfits⟩ := hfits
  obtain ⟨b', hb⟩ : ∃ b, (s.worker w).permit c = .loaded b := Permit.eq_loaded hstage
  -- the pointer tells `ReleaseData` the right semaphore
  rw [(hi.worker w).loaded c b' hb, sel_some] at hsel
  subst hsel
  refine hi.of_worker rfl (fun m o _ => Iff.rfl) rfl rfl rfl (.of_running hrun ?_ ?_ ?_)
    (hi.count_update rfl ?_)
  · rw [hold_update_permit rfl]
    exact hfits
  · exact hi.posted_update nofun
  · exact hi.loaded_update nofun
  · -- one worker less holds the buffer
    intro b
    have hbuffer : ((s.worker w).permit c).buffer = some b' := by rw [hb]; rfl
    have hdrop := card_holders_drop (fun v => ((s.worker v).permit c).buffer) hbuffer b
    rw [← hi.count c b] at hdrop
    show _ = (holders (update _ w none) b).card
    split
    · next h =>
      rw [h, if_pos rfl] at hdrop
      rw [h]
      omega
    · next h => rw [hdrop, if_neg h]; rfl

/-- What each step of a worker does to the invariant. -/
theorem inv_stepWorker (hi : Inv s) (hrun : (s.worker w).status = .running) {turn : Turn}
    (h : stepWorker s w turn = some s') : Inv s' := by
  have hfits := hi.fits hrun
  have hne : (s.worker w).status ≠ .stopped := by rw [hrun]; exact nofun
  have hnotReturned : (s.worker w).status = .returned → ∀ {l : List Act}, l = [] :=
    fun h => absurd (hrun.symm.trans h) nofun
  unfold stepWorker at h
  cases hrest : (s.worker w).rest with
  | nil =>
    -- between two turns nothing is held, so that any turn can begin, and the worker can return
    rw [hrest, fits_nil] at hfits
    simp only [hrest] at h
    split at h
    · cases h
      refine hi.of_rest rfl rfl rfl rfl rfl rfl rfl rfl hne ?_ fun h => hnotReturned h
      rw [hfits]
      exact fits_turnHead
    · cases h
      refine hi.of_rest rfl rfl rfl rfl rfl rfl rfl rfl nofun ?_ fun _ => rfl
      exact hfits
  | cons a rest =>
    rw [hrest, fits_cons] at hfits
    simp only [hrest] at h
    cases a with
    | lock m =>
      simp only at h
      split at h
      · next hfree =>
        cases h
        exact inv_lock hi hrun hrest hfree
      · cases h
    | unlock m =>
      cases h
      exact inv_unlock hi hrun hrest
    | accept =>
      -- the turn begins when all that is left of its head has been given back
      cases h
      refine hi.of_rest rfl rfl rfl rfl rfl rfl rfl rfl hne ?_ fun h => hnotReturned h
      exact fits_append hfits.2 (fits_acts turn)
    | post c =>
      cases h
      exact inv_post hi hrun hrest
    | load c =>
      cases h
      exact inv_load hi hrun hrest
    | wait c =>
      simp only at h
      split at h
      · cases h
      · cases h
        exact inv_wait hi hrun hrest rfl
    | lookup =>
      cases h
      exact hi.of_rest rfl rfl rfl rfl rfl rfl rfl rfl hne hfits.2 fun h => hnotReturned h
    | ret =>
      cases h
      refine hi.of_rest rfl rfl rfl rfl rfl rfl rfl rfl nofun ?_ fun _ => rfl
      exact hfits.1

end

/-! ## One step of an updater -/

section

variable {s s' : State n} {c : Cache}

/-- A step of an updater.  What its buffer shows changes only while no worker has the mutex. -/
theorem Inv.of_updater (hi : Inv s) (hworker : s'.worker = s.worker) (hsem : s'.sem = s.sem)
    (hmutex : ∀ m o, o ≠ .updater c → (s'.mutex m = some o ↔ s.mutex m = some o))
    (hext : ∀ c', c' ≠ c → s'.extsem c' = s.extsem c')
    (hcur : ∀ c', c' ≠ c → s'.cur c' = s.cur c')
    (hupdater : ∀ c', c' ≠ c → s'.updater c' = s.updater c')
    (hshown : ∀ w, s.mutex (.cache c) = some (.worker w) → s'.extsem c = s.extsem c)
    (hc : UpdaterOk s' c) : Inv s' where
  worker w := by
    rw [hworker]
    apply (hi.worker w).congr
    · exact fun m => hmutex m _ nofun
    -- a worker that holds the mutex sees the `extsem` that it saw
    · intro c' hmine
      by_cases h : c' = c
      · subst h
        exact hshown w hmine
      · exact hext c' h
  updater c' := by
    by_cases h : c' = c
    · subst h
      exact hc
    · apply (hi.updater c').congr _ (hext c' h) (hcur c' h) (hupdater c' h)
      intro m
      apply hmutex
      intro ho
      exact h (Owner.updater.inj ho)
  count c' b := by
    rw [hsem, hworker]
    exact hi.count c' b

/-- A step of an updater that changes nothing but where it is, outside its critical section. -/
theorem Inv.of_place (hi : Inv s) {u : Updater} (hbefore : ¬(s.updater c).Locks) (hafter : ¬u.Locks)
    (hnext : ∀ k, u.next = some k → k = s.cur c + 1) :
    Inv { s with updater := update s.updater c u } := by
  have hold := hi.updater c
  refine hi.of_updater rfl rfl (fun m o _ => Iff.rfl) (fun _ _ => rfl) (fun _ _ => rfl)
    (fun c' h => update_of_ne h _ _) (fun _ _ => rfl) ?_
  exact
    { locks := by
        show _ ↔ (update s.updater c u c).Locks
        rw [update_self, hold.locks]
        exact iff_of_false hbefore hafter
      owns := hold.owns
      shown := by
        show _ = (update s.updater c u c).shown _
        rw [update_self, Updater.shown_of_not_locks hafter, ← Updater.shown_of_not_locks hbefore]
        exact hold.shown
      next := by
        show ∀ k, (update s.updater c u c).next = some k → _
        rw [update_self]
        exact hnext }

/-- An updater that takes its mutex or gives it back owns no other one. -/
theorem owns_update (howns : ∀ m, s.mutex m = some (.updater c) → m = .cache c)
    {o : Option (Owner n)} :
    ∀ m, update s.mutex (.cache c) o m = some (.updater c) → m = .cache c := by
  intro m hm
  by_contra hne
  exact hne (howns m ((update_of_ne hne _ _).symm.trans hm))

/-- What each step of an updater does to the invariant. -/
theorem inv_stepUpdater (hi : Inv s) {ok : Bool} (h : stepUpdater s c ok = some s') : Inv s' := by
  obtain ⟨hlocks, howns, hshown, hnext⟩ := hi.updater c
  unfold stepUpdater at h
  cases hu : s.updater c with
  | test =>
    simp only [hu] at h
    cases h
    apply hi.of_place
    · rw [hu]
      exact id
    · split <;> exact id
    · split <;> exact nofun
  | sleeping =>
    simp only [hu] at h
    cases h
    apply hi.of_place
    · rw [hu]
      exact id
    · split <;> exact id
    · split
      · rintro k ⟨⟩
        rfl
      · exact nofun
  | waitSwap next =>
    simp only [hu] at h
    split at h
    · cases h
      apply hi.of_place
      · rw [hu]
        exact id
      · exact id
      · rintro k ⟨⟩
        exact hnext next (by rw [hu]; rfl)
    · cases h
      exact hi
  | inUpdate next =>
    simp only [hu] at h
    cases h
    apply hi.of_place
    · rw [hu]
      exact id
    · split <;> exact id
    · split
      · rintro k ⟨⟩
        exact hnext next (by rw [hu]; rfl)
      · exact nofun
  | updated next =>
    rw [hu] at hshown hnext
    simp only [hu] at h
    split at h
    · next hfree =>
      cases h
      refine hi.of_updater rfl rfl (fun m o ho => owner_update hfree nofun (by simpa using ho))
        (fun _ _ => rfl) (fun _ _ => rfl) (fun c' h => update_of_ne h _ _) (fun _ _ => rfl) ?_
      exact
        { locks := by simp [Updater.Locks]
          owns := owns_update howns
          shown := by simpa [Updater.shown] using hshown
          next := by simpa [Updater.next] using hnext }
    · cases h
  | locked next =>
    have hmine : s.mutex (.cache c) = some (.updater c) := hlocks.mpr (by rw [hu]; trivial)
    rw [hu] at hlocks hnext
    simp only [hu] at h
    cases h
    refine hi.of_updater rfl rfl (fun m o _ => Iff.rfl) (fun c' h => update_of_ne h _ _)
      (fun _ _ => rfl) (fun c' h => update_of_ne h _ _) (fun w hw => ?_) ?_
    · -- no worker has the mutex
      cases hmine.symm.trans hw
    · exact
        { locks := by simpa [Updater.Locks] using hlocks
          owns := howns
          shown := by simp [Updater.shown]
          next := by simpa [Updater.next] using hnext }
  | published next =>
    -- `_cur` catches up with the buffer that is shown already
    have hcount : next = s.cur c + 1 := hnext next (by rw [hu]; rfl)
    rw [hu] at hlocks
    rw [hu, Updater.shown, hcount] at hshown
    simp only [hu] at h
    cases h
    refine hi.of_updater rfl rfl (fun m o _ => Iff.rfl) (fun _ _ => rfl)
      (fun c' h => update_of_ne h _ _) (fun c' h => update_of_ne h _ _) (fun _ _ => rfl) ?_
    exact
      { locks := by simpa [Updater.Locks] using hlocks
        owns := howns
        shown := by simpa [Updater.shown] using hshown
        next := by simp [Updater.next] }
  | counted =>
    have hmine : s.mutex (.cache c) = some (.updater c) := hlocks.mpr (by rw [hu]; trivial)
    rw [hu] at hshown
    simp only [hu] at h
    cases h
    refine hi.of_updater rfl rfl (fun m o ho => owner_update hmine (by simpa using ho) nofun)
      (fun _ _ => rfl) (fun _ _ => rfl) (fun c' h => update_of_ne h _ _) (fun _ _ => rfl) ?_
    exact
      { locks := by simp [Updater.Locks]
        owns := owns_update howns
        shown := by simpa [Updater.shown] using hshown
        next := by simp [Updater.next] }
  | exited =>
    simp only [hu] at h
    cases h

end

end AdxDsp.Shutdown
