import AdxDsp.Bid.DoubleCache
import AdxDsp.Lib.Script

/-!
# The threads of a bidder

The workers serve requests, each with the buffers of two double caches; one thread for each cache
updates it; the main thread waits for the run flag and takes the bidder down.  A worker that is
cancelled stops wherever it is, also between the steps of `GetData` and `ReleaseData`, and an
updater that waits for a buffer to have no readers does not look at the run flag.

* **The system** (`step`): one step of one thread.
* **A worker's script** (`fits_acts`): each turn of `BidWork::run` takes and gives back the mutexes
  and the buffers in pairs.
-/

open Function (update update_self update_of_ne)

namespace AdxDsp.Shutdown

open DoubleCache (index)

/-! ## The scripts of the workers -/

/-- `ad_ctrl_man` and `ad_data_man`. -/
inductive Cache where
  | ctrl
  | data
  deriving DecidableEq

instance : Fintype Cache := ⟨{.ctrl, .data}, fun c => by cases c <;> decide⟩

/-- `accept_mutex`, `resp_mutex` and the mutexes of the two double buffers. -/
inductive Mutex where
  | accept
  | resp
  | cache (c : Cache)
  deriving DecidableEq

/-- What a worker does in one step.  A worker can be stopped between any two of them. -/
inductive Act where
  | lock (m : Mutex)
  | unlock (m : Mutex)
  /-- `FCGX_Accept_r` -/
  | accept
  /-- `sem_post(_extsemid)` -/
  | post (c : Cache)
  /-- `ret_ = &_arr[_cur % 2]` -/
  | load (c : Cache)
  /-- `sem_wait(&_semidarr[sel])` -/
  | wait (c : Cache)
  /-- `getRegionCode` -/
  | lookup
  /-- `break` -/
  | ret
  deriving DecidableEq

/-- `DoubleCache::GetData`. -/
def getData (c : Cache) : List Act :=
  [.lock (.cache c), .post c, .load c, .unlock (.cache c)]

/-- `DoubleCache::ReleaseData`. -/
def releaseData (c : Cache) : List Act :=
  [.lock (.cache c), .wait c, .unlock (.cache c)]

/-- `FCGX_PutStr` under its mutex. -/
def putStr : List Act := [.lock .resp, .unlock .resp]

/-- What a turn of `run` becomes after `FCGX_Accept_r`. -/
inductive Turn where
  /-- An error, which ends the loop. -/
  | failed
  /-- `DumpAd`, which returns at once if it gets no JSON object. -/
  | dump (root : Bool)
  /-- A request, for which the IP table is looked up some times, with or without a response. -/
  | serve (lookups : ℕ) (responds : Bool)
  deriving DecidableEq

/-- The script of a turn, behind `accept_mutex`. -/
def Turn.acts : Turn → List Act
  | .failed => [.ret]
  | .dump false => []
  | .dump true =>
    getData .data ++ getData .ctrl ++ releaseData .data ++ releaseData .ctrl ++ putStr
  | .serve lookups responds =>
    getData .ctrl ++ getData .data ++ List.replicate lookups .lookup ++
      (if responds then putStr else []) ++ releaseData .data ++ releaseData .ctrl

/-- The beginning of each turn. -/
def turnHead : List Act := [.lock .accept, .accept, .unlock .accept]

/-! ## The system -/

/-- What a worker holds of a double buffer: nothing, a permit of the semaphore of a buffer, or the
permit with the pointer. -/
inductive Permit where
  | none
  | posted (b : Fin 2)
  | loaded (b : Fin 2)
  deriving DecidableEq

/-- The buffer whose semaphore counts the permit. -/
def Permit.buffer : Permit → Option (Fin 2)
  | .none => Option.none
  | .posted b => some b
  | .loaded b => some b

/-- `loaded` after the pointer is read. -/
def Permit.load : Permit → Permit
  | .posted b => .loaded b
  | p => p

/-- A worker thread runs, has returned, or was stopped for good. -/
inductive Status where
  | running
  | returned
  | stopped
  deriving DecidableEq

/-- A worker: what is left of its turn, and `_ad_ctrl` and `_ad_data` as the index of a buffer.
The permits are no part of the program. -/
structure Worker where
  rest : List Act
  ptr : Cache → Option (Fin 2)
  permit : Cache → Permit
  status : Status
  /-- `pthread_cancel` was called. -/
  cancelled : Bool

/-- Where the updating thread of a double buffer is. -/
inductive Updater where
  /-- At the head of its loop. -/
  | test
  /-- In `SleepInFlag`. -/
  | sleeping
  /-- In `WaitSwap` for the buffer of `next`. -/
  | waitSwap (next : ℕ)
  | inUpdate (next : ℕ)
  /-- `Update` has succeeded, the mutex is not taken yet. -/
  | updated (next : ℕ)
  /-- Behind `pthread_mutex_lock`. -/
  | locked (next : ℕ)
  /-- `_extsemid` is set. -/
  | published (next : ℕ)
  /-- `_cur` is set. -/
  | counted
  | exited
  deriving DecidableEq

/-- Where the main thread is: in `Monitor`, or at a line of `Uninit`. -/
inductive Main where
  | monitor
  | closeIPB
  /-- `works[i]->term()` -/
  | term (i : ℕ)
  /-- `works[i]->join()` -/
  | join (i : ℕ)
  /-- `ad_data_man->Uninit()` -/
  | joinData
  /-- `ad_ctrl_man->Uninit()` -/
  | joinCtrl
  | finished
  deriving DecidableEq

/-- The owner of a mutex. -/
inductive Owner (n : ℕ) where
  | worker (w : Fin n)
  | updater (c : Cache)
  deriving DecidableEq

/-- A bidder with `n` workers. -/
structure State (n : ℕ) where
  runFlag : Bool
  /-- The IP table is open. -/
  ipb : Bool
  main : Main
  worker : Fin n → Worker
  mutex : Mutex → Option (Owner n)
  sem : Cache → Fin 2 → ℕ
  extsem : Cache → Fin 2
  cur : Cache → ℕ
  updater : Cache → Updater
  /-- The IP table was looked up after it was closed. -/
  misused : Bool

variable {n : ℕ}

/-- A worker that has just been started. -/
def Worker.started : Worker := ⟨[], fun _ => none, fun _ => .none, .running, false⟩

/-- The bidder after `Init`, with its workers. -/
def State.init (n : ℕ) : State n where
  runFlag := true
  ipb := true
  main := .monitor
  worker _ := .started
  mutex _ := none
  sem _ _ := 0
  extsem _ := index 0
  cur _ := 0
  updater _ := .test
  misused := false

/-- Replace a worker. -/
def State.setWorker (s : State n) (w : Fin n) (k : Worker) : State n :=
  { s with worker := update s.worker w k }

/-- `sel` in `ReleaseData`. -/
def sel (val : Option (Fin 2)) : Fin 2 := if val = some (index 1) then index 1 else index 0

/-- The buffer of a loaded permit. -/
theorem sel_some (b : Fin 2) : sel (some b) = b := by
  revert b
  decide

/-- The next step of a worker that runs; `none` if it blocks.  The turn counts when a request comes
in. -/
def stepWorker (s : State n) (w : Fin n) (turn : Turn) : Option (State n) :=
  let k := s.worker w
  match k.rest with
  | [] =>
    -- the head of the loop
    if s.runFlag then some (s.setWorker w { k with rest := turnHead })
    else some (s.setWorker w { k with status := .returned })
  | .lock m :: rest =>
    if s.mutex m = none then
      some { s.setWorker w { k with rest := rest } with
        mutex := update s.mutex m (some (.worker w)) }
    else none
  | .unlock m :: rest =>
    some { s.setWorker w { k with rest := rest } with mutex := update s.mutex m none }
  | .accept :: rest => some (s.setWorker w { k with rest := rest ++ turn.acts })
  | .post c :: rest =>
    let b := s.extsem c
    some { s.setWorker w { k with rest := rest, permit := update k.permit c (.posted b) } with
      sem := update s.sem c (update (s.sem c) b (s.sem c b + 1)) }
  | .load c :: rest =>
    some (s.setWorker w { k with
      rest := rest
      ptr := update k.ptr c (some (index (s.cur c)))
      permit := update k.permit c (k.permit c).load })
  | .wait c :: rest =>
    let b := sel (k.ptr c)
    if s.sem c b = 0 then none
    else some { s.setWorker w { k with
        rest := rest
        ptr := update k.ptr c none
        permit := update k.permit c .none } with
      sem := update s.sem c (update (s.sem c) b (s.sem c b - 1)) }
  | .lookup :: rest =>
    some { s.setWorker w { k with rest := rest } with misused := s.misused || !s.ipb }
  | .ret :: _ => some (s.setWorker w { k with rest := [], status := .returned })

/-- The next step of an updater; `ok` is the result of `Update`. -/
def stepUpdater (s : State n) (c : Cache) (ok : Bool) : Option (State n) :=
  match s.updater c with
  | .test =>
    some { s with updater := update s.updater c (if s.runFlag then .sleeping else .exited) }
  | .sleeping =>
    some { s with
      updater := update s.updater c (if s.runFlag then .waitSwap (s.cur c + 1) else .exited) }
  | .waitSwap next =>
    if s.sem c (index next) = 0 then
      some { s with updater := update s.updater c (.inUpdate next) }
    else some s
  | .inUpdate next =>
    some { s with updater := update s.updater c (if ok then .updated next else .test) }
  | .updated next =>
    if s.mutex (.cache c) = none then
      some { s with
        mutex := update s.mutex (.cache c) (some (.updater c))
        updater := update s.updater c (.locked next) }
    else none
  | .locked next =>
    some { s with
      extsem := update s.extsem c (index next)
      updater := update s.updater c (.published next) }
  | .published _ =>
    some { s with cur := update s.cur c (s.cur c + 1), updater := update s.updater c .counted }
  | .counted =>
    some { s with
      mutex := update s.mutex (.cache c) none
      updater := update s.updater c .test }
  | .exited => none

/-- The next step of the main thread; `none` while it waits. -/
def stepMain (s : State n) : Option (State n) :=
  match s.main with
  | .monitor => if s.runFlag then none else some { s with main := .closeIPB }
  | .closeIPB => some { s with ipb := false, main := .term 0 }
  | .term i =>
    if h : i < n then
      some { s.setWorker ⟨i, h⟩ { s.worker ⟨i, h⟩ with cancelled := true } with main := .join i }
    else some { s with main := .joinData }
  | .join i =>
    if h : i < n then
      if (s.worker ⟨i, h⟩).status = .running then none else some { s with main := .term (i + 1) }
    else none
  | .joinData => if s.updater .data = .exited then some { s with main := .joinCtrl } else none
  | .joinCtrl => if s.updater .ctrl = .exited then some { s with main := .finished } else none
  | .finished => none

/-- What can happen. -/
inductive Event (n : ℕ) where
  /-- The run flag is cleared. -/
  | stopBid
  | worker (w : Fin n) (turn : Turn)
  /-- A worker that was cancelled stops. -/
  | cancel (w : Fin n)
  | updater (c : Cache) (ok : Bool)
  | main
  deriving DecidableEq

/-- One step of the system. -/
def step (s : State n) : Event n → Option (State n)
  | .stopBid => some { s with runFlag := false }
  | .worker w turn => if (s.worker w).status = .running then stepWorker s w turn else none
  | .cancel w =>
    if (s.worker w).status = .running ∧ (s.worker w).cancelled then
      some (s.setWorker w { s.worker w with status := .stopped })
    else none
  | .updater c ok => stepUpdater s c ok
  | .main => stepMain s

/-- The steps of the main thread, one by one. -/
inductive MainStep (s : State n) : State n → Prop
  | monitor (hm : s.main = .monitor) (hstop : s.runFlag = false) :
    MainStep s { s with main := .closeIPB }
  | closeIPB (hm : s.main = .closeIPB) : MainStep s { s with ipb := false, main := .term 0 }
  | term (i : ℕ) (h : i < n) (hm : s.main = .term i) :
    MainStep s
      { s.setWorker ⟨i, h⟩ { s.worker ⟨i, h⟩ with cancelled := true } with main := .join i }
  | last (i : ℕ) (h : n ≤ i) (hm : s.main = .term i) : MainStep s { s with main := .joinData }
  | join (i : ℕ) (h : i < n) (hm : s.main = .join i)
    (hgone : (s.worker ⟨i, h⟩).status ≠ .running) : MainStep s { s with main := .term (i + 1) }
  | joinData (hm : s.main = .joinData) (hexited : s.updater .data = .exited) :
    MainStep s { s with main := .joinCtrl }
  | joinCtrl (hm : s.main = .joinCtrl) (hexited : s.updater .ctrl = .exited) :
    MainStep s { s with main := .finished }

/-- The steps of the main thread. -/
theorem stepMain_cases {s s' : State n} (h : stepMain s = some s') : MainStep s s' := by
  unfold stepMain at h
  -- one case for each place where the main thread may be
  cases hm : s.main with
  | monitor =>
    simp only [hm] at h
    split at h
    · cases h
    · next hflag =>
      cases h
      exact .monitor hm (by simpa using hflag)
  | closeIPB =>
    simp only [hm] at h
    cases h
    exact .closeIPB hm
  | term i =>
    simp only [hm] at h
    split at h
    · next hlt =>
      cases h
      exact .term i hlt hm
    · next hge =>
      cases h
      exact .last i (not_lt.mp hge) hm
  | join i =>
    simp only [hm] at h
    split at h
    · next hlt =>
      split at h
      · cases h
      · next hgone =>
        cases h
        exact .join i hlt hm hgone
    · cases h
  | joinData =>
    simp only [hm] at h
    split at h
    · next hexited =>
      cases h
      exact .joinData hm hexited
    · cases h
  | joinCtrl =>
    simp only [hm] at h
    split at h
    · next hexited =>
      cases h
      exact .joinCtrl hm hexited
    · cases h
  | finished =>
    simp only [hm] at h
    cases h

/-! ## What a script needs -/

/-- What a worker holds: mutexes, and of each double buffer nothing (0), a permit (1) or a permit
with the pointer (2). -/
@[ext]
structure Hold where
  mutex : Mutex → Bool
  stage : Cache → ℕ

/-- Between two turns a worker holds nothing. -/
def Hold.empty : Hold := ⟨fun _ => false, fun _ => 0⟩

/-- What an action needs. -/
def Act.Pre : Act → Hold → Prop
  | .lock m, h => h.mutex m = false
  | .unlock m, h => h.mutex m = true ∧ ∀ c, m = .cache c → h.stage c ≠ 1
  | .post c, h => h.mutex (.cache c) = true ∧ h.stage c = 0
  | .load c, h => h.mutex (.cache c) = true ∧ h.stage c = 1
  | .wait c, h => h.stage c = 2
  | .ret, h => h = .empty
  | .accept, _ => True
  | .lookup, _ => True

/-- What an action changes. -/
def Act.eff : Act → Hold → Hold
  | .lock m, h => { h with mutex := update h.mutex m true }
  | .unlock m, h => { h with mutex := update h.mutex m false }
  | .post c, h => { h with stage := update h.stage c 1 }
  | .load c, h => { h with stage := update h.stage c 2 }
  | .wait c, h => { h with stage := update h.stage c 0 }
  | _, h => h

/-- The script finds what it needs and leaves nothing. -/
def Fits : List Act → Hold → Prop := Script.Fits Act.Pre Act.eff (· = .empty)

@[simp] theorem fits_nil (h : Hold) : Fits [] h ↔ h = .empty := Iff.rfl

@[simp] theorem fits_cons (a : Act) (rest : List Act) (h : Hold) :
    Fits (a :: rest) h ↔ a.Pre h ∧ Fits rest (a.eff h) := Iff.rfl

/-- A script in two parts fits if both do. -/
theorem fits_append {l r : List Act} {h : Hold} (hl : Fits l h) (hr : Fits r .empty) :
    Fits (l ++ r) h :=
  Script.fits_append hl fun h' (hempty : h' = .empty) => by rwa [hempty]

/-- Lookups fit anywhere. -/
theorem fits_lookups (k : ℕ) (rest : List Act) (h : Hold) :
    Fits (List.replicate k .lookup ++ rest) h ↔ Fits rest h := by
  induction k with
  | zero => rfl
  | succ k ih =>
    rw [List.replicate_succ, List.cons_append, fits_cons]
    exact (and_iff_right trivial).trans ih

/-- Taking a mutex and giving it back. -/
theorem update_lock {h : Hold} {m : Mutex} (hm : h.mutex m = false) :
    update (update h.mutex m true) m false = h.mutex := by
  rw [Function.update_idem, ← hm, Function.update_eq_self]

/-- The head of a turn fits where nothing is held. -/
theorem fits_turnHead : Fits turnHead .empty := by
  refine ⟨rfl, trivial, ⟨rfl, fun c h => by cases h⟩, ?_⟩
  show (⟨update (update _ _ _) _ _, _⟩ : Hold) = _
  rw [update_lock rfl]
  rfl

/-- `GetData` takes the buffer and gives the mutex back. -/
theorem fits_getData {c : Cache} {rest : List Act} {h : Hold} (hm : h.mutex (.cache c) = false)
    (hs : h.stage c = 0) :
    Fits (getData c ++ rest) h ↔ Fits rest { h with stage := update h.stage c 2 } := by
  simp only [getData, List.cons_append, List.nil_append, fits_cons, Act.Pre, Act.eff, hm,
    update_self, hs, update_lock hm, Function.update_idem, true_and]
  apply and_iff_right
  rintro c' ⟨⟩
  rw [update_self]
  omega

/-- Releasing a cache fits where its permit is loaded. -/
theorem fits_releaseData {c : Cache} {rest : List Act} {h : Hold}
    (hm : h.mutex (.cache c) = false) (hs : h.stage c = 2) :
    Fits (releaseData c ++ rest) h ↔ Fits rest { h with stage := update h.stage c 0 } := by
  simp only [releaseData, List.cons_append, List.nil_append, fits_cons, Act.Pre, Act.eff, hm,
    update_self, hs, update_lock hm, true_and]
  apply and_iff_right
  rintro c' ⟨⟩
  rw [update_self]
  omega

/-- Putting the answer fits where its mutex is free. -/
theorem fits_putStr {rest : List Act} {h : Hold} (hm : h.mutex .resp = false) :
    Fits (putStr ++ rest) h ↔ Fits rest h := by
  simp only [putStr, List.cons_append, List.nil_append, fits_cons, Act.Pre, Act.eff, hm,
    update_self, update_lock hm, true_and]
  apply and_iff_right
  rintro c' ⟨⟩

/-- The end of a turn, in either order. -/
theorem fits_releases {c c' : Cache} {h : Hold} (hm : h.mutex = fun _ => false)
    (hs : h.stage c = 2) (hs' : h.stage c' = 2) (hne : c ≠ c') (hall : ∀ x, x = c ∨ x = c')
    {rest : List Act} (hrest : Fits rest .empty) :
    Fits (releaseData c ++ (releaseData c' ++ rest)) h := by
  have hkeep : update h.stage c 0 c' = 2 := by rw [update_of_ne hne.symm, hs']
  rw [fits_releaseData (by rw [hm]) hs, fits_releaseData (by rw [hm]) hkeep]
  have hempty : (⟨h.mutex, update (update h.stage c 0) c' 0⟩ : Hold) = .empty := by
    ext1
    · exact hm
    · funext x
      rcases hall x with rfl | rfl <;> simp [Hold.empty, update, hne]
  rwa [hempty]

/-- Each turn takes and gives back in pairs. -/
theorem fits_acts (turn : Turn) : Fits turn.acts .empty := by
  cases turn with
  | failed => exact ⟨rfl, rfl⟩
  | dump root =>
    cases root with
    | false => rfl
    | true =>
      show Fits (getData .data ++ (getData .ctrl ++ (releaseData .data ++ (releaseData .ctrl ++
        (putStr ++ []))))) .empty
      rw [fits_getData rfl rfl, fits_getData rfl rfl]
      refine fits_releases rfl rfl rfl (by decide) (fun x => by cases x <;> simp) ?_
      rw [fits_putStr rfl, fits_nil]
  | serve lookups responds =>
    simp only [Turn.acts, List.append_assoc]
    rw [fits_getData rfl rfl, fits_getData rfl rfl, fits_lookups]
    have hreleases : Fits (releaseData .data ++ (releaseData .ctrl ++ []))
        { Hold.empty with stage := update (update (fun _ => 0) .ctrl 2) .data 2 } :=
      fits_releases rfl rfl rfl (by decide) (fun x => by cases x <;> simp) rfl
    cases responds with
    | false => exact hreleases
    | true => exact (fits_putStr rfl).mpr hreleases

end AdxDsp.Shutdown
