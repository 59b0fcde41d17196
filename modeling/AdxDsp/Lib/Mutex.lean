import AdxDsp.Lib.Steps

/-!
# Critical sections

Threads share a memory that is used under a lock only, and more that each of them may use at any
time in single steps.  What a thread does under the lock is a list of statements, so that the steps
of other threads come between any two of them.

* `step`: the threads, one statement at a time.
* `wholeStep`: the threads, each section at once.
* `run_refines`: every run of the first kind is one of the second kind, but for a section that has
  not ended.
* `exec_of_whole`: if the sections of the second kind never fail, no statement fails.
* `run_of_whole`: every run of the second kind is one of the first kind.
-/

namespace Mutex

variable (τ L μ ν ε χ : Type)

/-- A statement of a section: it uses what the thread has of its own, and the memory. -/
abbrev Stmt := L → StateT μ Option L

/-- What threads do: steps outside the lock, and the section that a thread runs with the lock.  The
choice is what the system decides for the section. -/
structure System where
  outside : τ → ε → L → ν → Option (L × ν)
  enter : τ → χ → L → μ → Option (List (Stmt L μ))

/-- Threads, the one that has the lock with the rest of its section, and what they share. -/
structure State where
  own : τ → L
  lock : Option (τ × List (Stmt L μ))
  mem : μ
  shared : ν

/-- Threads of which none has the lock. -/
structure Whole where
  own : τ → L
  mem : μ
  shared : ν

/-- The events: a step outside the mutex, taking it, one statement under it, releasing it. -/
inductive Event where
  | outside (t : τ) (e : ε)
  | lock (t : τ) (c : χ)
  | exec
  | unlock

/-- The events where each critical section is one step. -/
inductive WholeEvent where
  | outside (t : τ) (e : ε)
  | whole (t : τ) (c : χ)

variable {τ L μ ν ε χ}

/-- The statements of a section, one after the other. -/
def runBody (body : List (Stmt L μ)) (l : L) : StateT μ Option L :=
  body.foldlM (fun l stmt => stmt l) l

variable [DecidableEq τ] (sys : System τ L μ ν ε χ)

/-- One step of one thread; the thread with the lock makes no steps outside of its section. -/
def step (s : State τ L μ ν) : Event τ ε χ → Option (State τ L μ ν)
  | .outside t e =>
    if s.lock.map Prod.fst = some t then none
    else (sys.outside t e (s.own t) s.shared).map fun r =>
      { s with own := Function.update s.own t r.1, shared := r.2 }
  | .lock t c =>
    match s.lock with
    | none => (sys.enter t c (s.own t) s.mem).map fun body => { s with lock := some (t, body) }
    | some _ => none
  | .exec =>
    match s.lock with
    | some (t, stmt :: rest) => (stmt (s.own t) s.mem).map fun r =>
      { s with own := Function.update s.own t r.1, lock := some (t, rest), mem := r.2 }
    | _ => none
  | .unlock =>
    match s.lock with
    | some (_, []) => some { s with lock := none }
    | _ => none

/-- One step of one thread, or a whole section. -/
def wholeStep (s : Whole τ L μ ν) : WholeEvent τ ε χ → Option (Whole τ L μ ν)
  | .outside t e => (sys.outside t e (s.own t) s.shared).map fun r =>
      { s with own := Function.update s.own t r.1, shared := r.2 }
  | .whole t c => (sys.enter t c (s.own t) s.mem).bind fun body =>
      (runBody body (s.own t) s.mem).map fun r =>
        { s with own := Function.update s.own t r.1, mem := r.2 }

/-- Threads before the first of them takes the lock. -/
def Whole.start (w : Whole τ L μ ν) : State τ L μ ν := ⟨w.own, none, w.mem, w.shared⟩

/-- A state, and what it is without the section that has not ended. -/
def Reflects (s : State τ L μ ν) (w : Whole τ L μ ν) : Prop :=
  w.shared = s.shared ∧
    match s.lock with
    | none => w.own = s.own ∧ w.mem = s.mem
    | some (t, rest) => (∀ u, u ≠ t → w.own u = s.own u) ∧ ∃ c done,
        sys.enter t c (w.own t) w.mem = some (done ++ rest) ∧
        runBody done (w.own t) w.mem = some (s.own t, s.mem)

variable {sys} {s s' : State τ L μ ν} {w w₀ : Whole τ L μ ν} {t : τ}

omit [DecidableEq τ] in
/-- A body with one more statement. -/
theorem runBody_concat {body : List (Stmt L μ)} {stmt : Stmt L μ} {l : L} {m : μ} :
    runBody (body ++ [stmt]) l m = (runBody body l m).bind fun r => stmt r.1 r.2 := by
  rw [runBody, List.foldlM_append]
  simp only [List.foldlM_cons, List.foldlM_nil, bind_pure]
  rfl

omit [DecidableEq τ] in
/-- The first state reflects the one of whole sections. -/
theorem reflects_start (w : Whole τ L μ ν) : Reflects sys w.start w := ⟨rfl, rfl, rfl⟩

/-- A step outside the mutex. -/
theorem wholeStep_outside {e : ε} {r : L × ν} (h : sys.outside t e (w.own t) w.shared = some r) :
    wholeStep sys w (.outside t e) =
      some { w with own := Function.update w.own t r.1, shared := r.2 } := by
  rw [wholeStep, h]
  rfl

/-- A whole critical section. -/
theorem wholeStep_whole {c : χ} {body : List (Stmt L μ)} {r : L × μ}
    (h : sys.enter t c (w.own t) w.mem = some body) (hr : runBody body (w.own t) w.mem = some r) :
    wholeStep sys w (.whole t c) =
      some { w with own := Function.update w.own t r.1, mem := r.2 } := by
  rw [wholeStep, h, Option.bind_some, hr]
  rfl

/-- A step outside of the section that has not ended. -/
theorem reflects_outside {e : ε} (h : Reflects sys s w) (hstep : step sys s (.outside t e) = some s') :
    ∃ w', wholeStep sys w (.outside t e) = some w' ∧ Reflects sys s' w' := by
  obtain ⟨own, lock, mem, shared⟩ := s
  obtain ⟨hshared, h⟩ := h
  rw [step] at hstep
  split_ifs at hstep with hholder
  obtain ⟨r, hr, rfl⟩ := Option.map_eq_some_iff.mp hstep
  cases lock with
  | none =>
    obtain ⟨hown, hmem⟩ := h
    refine ⟨_, wholeStep_outside (r := r) ?_, rfl, ?_, hmem⟩
    · rw [hown, hshared]
      exact hr
    · rw [hown]
  | some holder =>
    obtain ⟨u, rest⟩ := holder
    obtain ⟨hown, c, done, henter, hdone⟩ := h
    have htu : t ≠ u := fun htu => hholder (by rw [htu]; rfl)
    refine ⟨_, wholeStep_outside (r := r) ?_, rfl, fun v hv => ?_, c, done, ?_, ?_⟩
    · rw [hown t htu, hshared]
      exact hr
    · by_cases hvt : v = t
      · subst hvt
        simp
      · simpa [Function.update_of_ne hvt] using hown v hv
    · simpa [Function.update_of_ne htu.symm] using henter
    · simpa [Function.update_of_ne htu.symm] using hdone

/-- A section begins. -/
theorem reflects_lock {c : χ} (h : Reflects sys s w) (hstep : step sys s (.lock t c) = some s') :
    Reflects sys s' w := by
  obtain ⟨own, lock, mem, shared⟩ := s
  obtain ⟨hshared, h⟩ := h
  cases lock with
  | some holder => cases hstep
  | none =>
    obtain ⟨hown, hmem⟩ := h
    obtain ⟨body, hbody, rfl⟩ := Option.map_eq_some_iff.mp hstep
    refine ⟨hshared, fun u _ => congrFun hown u, c, [], ?_, ?_⟩
    · rw [hown, hmem]
      exact hbody
    · rw [hown, hmem]
      rfl

/-- A statement of a section. -/
theorem reflects_exec (h : Reflects sys s w) (hstep : step sys s .exec = some s') :
    Reflects sys s' w := by
  obtain ⟨own, lock, mem, shared⟩ := s
  obtain ⟨hshared, h⟩ := h
  match lock, h, hstep with
  | some (u, stmt :: rest), h, hstep =>
    obtain ⟨hown, c, done, henter, hdone⟩ := h
    obtain ⟨r, hr, rfl⟩ := Option.map_eq_some_iff.mp hstep
    refine ⟨hshared, fun v hv => ?_, c, done ++ [stmt], ?_, ?_⟩
    · simpa [Function.update_of_ne hv] using hown v hv
    · simpa using henter
    · rw [runBody_concat, hdone]
      simpa using hr

/-- A section ends. -/
theorem reflects_unlock (h : Reflects sys s w) (hstep : step sys s .unlock = some s') :
    ∃ u c w', wholeStep sys w (.whole u c) = some w' ∧ Reflects sys s' w' := by
  obtain ⟨own, lock, mem, shared⟩ := s
  obtain ⟨own', mem', shared'⟩ := w
  obtain ⟨hshared, h⟩ := h
  match lock, h, hstep with
  | some (u, []), h, hstep =>
    obtain rfl := Option.some.inj hstep
    obtain ⟨hown, c, done, henter, hdone⟩ := h
    rw [List.append_nil] at henter
    refine ⟨u, c, _, wholeStep_whole henter hdone, hshared, ?_, rfl⟩
    funext v
    by_cases hv : v = u
    · subst hv
      simp
    · simpa [Function.update_of_ne hv] using hown v hv

/-- Every run is one of whole sections, but for a section that has not ended. -/
theorem run_refines {es : List (Event τ ε χ)} (h : Steps.run (step sys) w₀.start es = some s) :
    ∃ ds w, Steps.run (wholeStep sys) w₀ ds = some w ∧ Reflects sys s w := by
  induction es using List.reverseRecOn generalizing s with
  | nil =>
    cases h
    exact ⟨[], w₀, rfl, reflects_start w₀⟩
  | append_singleton es e ih =>
    obtain ⟨s₁, hrun, hstep⟩ := Steps.run_concat.mp h
    obtain ⟨ds, w, hds, hw⟩ := ih hrun
    cases e with
    | outside t e =>
      obtain ⟨w', hstep', hw'⟩ := reflects_outside hw hstep
      exact ⟨ds ++ [.outside t e], w', Steps.run_concat.mpr ⟨w, hds, hstep'⟩, hw'⟩
    | lock t c => exact ⟨ds, w, hds, reflects_lock hw hstep⟩
    | exec => exact ⟨ds, w, hds, reflects_exec hw hstep⟩
    | unlock =>
      obtain ⟨u, c, w', hstep', hw'⟩ := reflects_unlock hw hstep
      exact ⟨ds ++ [.whole u c], w', Steps.run_concat.mpr ⟨w, hds, hstep'⟩, hw'⟩

/-- What holds of threads between whole sections holds whenever the lock is free. -/
theorem run_invariant {P : Whole τ L μ ν → Prop} (hstart : P w₀)
    (hstep : ∀ {w e w'}, P w → wholeStep sys w e = some w' → P w') {es : List (Event τ ε χ)}
    (h : Steps.run (step sys) w₀.start es = some s) (hfree : s.lock = none) :
    P ⟨s.own, s.mem, s.shared⟩ := by
  obtain ⟨ds, w, hds, hshared, hw⟩ := run_refines h
  rw [hfree] at hw
  obtain ⟨hown, hmem⟩ := hw
  rw [← hown, ← hmem, ← hshared]
  exact Steps.run_invariant hstep hstart hds

/-- Where no section fails as a whole, no statement of one fails. -/
theorem exec_of_whole {P : Whole τ L μ ν → Prop} (hstart : P w₀)
    (hstep : ∀ {w e w'}, P w → wholeStep sys w e = some w' → P w')
    (hbody : ∀ {w t c body}, P w → sys.enter t c (w.own t) w.mem = some body →
      ∃ r, runBody body (w.own t) w.mem = some r) {es : List (Event τ ε χ)}
    (h : Steps.run (step sys) w₀.start es = some s) {stmt : Stmt L μ} {rest : List (Stmt L μ)}
    (hlock : s.lock = some (t, stmt :: rest)) : ∃ s', step sys s .exec = some s' := by
  obtain ⟨ds, w, hds, hshared, hw⟩ := run_refines h
  rw [hlock] at hw
  obtain ⟨-, c, done, henter, hdone⟩ := hw
  obtain ⟨r, hr⟩ := hbody (Steps.run_invariant hstep hstart hds) henter
  -- the statement is one of those that the whole section runs
  have hsplit : done ++ stmt :: rest = done ++ [stmt] ++ rest := by simp
  rw [hsplit, runBody, List.foldlM_append] at hr
  obtain ⟨x, hx, -⟩ := Option.bind_eq_some_iff.mp hr
  change runBody (done ++ [stmt]) _ _ = _ at hx
  rw [runBody_concat, hdone] at hx
  simp only [step, hlock]
  exact ⟨_, Option.map_eq_some_iff.mpr ⟨x, hx, rfl⟩⟩

/-- A section can be run to its end. -/
theorem run_section {body : List (Stmt L μ)} {own : τ → L} {mem : μ} {shared : ν} {r : L × μ}
    (h : runBody body (own t) mem = some r) :
    Steps.run (step sys) ⟨own, some (t, body), mem, shared⟩
      (List.replicate body.length .exec ++ [.unlock]) =
        some ⟨Function.update own t r.1, none, r.2, shared⟩ := by
  induction body generalizing own mem with
  | nil =>
    cases h
    rw [Function.update_eq_self]
    rfl
  | cons stmt body ih =>
    rw [runBody, List.foldlM_cons] at h
    obtain ⟨⟨l, mem'⟩, hstmt, hrest⟩ := Option.bind_eq_some_iff.mp h
    have hstep : step sys ⟨own, some (t, stmt :: body), mem, shared⟩ .exec =
        some ⟨Function.update own t l, some (t, body), mem', shared⟩ :=
      Option.map_eq_some_iff.mpr ⟨(l, mem'), hstmt, rfl⟩
    rw [List.length_cons, List.replicate_succ, List.cons_append, Steps.run_cons, hstep,
      Option.bind_some, ih (by rwa [Function.update_self]), Function.update_idem]

/-- Whole sections can be run one statement at a time. -/
theorem run_of_whole {ds : List (WholeEvent τ ε χ)} (h : Steps.run (wholeStep sys) w₀ ds = some w) :
    ∃ es, Steps.run (step sys) w₀.start es = some w.start := by
  induction ds using List.reverseRecOn generalizing w with
  | nil =>
    cases h
    exact ⟨[], rfl⟩
  | append_singleton ds d ih =>
    obtain ⟨w₁, hds, hstep⟩ := Steps.run_concat.mp h
    obtain ⟨es, hes⟩ := ih hds
    cases d with
    | outside t e =>
      obtain ⟨r, hr, rfl⟩ := Option.map_eq_some_iff.mp hstep
      refine ⟨es ++ [.outside t e], Steps.run_concat.mpr ⟨_, hes, ?_⟩⟩
      rw [step, if_neg (by exact nofun)]
      exact Option.map_eq_some_iff.mpr ⟨r, hr, rfl⟩
    | whole t c =>
      obtain ⟨body, henter, hbody⟩ := Option.bind_eq_some_iff.mp hstep
      obtain ⟨r, hr, rfl⟩ := Option.map_eq_some_iff.mp hbody
      have hlock : step sys w₁.start (.lock t c) = some ⟨w₁.own, some (t, body), w₁.mem, w₁.shared⟩ :=
        Option.map_eq_some_iff.mpr ⟨body, henter, rfl⟩
      refine ⟨es ++ (.lock t c :: (List.replicate body.length .exec ++ [.unlock])), ?_⟩
      rw [Steps.run_append]
      refine ⟨_, hes, ?_⟩
      rw [Steps.run_cons, hlock, Option.bind_some, run_section hr]
      rfl

end Mutex
