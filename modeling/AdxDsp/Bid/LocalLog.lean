import AdxDsp.Lib.Bytes
import AdxDsp.Lib.Steps

/-!
# The local log

`LocalLog::WriteLog` pushes lines into a queue under a mutex, and a thread writes them to files.
After the run flag has been cleared the thread empties the queue once more and returns.

* **One turn** (`take`, `writeChunk`) and **the last one** (`drain`, `drainLoop_eq`): the loop over
  the shrinking queue takes only half of it.
* **Every line once** (`log_complete_iff`): a run writes every pushed line, in order, exactly when
  the last turn meets at most one line, and meets an open file for it.
-/

namespace AdxDsp.LocalLog

open CText

/-- Where the writing thread is in `run`. -/
inductive Phase where
  /-- About to test the run flag. -/
  | testing
  /-- In the loop, before the hour is compared. -/
  | entered
  /-- Before the mutex of the queue is taken. -/
  | ready
  /-- With some lines out of the queue, to be written. -/
  | holding (chunk : List Bytes)
  /-- Behind the loop, before the queue is emptied. -/
  | leaving
  /-- `run` has returned. -/
  | exited
  deriving DecidableEq

/-- The members of `LocalLog`; the files are the lists of their lines, and `closed` are those that
are complete.  `pushed` are the lines pushed so far, in the order of the pushes. -/
structure State where
  level : ℤ
  maxsize : ℕ
  runFlag : Bool
  log : List Bytes
  fd : Option (List Bytes)
  closed : List (List Bytes)
  count : ℕ
  writer : Phase
  pushed : List Bytes

/-- A log that has been started. -/
def init (level : ℤ) (maxsize : ℕ) : State where
  level := level
  maxsize := maxsize
  runFlag := true
  log := []
  fd := none
  closed := []
  count := 0
  writer := .testing
  pushed := []

/-- The lines in the files. -/
def State.written (s : State) : List Bytes := s.closed.flatten ++ s.fd.getD []

/-- `fclose`. -/
def State.close (s : State) : State :=
  { s with closed := s.closed ++ s.fd.toList, fd := none }

/-- The test of the levels in `WriteLog`. -/
def levelPasses (s : State) (logLevel : ℤ) : Bool :=
  !(logLevel < 1 || logLevel > 4 || logLevel < s.level)

/-- `WriteLog` of a line with its prefix. -/
def writeLog (s : State) (logLevel : ℤ) (line : Bytes) : State :=
  if levelPasses s logLevel then
    { s with log := s.log ++ [line], pushed := s.pushed ++ [line] }
  else s

/-- The critical section of the loop: at most sixteen lines are taken out. -/
def take (s : State) : State :=
  if s.log = [] then { s with writer := .testing }
  else { s with log := s.log.drop 16, writer := .holding (s.log.take 16) }

/-- The number of bytes of some lines. -/
def dataSize (lines : List Bytes) : ℕ := (lines.map List.length).sum

/-- A file is opened if there is none. -/
def openFile (s : State) : State := if s.fd = none then { s with fd := some [], count := 0 } else s

/-- The file is exchanged for a new one when it gets too large. -/
def rotate (s : State) (size : ℕ) : State :=
  if s.count + size ≥ s.maxsize then { s.close with fd := some [], count := size }
  else { s with count := s.count + size }

/-- The lines are written. -/
def writeChunk (s : State) (chunk : List Bytes) : State :=
  let s := rotate (openFile s) (dataSize chunk)
  { s with fd := s.fd.map (· ++ chunk), writer := .testing }

/-- `for (i = 0; i < _log.size(); ++i)` with a `pop` in each turn: the lines taken out, and the
rest. -/
def drainLoop (i : ℕ) : List Bytes → List Bytes × List Bytes
  | [] => ([], [])
  | line :: log =>
    if i < (line :: log).length then
      let (taken, rest) := drainLoop (i + 1) log
      (line :: taken, rest)
    else ([], line :: log)

/-- The critical section behind the loop. -/
def drain (s : State) : State :=
  let (taken, rest) := drainLoop 0 s.log
  { s with log := rest, fd := s.fd.map (· ++ taken), writer := .exited }

/-- What the threads do. -/
inductive Event where
  /-- A call of `WriteLog`; none is made after the run flag has been cleared. -/
  | writeLog (logLevel : ℤ) (line : Bytes)
  /-- The run flag is cleared. -/
  | stop
  /-- The writing thread reads the run flag. -/
  | test
  /-- It compares the hour and closes its file if that has changed. -/
  | clock (changed : Bool)
  | take
  | write
  | drain

/-- One step; `none` where the event cannot happen. -/
def step (s : State) : Event → Option State
  | .writeLog logLevel line => if s.runFlag then some (writeLog s logLevel line) else none
  | .stop => if s.runFlag then some { s with runFlag := false } else none
  | .test =>
    match s.writer with
    | .testing => some { s with writer := if s.runFlag then .entered else .leaving }
    | _ => none
  | .clock changed =>
    match s.writer with
    | .entered => some { (if changed then s.close else s) with writer := .ready }
    | _ => none
  | .take =>
    match s.writer with
    | .ready => some (take s)
    | _ => none
  | .write =>
    match s.writer with
    | .holding chunk => some (writeChunk s chunk)
    | _ => none
  | .drain =>
    match s.writer with
    | .leaving => some (drain s)
    | _ => none

/-! ## Which steps can be made -/

section

variable {s s' : State}

/-- The writer tests the flag. -/
theorem test_cases (h : step s .test = some s') : s.writer = .testing ∧
    s' = { s with writer := if s.runFlag then .entered else .leaving } := by
  cases hw : s.writer <;> simp only [step, hw, Option.some.injEq, reduceCtorEq] at h
  exact ⟨rfl, h.symm⟩

/-- The writer closes the file when the hour has changed. -/
theorem clock_cases {changed : Bool} (h : step s (.clock changed) = some s') :
    s.writer = .entered ∧ s' = { (if changed then s.close else s) with writer := .ready } := by
  cases hw : s.writer <;> simp only [step, hw, Option.some.injEq, reduceCtorEq] at h
  exact ⟨rfl, h.symm⟩

/-- The writer takes the lines. -/
theorem take_cases (h : step s .take = some s') : s.writer = .ready ∧ s' = take s := by
  cases hw : s.writer <;> simp only [step, hw, Option.some.injEq, reduceCtorEq] at h
  exact ⟨rfl, h.symm⟩

/-- The writer writes the lines in its hand. -/
theorem write_cases (h : step s .write = some s') :
    ∃ chunk, s.writer = .holding chunk ∧ s' = writeChunk s chunk := by
  cases hw : s.writer <;> simp only [step, hw, Option.some.injEq, reduceCtorEq] at h
  exact ⟨_, rfl, h.symm⟩

/-- The writer leaves through the drain. -/
theorem drain_cases (h : step s .drain = some s') : s.writer = .leaving ∧ s' = drain s := by
  cases hw : s.writer <;> simp only [step, hw, Option.some.injEq, reduceCtorEq] at h
  exact ⟨rfl, h.symm⟩

end

/-! ## The last turn -/

/-- The loop ends when as many lines have been taken as are left. -/
theorem drainLoop_eq (i : ℕ) (log : List Bytes) :
    drainLoop i log =
      (log.take ((log.length + 1 - i) / 2), log.drop ((log.length + 1 - i) / 2)) := by
  induction log generalizing i with
  | nil => simp [drainLoop]
  | cons line log ih =>
    rw [drainLoop]
    split
    next h =>
      rw [List.length_cons] at h ⊢
      have hhalf : (log.length + 1 + 1 - i) / 2 = (log.length + 1 - (i + 1)) / 2 + 1 := by omega
      rw [ih, hhalf]
      simp
    next h =>
      rw [List.length_cons] at h ⊢
      have hzero : (log.length + 1 + 1 - i) / 2 = 0 := by omega
      rw [hzero]
      rfl

/-- The drain keeps the second half of the lines: its loop counts against the shrinking list. -/
@[simp] theorem drain_log (s : State) :
    (drain s).log = s.log.drop ((s.log.length + 1) / 2) := by
  simp [drain, drainLoop_eq]

/-! ## Every line once -/

/-- The lines out of the queue that are not in a file yet. -/
def State.held (s : State) : List Bytes :=
  match s.writer with
  | .holding chunk => chunk
  | _ => []

/-- The files, the lines held and the queue together are the pushed lines, in order. -/
def Conserved (s : State) : Prop := s.written ++ s.held ++ s.log = s.pushed

/-- Behind the loop the run flag is false. -/
def FlagDown (s : State) : Prop :=
  s.writer = .leaving ∨ s.writer = .exited → s.runFlag = false

/-- Closing writes nothing. -/
@[simp] theorem close_written (s : State) : s.close.written = s.written := by
  cases h : s.fd <;> simp [State.close, State.written, h]

/-- What a step of the file handling keeps, with a file open behind it. -/
structure Opens (s s' : State) : Prop where
  written : s'.written = s.written
  fd : s'.fd ≠ none
  log : s'.log = s.log
  pushed : s'.pushed = s.pushed
  runFlag : s'.runFlag = s.runFlag

/-- Opening does not touch the lines. -/
theorem openFile_opens (s : State) : Opens s (openFile s) := by
  rw [openFile]
  split
  next h => exact ⟨by simp [State.written, h], by simp, rfl, rfl, rfl⟩
  next h => exact ⟨rfl, h, rfl, rfl, rfl⟩

/-- Rotating does not touch the lines. -/
theorem rotate_opens (s : State) (size : ℕ) (h : s.fd ≠ none) : Opens s (rotate s size) := by
  rw [rotate]
  split
  · refine ⟨?_, by simp, rfl, rfl, rfl⟩
    show s.close.closed.flatten ++ ([] : List Bytes) = s.written
    rw [← close_written]
    rfl
  · exact ⟨rfl, h, rfl, rfl, rfl⟩

/-- A chunk is written behind what was there. -/
theorem writeChunk_spec (s : State) (chunk : List Bytes) :
    (writeChunk s chunk).written = s.written ++ chunk ∧ (writeChunk s chunk).log = s.log ∧
      (writeChunk s chunk).pushed = s.pushed ∧ (writeChunk s chunk).runFlag = s.runFlag := by
  have hopen := openFile_opens s
  have hrot := rotate_opens (openFile s) (dataSize chunk) hopen.fd
  refine ⟨?_, hrot.log.trans hopen.log, hrot.pushed.trans hopen.pushed,
    hrot.runFlag.trans hopen.runFlag⟩
  obtain ⟨lines, hlines⟩ := Option.ne_none_iff_exists'.mp hrot.fd
  have hwritten := hrot.written.trans hopen.written
  rw [State.written, hlines, Option.getD_some] at hwritten
  simp only [writeChunk, State.written, hlines, Option.map_some, Option.getD_some]
  rw [← List.append_assoc, hwritten]
  rfl

/-- The invariant of the runs before the thread has returned. -/
structure Running (s : State) : Prop where
  conserved : s.writer ≠ .exited → Conserved s
  flagDown : FlagDown s

/-- The condition on the last turn: it meets at most one line, and an open file for it. -/
def LastTurn (s : State) (e : Event) : Prop :=
  e = .drain → s.log.length ≤ 1 ∧ (s.log = [] ∨ s.fd ≠ none)

/-- Every line pushed is in a file once, in order, or about to be; when the thread has returned
they all are, and the queue is empty. -/
structure Complete (s : State) : Prop where
  running : s.writer ≠ .exited → Conserved s
  returned : s.writer = .exited → s.written = s.pushed ∧ s.log = []

/-- A worker's line keeps the invariant. -/
theorem writeLog_running {s : State} (hs : Running s) (logLevel : ℤ) (line : Bytes) :
    Running (writeLog s logLevel line) := by
  rw [writeLog]
  split
  · refine ⟨fun hne => ?_, hs.flagDown⟩
    have hcons : s.written ++ s.held ++ s.log = s.pushed := hs.conserved hne
    show s.written ++ s.held ++ (s.log ++ [line]) = s.pushed ++ [line]
    rw [← List.append_assoc, hcons]
  · exact hs

/-- Taking keeps the invariant. -/
theorem take_running {s : State} (hs : Running s) (hw : s.writer = .ready) : Running (take s) := by
  have hcons : s.written ++ s.held ++ s.log = s.pushed := hs.conserved (by simp [hw])
  rw [State.held, hw, List.append_nil] at hcons
  rw [take]
  split
  · refine ⟨fun _ => ?_, by simp [FlagDown]⟩
    show s.written ++ [] ++ s.log = s.pushed
    rw [List.append_nil, hcons]
  · refine ⟨fun _ => ?_, by simp [FlagDown]⟩
    show s.written ++ s.log.take 16 ++ s.log.drop 16 = s.pushed
    rw [List.append_assoc, List.take_append_drop, hcons]

/-- Writing keeps the invariant. -/
theorem writeChunk_running {s : State} {chunk : List Bytes} (hs : Running s)
    (hw : s.writer = .holding chunk) : Running (writeChunk s chunk) := by
  obtain ⟨hwritten, hlog, hpushed, -⟩ := writeChunk_spec s chunk
  have hcons : s.written ++ s.held ++ s.log = s.pushed := hs.conserved (by simp [hw])
  rw [State.held, hw] at hcons
  refine ⟨fun _ => ?_, by simp [FlagDown, writeChunk]⟩
  show (writeChunk s chunk).written ++ [] ++ (writeChunk s chunk).log = _
  rw [hwritten, hlog, hpushed, List.append_nil, hcons]

/-- Before the thread returns the lines are kept; afterwards nothing happens. -/
theorem step_running {s s' : State} {e : Event} (hs : Running s) (h : step s e = some s') :
    Running s' ∧ s.writer ≠ .exited ∧ (e ≠ .drain → s'.writer ≠ .exited) := by
  have hflag : s.writer = .leaving ∨ s.writer = .exited → s.runFlag = false := hs.flagDown
  cases e with
  | writeLog logLevel line =>
    obtain ⟨hrun, h⟩ := Option.ite_none_right_eq_some.mp h
    cases h
    -- no line is pushed when the thread has returned
    have hne : s.writer ≠ .exited := fun he => by simp [hflag (.inr he)] at hrun
    have hsame : (writeLog s logLevel line).writer = s.writer := by
      rw [writeLog]
      split <;> rfl
    exact ⟨writeLog_running hs logLevel line, hne, fun _ => hsame ▸ hne⟩
  | stop =>
    obtain ⟨hrun, h⟩ := Option.ite_none_right_eq_some.mp h
    cases h
    have hne : s.writer ≠ .exited := fun he => by simp [hflag (.inr he)] at hrun
    exact ⟨⟨hs.conserved, fun _ => rfl⟩, hne, fun _ => hne⟩
  | test =>
    obtain ⟨hw, rfl⟩ := test_cases h
    have hcons : s.written ++ s.held ++ s.log = s.pushed := hs.conserved (by simp [hw])
    rw [State.held, hw] at hcons
    rw [hw]
    cases hrun : s.runFlag with
    | true => exact ⟨⟨fun _ => hcons, by simp [FlagDown]⟩, by simp, by simp⟩
    | false => exact ⟨⟨fun _ => hcons, fun _ => rfl⟩, by simp, by simp⟩
  | clock changed =>
    obtain ⟨hw, rfl⟩ := clock_cases h
    have hcons : s.written ++ s.held ++ s.log = s.pushed := hs.conserved (by simp [hw])
    rw [State.held, hw] at hcons
    rw [hw]
    cases changed with
    | true =>
      -- the lines of the file that is closed count as written
      refine ⟨⟨fun _ => ?_, by simp [FlagDown]⟩, by simp, by simp⟩
      show s.close.written ++ [] ++ s.log = s.pushed
      rw [close_written, hcons]
    | false => exact ⟨⟨fun _ => hcons, by simp [FlagDown]⟩, by simp, by simp⟩
  | take =>
    obtain ⟨hw, rfl⟩ := take_cases h
    refine ⟨take_running hs hw, by simp [hw], fun _ => ?_⟩
    rw [take]
    split <;> simp
  | write =>
    obtain ⟨chunk, hw, rfl⟩ := write_cases h
    exact ⟨writeChunk_running hs hw, by simp [hw], by simp [writeChunk]⟩
  | drain =>
    obtain ⟨hw, rfl⟩ := drain_cases h
    exact ⟨⟨fun hne => absurd rfl hne, fun _ => hflag (.inl hw)⟩, by simp [hw], by simp⟩

/-- The last turn leaves nothing behind exactly if it meets at most one line, and an open file for
it. -/
theorem drain_complete_iff {s : State} (hs : Running s) (hw : s.writer = .leaving) :
    ((drain s).written = (drain s).pushed ∧ (drain s).log = []) ↔
      s.log.length ≤ 1 ∧ (s.log = [] ∨ s.fd ≠ none) := by
  have hcons : s.written ++ s.held ++ s.log = s.pushed := hs.conserved (by simp [hw])
  rw [State.held, hw, List.append_nil] at hcons
  have hpushed : (drain s).pushed = s.pushed := rfl
  have hwritten : (drain s).written =
      s.closed.flatten ++ (s.fd.map (· ++ s.log.take ((s.log.length + 1) / 2))).getD [] := by
    simp [drain, drainLoop_eq, State.written]
  rw [hpushed, ← hcons, hwritten, drain_log, List.drop_eq_nil_iff, State.written]
  have hhalf : s.log.length ≤ (s.log.length + 1) / 2 ↔ s.log.length ≤ 1 := by omega
  rw [hhalf]
  constructor
  · rintro ⟨hfiles, hlen⟩
    refine ⟨hlen, ?_⟩
    -- without a file the line is taken and lost
    by_contra hlost
    push Not at hlost
    simp [hlost.2] at hfiles
    exact hlost.1 hfiles
  · rintro ⟨hlen, hopen⟩
    refine ⟨?_, hlen⟩
    have htake : s.log.take ((s.log.length + 1) / 2) = s.log :=
      List.take_of_length_le (hhalf.mpr hlen)
    rw [htake]
    rcases hopen with hempty | hfd
    · cases s.fd <;> simp [hempty]
    · obtain ⟨lines, hlines⟩ := Option.ne_none_iff_exists'.mp hfd
      simp [hlines]

/-- **Every line once.**  In every run, up to the return of the thread and behind it, every pushed
line is written once and in order, and none stays in the queue, exactly when the last turn meets
at most one line, and an open file for it. -/
theorem log_complete_iff (level : ℤ) (maxsize : ℕ) (es : List Event) (s : State)
    (h : Steps.run step (init level maxsize) es = some s) :
    Complete s ↔ Steps.Along step LastTurn (init level maxsize) es := by
  -- by induction over the run: the steps before the last turn keep the lines whatever they are
  suffices hP : Steps.run step (init level maxsize) es = some s ∧ Running s ∧
      (s.writer ≠ .exited → Steps.Along step LastTurn (init level maxsize) es) ∧
      (s.writer = .exited → (Complete s ↔ Steps.Along step LastTurn (init level maxsize) es)) by
    obtain ⟨-, hrun, hbefore, hafter⟩ := hP
    by_cases hw : s.writer = .exited
    · exact hafter hw
    · exact iff_of_true ⟨hrun.conserved, fun h => absurd h hw⟩ (hbefore hw)
  refine Steps.run_induction (P := fun es s => Steps.run step (init level maxsize) es = some s ∧
    Running s ∧ (s.writer ≠ .exited → Steps.Along step LastTurn (init level maxsize) es) ∧
    (s.writer = .exited → (Complete s ↔ Steps.Along step LastTurn (init level maxsize) es))) ?_ ?_ h
  · refine ⟨rfl, ⟨fun _ => rfl, by simp [FlagDown, init]⟩, fun _ => trivial, fun hw => by cases hw⟩
  · rintro es s e s' ⟨hrun, hs, hbefore, -⟩ hstep
    obtain ⟨hs', hne, hstays⟩ := step_running hs hstep
    have hrun' := Steps.run_concat.mpr ⟨s, hrun, hstep⟩
    have halong : Steps.Along step LastTurn (init level maxsize) (es ++ [e]) ↔ LastTurn s e := by
      rw [Steps.along_concat, hrun]
      simp [hbefore hne]
    refine ⟨hrun', hs', fun hne' => ?_, fun hw' => ?_⟩
    · refine halong.mpr fun hd => ?_
      subst hd
      obtain ⟨-, rfl⟩ := drain_cases hstep
      exact absurd rfl hne'
    · -- only the last turn ends the thread
      have hd : e = .drain := by
        by_contra hd
        exact hstays hd hw'
      subst hd
      obtain ⟨hw, rfl⟩ := drain_cases hstep
      rw [halong, LastTurn, ← drain_complete_iff hs hw]
      constructor
      · exact fun hc _ => hc.returned rfl
      · exact fun hlast => ⟨fun hne => absurd rfl hne, fun _ => hlast rfl⟩

/-- Two lines are pushed after the thread has looked at the queue; one of them stays there. -/
def twoLines : List Event :=
  [.test, .clock true, .take, .writeLog 4 (bytes "a"), .writeLog 4 (bytes "b"), .stop, .test,
    .drain]

/-- The run that loses the second of two lines. -/
theorem log_complete_iff_twoLines :
    Complete ((Steps.run step (init 1 1048576) twoLines).getD (init 1 1048576)) ↔
      Steps.Along step LastTurn (init 1 1048576) twoLines :=
  log_complete_iff 1 1048576 twoLines _ rfl

/-- At the end one line is in the queue, and the other one is in no file. -/
theorem lines_left_behind : ∃ s, Steps.run step (init 1 1048576) twoLines = some s ∧
    s.writer = .exited ∧ s.log = [bytes "b"] ∧ s.written = [] ∧ ¬ Complete s := by
  refine ⟨_, rfl, rfl, rfl, rfl, fun h => ?_⟩
  exact absurd (h.returned rfl).2 (by decide)

end AdxDsp.LocalLog
