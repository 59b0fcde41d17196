import AdxDsp.Tracker.Command
import AdxDsp.Tracker.Queue

/-!
# The log

`adx_log.c`: any number of threads format messages and put them into a queue, and one thread takes
them out, writes them to a file with the date of the day and frees them.  The writer sleeps on a
semaphore, and goes on until the queue is empty.

* **The functions**: `Log.writeBuf`, `formatBuffer`, `clients`.
* `lines_eq`: what is written, message by message.
* `wakes`: the writer does not sleep while messages wait.
* `exists_drained`: the writer can write all that has been put into the queue.
-/

namespace AdxDsp.LogQueue

open CText Queue

/-! ## The functions -/

/-- `adx_log_t`; `fp` is the path of the open file. -/
structure Log where
  level : ℤ
  dirPath : Option Bytes
  name : Option Bytes
  date : Tm
  fp : Option Bytes

/-- A line of a file. -/
structure Line where
  path : Bytes
  time : Tm
  buf : Bytes

/-- `%04d` of a number that is not negative. -/
def fourDigits (n : ℕ) : Bytes :=
  List.replicate (4 - (decimalNat n).length) 48 ++ decimalNat n

/-- The path that `adx_log_open` makes. -/
def logPath (dirPath name : Bytes) (date : Tm) : Bytes :=
  dirPath ++ [47] ++ name ++ [95] ++ fourDigits (date.year + 1900).toNat ++ [95] ++
    twoDigits (date.mon + 1) ++ [95] ++ twoDigits date.mday ++ bytes ".log"

/-- The bytes of a line, with `"[%04d-%02d-%02d %02d:%02d:%02d]"` in front and `'\\n'` behind. -/
def Line.text (l : Line) : Bytes :=
  [91] ++ fourDigits (l.time.year + 1900).toNat ++ [45] ++ twoDigits (l.time.mon + 1) ++ [45] ++
    twoDigits l.time.mday ++ [32] ++ twoDigits l.time.hour ++ [58] ++ twoDigits l.time.min ++ [58] ++
    twoDigits l.time.sec ++ [93] ++ l.buf ++ [10]

/-- `adx_log_open`; `opened` is what `fopen` says.  The file that was open stays open if the new one
cannot be opened. -/
def Log.open (log : Log) (opened : Bool) : Log :=
  if opened then { log with fp := some (logPath (log.dirPath.getD []) (log.name.getD []) log.date) }
  else log

/-- The test at the beginning of `adx_log_write_buf` and `adx_log_queue_write_vlist`. -/
def Log.rejects (log : Log) (level : ℤ) : Bool :=
  level < 1 || level > 4 || level < log.level || log.dirPath.isNone || log.name.isNone ||
    log.fp.isNone

/-- `adx_log_write_buf`, at a time of the clock. -/
def Log.writeBuf (log : Log) (level : ℤ) (buf : Bytes) (time : Tm) (opened : Bool) :
    Log × List Line :=
  if log.rejects level then (log, [])
  else
    let log' := if log.date.mday ≠ time.mday then { log with date := time }.open opened else log
    (log', [⟨log'.fp.getD [], time, buf⟩])

/-- The loop of `adx_log_queue_write_vlist`: a buffer of `len` bytes is allocated as long as the
message does not fit; `mallocs` are the answers of `malloc`, and no text is an error of
`vsnprintf`. -/
def formatBuffer (text : Option Bytes) : ℕ → List Bool → Option Bytes
  | len, true :: mallocs =>
    match text with
    | none => none
    | some text =>
      if text.length ≥ len then formatBuffer (some text) (text.length + 1) mallocs
      else if text.length > 0 then some (text.take (len - 1))
      else none
  | _, _ => none

/-- What the threads share but for the queue: `sem` and the log, with the lines of all files and the
copies that have been freed. -/
structure Shared where
  log : Log
  sem : ℕ
  lines : List Line
  freed : List Bytes

/-- Where a thread is: in `adx_log_queue_write_vlist`, or in `adx_log_queue_write_thread`. -/
inductive Client where
  | idle
  | putting (str : Bytes)
  | posting
  | waiting
  | taking
  | writing (str : Bytes)
  | freeing (str : Bytes)

/-- What happens outside of the queue: a call of `adx_log`, `sem_post`, `sem_wait`, which may be
interrupted, `adx_log_write_buf` and `adx_str_free`. -/
inductive Event where
  | log (level : ℤ) (text : Option Bytes) (mallocs : List Bool)
  | post
  | wait (interrupted : Bool)
  | write (time : Tm) (opened : Bool)
  | free

/-- `sem_post`, which fails at `SEM_VALUE_MAX`. -/
def semPost (sem : ℕ) : ℕ := if sem < 2147483647 then sem + 1 else sem

/-- What a call of `adx_log` puts into the queue. -/
def Log.message (log : Log) (level : ℤ) (text : Option Bytes) (mallocs : List Bool) : Option Bytes :=
  if log.rejects level then none else formatBuffer text 1024 mallocs

/-- The threads that log, and the writer, which is `none`. -/
def clients (ι : Type) : Clients (Option ι) Client Shared Event where
  outside
    | some _, .log level text mallocs, .idle, s =>
      some ((s.log.message level text mallocs).elim .idle .putting, s)
    | some _, .post, .posting, s => some (.idle, { s with sem := semPost s.sem })
    | none, .wait true, .waiting, s => some (.taking, s)
    | none, .wait false, .waiting, s => if 0 < s.sem then some (.taking, { s with sem := s.sem - 1 })
      else none
    | none, .write time opened, .writing str, s =>
      let r := s.log.writeBuf s.log.level str time opened
      some (.freeing str, { s with log := r.1, lines := s.lines ++ r.2 })
    | none, .free, .freeing str, s => some (.taking, { s with freed := s.freed ++ [str] })
    | _, _, _, _ => none
  call
    | some _, .putting str => some (.push str)
    | none, .taking => some .pop
    | _, _ => none
  finish
    | some _, _, _ => .posting
    | none, _, str => if str = [] then .waiting else .writing str

/-- The log before the first message. -/
def Shared.start (log : Log) : Shared := ⟨log, 0, [], []⟩

/-- Where the threads begin. -/
def firstClient {ι : Type} (t : Option ι) : Client := t.elim .waiting fun _ => .idle

section

variable {ι ω : Type} [DecidableEq ι] {log : Log} {level : ℤ} {text : Option Bytes}
  {mallocs : List Bool} {buf str : Bytes} {time : Tm} {opened : Bool}
  {f f' : Fifo (Option ι) Client Shared} {d : FifoEvent (Option ι) Event}

/-! ## Messages -/

/-- What is put into the queue is the whole text, if it is not empty. -/
theorem formatBuffer_eq {len : ℕ} (h : formatBuffer text len mallocs = some str) :
    text = some str ∧ str ≠ [] := by
  fun_induction formatBuffer text len mallocs with
  | case1 => cases h
  | case2 len mallocs text hlen ih => exact ih h
  | case3 len mallocs text hlen hpos =>
    obtain rfl := Option.some.inj h
    have htake : text.take (len - 1) = text := List.take_of_length_le (by omega)
    rw [htake]
    exact ⟨rfl, List.ne_nil_of_length_pos hpos⟩
  | case4 => cases h
  | case5 => cases h

/-- If `malloc` does not fail, a text that is not empty is put into the queue. -/
theorem formatBuffer_of_mallocs (h : str ≠ []) :
    formatBuffer (some str) 1024 [true, true] = some str := by
  have hpos : str.length > 0 := List.length_pos_iff.mpr h
  by_cases hlen : str.length ≥ 1024
  · simp [formatBuffer, hlen, hpos]
  · simp only [formatBuffer, if_neg hlen, if_pos hpos]
    rw [List.take_of_length_le (by omega)]

/-- What does not change in a log. -/
def Log.Same (log log' : Log) : Prop :=
  log'.level = log.level ∧ ∀ level, log'.rejects level = log.rejects level

/-- A log that is open is not opened again. -/
theorem same_open (log : Log) (opened : Bool) (hfp : log.fp ≠ none) : log.Same (log.open opened) := by
  cases opened with
  | false => exact ⟨rfl, fun _ => rfl⟩
  | true =>
    obtain ⟨path, hpath⟩ := Option.ne_none_iff_exists'.mp hfp
    exact ⟨rfl, fun level => by simp [Log.rejects, Log.open, hpath]⟩

/-- A line is written unless the log rejects its level. -/
theorem writeBuf_eq (log : Log) (level : ℤ) (buf : Bytes) (time : Tm) (opened : Bool) :
    ∃ log', log.Same log' ∧
    if log.rejects level then log.writeBuf level buf time opened = (log', [])
    else ∃ path, log.writeBuf level buf time opened = (log', [⟨path, time, buf⟩]) := by
  by_cases hrejects : log.rejects level = true
  · exact ⟨log, ⟨rfl, fun _ => rfl⟩, by simp [Log.writeBuf, hrejects]⟩
  · have hfp : log.fp ≠ none := by
      intro hnone
      simp [Log.rejects, hnone] at hrejects
    by_cases hday : log.date.mday ≠ time.mday
    · refine ⟨_, same_open { log with date := time } opened hfp, ?_⟩
      simp [Log.writeBuf, hrejects, hday]
    · refine ⟨log, ⟨rfl, fun _ => rfl⟩, ?_⟩
      simp [Log.writeBuf, hrejects, hday]

/-- A log that takes messages of some level writes them, unless its own level is too low. -/
theorem rejects_level (h : ∃ level, log.rejects level = false) (hlevel : 1 ≤ log.level) :
    log.rejects log.level = false := by
  obtain ⟨level, h⟩ := h
  simp only [Log.rejects, Bool.or_eq_false_iff, decide_eq_false_iff_not] at h ⊢
  obtain ⟨⟨⟨⟨⟨hlow, hhigh⟩, hle⟩, hdir⟩, hname⟩, hfp⟩ := h
  exact ⟨⟨⟨⟨⟨by omega, by omega⟩, by omega⟩, hdir⟩, hname⟩, hfp⟩

/-! ## What the threads do -/

omit [DecidableEq ι] in
/-- The steps outside of the queue. -/
theorem outside_cases {t : Option ι} {e : Event} {k k' : Client} {s s' : Shared}
    (h : (clients ι).outside t e k s = some (k', s')) :
    (∃ i level text mallocs, t = some i ∧ k = .idle ∧ s' = s ∧
      k' = (s.log.message level text mallocs).elim .idle .putting) ∨
    (∃ i, t = some i ∧ k = .posting ∧ k' = .idle ∧ s' = { s with sem := semPost s.sem }) ∨
    (t = none ∧ k = .waiting ∧ k' = .taking ∧ s'.log = s.log ∧ s'.lines = s.lines ∧
      s'.freed = s.freed) ∨
    (∃ str time opened, t = none ∧ k = .writing str ∧ k' = .freeing str ∧
      s' = { s with
        log := (s.log.writeBuf s.log.level str time opened).1
        lines := s.lines ++ (s.log.writeBuf s.log.level str time opened).2 }) ∨
    ∃ str, t = none ∧ k = .freeing str ∧ k' = .taking ∧
      s' = { s with freed := s.freed ++ [str] } := by
  -- the branches in the order of `clients`
  simp only [clients] at h
  split at h
  · cases h
    exact .inl ⟨_, _, _, _, rfl, rfl, rfl, rfl⟩
  · cases h
    exact .inr (.inl ⟨_, rfl, rfl, rfl, rfl⟩)
  · cases h
    exact .inr (.inr (.inl ⟨rfl, rfl, rfl, rfl, rfl, rfl⟩))
  · split_ifs at h
    cases h
    exact .inr (.inr (.inl ⟨rfl, rfl, rfl, rfl, rfl, rfl⟩))
  · cases h
    exact .inr (.inr (.inr (.inl ⟨_, _, _, rfl, rfl, rfl, rfl⟩)))
  · cases h
    exact .inr (.inr (.inr (.inr ⟨_, rfl, rfl, rfl, rfl⟩)))
  · cases h

/-- The message that the writer has taken and not written. -/
def Client.inHand : Client → List Bytes
  | .writing str => [str]
  | _ => []

/-- The copy that the writer has taken and not freed. -/
def Client.held : Client → List Bytes
  | .writing str => [str]
  | .freeing str => [str]
  | _ => []

/-- What is known of the messages: only a log that writes nothing loses them, and the writer sleeps
while the queue is empty. -/
structure Inv (log : Log) (f : Fifo (Option ι) Client Shared) : Prop where
  same : log.Same f.shared.log
  putting : ∀ i str, f.client (some i) = .putting str → ∃ level, log.rejects level = false
  queue : ∀ str ∈ f.queue, str ≠ [] ∧ ∃ level, log.rejects level = false
  lines : if log.level < 1 then f.shared.lines = []
    else f.history.popped = f.shared.lines.map Line.buf ++ (f.client none).inHand
  freed : f.history.popped = f.shared.freed ++ (f.client none).held
  writer : f.client none = .waiting ∨ f.client none = .taking ∨
    (∃ str, f.client none = .writing str ∨ f.client none = .freeing str) ∧
      ∃ level, log.rejects level = false
  wake : f.client none = .waiting → f.queue ≠ [] →
    0 < f.shared.sem ∨ ∃ i, f.client (some i) = .posting

omit [DecidableEq ι] in
/-- The invariant holds at the start. -/
theorem inv_start : Inv log (Fifo.start (firstClient (ι := ι)) (Shared.start log)) where
  same := ⟨rfl, fun _ => rfl⟩
  putting := by nofun
  queue := by nofun
  lines := by
    split_ifs <;> rfl
  freed := rfl
  writer := .inl rfl
  wake _ h := absurd rfl h

omit [DecidableEq ι] in
/-- Only a thread with a message in its hand puts one into the queue. -/
theorem call_push {t : Option ι} {k : Client} (h : (clients ι).call t k = some (.push str)) :
    ∃ i, t = some i ∧ k = .putting str := by
  simp only [clients] at h
  split at h <;> cases h
  exact ⟨_, rfl, rfl⟩

omit [DecidableEq ι] in
/-- Only the writer takes messages out. -/
theorem call_pop {t : Option ι} {k : Client} (h : (clients ι).call t k = some .pop) :
    t = none ∧ k = .taking := by
  simp only [clients] at h
  split at h <;> cases h
  exact ⟨rfl, rfl⟩

/-- A thread that logs goes on, which is not the writer. -/
@[simp] theorem goOn_none (f : Fifo (Option ι) Client Shared) (i : ι) (k : Client) :
    (f.goOn (some i) k).client none = f.client none :=
  goOn_of_ne f k (Option.some_ne_none i).symm

/-- The writer goes on. -/
@[simp] theorem goOn_some (f : Fifo (Option ι) Client Shared) (i : ι) (k : Client) :
    (f.goOn none k).client (some i) = f.client (some i) :=
  goOn_of_ne f k (Option.some_ne_none i)

/-- A thread that is not about to post goes on. -/
theorem posting_goOn {i j : ι} {k : Client} (hj : f.client (some j) = .posting)
    (hi : f.client (some i) ≠ .posting) : (f.goOn (some i) k).client (some j) = .posting := by
  have hne : some j ≠ some i := fun heq => hi (heq ▸ hj)
  rw [goOn_of_ne f k hne, hj]

/-- Another thread's move leaves the messages in the hands alone. -/
theorem putting_goOn {i j : ι} {k : Client} (hk : k ≠ .putting str)
    (hj : (f.goOn (some i) k).client (some j) = .putting str) :
    f.client (some j) = .putting str := by
  by_cases hji : some j = some i
  · rw [hji, goOn_self] at hj
    exact absurd hj hk
  · rwa [goOn_of_ne f k hji] at hj

/-- After a post the semaphore is not zero. -/
theorem semPost_pos (sem : ℕ) : 0 < semPost sem := by
  unfold semPost
  split_ifs <;> omega

/-- The writer writes a message. -/
theorem inv_written (h : Inv log f) (hk : f.client none = .writing str) (time : Tm) (opened : Bool) :
    Inv log ((f.goOn none (.freeing str)).share { f.shared with
      log := (f.shared.log.writeBuf f.shared.log.level str time opened).1
      lines := f.shared.lines ++ (f.shared.log.writeBuf f.shared.log.level str time opened).2 }) := by
  obtain ⟨log', hsame, hwrite⟩ := writeBuf_eq f.shared.log f.shared.log.level str time opened
  have hlog : (f.shared.log.writeBuf f.shared.log.level str time opened).1 = log' := by
    split_ifs at hwrite
    · rw [hwrite]
    · obtain ⟨path, hwrite⟩ := hwrite
      rw [hwrite]
  -- the message in the hand was let in by some level
  have haccepts : ∃ level, log.rejects level = false := by
    rcases h.writer with hw | hw | ⟨-, hlevels⟩
    · cases hw.symm.trans hk
    · cases hw.symm.trans hk
    · exact hlevels
  refine { h with same := ?_, putting := ?_, lines := ?_, freed := ?_, writer := ?_, wake := ?_ }
  · dsimp only
    rw [hlog]
    exact ⟨hsame.1.trans h.same.1, fun level => (hsame.2 level).trans (h.same.2 level)⟩
  · simpa using h.putting
  · have hlines := h.lines
    split_ifs at hlines ⊢ with hlevel
    · -- the level of the log is not one of a message
      have hrejects : f.shared.log.rejects f.shared.log.level = true := by
        rw [h.same.1]
        simp [Log.rejects, hlevel]
      rw [if_pos hrejects] at hwrite
      simpa [hwrite] using hlines
    · have hrejects : f.shared.log.rejects f.shared.log.level = false := by
        rw [h.same.1, h.same.2]
        exact rejects_level haccepts (by omega)
      rw [if_neg (by rw [hrejects]; exact Bool.false_ne_true)] at hwrite
      obtain ⟨path, hwrite⟩ := hwrite
      rw [hk] at hlines
      simpa [hwrite, Client.inHand] using hlines
  · simpa [hk, Client.held] using h.freed
  · exact .inr (.inr ⟨⟨str, .inr (by simp)⟩, haccepts⟩)
  · simp

/-- The writer frees a copy. -/
theorem inv_freed (h : Inv log f) (hk : f.client none = .freeing str) :
    Inv log ((f.goOn none .taking).share { f.shared with freed := f.shared.freed ++ [str] }) := by
  refine { h with
    putting := ?_, lines := ?_, freed := ?_, writer := .inr (.inl ?_), wake := ?_ }
  · simpa using h.putting
  · simpa [hk, Client.inHand] using h.lines
  · simpa [hk, Client.held] using h.freed
  · simp
  · simp

/-- A step outside the queue keeps the invariant. -/
theorem inv_outside (h : Inv log f) {t : Option ι} {e : Event}
    (hstep : (clients ι).fifoStep f (.outside t e) = some f') : Inv log f' := by
  obtain ⟨⟨k', s'⟩, hout, rfl⟩ := Option.map_eq_some_iff.mp hstep
  rcases outside_cases hout with ⟨i, level, text, mallocs, rfl, hk, rfl, rfl⟩ |
    ⟨i, rfl, hk, rfl, rfl⟩ | ⟨rfl, hk, rfl, hlog, hlines, hfreed⟩ |
    ⟨str, time, opened, rfl, hk, rfl, rfl⟩ | ⟨str, rfl, hk, rfl, rfl⟩
  · -- a thread formats a message
    refine { h with
      putting := fun j str hj => ?_, lines := ?_, freed := ?_, writer := ?_, wake := ?_ }
    · by_cases hrejects : f.shared.log.rejects level = true
      · refine h.putting j str (putting_goOn ?_ hj)
        simp [Log.message, hrejects]
      · refine ⟨level, ?_⟩
        rw [← h.same.2]
        exact eq_false_of_ne_true hrejects
    · simpa using h.lines
    · simpa using h.freed
    · simpa using h.writer
    · intro hwait hqueue
      refine (h.wake (by simpa using hwait) hqueue).imp_right ?_
      rintro ⟨j, hj⟩
      exact ⟨j, posting_goOn hj (by rw [hk]; exact nofun)⟩
  · -- a thread posts
    refine { h with putting := ?_, lines := ?_, freed := ?_, writer := ?_, wake := ?_ }
    · intro j str hj
      exact h.putting j str (putting_goOn (by simp) hj)
    · simpa using h.lines
    · simpa using h.freed
    · simpa using h.writer
    · intro _ _
      exact .inl (semPost_pos _)
  · -- the writer wakes up
    refine { h with
      same := ?_, putting := ?_, lines := ?_, freed := ?_, writer := .inr (.inl ?_), wake := ?_ }
    · simpa [hlog] using h.same
    · simpa using h.putting
    · simpa [hlines, hk, Client.inHand] using h.lines
    · simpa [hfreed, hk, Client.held] using h.freed
    · simp
    · simp
  · exact inv_written h hk time opened
  · exact inv_freed h hk

/-- A thread that has put a message goes on to post; what it has put is in the queue, or lost. -/
theorem inv_posting (h : Inv log f) (i : ι) :
    Inv log (f.goOn (some i) .posting) := by
  refine { h with putting := ?_, lines := ?_, freed := ?_, writer := ?_, wake := ?_ }
  · intro j str hj
    exact h.putting j str (putting_goOn (by simp) hj)
  · simpa using h.lines
  · simpa using h.freed
  · simpa using h.writer
  · intro _ _
    exact .inr ⟨i, goOn_self f _ _⟩

/-- What is in the queue behind a call has been in it before, or has been put into it. -/
theorem mem_queueAfter {queue : List Bytes} {outcome : Outcome} {str' : Bytes}
    (h : str' ∈ queueAfter queue str outcome) : str' ∈ queue ∨ str ≠ [] ∧ str' = str := by
  rw [queueAfter] at h
  split_ifs at h with hstored
  · rcases List.mem_append.mp h with h | h
    · exact .inl h
    · exact .inr ⟨hstored.1, List.mem_singleton.mp h⟩
  · exact .inl h

/-- A thread has put a message into the queue, or has failed to. -/
theorem inv_push (h : Inv log f) {t : Option ι} {outcome : Outcome}
    (hstep : (clients ι).fifoStep f (.push t outcome) = some f') : Inv log f' := by
  rw [Clients.fifoStep] at hstep
  split at hstep
  · rename_i str hcall
    obtain ⟨i, rfl, hput⟩ := call_push hcall
    have hnext := inv_posting h i
    obtain rfl := Option.some.inj hstep
    change Inv log ((f.goOn (some i) .posting).put str outcome)
    refine { hnext with queue := ?_, lines := ?_, freed := ?_, wake := ?_ }
    · intro str' hmem
      rw [put_queue, goOn_queue] at hmem
      rcases mem_queueAfter hmem with hmem | ⟨hstr, rfl⟩
      · exact h.queue str' hmem
      · exact ⟨hstr, h.putting i str' hput⟩
    · simpa using hnext.lines
    · simpa using hnext.freed
    · intro _ _
      exact .inr ⟨i, goOn_self f _ _⟩
  · cases hstep

/-- Taking a message keeps the invariant. -/
theorem inv_pop (h : Inv log f) {t : Option ι}
    (hstep : (clients ι).fifoStep f (.pop t) = some f') : Inv log f' := by
  have hlines := h.lines
  have hfreed := h.freed
  rw [Clients.fifoStep] at hstep
  split at hstep
  · -- the queue is empty: the writer goes to sleep
    rename_i hcall hqueue
    obtain ⟨rfl, htake⟩ := call_pop hcall
    obtain rfl := Option.some.inj hstep
    change Inv log (f.goOn none .waiting)
    refine { h with
      putting := ?_, lines := ?_, freed := ?_, writer := .inl (goOn_self f _ _), wake := ?_ }
    · simpa using h.putting
    · simpa [htake, Client.inHand] using hlines
    · simpa [htake, Client.held] using hfreed
    · intro _ hne
      exact absurd hqueue hne
  -- the writer goes on with the first message
  · rename_i str rest hcall hqueue
    obtain ⟨rfl, htake⟩ := call_pop hcall
    obtain rfl := Option.some.inj hstep
    have hmem : str ∈ f.queue := by
      rw [hqueue]
      exact List.mem_cons_self
    obtain ⟨hstr, haccepts⟩ := h.queue str hmem
    have hfinish : (clients ι).finish none (f.client none) str = .writing str := if_neg hstr
    rw [hfinish]
    refine { h with
      putting := ?_, queue := ?_, lines := ?_, freed := ?_, writer := ?_, wake := ?_ }
    · simpa using h.putting
    · intro str' hmem'
      refine h.queue str' ?_
      rw [hqueue]
      exact List.mem_cons_of_mem _ hmem'
    · rw [htake] at hlines
      split_ifs at hlines ⊢
      · exact hlines
      · simp [hlines, Client.inHand, History.pop]
    · rw [htake] at hfreed
      simp [hfreed, Client.held, History.pop]
    · exact .inr (.inr ⟨⟨str, .inl (by simp)⟩, haccepts⟩)
    · simp
  · cases hstep

/-- Every step keeps the invariant. -/
theorem inv_step (h : Inv log f) (hstep : (clients ι).fifoStep f d = some f') : Inv log f' := by
  cases d with
  | outside t e => exact inv_outside h hstep
  | push t outcome => exact inv_push h hstep
  | pop t => exact inv_pop h hstep

/-- The invariant in every run. -/
theorem inv_run {ds : List (FifoEvent (Option ι) Event)}
    (h : Steps.run (clients ι).fifoStep (Fifo.start firstClient (Shared.start log)) ds = some f) :
    Inv log f :=
  Steps.run_invariant (P := Inv log) inv_step inv_start h

/-! ## The writer goes on -/

/-- The steps that the writer is away from an empty queue; a thread may have to post first. -/
def stepsLeft (f : Fifo (Option ι) Client Shared) : ℕ :=
  match f.client none with
  | .waiting => if f.queue = [] then 0 else 3 * f.queue.length + 2 + if f.shared.sem = 0 then 1 else 0
  | .taking => 3 * f.queue.length + 1
  | .writing _ => 3 * f.queue.length + 3
  | .freeing _ => 3 * f.queue.length + 2
  | _ => 0

omit [DecidableEq ι] in
/-- The steps that are left to a writer that waits. -/
theorem stepsLeft_waiting (h : f.client none = .waiting) : stepsLeft f =
    if f.queue = [] then 0 else 3 * f.queue.length + 2 + if f.shared.sem = 0 then 1 else 0 := by
  rw [stepsLeft, h]

omit [DecidableEq ι] in
/-- The steps that are left to a writer that is about to take. -/
theorem stepsLeft_taking (h : f.client none = .taking) : stepsLeft f = 3 * f.queue.length + 1 := by
  rw [stepsLeft, h]

omit [DecidableEq ι] in
/-- The steps that are left to a writer with a message to write. -/
theorem stepsLeft_writing (h : f.client none = .writing str) :
    stepsLeft f = 3 * f.queue.length + 3 := by
  rw [stepsLeft, h]

omit [DecidableEq ι] in
/-- The steps that are left to a writer with a message to free. -/
theorem stepsLeft_freeing (h : f.client none = .freeing str) :
    stepsLeft f = 3 * f.queue.length + 2 := by
  rw [stepsLeft, h]

/-- A step that is made outside of the queue. -/
theorem quietStep_outside {t : Option ι} {e : Event} {k : Client} {s : Shared}
    (h : (clients ι).outside t e (f.client t) f.shared = some (k, s)) :
    (clients ι).quietStep f (.outside t e) = some ((f.goOn t k).share s) := by
  rw [Clients.quietStep, Clients.fifoStep, h]
  · rfl
  · simp

/-- There is a step that brings the writer nearer to an empty queue. -/
theorem exists_quiet (h : Inv log f) (hleft : stepsLeft f ≠ 0) :
    ∃ d f', (clients ι).quietStep f d = some f' ∧ stepsLeft f' < stepsLeft f ∧
      f'.history = { f.history with popped := f'.history.popped } := by
  -- where the writer is decides which step brings it nearer
  rcases h.writer with hw | hw | ⟨⟨str, hw | hw⟩, -⟩
  · have hqueue : f.queue ≠ [] := fun hnil => hleft (by simp [stepsLeft_waiting hw, hnil])
    by_cases hsem : f.shared.sem = 0
    · -- the writer waits for a thread that has put its message and not posted
      obtain ⟨i, hi⟩ := (h.wake hw hqueue).resolve_left (by omega)
      have hpost : (clients ι).outside (some i) .post (f.client (some i)) f.shared =
          some (.idle, { f.shared with sem := semPost f.shared.sem }) := by
        rw [hi]
        rfl
      refine ⟨_, _, quietStep_outside hpost, ?_, rfl⟩
      rw [stepsLeft_waiting hw, stepsLeft_waiting (by simpa using hw)]
      have hpos := semPost_pos f.shared.sem
      simp [hqueue, hsem, (hsem ▸ hpos).ne']
    · have hwait : (clients ι).outside none (.wait false) (f.client none) f.shared =
          some (.taking, { f.shared with sem := f.shared.sem - 1 }) := by
        rw [hw]
        exact if_pos (Nat.pos_of_ne_zero hsem)
      refine ⟨_, _, quietStep_outside hwait, ?_, rfl⟩
      rw [stepsLeft_waiting hw, stepsLeft_taking (by simp), if_neg hqueue]
      simp only [share_queue, goOn_queue]
      omega
  · have hcall : (clients ι).call none (f.client none) = some .pop := by
      rw [hw]
      rfl
    cases hqueue : f.queue with
    | nil =>
      refine ⟨.pop none, _, fifoStep_pop_nil hcall hqueue, ?_, rfl⟩
      have hfinish : (clients ι).finish none (f.client none) [] = .waiting := rfl
      rw [hfinish, stepsLeft_taking hw, stepsLeft_waiting (goOn_self f _ _)]
      simp [hqueue]
    | cons str rest =>
      refine ⟨.pop none, _, fifoStep_pop_cons hcall hqueue, ?_, rfl⟩
      have hstr : str ≠ [] := (h.queue str (by simp [hqueue])).1
      have hfinish : (clients ι).finish none (f.client none) str = .writing str := if_neg hstr
      have hlast : ((f.goOn none (.writing str)).take str rest).client none = .writing str := by simp
      rw [hfinish, stepsLeft_taking hw, stepsLeft_writing hlast, hqueue, take_queue, List.length_cons]
      omega
  · obtain ⟨s', hwrite⟩ : ∃ s', (clients ι).outside none (.write ⟨0, 0, 0, 0, 0, 0, 0⟩ true)
        (f.client none) f.shared = some (.freeing str, s') := by
      rw [hw]
      exact ⟨_, rfl⟩
    refine ⟨_, _, quietStep_outside hwrite, ?_, rfl⟩
    rw [stepsLeft_writing hw, stepsLeft_freeing (show _ = Client.freeing str by simp)]
    exact Nat.lt_succ_self _
  · obtain ⟨s', hfree⟩ : ∃ s', (clients ι).outside none .free (f.client none) f.shared =
        some (.taking, s') := by
      rw [hw]
      exact ⟨_, rfl⟩
    refine ⟨_, _, quietStep_outside hfree, ?_, rfl⟩
    rw [stepsLeft_freeing hw, stepsLeft_taking (by simp)]
    exact Nat.lt_succ_self _

/-- Whatever has been put into the queue, the writer can take all of it. -/
theorem exists_drained (h : Inv log f) (hf : f.Ordered) :
    ∃ ds f', Steps.run (clients ι).quietStep f ds = some f' ∧ Inv log f' ∧
      f'.client none = .waiting ∧ f'.queue = [] ∧
      f'.history = { f.history with popped := f.history.pushed } := by
  have hstep : ∀ {f₁ : Fifo (Option ι) Client Shared},
      (Inv log f₁ ∧ f₁.Ordered ∧ f₁.history = { f.history with popped := f₁.history.popped }) →
      stepsLeft f₁ ≠ 0 → ∃ d f₂, (clients ι).quietStep f₁ d = some f₂ ∧
        (Inv log f₂ ∧ f₂.Ordered ∧ f₂.history = { f.history with popped := f₂.history.popped }) ∧
        stepsLeft f₂ < stepsLeft f₁ := by
    rintro f₁ ⟨hinv, hordered, hkept⟩ hleft
    obtain ⟨d, f₂, hstep, hless, hsame⟩ := exists_quiet hinv hleft
    have hfifo := fifoStep_of_quiet hstep
    refine ⟨d, f₂, hstep, ⟨inv_step hinv hfifo, ordered_step hordered hfifo, ?_⟩, hless⟩
    rw [hsame, hkept]
  obtain ⟨ds, f', hds, ⟨hinv, hordered, hkept⟩, hleft⟩ :=
    Steps.run_descends stepsLeft hstep ⟨h, hf, rfl⟩
  have hdone : f'.client none = .waiting ∧ f'.queue = [] := by
    rcases hinv.writer with hw | hw | ⟨⟨str, hw | hw⟩, -⟩
    · refine ⟨hw, ?_⟩
      by_contra hqueue
      simp [stepsLeft_waiting hw, hqueue] at hleft
    · simp [stepsLeft_taking hw] at hleft
    · simp [stepsLeft_writing hw] at hleft
    · simp [stepsLeft_freeing hw] at hleft
  refine ⟨ds, f', hds, hinv, hdone.1, hdone.2, ?_⟩
  have hall := hordered.pushed
  rw [hdone.2, List.append_nil] at hall
  rw [hkept] at hall ⊢
  rw [hall]

/-! ## Runs -/

section

variable [DecidableEq ω] {head : ω} {s : Mutex.State (Option ι) (Own Client ω) (Memory ω) Shared}
  {es : List (Mutex.Event (Option ι) Event (Mallocs ω))}

/-- The threads and the writer, from the empty queue on. -/
def LogRun (log : Log) (head : ω) (es : List (Mutex.Event (Option ι) Event (Mallocs ω)))
    (s : Mutex.State (Option ι) (Own Client ω) (Memory ω) Shared) : Prop :=
  Steps.run (Mutex.step ((clients ι).system head))
    (Queue.start head firstClient (Shared.start log)).start es = some s

/-- In every run of any threads with the writer, one access to the memory at a time, no access
fails.  Whenever the lock is free, the memory holds the messages that have been put into the queue
and not been taken out, and nothing else; each copy has been put into the queue, unless there was no
node for it; what has been taken out is freed, but for the copy that the writer holds, and is in the
files, in this order, unless the level of the log is too low for all messages; the writer does not
sleep while a message waits for it; and it can write and free all of them. -/
theorem log_runs (h : LogRun log head es s) :
    (∀ t stmt rest, s.lock = some (t, stmt :: rest) →
      ∃ s', Mutex.step ((clients ι).system head) s .exec = some s') ∧
    (s.lock = none → ∃ queue history, Stores head queue history s.mem ∧
      history.pushed = history.popped ++ queue ∧
      history.copied.Perm (history.pushed ++ history.lost) ∧
      history.popped = s.shared.freed ++ (s.own none).client.held ∧
      (if log.level < 1 then s.shared.lines = []
        else history.popped = s.shared.lines.map Line.buf ++ (s.own none).client.inHand) ∧
      ((s.own none).client = .waiting → queue ≠ [] →
        0 < s.shared.sem ∨ ∃ i, (s.own (some i)).client = .posting) ∧
      ∃ es' s', Steps.run (Mutex.step ((clients ι).system head)) s es' = some s' ∧ s'.lock = none ∧
        Stores head [] { history with popped := history.pushed } s'.mem ∧
        s'.shared.freed = history.pushed ∧
        (1 ≤ log.level → s'.shared.lines.map Line.buf = history.pushed)) := by
  refine ⟨fun t stmt rest hlock => run_exec h hlock, fun hfree => ?_⟩
  obtain ⟨ds, f, hds, hshows⟩ := run_shows h
  have hinv := inv_run hds
  have hordered := ordered_run hds
  have hclient : ∀ t, f.client t = (s.own t).client := fun t => hshows.client t (by rw [hfree]; simp)
  refine ⟨f.queue, f.history, hshows.stores hfree, hordered.pushed, hordered.copied, ?_, ?_, ?_, ?_⟩
  · rw [← hclient, ← hshows.shared]
    exact hinv.freed
  · rw [← hclient, ← hshows.shared]
    exact hinv.lines
  · intro hwait hqueue
    rw [← hclient] at hwait
    rw [← hshows.shared]
    refine (hinv.wake hwait hqueue).imp_right ?_
    rintro ⟨i, hi⟩
    exact ⟨i, by rwa [← hclient]⟩
  -- the queue is emptied there, and so can be the list in the memory
  · obtain ⟨ds', f', hds', hinv', hwait, hqueue, hhistory⟩ := exists_drained hinv hordered
    have hrepresents : Represents head ⟨s.own, s.mem, s.shared⟩ f :=
      ⟨hclient, hshows.shared, hshows.stores hfree⟩
    obtain ⟨ws, w, hws, hw⟩ := exists_run_whole hrepresents hds'
    obtain ⟨es', hes'⟩ := Mutex.run_of_whole hws
    -- the lock is free, so that this is the state itself
    have hs : (⟨s.own, s.mem, s.shared⟩ : Mutex.Whole _ _ _ _).start = s := by
      rw [Mutex.Whole.start, ← hfree]
    rw [hs] at hes'
    refine ⟨es', w.start, hes', rfl, ?_, ?_, fun hlevel => ?_⟩
    · have hstores := hw.stores
      rwa [hqueue, hhistory] at hstores
    · have hfreed := hinv'.freed
      rw [hhistory, hwait] at hfreed
      simp only [Client.held, List.append_nil] at hfreed
      rw [hfreed, Mutex.Whole.start, hw.shared]
    · have hlines := hinv'.lines
      rw [if_neg (by omega), hhistory, hwait] at hlines
      simp only [Client.inHand, List.append_nil] at hlines
      rw [hlines, Mutex.Whole.start, hw.shared]

end

/-- A call with the lock: that the thread takes it, and so many statements. -/
def callSteps (t : Option Bool) (mallocs : Mallocs ℕ) (statements : ℕ) :
    List (Mutex.Event (Option Bool) Event (Mallocs ℕ)) :=
  .lock t mallocs :: (List.replicate statements .exec ++ [.unlock])

/-- Two threads log messages, a third message gets no node, and the writer takes the first one. -/
def threeMessages : List (Mutex.Event (Option Bool) Event (Mallocs ℕ)) :=
  [.outside (some false) (.log 2 (some [104, 105]) [true]),
    .outside (some true) (.log 3 (some [104, 111]) [true])] ++
  callSteps (some true) ⟨true, some (1, ⟨⟨none, none⟩, []⟩)⟩ 9 ++
  [.outside (some true) .post, .outside none (.wait false)] ++
  callSteps (some false) ⟨true, some (2, ⟨⟨none, none⟩, []⟩)⟩ 9 ++
  [.outside (some true) (.log 2 (some [104]) [true])] ++
  callSteps (some true) ⟨true, none⟩ 9 ++
  callSteps none ⟨false, none⟩ 7 ++
  [.outside none (.write ⟨0, 1, 0, 0, 0, 0, 0⟩ true)]

/-- A log of the first of January. -/
def januaryLog : Log := ⟨1, some [46], some [116], ⟨70, 0, 1, 0, 0, 0, 4⟩, some [46]⟩

/-- The run with three messages: one is in the queue, one is written and not yet freed, and one is
lost. -/
theorem log_runs_three : ∃ s, LogRun januaryLog 0 threeMessages s ∧
    s.mem.vars = ⟨[[104, 111], [104, 105], [104]], [[104]], [[104, 111], [104, 105]], [[104, 111]]⟩ ∧
    ∃ queue history, Stores 0 queue history s.mem ∧ history.pushed = history.popped ++ queue ∧
      history.copied.Perm (history.pushed ++ history.lost) ∧
      history.popped = s.shared.freed ++ (s.own none).client.held ∧
      history.popped = s.shared.lines.map Line.buf ++ (s.own none).client.inHand := by
  have hrun : (Steps.run (Mutex.step ((clients Bool).system 0))
      (Queue.start 0 firstClient (Shared.start januaryLog)).start threeMessages).map
        (fun s => (s.lock.isNone, s.mem.vars)) = some (true, ⟨[[104, 111], [104, 105], [104]],
          [[104]], [[104, 111], [104, 105]], [[104, 111]]⟩) := by decide +kernel
  obtain ⟨s, hs, hend⟩ := Option.map_eq_some_iff.mp hrun
  obtain ⟨hlock, hvars⟩ := Prod.mk.inj hend
  obtain ⟨queue, history, hstores, horder, hcopied, hfreed, hlines, -⟩ :=
    (log_runs hs).2 (Option.isNone_iff_eq_none.mp hlock)
  exact ⟨s, hs, hvars, queue, history, hstores, horder, hcopied, hfreed, hlines⟩

end

end AdxDsp.LogQueue
