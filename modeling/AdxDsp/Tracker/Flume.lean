import AdxDsp.Lib.Bytes
import AdxDsp.Lib.Steps
import Mathlib.Data.List.DropRight

/-!
# Sending to flume

`adx_flume_send` (`adx_flume.c`) writes a buffer to a socket, in a loop if the kernel takes only a
part of it, and once more from the beginning on a new connection.

* **The calls of the system** (`Event`): results of `write` and of a reconnection, in any order
  that the program asks for them.
* **The stream** (`sent_iff`): what a call that returns 0 has written on the connection that it
  leaves open.
-/

namespace AdxDsp.Flume

open CText

/-- What comes of `adx_network_connect`, `adx_network_set_kernel_buffer` and
`adx_network_send_timeout`. -/
structure Reconnection where
  sockfd : ℤ
  kernelBuffer : ℤ
  sendTimeout : ℤ

/-- What the system answers. -/
inductive Event where
  /-- `write`: -1, or as many of the bytes as it takes. -/
  | write (taken : Option ℕ)
  | reconnect (r : Reconnection)

/-- Where the program is. -/
inductive Phase where
  /-- At the first `write` of a connection. -/
  | first
  /-- In the loop, with the value of `send_size`. -/
  | looping (sendSize : ℤ)
  | reconnecting
  | returned (code : ℤ)
  deriving DecidableEq

/-- The program, and the bytes that it has written on its connection. -/
structure State where
  phase : Phase
  stream : Bytes
  deriving DecidableEq

/-- The beginning of `adx_flume_send`. -/
def start : State := ⟨.first, []⟩

/-- The result of a `write` of so many bytes. -/
def writeSize (count : ℤ) : Option ℕ → ℤ
  | none => -1
  | some n => min n count

/-- The bytes of the buffer that such a `write` takes from some place on. -/
def piece (buf : Bytes) (place size : ℤ) : Bytes := (buf.drop place.toNat).take size.toNat

/-- Behind the loop: a `write` of 0 bytes ends the call. -/
def afterLoop (size : ℤ) : Phase := if size = 0 then .returned (-1) else .reconnecting

/-- `adx_flume_send`, from one answer to the next. -/
def step (buf : Bytes) (s : State) (e : Event) : Option State :=
  let len : ℤ := buf.length
  match s.phase, e with
  | .first, .write taken =>
    let size := writeSize len taken
    some ⟨if size = len then .returned 0 else if size > 0 then .looping size else afterLoop size,
      s.stream ++ piece buf 0 size⟩
  | .looping sendSize, .write taken =>
    let size := writeSize (len - sendSize) taken
    some ⟨if sendSize ≤ 0 then afterLoop size
        else if sendSize + size ≥ len then .returned 0 else .looping (sendSize + size),
      s.stream ++ piece buf sendSize size⟩
  | .reconnecting, .reconnect r =>
    if r.sockfd ≤ 0 ∨ r.kernelBuffer ≠ 0 ∨ r.sendTimeout ≠ 0 then some ⟨.returned (-1), s.stream⟩
    else some start
  | _, _ => none

/-! ## One connection -/

/-- The calls of `write`. -/
def Event.isWrite : Event → Bool
  | .write _ => true
  | .reconnect _ => false

/-- The calls of `write` that fail. -/
def Event.fails : Event → Bool
  | .write none => true
  | .write (some _) => false
  | .reconnect _ => false

/-- The answers since the last reconnection. -/
def lastWrites (events : List Event) : List Event := events.rtakeWhile Event.isWrite

/-- The number of writes that have failed in the loop, which are those behind the first one. -/
def failures (events : List Event) : ℕ := (lastWrites events).tail.countP Event.fails

@[simp] theorem lastWrites_nil : lastWrites [] = [] := rfl

/-- One more `write`. -/
theorem lastWrites_write (events : List Event) (taken : Option ℕ) :
    lastWrites (events ++ [.write taken]) = lastWrites events ++ [.write taken] := by
  rw [lastWrites, List.rtakeWhile_concat_pos _ _ _ rfl]
  rfl

/-- After a reconnection there are no writes yet. -/
theorem lastWrites_reconnect (events : List Event) (r : Reconnection) :
    lastWrites (events ++ [.reconnect r]) = [] :=
  List.rtakeWhile_concat_neg _ _ _ (by exact Bool.false_ne_true)

/-- Another write in the loop. -/
theorem failures_write {events : List Event} (hne : lastWrites events ≠ []) (taken : Option ℕ) :
    failures (events ++ [.write taken]) = failures events + if taken = none then 1 else 0 := by
  unfold failures
  rw [lastWrites_write, List.tail_append_of_ne_nil hne, List.countP_append]
  cases taken <;> rfl

section

variable {buf : Bytes}

/-- A `write` takes no more than is asked for. -/
theorem writeSize_le {count : ℤ} (h : 0 ≤ count) (taken : Option ℕ) :
    -1 ≤ writeSize count taken ∧ writeSize count taken ≤ count := by
  cases taken <;> simp only [writeSize] <;> omega

/-- A `write` fails or takes something. -/
theorem writeSize_eq {count : ℤ} (h : 0 ≤ count) (taken : Option ℕ) :
    taken = none ∧ writeSize count taken = -1 ∨ taken ≠ none ∧ 0 ≤ writeSize count taken := by
  cases taken <;> simp [writeSize]
  omega

/-- A piece inside the buffer has its size. -/
theorem length_piece {place size : ℤ} (hplace : 0 ≤ place) (h : place + size ≤ buf.length) :
    (piece buf place size).length = size.toNat := by
  rw [piece, List.length_take, List.length_drop]
  omega

/-- A piece joins the bytes before it. -/
theorem take_append_piece {place size : ℤ} (hplace : 0 ≤ place) (hsize : 0 ≤ size) :
    buf.take place.toNat ++ piece buf place size = buf.take (place + size).toNat := by
  rw [piece, Int.toNat_add hplace hsize, List.take_add]

/-- The bytes on the connection: each write of the loop that fails lowers `send_size` by one, so
that one byte is sent again. -/
structure Streamed (buf : Bytes) (events : List Event) (stream : Bytes) (sendSize : ℤ) : Prop where
  nonneg : 0 ≤ sendSize
  length : stream.length = sendSize + failures events
  exact : failures events = 0 → stream = buf.take sendSize.toNat
  ne_nil : lastWrites events ≠ []

/-- What is known in each phase. -/
def Inv (buf : Bytes) (events : List Event) (s : State) : Prop :=
  match s.phase with
  | .first => lastWrites events = [] ∧ s.stream = []
  | .looping sendSize => sendSize < buf.length ∧ Streamed buf events s.stream sendSize
  | .reconnecting => True
  | .returned code => code = 0 → Streamed buf events s.stream buf.length

/-- When the loop has ended the invariant holds. -/
theorem inv_afterLoop {events : List Event} {size : ℤ} {stream : Bytes} :
    Inv buf events ⟨afterLoop size, stream⟩ := by
  unfold afterLoop
  split_ifs
  · exact fun h => absurd h (by decide)
  · trivial

/-- The first write of a connection. -/
theorem streamed_first {events : List Event} (hnone : lastWrites events = []) {taken : Option ℕ}
    (hsize : 0 ≤ writeSize buf.length taken) :
    Streamed buf (events ++ [.write taken]) (piece buf 0 (writeSize buf.length taken))
      (writeSize buf.length taken) := by
  have hle := (writeSize_le (Int.natCast_nonneg buf.length) taken).2
  have hfail : failures (events ++ [.write taken]) = 0 := by
    rw [failures, lastWrites_write, hnone]
    rfl
  refine ⟨hsize, ?_, fun _ => ?_, by rw [lastWrites_write]; simp⟩
  · rw [hfail, length_piece le_rfl (by omega)]
    omega
  · simp [piece]

/-- A write of the loop. -/
theorem Streamed.write {events : List Event} {stream : Bytes} {sendSize : ℤ}
    (h : Streamed buf events stream sendSize) (hpos : 0 < sendSize) (hlt : sendSize < buf.length)
    (taken : Option ℕ) :
    Streamed buf (events ++ [.write taken])
      (stream ++ piece buf sendSize (writeSize (buf.length - sendSize) taken))
      (sendSize + writeSize (buf.length - sendSize) taken) := by
  obtain ⟨hlow, hhigh⟩ := writeSize_le (show 0 ≤ (buf.length : ℤ) - sendSize by omega) taken
  have hpiece := length_piece h.nonneg
    (show sendSize + writeSize (buf.length - sendSize) taken ≤ buf.length by omega)
  refine ⟨by omega, ?_, fun hfail => ?_, by rw [lastWrites_write]; simp⟩
  · rw [failures_write h.ne_nil, List.length_append, hpiece, Nat.cast_add, h.length]
    rcases writeSize_eq (show 0 ≤ (buf.length : ℤ) - sendSize by omega) taken with
      ⟨hnone, hsize⟩ | ⟨hsome, hsize⟩
    · rw [if_pos hnone, hsize]
      omega
    · rw [if_neg hsome]
      omega
  · rw [failures_write h.ne_nil, Nat.add_eq_zero_iff] at hfail
    have hsome : taken ≠ none := by
      rintro rfl
      exact absurd hfail.2 (by decide)
    rcases writeSize_eq (show 0 ≤ (buf.length : ℤ) - sendSize by omega) taken with
      ⟨hnone, -⟩ | ⟨-, hsize⟩
    · exact absurd hnone hsome
    · rw [h.exact hfail.1, take_append_piece h.nonneg hsize]

/-- Each step keeps the invariant. -/
theorem inv_step {events : List Event} {s s' : State} {e : Event} (h : Inv buf events s)
    (hstep : step buf s e = some s') : Inv buf (events ++ [e]) s' := by
  obtain ⟨phase, stream⟩ := s
  cases phase with
  | first =>
    cases e with
    | reconnect r => cases hstep
    | write taken =>
      obtain ⟨hnone, rfl⟩ := h
      obtain rfl := Option.some_inj.mp hstep
      have hle := (writeSize_le (Int.natCast_nonneg buf.length) taken).2
      rw [List.nil_append]
      -- all is sent by the first write, or a part of it, or nothing
      split_ifs with hall hpos
      · intro _
        have hfirst := streamed_first hnone (show 0 ≤ writeSize buf.length taken by omega)
        rwa [hall] at hfirst ⊢
      · exact ⟨by omega, streamed_first hnone hpos.le⟩
      · exact inv_afterLoop
  | looping sendSize =>
    cases e with
    | reconnect r => cases hstep
    | write taken =>
      obtain ⟨hlt, hstream⟩ := h
      obtain rfl := Option.some_inj.mp hstep
      dsimp only
      -- the loop has ended, or all is counted as sent, or it goes on
      split_ifs with hzero hall
      · exact inv_afterLoop
      · intro _
        have hwrite := hstream.write (by omega) hlt taken
        have hle := (writeSize_le (show 0 ≤ (buf.length : ℤ) - sendSize by omega) taken).2
        rwa [show sendSize + writeSize (buf.length - sendSize) taken = buf.length by omega]
          at hwrite
      · exact ⟨by omega, hstream.write (by omega) hlt taken⟩
  | reconnecting =>
    cases e with
    | write taken => cases hstep
    | reconnect r =>
      unfold step at hstep
      dsimp only at hstep
      -- there is no new connection, or all begins again
      split_ifs at hstep
      · obtain rfl := Option.some_inj.mp hstep
        exact fun h => absurd h (by decide)
      · obtain rfl := Option.some_inj.mp hstep
        exact ⟨lastWrites_reconnect events r, rfl⟩
  | returned code => cases hstep

/-- At the start nothing was written. -/
theorem inv_start : Inv buf [] start := ⟨rfl, rfl⟩

/-- The invariant holds after every run. -/
theorem inv_run {events : List Event} {s : State}
    (h : Steps.run (step buf) start events = some s) : Inv buf events s :=
  Steps.run_induction (P := Inv buf) inv_start (fun hs hstep => inv_step hs hstep) h

/-- A call that returns 0 has written the buffer, once and in order, if and only if no write of the
loop has failed. -/
theorem sent_iff {events : List Event} {s : State}
    (h : Steps.run (step buf) start events = some s) (hret : s.phase = .returned 0) :
    s.stream = buf ↔ failures events = 0 := by
  have hinv := inv_run h
  unfold Inv at hinv
  rw [hret] at hinv
  have hstream := hinv rfl
  constructor
  · intro heq
    have hlen := hstream.length
    rw [heq] at hlen
    omega
  · intro hfail
    have hexact := hstream.exact hfail
    rwa [Int.toNat_natCast, List.take_length] at hexact

/-! ## The loop -/

/-- No write can be made behind the loop. -/
theorem run_afterLoop {size : ℤ} {stream : Bytes} {writes : List (Option ℕ)} {t : State}
    (h : Steps.run (step buf) ⟨afterLoop size, stream⟩ (writes.map .write) = some t) :
    t.phase = afterLoop size := by
  cases writes with
  | nil =>
    cases h
    rfl
  | cons taken writes =>
    have hnone : step buf ⟨afterLoop size, stream⟩ (.write taken) = none := by
      unfold afterLoop
      split_ifs <;> rfl
    rw [List.map_cons, Steps.run_cons, hnone] at h
    cases h

/-- After the loop it does not go on. -/
theorem afterLoop_ne_looping (size n : ℤ) : afterLoop size ≠ .looping n := by
  unfold afterLoop
  split_ifs <;> exact nofun

/-- Every write that progresses brings the loop nearer to its end. -/
theorem loop_progress {writes : List (Option ℕ)}
    (hpos : ∀ taken ∈ writes, ∃ n, taken = some (n + 1)) {sendSize : ℤ} {stream : Bytes} {t : State}
    (hlt : sendSize < buf.length)
    (h : Steps.run (step buf) ⟨.looping sendSize, stream⟩ (writes.map .write) = some t) {m : ℤ}
    (ht : t.phase = .looping m) : sendSize + writes.length ≤ m ∧ m < buf.length := by
  -- by induction over the writes, each of which takes a byte at least
  induction writes generalizing sendSize stream with
  | nil =>
    cases h
    obtain rfl := Phase.looping.inj ht
    exact ⟨by simp, hlt⟩
  | cons taken writes ih =>
    obtain ⟨n, rfl⟩ := hpos taken List.mem_cons_self
    have hwrites : ∀ taken ∈ writes, ∃ n, taken = some (n + 1) :=
      fun taken hmem => hpos taken (List.mem_cons_of_mem _ hmem)
    rw [List.map_cons, Steps.run_cons] at h
    unfold step at h
    dsimp only at h
    rw [Option.bind_some] at h
    have hsize : 1 ≤ writeSize (buf.length - sendSize) (some (n + 1)) := by
      simp only [writeSize]
      omega
    split_ifs at h with hzero hall
    · exact absurd (run_afterLoop h ▸ ht) (afterLoop_ne_looping _ m)
    -- if all is sent, no further write follows
    · cases writes with
      | nil =>
        cases h
        cases ht
      | cons taken writes => cases h
    · obtain ⟨hle, hm⟩ := ih hwrites (by omega) h
      rw [List.length_cons]
      exact ⟨by push_cast; omega, hm⟩

/-- Of the writes of a loop that all progress there are fewer than the buffer has bytes. -/
theorem loop_ends {events : List Event} {s t : State}
    (h : Steps.run (step buf) start events = some s) {sendSize m : ℤ}
    (hs : s.phase = .looping sendSize) {writes : List (Option ℕ)}
    (hpos : ∀ taken ∈ writes, ∃ n, taken = some (n + 1))
    (hrun : Steps.run (step buf) s (writes.map .write) = some t) (ht : t.phase = .looping m) :
    writes.length < buf.length := by
  have hinv := inv_run h
  obtain ⟨phase, stream⟩ := s
  obtain rfl : phase = .looping sendSize := hs
  obtain ⟨hlt, hstream⟩ := hinv
  obtain ⟨hle, hm⟩ := loop_progress hpos hlt hrun ht
  have := hstream.nonneg
  omega

end

/-- Whenever a call returns 0, it has written the buffer exactly if no write of the loop on its last
connection has failed; and the loop ends when its writes progress. -/
theorem adxFlumeSend_iff {buf : Bytes} {events : List Event} {s : State}
    (h : Steps.run (step buf) start events = some s) :
    (s.phase = .returned 0 → (s.stream = buf ↔ failures events = 0)) ∧
      ∀ sendSize, s.phase = .looping sendSize → ∀ (writes : List (Option ℕ)) (t : State) (m : ℤ),
        (∀ taken ∈ writes, ∃ n, taken = some (n + 1)) →
        Steps.run (step buf) s (writes.map .write) = some t → t.phase = .looping m →
        writes.length < buf.length :=
  ⟨sent_iff h, fun _ hs _ _ _ hpos hrun ht => loop_ends h hs hpos hrun ht⟩

/-- The first write fails, and on a new connection the bytes are taken one by one. -/
theorem adxFlumeSend_sample : ([1, 2, 3] : Bytes) = [1, 2, 3] ↔
    failures [.write none, .reconnect ⟨4, 0, 0⟩, .write (some 1), .write (some 1),
      .write (some 1)] = 0 :=
  (@adxFlumeSend_iff [1, 2, 3] _ ⟨.returned 0, [1, 2, 3]⟩ rfl).1 rfl

/-- A write of the loop fails, and the byte before it is sent once more. -/
theorem not_sent_once : ∃ s, Steps.run (step [1, 2, 3]) start
    [.write (some 2), .write none, .write (some 2)] = some s ∧
      s.phase = .returned 0 ∧ s.stream = [1, 2, 2, 3] :=
  ⟨_, rfl, rfl, rfl⟩

/-- Writes that progress and fail in turn keep the loop going. -/
theorem loop_endless (k : ℕ) : ∃ stream, Steps.run (step [1, 2, 3]) start
    (.write (some 2) :: (List.replicate k [.write none, .write (some 1)]).flatten) =
      some ⟨.looping 2, stream⟩ := by
  have hturns : ∀ stream, ∃ stream', Steps.run (step [1, 2, 3]) ⟨.looping 2, stream⟩
      (List.replicate k [.write none, .write (some 1)]).flatten =
        some ⟨.looping 2, stream'⟩ := by
    induction k with
    | zero => exact fun stream => ⟨stream, rfl⟩
    | succ k ih =>
      intro stream
      -- `send_size` is 1 behind the first write and 2 behind the second one
      obtain ⟨stream', h⟩ := ih (stream ++ [] ++ [2])
      exact ⟨stream', h⟩
  exact hturns [1, 2]

end AdxDsp.Flume
