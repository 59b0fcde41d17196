import AdxDsp.Lib.Bytes
import AdxDsp.Lib.Steps
import AdxDsp.Lib.TaggedBuffer

/-!
# The receive buffers

A worker reads every request into the same buffer: `BidWork` into `_recv_data`, which grows to the
announced length, and the server `adx_dsp` into `body_buffer`, which has a fixed size.  What a
request leaves there is seen by the next one.

* **Reading a request** (`BidWork.getReqData`, `AdxDsp.adxRequestInit`).
* **Whose bytes they are** (`own_bytes_iff`): after a success, the parser and the log are given
  bytes of the request only, and nothing is written outside, exactly when all the announced bytes
  came and there was room for the terminator before.
-/

namespace AdxDsp

open CText

/-- Who writes a byte: a request, or the program while it reads the request. -/
inductive Writer where
  | request (n : ℕ)
  | program (n : ℕ)
  deriving DecidableEq

/-- The number of the request. -/
def Writer.number : Writer → ℕ
  | .request n => n
  | .program n => n

/-- What the web server hands over with a request, and whether the memory it asks for can be
had. -/
structure HttpRequest where
  contentLength : Option Bytes
  queryString : Option Bytes
  /-- The bytes that `FCGX_GetStr` can deliver. -/
  body : Bytes
  allocates : Bool

/-- `FCGX_GetStr(str, n, stream)`: the bytes it copies; their number is its result. -/
def fcgxGetStr (n : ℤ) (r : HttpRequest) : Bytes := r.body.take n.toNat

/-- The error for a wrong length. -/
def eRequestHttpContentLen : ℤ := 0xE0010004
/-- The error for a body that cannot be read. -/
def eRequestHttpBody : ℤ := 0xE0010005

/-- `RecvData`: the memory, which is `NULL` after a failed `realloc` and whose size is
`buffer_length`, and `length`. -/
structure RecvData where
  data : Option (TaggedBuffer Writer)
  length : ℕ

/-- `RecvData(10240)`. -/
def RecvData.init : RecvData := ⟨some (.fresh 10240), 0⟩

/-- `EnsureLength`, with its argument of 32 bits. -/
def ensureLength (b : TaggedBuffer Writer) (destLen : ℕ) (allocates : Bool) :
    Option (TaggedBuffer Writer) :=
  if destLen % 2 ^ 32 > b.size then
    if allocates then some (b.grow (destLen % 2 ^ 32)) else none
  else some b

/-- `BidWork::GetReqData` for the request with the number `n`: the returned code and the buffer, or
`none` where a null pointer is used. -/
def getReqData (isPost : Bool) (n : ℕ) (s : RecvData) (r : HttpRequest) : Option (ℤ × RecvData) :=
  s.data.bind fun b =>
    let b := b.begin.write 0 (.program n) 0
    if isPost then
      r.contentLength.bind fun text =>
        let len := (atoi text % 2 ^ 64).toNat
        if len = 0 then some (eRequestHttpContentLen, ⟨some b, s.length⟩)
        else
          let data := ensureLength b len r.allocates
          let length := len % 2 ^ 32
          let got := fcgxGetStr (atoi text) r
          if got = [] then some (eRequestHttpBody, ⟨data, length⟩)
          else
            data.map fun b =>
              (0, ⟨some ((b.writeAll 0 (.request n) got).write len (.program n) 0), length⟩)
    else
      match r.queryString with
      | none => some (eRequestHttpBody, ⟨some b, s.length⟩)
      | some requestparam =>
        let text := cstr requestparam
        if text = [] then some (eRequestHttpBody, ⟨some b, s.length⟩)
        else
          -- `strcpy`; the length stays what it was
          (ensureLength b text.length r.allocates).map fun b =>
            (0, ⟨some ((b.writeAll 0 (.request n) text).write text.length (.program n) 0),
              s.length⟩)

/-- A worker goes on with the next request unless it has crashed. -/
def recvStep (isPost : Bool) (s : ℕ × RecvData) (r : HttpRequest) : Option (ℕ × RecvData) :=
  (getReqData isPost s.1 s.2 r).map fun out => (s.1 + 1, out.2)

/-- The fields of `adx_request_t` that hold the message. -/
structure DspRequest where
  bodyBuffer : TaggedBuffer Writer
  contentLength : ℤ

/-- `ADX_POST_SIZE`. -/
def adxPostSize : ℕ := 1048576

/-- The buffer before the first request. -/
def DspRequest.init : DspRequest := ⟨.fresh adxPostSize, 0⟩

/-- `adx_request_init`, as far as the message goes. -/
def adxRequestInit (n : ℕ) (s : DspRequest) (r : HttpRequest) : Option (ℤ × DspRequest) :=
  let b := s.bodyBuffer.begin.write 0 (.program n) 0
  r.contentLength.map fun text =>
    let contentLength := atoi text
    if contentLength ≤ 0 ∨ contentLength ≥ adxPostSize - 1 then (-1, ⟨b, contentLength⟩)
    else
      let b := b.writeAll 0 (.request n) (fcgxGetStr contentLength r)
      (0, ⟨b.write contentLength.toNat (.program n) 0, contentLength⟩)

/-- The server goes on with the next request. -/
def dspStep (s : ℕ × DspRequest) (r : HttpRequest) : Option (ℕ × DspRequest) :=
  (adxRequestInit s.1 s.2 r).map fun out => (s.1 + 1, out.2)

/-! ## What is handed on -/

/-- The text up to the first terminator, which the parsers of JSON get, and the pair of data and
length, which the other parsers and the log get, are bytes of the request `n`; every index written
for it is below the size of the buffer. -/
structure OwnBytes (n : ℕ) (b : TaggedBuffer Writer) (length : ℕ) : Prop where
  text : ∃ k, (∃ w, b.cell k = some (w, 0)) ∧ ∀ i < k, b.Holds i (.request n)
  pair : ∀ i < length, b.Holds i (.request n)
  inBounds : ∀ i ∈ b.written, i < b.size

/-- All the announced bytes come, and they fit with their terminator into the buffer as it is
before the request. -/
def Fits (isPost : Bool) (b : TaggedBuffer Writer) (r : HttpRequest) : Prop :=
  if isPost then
    ∀ text, r.contentLength = some text →
      (atoi text).toNat ≤ r.body.length ∧ (atoi text).toNat < b.size
  else ∀ text, r.queryString = some text → (cstr text).length < b.size

section Lemmas

variable {isPost : Bool} {n : ℕ} {b c : TaggedBuffer Writer} {len : ℕ} {got : Bytes}

/-- The buffer is at least as large as asked for, in 32 bits, and nothing is written. -/
theorem ensureLength_spec {allocates : Bool} (h : ensureLength b len allocates = some c) :
    c.size = max b.size (len % 2 ^ 32) ∧ c.written = b.written ∧
      ∀ P, b.AllMarks P → c.AllMarks P := by
  rw [ensureLength] at h
  split_ifs at h with hgrow
  · cases h
    exact ⟨by rw [TaggedBuffer.grow_size]; omega, rfl, fun P hP => hP.grow⟩
  · cases h
    exact ⟨by omega, rfl, fun P hP => hP⟩

/-- The buffer after the bytes have been copied to its start and the terminator put behind. -/
def received (n : ℕ) (c : TaggedBuffer Writer) (got : Bytes) (len : ℕ) : TaggedBuffer Writer :=
  (c.writeAll 0 (.request n) got).write len (.program n) 0

/-- The bytes of the body and the zero behind them are written. -/
theorem received_written : (received n c got len).written =
    c.written ++ List.range' 0 got.length ++ [len] := by
  rw [received, TaggedBuffer.write_written, TaggedBuffer.writeAll_written]

/-- Receiving does not resize the buffer. -/
theorem received_size : (received n c got len).size = c.size := by
  rw [received, TaggedBuffer.write_size, TaggedBuffer.writeAll_size]

/-- A cell behind the copied bytes is not the request's. -/
theorem received_not_holds (hmarks : c.AllMarks fun w => w ≠ .request n) {i : ℕ}
    (hi : got.length ≤ i) : ¬ (received n c got len).Holds i (.request n) := by
  rintro ⟨v, hv⟩
  have hbehind : (c.writeAll 0 (.request n) got).cell i = c.cell i :=
    TaggedBuffer.writeAll_cell_of_le (by omega)
  have hold : ¬ ∃ v, (c.writeAll 0 (.request n) got).cell i = some (.request n, v) := by
    rintro ⟨v, hv⟩
    rw [hbehind] at hv
    exact hmarks i _ v hv rfl
  rw [received] at hv
  by_cases hlen : i = len
  · subst hlen
    by_cases hs : i < (c.writeAll 0 (.request n) got).size
    · rw [TaggedBuffer.write_cell_self hs] at hv
      cases hv
    · simp only [TaggedBuffer.write, if_neg hs] at hv
      exact hold ⟨v, hv⟩
  · rw [TaggedBuffer.write_cell_of_ne hlen] at hv
    exact hold ⟨v, hv⟩

/-- The received bytes are those of the request. -/
theorem received_holds {i : ℕ} (hi : i < got.length) (hlen : i ≠ len) (hs : i < c.size) :
    (received n c got len).Holds i (.request n) := by
  have hcopied : (c.writeAll 0 (.request n) got).Holds i (.request n) :=
    TaggedBuffer.writeAll_cell_of_lt (Nat.zero_le i) (by omega) hs
  obtain ⟨v, hv⟩ := hcopied
  refine ⟨v, ?_⟩
  rw [received, TaggedBuffer.write_cell_of_ne hlen]
  exact hv

/-- After a success, all depends on whether the length that is handed on is covered by the copied
bytes, and the terminator by the buffer. -/
theorem ownBytes_received_iff {length : ℕ} (hmarks : c.AllMarks fun w => w ≠ .request n)
    (hwritten : ∀ i ∈ c.written, i < c.size)
    (hall : length ≤ got.length → got.length = len) :
    OwnBytes n (received n c got len) length ↔ length ≤ got.length ∧ len < c.size := by
  constructor
  · intro h
    constructor
    · -- the first byte behind the copied ones is of an earlier request, or of none
      by_contra hshort
      exact received_not_holds hmarks le_rfl (h.pair got.length (by omega))
    · have := h.inBounds len (by rw [received_written]; simp)
      rwa [received_size] at this
  · rintro ⟨hlength, hlen⟩
    have hgot := hall hlength
    refine ⟨⟨len, ⟨.program n, ?_⟩, fun i hi => ?_⟩, fun i hi => ?_, fun i hi => ?_⟩
    · rw [received]
      apply TaggedBuffer.write_cell_self
      rwa [TaggedBuffer.writeAll_size]
    · exact received_holds (by omega) (by omega) (by omega)
    · exact received_holds (by omega) (by omega) (by omega)
    · rw [received_size]
      rw [received_written, List.append_assoc, List.mem_append] at hi
      rcases hi with hi | hi
      · exact hwritten i hi
      · rw [List.mem_append, List.mem_range'_1, List.mem_singleton] at hi
        omega

/-- The buffer with the terminator that is put at its start before a request is read. -/
theorem begin_written_lt (h : 0 < b.size) :
    ∀ i ∈ (b.begin.write 0 (.program n) 0).written, i < b.size := by
  intro i hi
  rw [TaggedBuffer.write_written, TaggedBuffer.begin_written, List.nil_append,
    List.mem_singleton] at hi
  omega

/-- Emptying the buffer keeps the marks of its writers. -/
theorem begin_marks {P : Writer → Prop} (h : b.AllMarks P) (hP : P (.program n)) :
    (b.begin.write 0 (.program n) 0).AllMarks P :=
  TaggedBuffer.AllMarks.write h hP

end Lemmas

/-! ## What a worker keeps from one request to the next -/

/-- The buffer only holds bytes of earlier requests, it is not empty, and a worker that reads query
strings has never set the length. -/
structure RecvGood (isPost : Bool) (s : ℕ × RecvData) : Prop where
  size : ∀ b, s.2.data = some b → 0 < b.size
  marks : ∀ b, s.2.data = some b → b.AllMarks fun w => w.number < s.1
  length : isPost = false → s.2.length = 0

/-- The buffer as it is read into. -/
def begun (n : ℕ) (b : TaggedBuffer Writer) : TaggedBuffer Writer :=
  b.begin.write 0 (.program n) 0

/-- The copied bytes, the index of the terminator and the length that is kept, of a request that is
read with success. -/
def Announced (isPost : Bool) (s : RecvData) (r : HttpRequest) (got : Bytes) (len length : ℕ) :
    Prop :=
  if isPost then
    ∃ text, r.contentLength = some text ∧ len = (atoi text).toNat ∧ length = len ∧
      got = r.body.take len ∧ got ≠ []
  else ∃ text, r.queryString = some text ∧ got = cstr text ∧ len = got.length ∧ length = s.length

/-- A request is refused with the buffer perhaps grown, or it is read. -/
theorem getReqData_cases {isPost : Bool} {n : ℕ} {s s' : RecvData} {r : HttpRequest} {code : ℤ}
    (h : getReqData isPost n s r = some (code, s')) : ∃ b, s.data = some b ∧
      ((code ≠ 0 ∧ (∃ len, s'.data = ensureLength (begun n b) len r.allocates) ∧
          (isPost = false → s'.length = s.length)) ∨
        (code = 0 ∧ ∃ c got len length, ensureLength (begun n b) len r.allocates = some c ∧
          s' = ⟨some (received n c got len), length⟩ ∧ Announced isPost s r got len length)) := by
  rw [getReqData, Option.bind_eq_some_iff] at h
  obtain ⟨b, hb, h⟩ := h
  have hsame : ensureLength (begun n b) 0 r.allocates = some (begun n b) :=
    if_neg (Nat.not_lt_zero _)
  refine ⟨b, hb, ?_⟩
  cases isPost with
  | true =>
    rw [if_pos rfl, Option.bind_eq_some_iff] at h
    obtain ⟨text, htext, h⟩ := h
    simp only at h
    split_ifs at h with hlen hgot
    · cases h
      exact .inl ⟨by decide, ⟨0, hsame.symm⟩, fun h0 => by cases h0⟩
    · cases h
      exact .inl ⟨by decide, ⟨_, rfl⟩, fun h0 => by cases h0⟩
    · obtain ⟨c, hc, h⟩ := Option.map_eq_some_iff.mp h
      cases h
      -- bytes are only delivered for a positive length, which all the types can hold
      have hpos : 0 < (atoi text).toNat := by
        by_contra h0
        rw [fcgxGetStr, Nat.le_zero.mp (not_lt.mp h0)] at hgot
        exact hgot List.take_zero
      have hbounds := atoi_bounds text
      have hlen64 : (atoi text % 2 ^ 64).toNat = (atoi text).toNat := by omega
      rw [hlen64] at hc ⊢
      exact .inr ⟨rfl, c, _, _, _, hc, rfl, text, htext, rfl, by omega, rfl, hgot⟩
  | false =>
    rw [if_neg (by decide)] at h
    cases hq : r.queryString with
    | none =>
      rw [hq] at h
      cases h
      exact .inl ⟨by decide, ⟨0, hsame.symm⟩, fun _ => rfl⟩
    | some q =>
      rw [hq] at h
      simp only at h
      split_ifs at h with htext
      · cases h
        exact .inl ⟨by decide, ⟨0, hsame.symm⟩, fun _ => rfl⟩
      · obtain ⟨c, hc, h⟩ := Option.map_eq_some_iff.mp h
        cases h
        exact .inr ⟨rfl, c, _, _, _, hc, rfl, q, hq, rfl, rfl, rfl⟩

/-- A request keeps the buffer good. -/
theorem getReqData_good {isPost : Bool} {n : ℕ} {s s' : RecvData} {r : HttpRequest} {code : ℤ}
    (hs : RecvGood isPost (n, s)) (h : getReqData isPost n s r = some (code, s')) :
    RecvGood isPost (n + 1, s') := by
  obtain ⟨b, hb, hcases⟩ := getReqData_cases h
  have hsize : 0 < b.size := hs.size b hb
  have hmarks : (begun n b).AllMarks fun w => w.number < n + 1 :=
    begin_marks ((hs.marks b hb).mono fun w hw => Nat.lt_succ_of_lt hw) (Nat.lt_succ_self n)
  have hensure : ∀ {len : ℕ} {c : TaggedBuffer Writer},
      ensureLength (begun n b) len r.allocates = some c →
      0 < c.size ∧ c.AllMarks fun w => w.number < n + 1 := by
    intro len c hc
    obtain ⟨hcs, -, hcm⟩ := ensureLength_spec hc
    have : (begun n b).size = b.size := rfl
    exact ⟨by omega, hcm _ hmarks⟩
  -- a refused request leaves the buffer, perhaps grown; one that is read leaves its bytes in it
  rcases hcases with ⟨-, ⟨len, hdata⟩, hlength⟩ | ⟨-, c, got, len, length, hc, rfl, hann⟩
  · refine ⟨fun c hc => (hensure (hdata ▸ hc)).1, fun c hc => (hensure (hdata ▸ hc)).2, ?_⟩
    exact fun h0 => (hlength h0).trans (hs.length h0)
  · obtain ⟨hcsize, hcmarks⟩ := hensure hc
    refine ⟨fun d hd => ?_, fun d hd => ?_, fun h0 => ?_⟩
    · cases hd
      rwa [received_size]
    · cases hd
      have hreq : (Writer.request n).number < n + 1 := Nat.lt_succ_self n
      have hprog : (Writer.program n).number < n + 1 := Nat.lt_succ_self n
      exact (hcmarks.writeAll hreq).write hprog
    · subst h0
      obtain ⟨text, -, -, -, hlength⟩ := hann
      exact hlength.trans (hs.length rfl)

/-- After every history of requests the worker keeps its invariant. -/
theorem recvGood_run {isPost : Bool} {history : List HttpRequest} {s : ℕ × RecvData}
    (h : Steps.run (recvStep isPost) (0, RecvData.init) history = some s) : RecvGood isPost s := by
  refine Steps.run_invariant (P := RecvGood isPost) ?_ ?_ h
  · rintro ⟨n, s⟩ r s' hs hstep
    obtain ⟨⟨code, t⟩, ht, rfl⟩ := Option.map_eq_some_iff.mp hstep
    exact getReqData_good hs ht
  · refine ⟨fun b hb => ?_, fun b hb => ?_, fun _ => rfl⟩
    · cases hb
      decide
    · cases hb
      intro i w v hc
      cases hc

/-- A request that is read with success, after any history: what is handed on is its own exactly
if all its bytes came and fitted. -/
theorem getReqData_own_iff {isPost : Bool} {n : ℕ} {s s' : RecvData} {b : TaggedBuffer Writer}
    {r : HttpRequest} (hs : RecvGood isPost (n, s)) (hb : s.data = some b)
    (h : getReqData isPost n s r = some (0, s')) :
    (∃ c, s'.data = some c ∧ OwnBytes n c s'.length) ↔ Fits isPost b r := by
  obtain ⟨b', hb', hcases⟩ := getReqData_cases h
  obtain rfl : b = b' := by
    rw [hb] at hb'
    exact Option.some.inj hb'
  rcases hcases with ⟨h0, -⟩ | ⟨-, c, got, len, length, hc, rfl, hann⟩
  · exact absurd rfl h0
  · obtain ⟨hcsize, hcwritten, hcmarks⟩ := ensureLength_spec hc
    have hbsize : (begun n b).size = b.size := rfl
    -- before it is read into, the buffer holds nothing of this request
    have hmarks : c.AllMarks fun w => w ≠ .request n := by
      refine hcmarks _ (begin_marks ((hs.marks b hb).mono ?_) (by simp))
      rintro w hw rfl
      exact absurd hw (lt_irrefl n)
    have hwritten : ∀ i ∈ c.written, i < c.size := by
      intro i hi
      rw [hcwritten] at hi
      have := begin_written_lt (n := n) (hs.size b hb) i hi
      omega
    have hown : ∀ {P : Prop}, (OwnBytes n (received n c got len) length ↔ P) →
        ((∃ d, some (received n c got len) = some d ∧ OwnBytes n d length) ↔ P) := by
      intro P hP
      rw [← hP]
      constructor
      · rintro ⟨d, hd, h⟩
        cases hd
        exact h
      · exact fun h => ⟨_, rfl, h⟩
    apply hown
    cases isPost with
    | true =>
      obtain ⟨text, htext, rfl, rfl, rfl, hne⟩ := hann
      have hbounds := atoi_bounds text
      rw [ownBytes_received_iff hmarks hwritten (by rw [List.length_take]; omega), Fits,
        if_pos rfl, List.length_take]
      constructor
      · rintro ⟨h1, h2⟩ text' htext'
        rw [htext] at htext'
        cases htext'
        omega
      · intro hfits
        have := hfits text htext
        omega
    | false =>
      obtain ⟨text, htext, rfl, rfl, rfl⟩ := hann
      have hlength : s.length = 0 := hs.length rfl
      rw [ownBytes_received_iff hmarks hwritten (fun _ => rfl), Fits, if_neg (by decide)]
      constructor
      · rintro ⟨-, h2⟩ text' htext'
        rw [htext] at htext'
        cases htext'
        omega
      · intro hfits
        have := hfits text htext
        omega

/-! ## The server `adx_dsp` -/

/-- The buffer of the server keeps its size and only holds bytes of earlier requests. -/
structure DspGood (s : ℕ × DspRequest) : Prop where
  size : s.2.bodyBuffer.size = adxPostSize
  marks : s.2.bodyBuffer.AllMarks fun w => w.number < s.1

/-- A request keeps the buffer good. -/
theorem adxRequestInit_good {n : ℕ} {s s' : DspRequest} {r : HttpRequest} {code : ℤ}
    (hs : DspGood (n, s)) (h : adxRequestInit n s r = some (code, s')) : DspGood (n + 1, s') := by
  have hreq : (Writer.request n).number < n + 1 := Nat.lt_succ_self n
  have hprog : (Writer.program n).number < n + 1 := Nat.lt_succ_self n
  have hmarks : (begun n s.bodyBuffer).AllMarks fun w => w.number < n + 1 :=
    begin_marks (hs.marks.mono fun w hw => Nat.lt_succ_of_lt hw) hprog
  obtain ⟨text, -, h⟩ := Option.map_eq_some_iff.mp h
  simp only at h
  split_ifs at h with hlen
  · cases h
    exact ⟨hs.size, hmarks⟩
  · cases h
    refine ⟨?_, (hmarks.writeAll hreq).write hprog⟩
    show ((begun n s.bodyBuffer).writeAll 0 _ _).size = adxPostSize
    rw [TaggedBuffer.writeAll_size]
    exact hs.size

/-- The buffer is good after any history. -/
theorem dspGood_run {history : List HttpRequest} {s : ℕ × DspRequest}
    (h : Steps.run dspStep (0, DspRequest.init) history = some s) : DspGood s := by
  refine Steps.run_invariant (P := DspGood) ?_ ?_ h
  · rintro ⟨n, s⟩ r s' hs hstep
    obtain ⟨⟨code, t⟩, ht, rfl⟩ := Option.map_eq_some_iff.mp hstep
    exact adxRequestInit_good hs ht
  · refine ⟨rfl, ?_⟩
    intro i w v hc
    cases hc

/-- The message is the request's own just if the announced length is not beyond its body. -/
theorem adxRequestInit_own_iff {n : ℕ} {s s' : DspRequest} {r : HttpRequest}
    (hs : DspGood (n, s)) (h : adxRequestInit n s r = some (0, s')) :
    (∀ i < s'.contentLength.toNat, s'.bodyBuffer.Holds i (.request n)) ↔
      s'.contentLength.toNat ≤ r.body.length := by
  obtain ⟨text, -, h⟩ := Option.map_eq_some_iff.mp h
  simp only at h
  split_ifs at h with hlen
  · cases h
  · cases h
    have hmarks : (begun n s.bodyBuffer).AllMarks fun w => w ≠ .request n := by
      refine begin_marks (hs.marks.mono ?_) (by simp)
      rintro w hw rfl
      exact absurd hw (lt_irrefl n)
    have hsize : (begun n s.bodyBuffer).size = adxPostSize := hs.size
    show (∀ i < (atoi text).toNat, (received n (begun n s.bodyBuffer) (fcgxGetStr (atoi text) r)
      (atoi text).toNat).Holds i (.request n)) ↔ (atoi text).toNat ≤ r.body.length
    have hgot : (fcgxGetStr (atoi text) r).length = min (atoi text).toNat r.body.length :=
      List.length_take
    constructor
    · -- the index behind the last byte that came would have to hold one
      intro hall
      by_contra hshort
      refine received_not_holds hmarks (i := r.body.length) (by omega) (hall _ (by omega))
    · intro hcame i hi
      refine received_holds (by omega) (by omega) ?_
      rw [adxPostSize] at hsize hlen
      omega

/-- **Whose bytes are handed on.**  After any history of requests, and for any next one that is
read with success: in `BidWork` the text and the pair of data and length are bytes of the request,
and every index written is below the size of the buffer, exactly when all the announced bytes come
and fit with their terminator into the buffer as it is before; in `adx_dsp` the announced bytes
are the request's exactly when they all come. -/
theorem own_bytes_iff (isPost : Bool) (history : List HttpRequest) (n : ℕ) (r : HttpRequest) :
    (∀ s b s',
      Steps.run (recvStep isPost) (0, RecvData.init) history = some (n, s) →
      s.data = some b → getReqData isPost n s r = some (0, s') →
      ((∃ c, s'.data = some c ∧ OwnBytes n c s'.length) ↔ Fits isPost b r)) ∧
    ∀ s s',
      Steps.run dspStep (0, DspRequest.init) history = some (n, s) →
      adxRequestInit n s r = some (0, s') →
      ((∀ i < s'.contentLength.toNat, s'.bodyBuffer.Holds i (.request n)) ↔
        s'.contentLength.toNat ≤ r.body.length) :=
  ⟨fun _ _ _ hrun hb h => getReqData_own_iff (recvGood_run hrun) hb h,
    fun _ _ hrun h => adxRequestInit_own_iff (dspGood_run hrun) h⟩

/-- A request of six bytes, and one that announces six bytes of which three come. -/
def secretPost : HttpRequest := ⟨some (bytes "6"), none, bytes "secret", true⟩
/-- A body shorter than announced. -/
def shortPost : HttpRequest := ⟨some (bytes "6"), none, bytes "abc", true⟩

/-- The buffers after the first of them. -/
def afterSecret : RecvData :=
  ⟨some (received 0 (begun 0 (.fresh 10240)) (bytes "secret") 6), 6⟩

/-- The other program's buffer after the first request. -/
def dspAfterSecret : DspRequest :=
  ⟨received 0 (begun 0 (.fresh adxPostSize)) (bytes "secret") 6, 6⟩

/-- The buffers after the second one. -/
def afterShort : RecvData :=
  ⟨some (received 1 (begun 1 (received 0 (begun 0 (.fresh 10240)) (bytes "secret") 6))
    (bytes "abc") 6), 6⟩

/-- The other program's buffer after the second request. -/
def dspAfterShort : DspRequest :=
  ⟨received 1 (begun 1 dspAfterSecret.bodyBuffer) (bytes "abc") 6, 6⟩

/-- The two requests in both programs. -/
theorem own_bytes_iff_short :
    ((∃ c, afterShort.data = some c ∧ OwnBytes 1 c afterShort.length) ↔
      Fits true (received 0 (begun 0 (.fresh 10240)) (bytes "secret") 6) shortPost) ∧
    ((∀ i < 6, dspAfterShort.bodyBuffer.Holds i (.request 1)) ↔ 6 ≤ shortPost.body.length) :=
  ⟨(own_bytes_iff true [secretPost] 1 shortPost).1 afterSecret _ afterShort rfl rfl rfl,
    (own_bytes_iff true [secretPost] 1 shortPost).2 dspAfterSecret dspAfterShort rfl rfl⟩

/-- The second of them is read with success, and what is logged for it are three bytes of its own
and three of the first one. -/
theorem earlier_bytes_handed_on :
    Steps.run (recvStep true) (0, RecvData.init) [secretPost] = some (1, afterSecret) ∧
      getReqData true 1 afterSecret shortPost = some (0, afterShort) ∧
      (∃ c, afterShort.data = some c ∧ c.cell 3 = some (.request 0, 114)) ∧
      ¬ ∃ c, afterShort.data = some c ∧ OwnBytes 1 c afterShort.length := by
  refine ⟨rfl, rfl, ⟨_, rfl, rfl⟩, ?_⟩
  rintro ⟨c, hc, hown⟩
  cases hc
  obtain ⟨v, hv⟩ := hown.pair 3 (by decide)
  cases hv

end AdxDsp
