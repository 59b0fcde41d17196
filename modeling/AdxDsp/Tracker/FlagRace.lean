import AdxDsp.Lib.ReadModifyWrite
import AdxDsp.Tracker.Serve

/-!
# The flag check under interleaving

Any number of tracker threads run the flag check of `adx_tracker` on one flag word.  The check is a
read followed by a write (`ReadModifyWrite`), and the threads' commands interleave freely.

* **Simulation** (`Simulates`): a run of the threads is a run of the abstract processes.
* **Main result** (`flag_check_safe_iff_fresh`): notices are told apart from their repetitions in
  every prefix of a run iff no write of the run overwrites a word that changed since it was read.
-/

namespace AdxDsp

open CText Redis

/-- The kinds of notices. -/
inductive Mtype where
  | win
  | imp
  | clk
  deriving DecidableEq

/-- The letter of a kind. -/
def Mtype.byte : Mtype → UInt8
  | .win => mtypeWin
  | .imp => mtypeImp
  | .clk => mtypeClk

/-- The place of a kind's flag in the word. -/
def Mtype.index : Mtype → ℕ
  | .win => 1
  | .imp => 2
  | .clk => 3

/-- The types have different bits. -/
theorem Mtype.index_injective : Function.Injective Mtype.index := by
  intro j k h
  cases j <;> cases k <;> simp_all [Mtype.index]

/-- The bit of a type. -/
theorem dspIdFlagBit_byte (k : Mtype) : dspIdFlagBit k.byte = BitVec.twoPow 32 k.index := by
  cases k <;> decide

/-- Testing a flag reads one bit of the word. -/
theorem and_dspIdFlagBit_ne_zero (k : Mtype) (w : BitVec 32) :
    w &&& dspIdFlagBit k.byte ≠ 0 ↔ w.getLsbD k.index = true := by
  rw [dspIdFlagBit_byte, BitVec.and_twoPow]
  have hne : BitVec.twoPow 32 k.index ≠ 0 := by cases k <;> decide
  split_ifs with h
  · exact iff_of_true hne h
  · exact iff_of_false (fun hz => hz rfl) h

/-- The words of the flag check as abstract flags. -/
def dspIdFlags : ReadModifyWrite.Flags Mtype (BitVec 32) where
  has k w := w &&& dspIdFlagBit k.byte ≠ 0
  set k w := w ||| dspIdFlagBit k.byte
  has_set := by
    intro j k w
    have hlt : k.index < 32 := by cases k <;> decide
    rw [and_dspIdFlagBit_ne_zero, and_dspIdFlagBit_ne_zero, dspIdFlagBit_byte, BitVec.getLsbD_or,
      BitVec.getLsbD_twoPow]
    simp only [hlt, decide_true, Bool.true_and, Bool.or_eq_true, decide_eq_true_eq,
      Mtype.index_injective.eq_iff]
    constructor
    · rintro (h | rfl)
      · exact .inr h
      · exact .inl rfl
    · rintro (rfl | h)
      · exact .inr rfl
      · exact .inl h

/-- The word of a bid for which no notice has come. -/
def dspFlagBid : BitVec 32 := 1

/-- The flag of the bid is none of the three bits. -/
theorem not_has_dspFlagBid (k : Mtype) : ¬dspIdFlags.has k dspFlagBid := by
  cases k <;> simp only [dspIdFlags, ne_eq, not_not] <;> decide

/-- A word that the source's test accepts does not have the flag of the notice. -/
theorem not_has_of_accepts (k : Mtype) (w : BitVec 32) (h : dspIdFlagAccepts k.byte w = true) :
    ¬dspIdFlags.has k w := by
  simp only [dspIdFlags, ne_eq, not_not]
  cases k with
  | win => simpa [dspIdFlagAccepts, dspIdFlagBit, Mtype.byte] using h
  | imp => simpa [dspIdFlagAccepts, dspIdFlagBit, Mtype.byte, mtypeImp, mtypeWin] using h
  | clk =>
    simp only [dspIdFlagAccepts, dspIdFlagBit, Mtype.byte, mtypeClk, mtypeImp, mtypeWin] at h ⊢
    simpa using (Bool.and_eq_true _ _ |>.mp h).2

/-! ## The threads -/

/-- Tracker threads on the redis servers, each with the rest of its flag check. -/
abbrev FlagSystem (ι : Type) := System ι (Server × Cmd) Reply TrackerWorld ErrCode

/-- Every thread is about to check its notice, and no command fails. -/
def flagStart {ι : Type} (notices : ι → UrlInfo) (store : Server → Store) : FlagSystem ι :=
  ⟨.reliable store, fun i => dspIdFlagCheck (notices i)⟩

/-- One command of a thread. -/
def flagStep {ι : Type} [DecidableEq ι] (s : FlagSystem ι) (i : ι) : FlagSystem ι :=
  s.step World.exec i

/-- The commands of the threads, in the order of a schedule. -/
def flagRun {ι : Type} [DecidableEq ι] (s : FlagSystem ι) (schedule : List ι) : FlagSystem ι :=
  s.run World.exec schedule

namespace FlagSystem

variable {ι : Type} (s : FlagSystem ι)

/-- The text stored under a key of the counter cluster. -/
def word (key : Bytes) : Option Bytes := (s.server.store .adCounterMaster).strings key

/-- The notice of thread `i` ends with `iv = 1`. -/
def Accepted (i : ι) : Prop := s.thread i = .ret .success

/-- At most one notice of each kind is accepted, and the stored word has the flag of every accepted
notice. -/
def Safe (kind : ι → Mtype) (key : Bytes) : Prop :=
  (∀ i j, s.Accepted i → s.Accepted j → kind i = kind j → i = j) ∧
    ∀ i, s.Accepted i → ∃ w : BitVec 32, s.word key = some (decimal w.toInt) ∧
      w &&& dspIdFlagBit (kind i).byte ≠ 0

/-- If thread `i` has read a word that lets its notice pass, this word is still stored. -/
def FreshWrite (notices : ι → UrlInfo) (key : Bytes) (i : ι) : Prop :=
  ∀ w : BitVec 32, s.thread i = dspIdFlagTest (notices i) w →
    dspIdFlagAccepts (notices i).mtype w = true → s.word key = some (decimal w.toInt)

end FlagSystem

/-! ## Simulation -/

/-- The rest of a thread's program in each phase of the abstract process. -/
def ThreadIs (u : UrlInfo) (p : TrackerProg ErrCode) : ReadModifyWrite.Phase (BitVec 32) → Prop
  | .idle => p = dspIdFlagCheck u
  | .holding seen => dspIdFlagAccepts u.mtype seen = true ∧ p = dspIdFlagTest u seen
  | .accepted => p = .ret .success
  | .rejected => ∃ e, e ≠ .success ∧ p = .ret e

/-- The threads are in the phases of the abstract processes, and the stored word is theirs. -/
structure Simulates {ι : Type} (notices : ι → UrlInfo) (key : Bytes) (s : FlagSystem ι)
    (a : ReadModifyWrite.State ι (BitVec 32)) : Prop where
  reliable : ∀ n, s.server.outcome n = .ok
  word : s.word key = some (decimal a.word.toInt)
  thread : ∀ i, ThreadIs (notices i) (s.thread i) (a.phase i)

/-- A thread that reads the word `w` goes on to test it. -/
theorem replyNumber_flag (w : BitVec 32) :
    replyNumber 0 (.string (decimal w.toInt)) = (.success, w.toInt) := by
  simp [replyNumber, adxRedisReplyValue]

section

variable {u : UrlInfo} {k : Mtype} (hk : u.mtype = k.byte)
include hk

/-- An accepted notice sends the word with its own bit set. -/
theorem dspIdFlagTest_of_accepts {w : BitVec 32} (h : dspIdFlagAccepts u.mtype w = true) :
    dspIdFlagTest u w = .send (.adCounterMaster,
      .setex u.flagKey 36000 (decimal (w ||| dspIdFlagBit u.mtype).toInt)) fun reply =>
        .ret (adxRedisReplyCheck reply) := by
  have hm : u.mtype = mtypeWin ∨ u.mtype = mtypeImp ∨ u.mtype = mtypeClk := by
    rw [hk]
    cases k <;> simp [Mtype.byte]
  rw [dspIdFlagTest, if_pos hm, if_pos h]
  rfl

/-- A notice that is not new ends with an error. -/
theorem dspIdFlagTest_of_not_accepts {w : BitVec 32} (h : ¬dspIdFlagAccepts u.mtype w = true) :
    ∃ e, e ≠ .success ∧ dspIdFlagTest u w = .ret e := by
  have hm : u.mtype = mtypeWin ∨ u.mtype = mtypeImp ∨ u.mtype = mtypeClk := by
    rw [hk]
    cases k <;> simp [Mtype.byte]
  rw [dspIdFlagTest, if_pos hm, if_neg h]
  refine ⟨_, ?_, rfl⟩
  split_ifs <;> simp

/-- The word that a thread has read can be told from the program it has left. -/
theorem dspIdFlagTest_inj {v w : BitVec 32} (hv : dspIdFlagAccepts u.mtype v = true)
    (hw : dspIdFlagAccepts u.mtype w = true) (h : dspIdFlagTest u v = dspIdFlagTest u w) :
    v = w := by
  rw [dspIdFlagTest_of_accepts hk hv, dspIdFlagTest_of_accepts hk hw] at h
  simp only [Prog.send.injEq, Prod.mk.injEq, Cmd.setex.injEq, decimal_inj, BitVec.toInt_inj,
    true_and, and_true] at h
  rw [hk] at h hv hw
  have hv' := not_has_of_accepts k v hv
  have hw' := not_has_of_accepts k w hw
  simp only [dspIdFlags, and_dspIdFlagBit_ne_zero] at hv' hw'
  rw [dspIdFlagBit_byte] at h
  refine BitVec.eq_of_getLsbD_eq fun n hn => ?_
  have hbit := congrArg (fun x => x.getLsbD n) h
  simp only [BitVec.getLsbD_or, BitVec.getLsbD_twoPow] at hbit
  by_cases hnk : k.index = n
  · subst hnk
    rw [Bool.not_eq_true _ |>.mp hv', Bool.not_eq_true _ |>.mp hw']
  · simpa [hnk] using hbit

end

section

variable {ι : Type} [DecidableEq ι] {notices : ι → UrlInfo} {kind : ι → Mtype} {key : Bytes}
  (hkind : ∀ i, (notices i).mtype = (kind i).byte) (hkey : ∀ i, (notices i).flagKey = key)
include hkind hkey

/-- A read of the word is a read of the abstract process. -/
theorem Simulates.read {s : FlagSystem ι} {a : ReadModifyWrite.State ι (BitVec 32)} {i : ι}
    (h : Simulates notices key s a) (hi : a.phase i = .idle) :
    Simulates notices key (flagStep s i)
      (ReadModifyWrite.step dspIdFlags kind (fun k w => dspIdFlagAccepts k.byte w = true) a i) := by
  have hthread := h.thread i
  rw [hi] at hthread
  have hget : (s.server.store .adCounterMaster).exec (.get (notices i).flagKey) =
      (s.server.store .adCounterMaster, .string (decimal a.word.toInt)) := by
    have hw := h.word
    rw [FlagSystem.word] at hw
    rw [hkey i, Store.exec, hw]
  rw [ReadModifyWrite.step_idle hi, flagStep,
    System.step_of_send (hthread.trans (dspIdFlagCheck_eq_send _)), World.exec_of_ok h.reliable]
  simp only [hget, replyNumber_flag, if_true, BitVec.ofInt_toInt, Function.update_eq_self]
  refine ⟨h.reliable, h.word, fun j => ?_⟩
  by_cases hj : j = i
  · subst hj
    simp only [Function.update_self]
    split_ifs with hacc
    · rw [← hkind j] at hacc
      exact ⟨hacc, rfl⟩
    · rw [← hkind j] at hacc
      exact dspIdFlagTest_of_not_accepts (hkind j) hacc
  · simp only [Function.update_of_ne hj]
    exact h.thread j

/-- A write of the word is a write of the abstract process. -/
theorem Simulates.write {s : FlagSystem ι} {a : ReadModifyWrite.State ι (BitVec 32)} {i : ι}
    {seen : BitVec 32} (h : Simulates notices key s a) (hi : a.phase i = .holding seen) :
    Simulates notices key (flagStep s i)
      (ReadModifyWrite.step dspIdFlags kind (fun k w => dspIdFlagAccepts k.byte w = true) a i) := by
  have hthread := h.thread i
  rw [hi] at hthread
  obtain ⟨hacc, hprog⟩ := hthread
  rw [dspIdFlagTest_of_accepts (hkind i) hacc] at hprog
  rw [ReadModifyWrite.step_holding hi, flagStep, System.step_of_send hprog,
    World.exec_of_ok h.reliable]
  refine ⟨h.reliable, ?_, fun j => ?_⟩
  · simp only [FlagSystem.word, Function.update_self, Store.exec, hkey i, hkind i]
    exact Store.strings_setString_self _ _ _ _
  · by_cases hj : j = i
    · subst hj
      simp only [Function.update_self]
      rfl
    · simp only [Function.update_of_ne hj]
      exact h.thread j

/-- Every command of a thread is a step of the abstract process. -/
theorem Simulates.step {s : FlagSystem ι} {a : ReadModifyWrite.State ι (BitVec 32)} (i : ι)
    (h : Simulates notices key s a) :
    Simulates notices key (flagStep s i)
      (ReadModifyWrite.step dspIdFlags kind (fun k w => dspIdFlagAccepts k.byte w = true) a i) := by
  cases hi : a.phase i with
  | idle => exact h.read hkind hkey hi
  | holding seen => exact h.write hkind hkey hi
  | accepted =>
    have hthread := h.thread i
    rw [hi] at hthread
    rwa [ReadModifyWrite.step, hi, flagStep, System.step_of_ret hthread]
  | rejected =>
    have hthread := h.thread i
    rw [hi] at hthread
    obtain ⟨e, -, hret⟩ := hthread
    rwa [ReadModifyWrite.step, hi, flagStep, System.step_of_ret hret]

/-- A run of the threads is a run of the abstract processes. -/
theorem simulates_run {store : Server → Store}
    (hword : (store .adCounterMaster).strings key = some (decimal dspFlagBid.toInt))
    (schedule : List ι) :
    Simulates notices key (flagRun (flagStart notices store) schedule)
      (ReadModifyWrite.run dspIdFlags kind (fun k w => dspIdFlagAccepts k.byte w = true)
        (ReadModifyWrite.start dspFlagBid) schedule) := by
  induction schedule using List.reverseRecOn with
  | nil => exact ⟨fun _ => rfl, hword, fun _ => rfl⟩
  | append_singleton is i ih =>
    rw [ReadModifyWrite.run_concat, flagRun, System.run_concat]
    exact ih.step hkind hkey i

omit hkind hkey [DecidableEq ι] in
/-- A notice is accepted just if its thread is in the abstract system. -/
theorem Simulates.accepted_iff {s : FlagSystem ι} {a : ReadModifyWrite.State ι (BitVec 32)}
    (h : Simulates notices key s a) (hkind : ∀ i, (notices i).mtype = (kind i).byte) (i : ι) :
    s.Accepted i ↔ a.phase i = .accepted := by
  have hthread := h.thread i
  rw [FlagSystem.Accepted]
  cases hi : a.phase i with
  | idle =>
    rw [hi] at hthread
    rw [hthread, dspIdFlagCheck_eq_send]
    simp
  | holding seen =>
    rw [hi] at hthread
    rw [hthread.2, dspIdFlagTest_of_accepts (hkind i) hthread.1]
    simp
  | accepted =>
    rw [hi] at hthread
    exact iff_of_true hthread rfl
  | rejected =>
    rw [hi] at hthread
    obtain ⟨e, he, hret⟩ := hthread
    rw [hret]
    simpa using he

omit [DecidableEq ι] hkey in
/-- Safety means the same for the threads and for the abstract processes. -/
theorem Simulates.safe_iff {s : FlagSystem ι} {a : ReadModifyWrite.State ι (BitVec 32)}
    (h : Simulates notices key s a) :
    s.Safe kind key ↔ ReadModifyWrite.Safe dspIdFlags kind a := by
  have hword : ∀ i, (∃ w : BitVec 32, s.word key = some (decimal w.toInt) ∧
      w &&& dspIdFlagBit (kind i).byte ≠ 0) ↔ dspIdFlags.has (kind i) a.word := by
    intro i
    rw [h.word]
    constructor
    · rintro ⟨w, hw, hbit⟩
      rw [Option.some_inj, decimal_inj, BitVec.toInt_inj] at hw
      rwa [← hw] at hbit
    · exact fun hbit => ⟨a.word, rfl, hbit⟩
  simp only [FlagSystem.Safe, ReadModifyWrite.Safe, h.accepted_iff hkind, hword]

omit [DecidableEq ι] hkey in
/-- A thread is about to overwrite a changed word iff its abstract process is. -/
theorem Simulates.freshWrite_iff {s : FlagSystem ι} {a : ReadModifyWrite.State ι (BitVec 32)}
    (h : Simulates notices key s a) (i : ι) :
    s.FreshWrite notices key i ↔ ReadModifyWrite.Fresh a i := by
  have hthread := h.thread i
  constructor
  · intro hfresh seen hi
    rw [hi] at hthread
    have hw := hfresh seen hthread.2 hthread.1
    rwa [h.word, Option.some_inj, decimal_inj, BitVec.toInt_inj] at hw
  · intro hfresh w hprog hacc
    -- only a process that holds a word has the program of a write left
    cases hi : a.phase i with
    | idle =>
      rw [hi] at hthread
      rw [hprog, ThreadIs, dspIdFlagTest_of_accepts (hkind i) hacc, dspIdFlagCheck_eq_send]
        at hthread
      simp at hthread
    | holding seen =>
      rw [hi] at hthread
      have hseen : seen = w :=
        dspIdFlagTest_inj (hkind i) hthread.1 hacc (hthread.2.symm.trans hprog)
      rw [h.word, hfresh seen hi, hseen]
    | accepted =>
      rw [hi] at hthread
      rw [hprog, ThreadIs, dspIdFlagTest_of_accepts (hkind i) hacc] at hthread
      simp at hthread
    | rejected =>
      rw [hi] at hthread
      obtain ⟨e, -, hret⟩ := hthread
      rw [hprog, dspIdFlagTest_of_accepts (hkind i) hacc] at hret
      simp at hret

/-- In a run of flag checks on one key, from the word the bidder has written: at every point of the
run at most one notice of each kind is accepted and the stored word has the flag of every accepted
notice, iff no thread of the run overwrites a word that is not the one it has read. -/
theorem flag_check_safe_iff_fresh {store : Server → Store}
    (hword : (store .adCounterMaster).strings key = some (bytes "1")) (schedule : List ι) :
    (∀ pre, pre <+: schedule → (flagRun (flagStart notices store) pre).Safe kind key) ↔
      ∀ pre i, pre ++ [i] <+: schedule →
        (flagRun (flagStart notices store) pre).FreshWrite notices key i := by
  have hone : (store .adCounterMaster).strings key = some (decimal dspFlagBid.toInt) := by
    rw [hword]
    decide
  have hsim := simulates_run hkind hkey hone
  have hiff := ReadModifyWrite.safe_iff_fresh dspIdFlags kind
    (fun k w => dspIdFlagAccepts k.byte w = true) not_has_dspFlagBid not_has_of_accepts schedule
  simpa only [(hsim _).safe_iff hkind, (hsim _).freshWrite_iff hkind] using hiff

end

/-! ## Two impressions at once -/

/-- Two threads process the same impression notice: both read, then both write, and both notices
are accepted. -/
theorem two_impressions_accepted :
    ¬(flagRun (flagStart (fun _ : Bool => sampleNotice mtypeImp) sampleStore)
      [false, true, false, true]).Safe (fun _ => .imp) (sampleNotice mtypeImp).flagKey := by
  rintro ⟨honce, -⟩
  have h := honce false true rfl rfl rfl
  exact Bool.noConfusion h

/-- The threads one after the other: every write is fresh, and one notice is accepted. -/
theorem flag_check_safe_iff_fresh_sample :
    (∀ pre, pre <+: [false, false, true] →
      (flagRun (flagStart (fun _ : Bool => sampleNotice mtypeImp) sampleStore) pre).Safe
        (fun _ => .imp) (sampleNotice mtypeImp).flagKey) ↔
      ∀ pre i, pre ++ [i] <+: [false, false, true] →
        (flagRun (flagStart (fun _ : Bool => sampleNotice mtypeImp) sampleStore) pre).FreshWrite
          (fun _ => sampleNotice mtypeImp) (sampleNotice mtypeImp).flagKey i :=
  flag_check_safe_iff_fresh (fun _ => by decide) (fun _ => rfl) (by decide) _

end AdxDsp
