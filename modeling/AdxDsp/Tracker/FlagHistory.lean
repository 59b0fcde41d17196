import AdxDsp.Tracker.Charging
import AdxDsp.Tracker.FlagRace

/-!
# The flag word and the history of a bid

Notices are processed one after the other, no command fails and no lifetime ends.  Then the flag
word of a bid is a record of the notices that were accepted for it, and decides the next one.

* **`nextWord`**: what a notice does to a flag word.
* **`holdsWord_serve`**: one notice; **`holdsWord_serveAll`**: a run.
* **`flag_history`**: which notices are accepted, and the word after every step.
-/

namespace AdxDsp

open CText Redis

/-- A notice that passes the checks of its parameters and ids. -/
def PassesChecks (u : UrlInfo) : Prop := checkParams u = .success ∧ checkIds u = .success

instance (u : UrlInfo) : Decidable (PassesChecks u) := inferInstanceAs (Decidable (_ ∧ _))

/-- The notice passes its checks and asks for the flag word under `key`. -/
def OnFlag (key : Bytes) (u : UrlInfo) : Prop := PassesChecks u ∧ u.decodeBid.flagKey = key

instance (key : Bytes) (u : UrlInfo) : Decidable (OnFlag key u) :=
  inferInstanceAs (Decidable (_ ∧ _))

/-- The flag word under `key` after a notice. -/
def nextWord (key : Bytes) (v : BitVec 32) (u : UrlInfo) : BitVec 32 :=
  if OnFlag key u ∧ dspIdFlagAccepts u.mtype v = true then v ||| dspIdFlagBit u.mtype else v

/-- No command fails, and the flag word under `key` is `v`. -/
structure HoldsWord (key : Bytes) (w : TrackerWorld) (v : BitVec 32) : Prop where
  reliable : ∀ n, w.outcome n = .ok
  word : (w.store .adCounterMaster).strings key = some (decimal v.toInt)

/-! ## One notice -/

/-- The three types of notices. -/
theorem exists_mtype {u : UrlInfo}
    (h : u.mtype = mtypeWin ∨ u.mtype = mtypeImp ∨ u.mtype = mtypeClk) :
    ∃ k : Mtype, u.mtype = k.byte := by
  rcases h with h | h | h
  · exact ⟨.win, h⟩
  · exact ⟨.imp, h⟩
  · exact ⟨.clk, h⟩

/-- Where nothing expires the world stays. -/
theorem before_of_expired_nil {a : Arrival} (h : a.expired = []) (w : TrackerWorld) :
    a.before w = w := by
  show (⟨Function.update w.store .adCounterMaster ((w.store .adCounterMaster).removeKeys a.expired),
    w.outcome, w.sent⟩ : TrackerWorld) = w
  rw [h]
  show (⟨Function.update w.store .adCounterMaster (w.store .adCounterMaster), w.outcome, w.sent⟩ :
    TrackerWorld) = w
  rw [Function.update_eq_self]

/-- A program that does not write a flag word leaves it alone. -/
theorem HoldsWord.of_flagQuiet {α : Type} {key : Bytes} {v : BitVec 32} {p : TrackerProg α}
    (hp : p.Sends (FlagQuiet key)) {w : TrackerWorld} (h : HoldsWord key w v) :
    HoldsWord key (p.exec w).2 v := by
  refine ⟨?_, ?_⟩
  · intro n
    rw [TrackerProg.exec, World.eval_outcome]
    exact h.reliable n
  · have hkeep : p.Sends fun c => c.1 = .adCounterMaster → ∀ s : Store,
        s.strings key = some (decimal v.toInt) →
          (s.exec c.2).1.strings key = some (decimal v.toInt) := by
      apply hp.mono
      intro c hc hmaster s hs
      rw [Store.string_exec s (hc hmaster), hs]
    exact World.eval_invariant hkeep h.word

/-- The flag check of a notice on the flag word: it succeeds if the word accepts the notice. -/
theorem HoldsWord.check {u : UrlInfo} {w : TrackerWorld} {v : BitVec 32}
    (hm : u.mtype = mtypeWin ∨ u.mtype = mtypeImp ∨ u.mtype = mtypeClk)
    (h : HoldsWord u.flagKey w v) :
    (((dspIdFlagCheck u).exec w).1 = .success ↔ dspIdFlagAccepts u.mtype v = true) ∧
      HoldsWord u.flagKey ((dspIdFlagCheck u).exec w).2
        (if dspIdFlagAccepts u.mtype v = true then v ||| dspIdFlagBit u.mtype else v) := by
  obtain ⟨k, hk⟩ := exists_mtype hm
  obtain ⟨w₁, hget, h₁⟩ : ∃ w₁, w.exec (.adCounterMaster, .get u.flagKey) =
      (w₁, .string (decimal v.toInt)) ∧ HoldsWord u.flagKey w₁ v := by
    refine ⟨⟨w.store, w.outcome, w.sent + 1⟩, ?_, h.reliable, h.word⟩
    rw [World.exec_of_ok h.reliable]
    simp only [Store.exec, h.word, Function.update_eq_self]
  have hread : (dspIdFlagCheck u).exec w = (dspIdFlagTest u v).exec w₁ := by
    rw [dspIdFlagCheck_eq_send, TrackerProg.exec, Prog.eval_send, hget]
    simp only [replyNumber_flag, if_true, BitVec.ofInt_toInt]
    rfl
  rw [hread]
  by_cases hacc : dspIdFlagAccepts u.mtype v = true
  · -- the word is written back with the flag of the notice
    rw [dspIdFlagTest_of_accepts hk hacc, TrackerProg.exec, Prog.eval_send, Prog.eval_ret,
      World.exec_of_ok h₁.reliable, if_pos hacc]
    refine ⟨iff_of_true rfl hacc, h₁.reliable, ?_⟩
    simp only [Function.update_self, Store.exec]
    exact Store.strings_setString_self _ _ _ _
  · obtain ⟨e, he, hret⟩ := dspIdFlagTest_of_not_accepts hk hacc
    rw [hret, if_neg hacc]
    exact ⟨iff_of_false he hacc, h₁⟩

section

variable (conf : TrackerConf) (bid impid advid : Bytes)

/-- What `serve` does with a notice that passes its checks. -/
theorem serve_of_passesChecks {w : TrackerWorld} {a : Arrival} (h : PassesChecks a.notice)
    (hexp : a.expired = []) :
    serve conf w a =
      if ((dspIdFlagCheck a.notice.decodeBid).exec w).1 = .success then
        (trackerAccepted conf a.clk a.notice.decodeBid).exec
          ((dspIdFlagCheck a.notice.decodeBid).exec w).2
      else (⟨((dspIdFlagCheck a.notice.decodeBid).exec w).1,
          ⟨0, ((dspIdFlagCheck a.notice.decodeBid).exec w).1, 0⟩, none⟩,
        ((dspIdFlagCheck a.notice.decodeBid).exec w).2) := by
  rw [serve, before_of_expired_nil hexp, adxTracker, if_neg (not_not.mpr h.1),
    if_neg (not_not.mpr h.2)]
  simp only [TrackerProg.exec_bind]
  split_ifs
  · rfl
  · rfl

/-- A notice that does not pass its checks is not accepted and changes nothing. -/
theorem serve_of_not_passesChecks {w : TrackerWorld} {a : Arrival} (h : ¬PassesChecks a.notice)
    (hexp : a.expired = []) : (serve conf w a).1.info.iv = 0 ∧ (serve conf w a).2 = w := by
  rw [serve, before_of_expired_nil hexp, adxTracker]
  by_cases hp : checkParams a.notice = .success
  · have hi : checkIds a.notice ≠ .success := fun hi => h ⟨hp, hi⟩
    rw [if_neg (not_not.mpr hp), if_pos hi]
    exact ⟨rfl, rfl⟩
  · rw [if_pos hp]
    exact ⟨rfl, rfl⟩

/-- One notice: the flag word decides whether it is accepted, and records it if it is. -/
theorem holdsWord_serve {w : TrackerWorld} {v : BitVec 32} {a : Arrival} (hexp : a.expired = [])
    (h : HoldsWord (dspIdFlagKey bid impid advid) w v) :
    HoldsWord (dspIdFlagKey bid impid advid) (serve conf w a).2
        (nextWord (dspIdFlagKey bid impid advid) v a.notice) ∧
      (a.notice.decodeBid.flagKey = dspIdFlagKey bid impid advid →
        ((serve conf w a).1.info.iv = 1 ↔
          PassesChecks a.notice ∧ dspIdFlagAccepts a.notice.mtype v = true)) := by
  -- whatever follows an accepted notice, it does not write this word
  have hquiet : ∀ u : UrlInfo,
      (trackerAccepted conf a.clk u).Sends (FlagQuiet (dspIdFlagKey bid impid advid)) :=
    fun u => trackerAccepted_flagQuiet conf a.clk u
      { a.notice with bid := bid, impid := impid, advid := advid }
  by_cases hpass : PassesChecks a.notice
  · rw [serve_of_passesChecks conf hpass hexp]
    by_cases hkey : a.notice.decodeBid.flagKey = dspIdFlagKey bid impid advid
    · have hm := mtype_of_checkParams hpass.1
      rw [← hkey] at h hquiet ⊢
      obtain ⟨hiff, hword⟩ := h.check (by simpa using hm)
      rw [decodeBid_mtype] at hiff hword
      have honflag : OnFlag a.notice.decodeBid.flagKey a.notice := ⟨hpass, rfl⟩
      by_cases hacc : dspIdFlagAccepts a.notice.mtype v = true
      · -- what follows the flag check writes no flag word
        rw [if_pos (hiff.mpr hacc), nextWord, if_pos ⟨honflag, hacc⟩]
        rw [if_pos hacc] at hword
        refine ⟨hword.of_flagQuiet (hquiet _), fun _ => ?_⟩
        exact iff_of_true (iv_trackerAccepted conf a.clk _ _) ⟨hpass, hacc⟩
      · rw [if_neg fun hs => hacc (hiff.mp hs), nextWord, if_neg fun hn => hacc hn.2]
        rw [if_neg hacc] at hword
        refine ⟨hword, fun _ => ?_⟩
        exact iff_of_false (by simp) fun hn => hacc hn.2
    · -- the notice writes the flag word of another bid
      have hcheck : (dspIdFlagCheck a.notice.decodeBid).Sends
          (FlagQuiet (dspIdFlagKey bid impid advid)) :=
        dspIdFlagCheck_sends (fun _ hw => hw) fun _ _ hw => hkey hw
      have hnext : nextWord (dspIdFlagKey bid impid advid) v a.notice = v :=
        if_neg fun hn => hkey hn.1.2
      rw [hnext]
      refine ⟨?_, fun h => absurd h hkey⟩
      split_ifs
      · exact (h.of_flagQuiet hcheck).of_flagQuiet (hquiet _)
      · exact h.of_flagQuiet hcheck
  · -- a notice that fails its checks gets no further
    obtain ⟨hiv, hw⟩ := serve_of_not_passesChecks conf (w := w) hpass hexp
    rw [hw, hiv, nextWord, if_neg fun hn => hpass hn.1.1]
    refine ⟨h, fun _ => iff_of_false (by norm_num) fun hn => hpass hn.1⟩

/-! ## Runs -/

/-- The flag word under `key` after a sequence of notices, from the word of the bidder. -/
def wordAfter (key : Bytes) (as : List Arrival) : BitVec 32 :=
  as.foldl (fun v a => nextWord key v a.notice) dspFlagBid

/-- The word after one more notice. -/
theorem wordAfter_concat (key : Bytes) (as : List Arrival) (a : Arrival) :
    wordAfter key (as ++ [a]) = nextWord key (wordAfter key as) a.notice := by
  rw [wordAfter, List.foldl_append]
  rfl

/-- After a run the flag word is what the notices have made of it. -/
theorem holdsWord_serveAll {store : Server → Store}
    (hword : (store .adCounterMaster).strings (dspIdFlagKey bid impid advid) = some (bytes "1"))
    {as : List Arrival} (hexp : ∀ a ∈ as, a.expired = []) :
    HoldsWord (dspIdFlagKey bid impid advid) (serveAll conf (.reliable store) as)
      (wordAfter (dspIdFlagKey bid impid advid) as) := by
  induction as using List.reverseRecOn with
  | nil =>
    refine ⟨fun _ => rfl, ?_⟩
    show (store .adCounterMaster).strings (dspIdFlagKey bid impid advid) =
      some (decimal dspFlagBid.toInt)
    rw [hword]
    decide
  | append_singleton as a ih =>
    rw [serveAll_concat, wordAfter_concat]
    have has : ∀ b ∈ as, b.expired = [] := fun b hb => hexp b (List.mem_append_left _ hb)
    exact (holdsWord_serve conf bid impid advid (hexp a (by simp)) (ih has)).1

/-- The notice `a` behind the notices `pre` gets `iv = 1`. -/
def AcceptedAfter (store : Server → Store) (pre : List Arrival) (a : Arrival) : Prop :=
  (serve conf (serveAll conf (.reliable store) pre) a).1.info.iv = 1

/-- A notice of kind `k` for the flag word under `key` has been accepted. -/
def KindAccepted (store : Server → Store) (key : Bytes) (as : List Arrival) (k : Mtype) : Prop :=
  ∃ pre a, pre ++ [a] <+: as ∧ a.notice.decodeBid.flagKey = key ∧ a.notice.mtype = k.byte ∧
    AcceptedAfter conf store pre a

/-- Setting the flag of a kind leaves the flags of the other kinds. -/
theorem getLsbD_nextWord (key : Bytes) (v : BitVec 32) (u : UrlInfo) (n : ℕ) :
    (nextWord key v u).getLsbD n = true ↔ v.getLsbD n = true ∨
      ∃ k : Mtype, k.index = n ∧ u.mtype = k.byte ∧ OnFlag key u ∧
        dspIdFlagAccepts u.mtype v = true := by
  unfold nextWord
  by_cases hnext : OnFlag key u ∧ dspIdFlagAccepts u.mtype v = true
  · obtain ⟨k, hk⟩ := exists_mtype (mtype_of_checkParams hnext.1.1.1)
    have hlt : k.index < 32 := by cases k <;> decide
    rw [if_pos hnext, hk, dspIdFlagBit_byte, BitVec.getLsbD_or, BitVec.getLsbD_twoPow,
      Bool.or_eq_true]
    rw [hk] at hnext
    simp only [hlt, decide_true, Bool.true_and, decide_eq_true_eq]
    constructor
    · rintro (h | h)
      · exact .inl h
      · exact .inr ⟨k, h, rfl, hnext⟩
    · rintro (h | ⟨j, hj, hbyte, -⟩)
      · exact .inl h
      · have hjk : k = j := by
          cases k <;> cases j <;> first | rfl | exact absurd hbyte (by decide)
        exact .inr (hjk ▸ hj)
  · rw [if_neg hnext]
    constructor
    · exact .inl
    · rintro (h | ⟨k, -, -, h⟩)
      · exact h
      · exact absurd h hnext

end

/-! ## The history -/

/-- A win notice or an impression is accepted if the word does not have its flag. -/
theorem dspIdFlagAccepts_iff {k : Mtype} (hk : k ≠ .clk) (v : BitVec 32) :
    dspIdFlagAccepts k.byte v = true ↔ ¬v.getLsbD k.index = true := by
  rw [← and_dspIdFlagBit_ne_zero, ne_eq, not_not]
  cases k with
  | win => simp [dspIdFlagAccepts, dspIdFlagBit, Mtype.byte]
  | imp => simp [dspIdFlagAccepts, dspIdFlagBit, Mtype.byte, mtypeImp, mtypeWin]
  | clk => exact absurd rfl hk

/-- A click is accepted if the word has the flag of an impression and not the flag of a click. -/
theorem dspIdFlagAccepts_clk_iff (v : BitVec 32) :
    dspIdFlagAccepts Mtype.clk.byte v = true ↔
      v.getLsbD Mtype.imp.index = true ∧ ¬v.getLsbD Mtype.clk.index = true := by
  rw [← and_dspIdFlagBit_ne_zero, ← and_dspIdFlagBit_ne_zero, ne_eq, ne_eq, not_not]
  simp [dspIdFlagAccepts, dspIdFlagBit, Mtype.byte, mtypeImp, mtypeWin, mtypeClk]

section

variable (key : Bytes)

/-- The first notice of a kind that asks for the word sets its flag, but for clicks. -/
theorem getLsbD_wordAfter_iff {k : Mtype} (hk : k ≠ .clk) (as : List Arrival) :
    (wordAfter key as).getLsbD k.index = true ↔
      ∃ a ∈ as, OnFlag key a.notice ∧ a.notice.mtype = k.byte := by
  induction as using List.reverseRecOn with
  | nil => cases k <;> simp [wordAfter, dspFlagBid] <;> decide
  | append_singleton as a ih =>
    rw [wordAfter_concat, getLsbD_nextWord, ih]
    constructor
    · rintro (⟨b, hb, hon⟩ | ⟨j, hj, hbyte, hon, -⟩)
      · exact ⟨b, List.mem_append_left _ hb, hon⟩
      · have hjk : j = k := Mtype.index_injective hj
        exact ⟨a, by simp, hon, hjk ▸ hbyte⟩
    · rintro ⟨b, hb, hon, hbyte⟩
      rcases List.mem_append.mp hb with hb | hb
      · exact .inl ⟨b, hb, hon, hbyte⟩
      · -- the last notice sets the flag, if no notice before it has
        rw [List.mem_singleton] at hb
        subst hb
        by_cases hold : (wordAfter key as).getLsbD k.index = true
        · exact .inl (ih.mp hold)
        · exact .inr ⟨k, rfl, hbyte, hon, hbyte ▸ (dspIdFlagAccepts_iff hk _).mpr hold⟩

end

section

variable (conf : TrackerConf) {bid impid advid : Bytes} {store : Server → Store}
  (hword : (store .adCounterMaster).strings (dspIdFlagKey bid impid advid) = some (bytes "1"))
include hword

/-- A notice is accepted if it passes its checks and the word of the run so far accepts it. -/
theorem acceptedAfter_iff {pre : List Arrival} {a : Arrival}
    (hexp : ∀ b ∈ pre ++ [a], b.expired = [])
    (hkey : a.notice.decodeBid.flagKey = dspIdFlagKey bid impid advid) :
    AcceptedAfter conf store pre a ↔ PassesChecks a.notice ∧
      dspIdFlagAccepts a.notice.mtype (wordAfter (dspIdFlagKey bid impid advid) pre) = true := by
  have hpre : ∀ b ∈ pre, b.expired = [] := fun b hb => hexp b (List.mem_append_left _ hb)
  have hholds := holdsWord_serveAll conf bid impid advid hword hpre
  exact (holdsWord_serve conf bid impid advid (hexp a (by simp)) hholds).2 hkey

/-- The flags of the word are those of the notices that were accepted, and the flag of the bid. -/
theorem getLsbD_wordAfter {as : List Arrival} (hexp : ∀ a ∈ as, a.expired = []) (n : ℕ) :
    (wordAfter (dspIdFlagKey bid impid advid) as).getLsbD n = true ↔
      n = 0 ∨ ∃ k : Mtype, k.index = n ∧
        KindAccepted conf store (dspIdFlagKey bid impid advid) as k := by
  -- by induction on the notices, of which the last one is told apart
  induction as using List.reverseRecOn with
  | nil =>
    have hnone : ∀ k, ¬KindAccepted conf store (dspIdFlagKey bid impid advid) [] k := by
      rintro k ⟨pre, a, hpre, -⟩
      simpa using hpre.length_le
    simp only [hnone, and_false, exists_false, or_false]
    show (1#32).getLsbD n = true ↔ n = 0
    rw [BitVec.getLsbD_one]
    simp [eq_comm]
  | append_singleton as a ih =>
    have has : ∀ b ∈ as, b.expired = [] := fun b hb => hexp b (List.mem_append_left _ hb)
    rw [wordAfter_concat, getLsbD_nextWord, ih has, or_assoc, ← exists_or]
    refine or_congr Iff.rfl (exists_congr fun k => ?_)
    rw [← and_or_left]
    refine and_congr Iff.rfl ?_
    constructor
    · -- a kind was accepted before, or is accepted with the last notice
      rintro (⟨pre, b, hpre, hb⟩ | ⟨hbyte, hon, hacc⟩)
      · exact ⟨pre, b, hpre.trans (List.prefix_append as [a]), hb⟩
      · exact ⟨as, a, List.prefix_refl _, hon.2, hbyte,
          (acceptedAfter_iff conf hword hexp hon.2).mpr ⟨hon.1, hacc⟩⟩
    · rintro ⟨pre, b, hpre, hkey, hbyte, hacc⟩
      rcases List.prefix_concat_iff.mp hpre with heq | hpre
      -- it is the last notice, or was one before
      · obtain ⟨rfl, rfl⟩ := List.append_singleton_inj.mp heq
        obtain ⟨hpass, hacc⟩ := (acceptedAfter_iff conf hword hexp hkey).mp hacc
        exact .inr ⟨hbyte, ⟨hpass, hkey⟩, hacc⟩
      · exact .inl ⟨pre, b, hpre, hkey, hbyte, hacc⟩

/-- In a run from the flag word 1, a win notice or an impression for this word is accepted if and
only if it passes its checks and no notice of its kind that passes them has asked for the word
before; a click if and only if it passes its checks, an impression has been accepted before and no
click has.  After every step the word is 1 with the flags of the kinds that have been accepted. -/
theorem flag_history {as : List Arrival} (hexp : ∀ a ∈ as, a.expired = []) :
    let key := dspIdFlagKey bid impid advid
    (∀ pre a, pre ++ [a] <+: as → a.notice.decodeBid.flagKey = key →
      (a.notice.mtype = mtypeWin → (AcceptedAfter conf store pre a ↔ PassesChecks a.notice ∧
        ∀ b ∈ pre, OnFlag key b.notice → b.notice.mtype ≠ mtypeWin)) ∧
      (a.notice.mtype = mtypeImp → (AcceptedAfter conf store pre a ↔ PassesChecks a.notice ∧
        ∀ b ∈ pre, OnFlag key b.notice → b.notice.mtype ≠ mtypeImp)) ∧
      (a.notice.mtype = mtypeClk → (AcceptedAfter conf store pre a ↔ PassesChecks a.notice ∧
        KindAccepted conf store key pre .imp ∧ ¬KindAccepted conf store key pre .clk))) ∧
    ∀ pre, pre <+: as → ∃ v : BitVec 32,
      ((serveAll conf (.reliable store) pre).store .adCounterMaster).strings key =
        some (decimal v.toInt) ∧
      ∀ n, v.getLsbD n = true ↔
        n = 0 ∨ ∃ k : Mtype, k.index = n ∧ KindAccepted conf store key pre k := by
  intro key
  refine ⟨?_, ?_⟩
  · intro pre a hpre hkey
    have hexp' : ∀ b ∈ pre ++ [a], b.expired = [] := fun b hb => hexp b (hpre.subset hb)
    have hbits := getLsbD_wordAfter conf hword fun b hb => hexp' b (List.mem_append_left _ hb)
    -- a win or an impression is accepted once
    have hfirst : ∀ k : Mtype, k ≠ .clk → a.notice.mtype = k.byte →
        (AcceptedAfter conf store pre a ↔ PassesChecks a.notice ∧
          ∀ b ∈ pre, OnFlag key b.notice → b.notice.mtype ≠ k.byte) := by
      intro k hk hbyte
      rw [acceptedAfter_iff conf hword hexp' hkey, hbyte, dspIdFlagAccepts_iff hk,
        getLsbD_wordAfter_iff key hk]
      simp only [not_exists, not_and, ne_eq]
    refine ⟨hfirst .win (by decide), hfirst .imp (by decide), ?_⟩
    intro hbyte
    -- for a click, the bits are the kinds that have been accepted
    have hkind : ∀ k : Mtype, (wordAfter key pre).getLsbD k.index = true ↔
        KindAccepted conf store key pre k := by
      intro k
      rw [hbits]
      constructor
      · rintro (h | ⟨j, hj, hacc⟩)
        · cases k <;> exact absurd h (by decide)
        · exact Mtype.index_injective hj ▸ hacc
      · exact fun h => .inr ⟨k, rfl, h⟩
    have hclk : a.notice.mtype = Mtype.clk.byte := hbyte
    rw [acceptedAfter_iff conf hword hexp' hkey, hclk, dspIdFlagAccepts_clk_iff, hkind, hkind]
  · intro pre hpre
    have hexp' : ∀ b ∈ pre, b.expired = [] := fun b hb => hexp b (hpre.subset hb)
    exact ⟨wordAfter key pre, (holdsWord_serveAll conf bid impid advid hword hexp').word,
      getLsbD_wordAfter conf hword hexp'⟩

end

/-! ## A win notice without a mapid -/

/-- The win notice of the sample bid comes behind its impression. -/
theorem flag_history_sample :
    AcceptedAfter sampleConf sampleStore [sampleArrival mtypeImp] (sampleArrival mtypeWin) ↔
      PassesChecks (sampleNotice mtypeWin) ∧
        ∀ b ∈ [sampleArrival mtypeImp], OnFlag (dspIdFlagKey (bytes "b") (bytes "1") (bytes "0"))
          b.notice → b.notice.mtype ≠ mtypeWin := by
  have hstore : (sampleStore .adCounterMaster).strings
      (dspIdFlagKey (bytes "b") (bytes "1") (bytes "0")) = some (bytes "1") := by
    decide
  have hexp : ∀ a ∈ [sampleArrival mtypeImp, sampleArrival mtypeWin], a.expired = [] := by
    decide
  exact ((flag_history sampleConf hstore hexp).1 [sampleArrival mtypeImp] (sampleArrival mtypeWin)
    (List.prefix_refl _) (by decide)).1 (by decide)

/-- The sample win notice without a mapid. -/
def badArrival : Arrival := ⟨{ sampleNotice mtypeWin with mapid := 0 }, fun _ => 0, []⟩

/-- The first win notice of the sample bid has no mapid: it is not accepted, and the second one
is. -/
theorem first_win_refused :
    ¬∀ pre a, pre ++ [a] <+: [badArrival, sampleArrival mtypeWin] → a.notice.mtype = mtypeWin →
      (AcceptedAfter sampleConf sampleStore pre a ↔ ∀ b ∈ pre, b.notice.mtype ≠ mtypeWin) := by
  intro h
  have hfirst := (h [] badArrival (by simp) (by decide)).mpr (by simp)
  have hiv :
      (serve sampleConf (serveAll sampleConf (.reliable sampleStore) []) badArrival).1.info.iv
        = 0 := by
    decide +kernel
  rw [AcceptedAfter, hiv] at hfirst
  exact absurd hfirst (by decide)

end AdxDsp
