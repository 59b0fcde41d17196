import AdxDsp.Tracker.Sends

/-!
# Runs of the tracker

Notices are processed one after the other.  Between two notices the lifetimes of some keys of the
counter cluster may end, and every command may fail.
-/

namespace AdxDsp

open CText Redis

/-- A notice, the readings of the clock while it is processed, and the keys of the counter cluster
whose lifetimes have ended before. -/
structure Arrival where
  notice : UrlInfo
  clk : ℕ → ℤ
  expired : List Bytes

/-- The servers when a notice is taken up. -/
def Arrival.before (a : Arrival) (w : TrackerWorld) : TrackerWorld :=
  w.expire .adCounterMaster a.expired

/-- Process one notice. -/
def serve (conf : TrackerConf) (w : TrackerWorld) (a : Arrival) : TrackerResult × TrackerWorld :=
  (adxTracker conf a.clk a.notice).exec (a.before w)

/-- Process notices one after the other. -/
def serveAll (conf : TrackerConf) (w : TrackerWorld) (as : List Arrival) : TrackerWorld :=
  as.foldl (fun w a => (serve conf w a).2) w

/-- Notices in two parts. -/
theorem serveAll_append (conf : TrackerConf) (w : TrackerWorld) (as bs : List Arrival) :
    serveAll conf w (as ++ bs) = serveAll conf (serveAll conf w as) bs := List.foldl_append

/-- One more notice. -/
theorem serveAll_concat (conf : TrackerConf) (w : TrackerWorld) (as : List Arrival) (a : Arrival) :
    serveAll conf w (as ++ [a]) = (serve conf (serveAll conf w as) a).2 := by
  rw [serveAll_append]
  rfl

/-! ## The parts of a notice's processing -/

/-- Decoding the bid keeps the type. -/
@[simp] theorem decodeBid_mtype (u : UrlInfo) : u.decodeBid.mtype = u.mtype := by
  rw [UrlInfo.decodeBid]
  split_ifs <;> rfl

/-- Decoding the bid keeps the exchange. -/
@[simp] theorem decodeBid_adx (u : UrlInfo) : u.decodeBid.adx = u.adx := by
  rw [UrlInfo.decodeBid]
  split_ifs <;> rfl

/-- Decoding the bid keeps the price. -/
@[simp] theorem decodeBid_price (u : UrlInfo) : u.decodeBid.price = u.price := by
  rw [UrlInfo.decodeBid]
  split_ifs <;> rfl

/-- Decoding the bid keeps the kind of the auction. -/
@[simp] theorem decodeBid_at (u : UrlInfo) : u.decodeBid.at_ = u.at_ := by
  rw [UrlInfo.decodeBid]
  split_ifs <;> rfl

/-- Decoding the bid keeps the mapping id. -/
@[simp] theorem decodeBid_mapid (u : UrlInfo) : u.decodeBid.mapid = u.mapid := by
  rw [UrlInfo.decodeBid]
  split_ifs <;> rfl

/-! ## The flag check of a notice -/

/-- The flag check begins with the `GET` of the word. -/
theorem dspIdFlagCheck_eq_send (u : UrlInfo) :
    dspIdFlagCheck u = .send (.adCounterMaster, .get u.flagKey) fun reply =>
      if (replyNumber 0 reply).1 = .success then
        dspIdFlagTest u (BitVec.ofInt 32 (replyNumber 0 reply).2)
      else .ret (replyNumber 0 reply).1 := rfl

/-- A successful `GET` of a number has read the number of the stored text. -/
theorem get_success {w : TrackerWorld} {v : Server} {key : Bytes} {old : ℤ}
    (h : (replyNumber old (w.exec (v, .get key)).2).1 = .success) :
    ∃ text, (w.store v).strings key = some text ∧
      (replyNumber old (w.exec (v, .get key)).2).2 = atol (cstr text) := by
  rw [World.exec] at h ⊢
  cases hs : (w.store v).strings key with
  | none =>
    split at h <;> simp [replyNumber, adxRedisReplyValue, Store.exec, hs] at h
  | some text =>
    refine ⟨text, rfl, ?_⟩
    split at h
    all_goals simp [replyNumber, adxRedisReplyValue, Store.exec, hs] at h ⊢

/-- A successful `SETEX` has stored its value. -/
theorem setex_success {w : TrackerWorld} {v : Server} {key val : Bytes} {n : ℤ} (hn : 0 < n)
    (h : adxRedisReplyCheck (w.exec (v, .setex key n val)).2 = .success) :
    ((w.exec (v, .setex key n val)).1.store v).strings key = some val := by
  rw [World.exec] at h ⊢
  split at h
  · simp [Store.exec, hn]
  all_goals simp [adxRedisReplyCheck] at h

/-- What a successful flag check has done: it has read a word that lets the notice pass, and has
stored the word with the flag of the notice. -/
theorem dspIdFlagCheck_success {u : UrlInfo} {w : TrackerWorld}
    (hm : u.mtype = mtypeWin ∨ u.mtype = mtypeImp ∨ u.mtype = mtypeClk)
    (h : ((dspIdFlagCheck u).exec w).1 = .success) :
    ∃ text, (w.store .adCounterMaster).strings u.flagKey = some text ∧
      dspIdFlagAccepts u.mtype (BitVec.ofInt 32 (atol (cstr text))) = true ∧
      (((dspIdFlagCheck u).exec w).2.store .adCounterMaster).strings u.flagKey =
        some (decimal (BitVec.ofInt 32 (atol (cstr text)) ||| dspIdFlagBit u.mtype).toInt) := by
  rw [dspIdFlagCheck_eq_send, TrackerProg.exec, Prog.eval_send] at h ⊢
  split_ifs at h ⊢ with hget
  · obtain ⟨text, hs, hval⟩ := get_success hget
    rw [hval, dspIdFlagTest, if_pos hm] at h ⊢
    split_ifs at h ⊢ with hacc hwin
    · exact ⟨text, hs, hacc, setex_success (by norm_num) h⟩
    · exact absurd h (by simp)
    · exact absurd h (by simp)
  · exact absurd h hget

/-- Both commands of a successful flag check were executed. -/
theorem outcome_of_dspIdFlagCheck_success {u : UrlInfo} {w : TrackerWorld}
    (hm : u.mtype = mtypeWin ∨ u.mtype = mtypeImp ∨ u.mtype = mtypeClk)
    (h : ((dspIdFlagCheck u).exec w).1 = .success) :
    w.outcome w.sent = .ok ∧ w.outcome (w.sent + 1) = .ok := by
  have hcheck : ∀ {w : TrackerWorld} {c : Server × Cmd},
      adxRedisReplyCheck (w.exec c).2 = .success → w.outcome w.sent = .ok := by
    intro w c hc
    rw [World.exec] at hc
    split at hc
    · assumption
    all_goals simp [adxRedisReplyCheck] at hc
  rw [dspIdFlagCheck_eq_send, TrackerProg.exec, Prog.eval_send] at h
  split_ifs at h with hget
  · have hreply : adxRedisReplyCheck (w.exec (.adCounterMaster, .get u.flagKey)).2 = .success := by
      cases hr : (w.exec (.adCounterMaster, .get u.flagKey)).2 <;>
        simp_all [replyNumber, adxRedisReplyValue, adxRedisReplyCheck]
    rw [dspIdFlagTest, if_pos hm] at h
    split_ifs at h with hacc hwin
    · have hset := hcheck h
      rw [World.sent_exec, World.outcome_exec] at hset
      exact ⟨hcheck hreply, hset⟩
    · exact absurd h (by simp)
    · exact absurd h (by simp)
  · exact absurd h hget

/-! ## The ways a notice goes -/

/-- The kinds of notices that pass the checks of the parameters. -/
theorem mtype_of_checkParams {u : UrlInfo} (h : checkParams u = .success) :
    u.mtype = mtypeWin ∨ u.mtype = mtypeImp ∨ u.mtype = mtypeClk := by
  rw [checkParams] at h
  split_ifs at h with h1 h2 h3
  exact h3

/-- An accepted notice has `iv = 1`. -/
theorem iv_trackerAccepted (conf : TrackerConf) (clk : ℕ → ℤ) (u : UrlInfo) (w : TrackerWorld) :
    ((trackerAccepted conf clk u).exec w).1.info.iv = 1 := by
  simp only [trackerAccepted, TrackerProg.exec_bind]
  split_ifs
  · rw [TrackerProg.exec_bind, TrackerProg.exec_pure]
  · rfl

/-- A notice is rejected for its parameters, or by the flag check, or it is accepted. -/
theorem serve_cases (conf : TrackerConf) (w : TrackerWorld) (a : Arrival) :
    ((serve conf w a).1.info.iv = 0 ∧ (serve conf w a).2 = a.before w) ∨
      (checkParams a.notice = .success ∧ checkIds a.notice = .success ∧
        ((serve conf w a).1.info.iv = 0 ∧
            (serve conf w a).2 = ((dspIdFlagCheck a.notice.decodeBid).exec (a.before w)).2 ∨
          ((dspIdFlagCheck a.notice.decodeBid).exec (a.before w)).1 = .success ∧
            serve conf w a = (trackerAccepted conf a.clk a.notice.decodeBid).exec
              ((dspIdFlagCheck a.notice.decodeBid).exec (a.before w)).2)) := by
  by_cases hp : checkParams a.notice = .success
  · by_cases hi : checkIds a.notice = .success
    · refine .inr ⟨hp, hi, ?_⟩
      rw [serve, adxTracker, if_neg (not_not.mpr hp), if_neg (not_not.mpr hi)]
      simp only [TrackerProg.exec_bind]
      split_ifs with hs
      · exact .inr ⟨hs, rfl⟩
      · exact .inl ⟨rfl, rfl⟩
    · left
      rw [serve, adxTracker, if_neg (not_not.mpr hp), if_pos hi]
      exact ⟨rfl, rfl⟩
  · left
    rw [serve, adxTracker, if_pos hp]
    exact ⟨rfl, rfl⟩

/-! ## A sample notice -/

/-- A notice of exchange 14 for bid `b`, imp `1`, advertiser slot `0`, with a price. -/
def sampleNotice (mtype : UInt8) : UrlInfo where
  remoteaddr := []
  ip := bytes "36.110.73.210"
  mtype := mtype
  bid := bytes "b"
  at_ := 0
  mapid := 31
  impid := bytes "1"
  impt := bytes "1"
  impm := bytes "0,0"
  w := bytes "320"
  h := bytes "50"
  deviceid := bytes "123"
  deviceidtype := 16
  adx := 14
  price := bytes "p"
  curl := []
  appid := bytes "9"
  nw := bytes "1"
  os := bytes "1"
  gp := bytes "1156110000"
  tp := bytes "2"
  mb := bytes "1"
  md := bytes "m"
  op := bytes "1"
  ds := []
  dealid := []
  advid := bytes "0"
  activationParameter := []
  ua := []

/-- The servers after the bid: the flag word of bid `b` is 1. -/
def sampleStore (_ : Server) : Store :=
  Store.empty.setString (dspIdFlagKey (bytes "b") (bytes "1") (bytes "0")) (bytes "1") none

end AdxDsp
