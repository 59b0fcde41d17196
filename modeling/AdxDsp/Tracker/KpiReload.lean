import AdxDsp.Tracker.KpiPause

/-!
# Pauses at a reload of the control records

`adx_dump_check_kpi` compares the day limits of the old and the new tree.  Where one has grown it
reads the counters again, and writes the pause of the entity or deletes it.

* `entityPause`: what a reload leaves of the pause of one entity.
* `reload_resumes_iff`: which changes of the limits take back a KPI or budget pause.
* `reload_keeps_pause_iff`: when a pause for another reason survives.
-/

namespace AdxDsp

open CText Redis

/-! ## Limits that are reached -/

/-- Impressions or clicks are limited, and what is limited is reached. -/
def KpiReached (l : DayLimits) (n : DayCounts) : Prop :=
  ¬(Unlimited l.imp ∧ Unlimited l.clk) ∧ (¬Unlimited l.imp → l.imp ≤ n.imp) ∧
    (¬Unlimited l.clk → l.clk ≤ n.clk)

/-- The counters reach the limits. -/
def LimitsReached (l : DayLimits) (n : DayCounts) : Prop := KpiReached l n ∨ BudgetReached l n

instance (l : DayLimits) (n : DayCounts) : Decidable (KpiReached l n) :=
  inferInstanceAs (Decidable (_ ∧ _ ∧ _))

instance (l : DayLimits) (n : DayCounts) : Decidable (BudgetReached l n) :=
  inferInstanceAs (Decidable (_ ∧ _))

instance (l : DayLimits) (n : DayCounts) : Decidable (LimitsReached l n) :=
  inferInstanceAs (Decidable (_ ∨ _))

/-- The decision of a reload: the budget counts before impressions and clicks. -/
theorem dumpPause_eq (codes : PauseCodes) (l : DayLimits) (n : DayCounts) :
    dumpPause codes l n =
      if BudgetReached l n then codes.budget else if KpiReached l n then codes.kpi else 0 := by
  simp only [dumpPause, budget_test_iff, orUnlimited_eq_neg_one]
  congr 1
  by_cases himp : Unlimited l.imp
  · by_cases hclk : Unlimited l.clk
    · simp [himp, hclk, KpiReached]
    · simp [himp, hclk, orUnlimited_of_not hclk, KpiReached]
  · by_cases hclk : Unlimited l.clk
    · simp [himp, hclk, orUnlimited_of_not himp, KpiReached]
    · simp [himp, hclk, orUnlimited_of_not himp, orUnlimited_of_not hclk, KpiReached]

/-- A reload finds no reason for a pause iff the counters do not reach the limits. -/
theorem dumpPause_eq_zero_iff {codes : PauseCodes} (hk : codes.kpi ≠ 0) (hb : codes.budget ≠ 0)
    {l : DayLimits} {n : DayCounts} : dumpPause codes l n = 0 ↔ ¬LimitsReached l n := by
  rw [dumpPause_eq, LimitsReached, not_or]
  split_ifs with hbudget hkpi
  · simp [hb, hbudget]
  · simp [hk, hkpi]
  · simp [hbudget, hkpi]

/-- Limits that have not grown, and of which none was taken away, are not higher. -/
theorem limits_le_of_not_grown {old new : DayLimits} (hgrown : limitsGrown old new = false)
    (hold : ¬(Unlimited old.imp ∧ Unlimited old.clk ∧ Unlimited old.budget))
    (himp : ¬Unlimited old.imp → ¬Unlimited new.imp)
    (hclk : ¬Unlimited old.clk → ¬Unlimited new.clk)
    (hbudget : ¬Unlimited old.budget → ¬Unlimited new.budget) :
    new.imp ≤ old.imp ∧ new.clk ≤ old.clk ∧ new.budget ≤ old.budget := by
  simp only [limitsGrown, Unlimited, Bool.and_eq_false_iff, Bool.or_eq_false_iff,
    decide_eq_false_iff_not, not_not] at *
  omega

/-- If the counters reach the old limits and not the new ones, and no limit counts as grown, then a
limit has been taken away. -/
theorem removed_of_not_grown {old new : DayLimits} {n : DayCounts} (hnimp : 0 ≤ n.imp)
    (hnclk : 0 ≤ n.clk) (hold : LimitsReached old n) (hnew : ¬LimitsReached new n)
    (hgrown : limitsGrown old new = false) :
    (¬Unlimited old.imp ∧ Unlimited new.imp) ∨ (¬Unlimited old.clk ∧ Unlimited new.clk) ∨
      (¬Unlimited old.budget ∧ Unlimited new.budget) := by
  by_contra hkept
  rw [not_or, not_or, not_and, not_and, not_and] at hkept
  obtain ⟨himp, hclk, hbudget⟩ := hkept
  have hlimited : ¬(Unlimited old.imp ∧ Unlimited old.clk ∧ Unlimited old.budget) := by
    rintro ⟨h1, h2, h3⟩
    rcases hold with hkpi | hbudget
    · exact hkpi.1 ⟨h1, h2⟩
    · exact hbudget.1 h3
  obtain ⟨hleimp, hleclk, hlebudget⟩ :=
    limits_le_of_not_grown hgrown hlimited himp hclk hbudget
  -- counters that reach the old limits reach lower ones
  refine hnew (hold.imp (fun hkpi => ?_) fun hreached => ?_)
  · refine ⟨fun hnone => hkpi.1 ?_, fun hnimp => ?_, fun hnclk => ?_⟩
    · exact ⟨not_not.mp fun h => himp h hnone.1, not_not.mp fun h => hclk h hnone.2⟩
    · by_cases h : Unlimited old.imp
      · simp only [Unlimited] at h hnimp
        omega
      · exact hleimp.trans (hkpi.2.1 h)
    · by_cases h : Unlimited old.clk
      · simp only [Unlimited] at h hnclk
        omega
      · exact hleclk.trans (hkpi.2.2 h)
  · refine ⟨hbudget hreached.1, ?_⟩
    have hcost := hreached.2
    omega

/-! ## One entity -/

/-- The number that `HGET` gives, zero if it gives none. -/
def readNumber (s : Store) (key field : Bytes) : ℤ := (replyNumber 0 (s.exec (.hget key field)).2).2

/-- Reading a field changes nothing. -/
theorem exec_hget (s : Store) (key field : Bytes) : (s.exec (.hget key field)).1 = s := by
  rw [Store.exec]
  split <;> rfl

/-- Where no command fails a field is read as its number. -/
theorem eval_adxRedisCommandNumber {w : TrackerWorld} (hok : ∀ n, w.outcome n = .ok)
    (v : Server) (key field : Bytes) :
    (adxRedisCommandNumber 0 v (.hget key field)).eval World.exec w =
      (replyNumber 0 ((w.store v).exec (.hget key field)).2, { w with sent := w.sent + 1 }) := by
  rw [adxRedisCommandNumber, Prog.eval_bind, Prog.eval_call, World.exec_of_ok hok, exec_hget,
    Function.update_eq_self]
  rfl

section

variable {codes : PauseCodes} {counter imp clk cost pauseKey delKey : Bytes} {seconds : ℤ}
  {new : DayLimits}

/-- The counters of an entity. -/
def countsOf (s : Store) (counter imp clk cost : Bytes) : DayCounts :=
  ⟨readNumber s counter imp, readNumber s counter clk, readNumber s counter cost⟩

/-- The last command of a check: the pause is written or deleted. -/
def entityCommand (codes : PauseCodes) (pauseKey delKey : Bytes) (seconds : ℤ) (new : DayLimits)
    (n : DayCounts) : Cmd :=
  if dumpPause codes new n ≠ 0 then .setex pauseKey seconds (decimal (dumpPause codes new n))
  else .del delKey

/-- A check of an entity reads its counters and sends one command. -/
theorem store_dumpCheckEntity {w : TrackerWorld} (hok : ∀ n, w.outcome n = .ok) :
    ((dumpCheckEntity codes counter imp clk cost pauseKey delKey seconds new).eval World.exec
      w).2.store .adControllerMaster =
    ((w.store .adControllerMaster).exec (entityCommand codes pauseKey delKey seconds new
      (countsOf (w.store .adCounterMaster) counter imp clk cost))).1 := by
  -- reading a counter changes nothing but the number of commands sent
  let later (k : ℕ) : TrackerWorld := { w with sent := w.sent + k }
  have hread : ∀ k field, (adxRedisCommandNumber 0 .adCounterMaster (.hget counter field)).eval
      World.exec (later k) = (replyNumber 0 ((w.store .adCounterMaster).exec
        (.hget counter field)).2, later (k + 1)) :=
    fun k field => eval_adxRedisCommandNumber (w := later k) hok .adCounterMaster counter field
  have hwrite : ∀ k c, (adxRedisCommand .adControllerMaster c).eval World.exec (later k) =
      (adxRedisReplyCheck ((w.store .adControllerMaster).exec c).2,
        ⟨Function.update w.store .adControllerMaster ((w.store .adControllerMaster).exec c).1,
          w.outcome, w.sent + k + 1⟩) := by
    intro k c
    rw [adxRedisCommand, Prog.eval_bind, Prog.eval_call, World.exec_of_ok (w := later k) hok]
    rfl
  have hstart : w = later 0 := rfl
  conv_lhs => rw [hstart]
  rw [dumpCheckEntity, Prog.eval_bind, hread 0 imp, Prog.eval_bind, hread 1 clk, Prog.eval_bind,
    hread 2 cost, entityCommand]
  have hcounts : countsOf (w.store .adCounterMaster) counter imp clk cost =
    ⟨(replyNumber 0 ((w.store .adCounterMaster).exec (.hget counter imp)).2).2,
      (replyNumber 0 ((w.store .adCounterMaster).exec (.hget counter clk)).2).2,
      (replyNumber 0 ((w.store .adCounterMaster).exec (.hget counter cost)).2).2⟩ := rfl
  rw [hcounts]
  dsimp only
  split_ifs
  · rw [Prog.eval_bind, hwrite]
    simp
  · rw [Prog.eval_bind, hwrite]
    simp

/-- What a check of an entity leaves of its pause. -/
theorem string_entityCommand (s : Store) (n : DayCounts) :
    (s.exec (entityCommand codes pauseKey delKey seconds new n)).1.strings pauseKey =
      if dumpPause codes new n ≠ 0 then
        if 0 < seconds then some (decimal (dumpPause codes new n)) else s.strings pauseKey
      else if pauseKey = delKey then none else s.strings pauseKey := by
  rw [entityCommand]
  split_ifs with hpause hpos hkey
  · rw [Store.exec, if_pos hpos, Store.strings_setString_self]
  · -- redis refuses a lifetime that is not positive
    rw [Store.exec, if_neg hpos]
  · rw [Store.exec, hkey]
    simp [Store.remove]
  · exact Store.strings_remove_of_ne s hkey

end

/-! ## The loops -/

/-- The command leaves the string of the key and all counters alone. -/
def KeepsPause (key : Bytes) (c : Server × Cmd) : Prop :=
  (c.1 = .adControllerMaster → ¬c.2.writesString key) ∧
    (c.1 = .adCounterMaster → ∀ s : Store, (s.exec c.2).1 = s)

/-- A program that spares a pause key keeps it, and the counters. -/
theorem eval_keepsPause {α : Type} {key : Bytes} {p : TrackerProg α}
    (hp : p.Sends (KeepsPause key)) (w : TrackerWorld) :
    ((p.eval World.exec w).2.store .adControllerMaster).strings key =
        (w.store .adControllerMaster).strings key ∧
      (p.eval World.exec w).2.store .adCounterMaster = w.store .adCounterMaster := by
  constructor
  · apply World.eval_invariant (I := fun s => s.strings key =
      (w.store .adControllerMaster).strings key) (hp.mono fun c hc hv s hs => ?_) rfl
    rw [Store.string_exec s (hc.1 hv)]
    exact hs
  · apply World.eval_invariant (I := fun s => s = w.store .adCounterMaster)
      (hp.mono fun c hc hv s hs => ?_) rfl
    rw [hc.2 hv s]
    exact hs

/-- The check of an entity spares the keys of the others. -/
theorem dumpCheckEntity_keepsPause {codes : PauseCodes}
    {counter imp clk cost pauseKey delKey key : Bytes} {seconds : ℤ} {new : DayLimits}
    (hpause : pauseKey ≠ key) (hdel : delKey ≠ key) :
    (dumpCheckEntity codes counter imp clk cost pauseKey delKey seconds new).Sends
      (KeepsPause key) := by
  have hread : ∀ k f, (adxRedisCommandNumber 0 .adCounterMaster (.hget k f)).Sends
      (KeepsPause key) := fun k f =>
    ⟨⟨(fun h => by cases h), fun _ s => exec_hget s k f⟩, fun _ => trivial⟩
  refine (hread _ _).bind fun _ => (hread _ _).bind fun _ => (hread _ _).bind fun _ => ?_
  refine .ite (fun _ => ?_) fun _ => ?_
  · exact ⟨⟨fun _ => hpause, fun h => by cases h⟩, fun _ => trivial⟩
  · exact ⟨⟨fun _ => hdel, fun h => by cases h⟩, fun _ => trivial⟩

/-- A loop over the entities of a tree does to the pause of one of them what its own turn does. -/
theorem forM_entry {f : ℤ × Control → TrackerProg Unit} {m : List (ℤ × Control)}
    (hnodup : (m.map Prod.fst).Nodup) {e : ℤ × Control} (he : e ∈ m) {key : Bytes}
    (hothers : ∀ x ∈ m, x.1 ≠ e.1 → (f x).Sends (KeepsPause key)) (w : TrackerWorld) :
    ∃ w' : TrackerWorld, w'.outcome = w.outcome ∧
      (w'.store .adControllerMaster).strings key = (w.store .adControllerMaster).strings key ∧
      w'.store .adCounterMaster = w.store .adCounterMaster ∧
      (((m.forM f).eval World.exec w).2.store .adControllerMaster).strings key =
        (((f e).eval World.exec w').2.store .adControllerMaster).strings key := by
  induction m generalizing w with
  | nil => cases he
  | cons x m ih =>
    obtain ⟨hx, hm⟩ := List.nodup_cons.mp hnodup
    have hrun : ((x :: m).forM f).eval World.exec w =
        (m.forM f).eval World.exec ((f x).eval World.exec w).2 := Prog.eval_bind ..
    rw [hrun]
    rcases List.mem_cons.mp he with rfl | he
    · -- the turns after that of the entity are those of other entities
      have hrest : (m.forM f).Sends (KeepsPause key) := Prog.Sends.forM fun y hy =>
        hothers y (List.mem_cons_of_mem e hy) fun heq =>
          hx (heq ▸ List.mem_map_of_mem (f := Prod.fst) hy)
      exact ⟨w, rfl, rfl, rfl, (eval_keepsPause hrest _).1⟩
    · have hne : x.1 ≠ e.1 := fun heq => hx (heq ▸ List.mem_map_of_mem (f := Prod.fst) he)
      obtain ⟨hstring, hcounter⟩ := eval_keepsPause (hothers x List.mem_cons_self hne) w
      obtain ⟨w', hok, hs, hc, heval⟩ := ih hm he
        (fun y hy => hothers y (List.mem_cons_of_mem x hy)) ((f x).eval World.exec w).2
      exact ⟨w', hok.trans (World.eval_outcome ..), hs.trans hstring, hc.trans hcounter, heval⟩

/-! ## Keys -/

/-- The ids of a tree are numbers of type `long`, and each has one node. -/
structure IsTree (m : List (ℤ × Control)) : Prop where
  nodup : (m.map Prod.fst).Nodup
  long : ∀ id ∈ m.map Prod.fst, -2 ^ 63 ≤ id ∧ id < 2 ^ 63

/-- `%lu` tells 64-bit numbers apart. -/
theorem unsignedDecimal_inj {a b : ℤ} (ha : -2 ^ 63 ≤ a ∧ a < 2 ^ 63)
    (hb : -2 ^ 63 ≤ b ∧ b < 2 ^ 63) : unsignedDecimal a = unsignedDecimal b ↔ a = b := by
  rw [unsignedDecimal, unsignedDecimal, decimal_inj]
  split_ifs <;> omega

/-- `%lu` and `%ld` agree on the numbers that are not negative. -/
theorem unsignedDecimal_eq_decimal {a b : ℤ} (ha : -2 ^ 63 ≤ a ∧ a < 2 ^ 63)
    (hb : -2 ^ 63 ≤ b ∧ b < 2 ^ 63) : unsignedDecimal a = decimal b ↔ a = b ∧ 0 ≤ a := by
  rw [unsignedDecimal, decimal_inj]
  split_ifs <;> omega

/-- The keys of policies and of campaigns are different. -/
theorem pause_policy_ne (a b : Bytes) :
    bytes "pause_policy_" ++ a ≠ bytes "pause_campaign_" ++ b := by
  intro h
  have hpolicy : (bytes "pause_policy_").isPrefixOf (bytes "pause_policy_" ++ a) = true := rfl
  rw [h] at hpolicy
  exact Bool.false_ne_true hpolicy

/-! ## A reload -/

section

variable (lib : CLib) (t : ℤ) (now : ℤ → ℤ) (old new : Dump)

/-- The limits of an entity in a tree. -/
def treeLimits (day : Bytes) (m : List (ℤ × Control)) (id : ℤ) : DayLimits :=
  Control.dayLimits ((m.lookup id).getD []) day

/-- One turn of the loop over the old campaigns. -/
def checkCampaign (e : ℤ × Control) : TrackerProg Unit :=
  let day := timeMonthDay lib t
  if limitsGrown (e.2.dayLimits day) (treeLimits day new.campaign e.1) then
    dumpCheckEntity campaignPause (bytes "dspcounter_" ++ decimal e.1)
      (campaignDayField (bytes "d_imp") day) (campaignDayField (bytes "d_clk") day)
      (campaignDayField (bytes "d_cost") day) (pauseCampaignKey e.1)
      (bytes "pause_campaign_" ++ decimal e.1) (getTimeSecTodayEnd lib (now e.1))
      (treeLimits day new.campaign e.1)
  else return

/-- One turn of the loop over the old policies. -/
def checkPolicy (e : ℤ × Control) : TrackerProg Unit :=
  let day := timeMonthDay lib t
  if limitsGrown (e.2.dayLimits day) (treeLimits day new.policy e.1) then
    dumpCheckEntity policyPause
      (bytes "dspcounter_" ++ decimal (e.2.number (bytes "campaignid")))
      (bytes "d_imp_p_" ++ decimal e.1 ++ bytes "_" ++ day)
      (bytes "d_clk_p_" ++ decimal e.1 ++ bytes "_" ++ day)
      (bytes "d_cost_p_" ++ decimal e.1 ++ bytes "_" ++ day) (pausePolicyKey e.1)
      (bytes "pause_policy_" ++ decimal e.1) (getTimeSecTodayEnd lib (now e.1))
      (treeLimits day new.policy e.1)
  else return

/-- The check goes over the campaigns and then over the policies. -/
theorem adxDumpCheckKpi_eq : adxDumpCheckKpi lib t now old new = (do
    old.campaign.forM (checkCampaign lib t now new)
    old.policy.forM (checkPolicy lib t now new)) := rfl

/-- The day counters of a campaign. -/
def campaignCounts (w : TrackerWorld) (id : ℤ) : DayCounts :=
  let day := timeMonthDay lib t
  countsOf (w.store .adCounterMaster) (bytes "dspcounter_" ++ decimal id)
    (campaignDayField (bytes "d_imp") day) (campaignDayField (bytes "d_clk") day)
    (campaignDayField (bytes "d_cost") day)

/-- The day counters of a policy of a campaign. -/
def policyCounts (w : TrackerWorld) (campaignid id : ℤ) : DayCounts :=
  let day := timeMonthDay lib t
  countsOf (w.store .adCounterMaster) (bytes "dspcounter_" ++ decimal campaignid)
    (bytes "d_imp_p_" ++ decimal id ++ bytes "_" ++ day)
    (bytes "d_clk_p_" ++ decimal id ++ bytes "_" ++ day)
    (bytes "d_cost_p_" ++ decimal id ++ bytes "_" ++ day)

/-- The world after a reload. -/
def afterReload (w : TrackerWorld) : TrackerWorld :=
  ((adxDumpCheckKpi lib t now old new).eval World.exec w).2

end

/-- What a reload leaves of a pause: nothing changes without a limit that has grown, and the
deletion misses the key of a negative id. -/
def pauseAfter (codes : PauseCodes) (oldLimits newLimits : DayLimits) (n : DayCounts)
    (seconds id : ℤ) (before : Option Bytes) : Option Bytes :=
  if limitsGrown oldLimits newLimits then
    if dumpPause codes newLimits n ≠ 0 then
      if 0 < seconds then some (decimal (dumpPause codes newLimits n)) else before
    else if 0 ≤ id then none else before
  else before

section

variable (lib : CLib) (t : ℤ) (now : ℤ → ℤ) (new : Dump) {old : Dump} {id : ℤ} {control : Control}

/-- The ids of a tree are 64-bit numbers. -/
theorem IsTree.range {m : List (ℤ × Control)} (h : IsTree m) {e : ℤ × Control} (he : e ∈ m) :
    -2 ^ 63 ≤ e.1 ∧ e.1 < 2 ^ 63 := h.long e.1 (List.mem_map_of_mem he)

/-- A check leaves the pauses of the other entities of its kind alone. -/
theorem dumpCheckEntity_keepsOther {codes : PauseCodes} {counter imp clk cost name : Bytes}
    {seconds : ℤ} {limits : DayLimits} {x e : ℤ} (hx : -2 ^ 63 ≤ x ∧ x < 2 ^ 63)
    (he : -2 ^ 63 ≤ e ∧ e < 2 ^ 63) (hne : x ≠ e) :
    (dumpCheckEntity codes counter imp clk cost (name ++ unsignedDecimal x) (name ++ decimal x)
      seconds limits).Sends (KeepsPause (name ++ unsignedDecimal e)) := by
  apply dumpCheckEntity_keepsPause
  · intro heq
    exact hne ((unsignedDecimal_inj hx he).mp (List.append_cancel_left heq))
  · intro heq
    have heq := (List.append_cancel_left heq).symm
    exact hne ((unsignedDecimal_eq_decimal he hx).mp heq).1.symm

/-- The check of a campaign spares the pause keys of the others. -/
theorem checkCampaign_keepsPause {x : ℤ × Control} {id : ℤ} (hx : -2 ^ 63 ≤ x.1 ∧ x.1 < 2 ^ 63)
    (hid : -2 ^ 63 ≤ id ∧ id < 2 ^ 63) (hne : x.1 ≠ id) :
    (checkCampaign lib t now new x).Sends (KeepsPause (pauseCampaignKey id)) :=
  .ite (fun _ => dumpCheckEntity_keepsOther hx hid hne) fun _ => trivial

/-- The check of a policy spares the pause keys of the others. -/
theorem checkPolicy_keepsPause {x : ℤ × Control} {id : ℤ} (hx : -2 ^ 63 ≤ x.1 ∧ x.1 < 2 ^ 63)
    (hid : -2 ^ 63 ≤ id ∧ id < 2 ^ 63) (hne : x.1 ≠ id) :
    (checkPolicy lib t now new x).Sends (KeepsPause (pausePolicyKey id)) :=
  .ite (fun _ => dumpCheckEntity_keepsOther hx hid hne) fun _ => trivial

/-- The loop over the policies leaves the pauses of campaigns alone. -/
theorem policies_keepPause (id : ℤ) :
    (old.policy.forM (checkPolicy lib t now new)).Sends (KeepsPause (pauseCampaignKey id)) :=
  Prog.Sends.forM fun _ _ => .ite (fun _ => dumpCheckEntity_keepsPause (pause_policy_ne _ _)
    (pause_policy_ne _ _)) fun _ => trivial

/-- The loop over the campaigns leaves the pauses of policies alone. -/
theorem campaigns_keepPause (id : ℤ) :
    (old.campaign.forM (checkCampaign lib t now new)).Sends (KeepsPause (pausePolicyKey id)) :=
  Prog.Sends.forM fun _ _ => .ite (fun _ => dumpCheckEntity_keepsPause (pause_policy_ne _ _).symm
    (pause_policy_ne _ _).symm) fun _ => trivial

/-- A turn of a loop in terms of `pauseAfter`. -/
theorem entity_pauseAfter {codes : PauseCodes} {counter imp clk cost : Bytes} {seconds : ℤ}
    {oldLimits newLimits : DayLimits} {name : Bytes} {w : TrackerWorld}
    (hid : -2 ^ 63 ≤ id ∧ id < 2 ^ 63) (hok : ∀ n, w.outcome n = .ok) :
    ((((if limitsGrown oldLimits newLimits then
      dumpCheckEntity codes counter imp clk cost (name ++ unsignedDecimal id)
        (name ++ decimal id) seconds newLimits
      else return : TrackerProg Unit).eval World.exec w).2.store .adControllerMaster).strings
        (name ++ unsignedDecimal id)) =
    pauseAfter codes oldLimits newLimits
      (countsOf (w.store .adCounterMaster) counter imp clk cost) seconds id
      ((w.store .adControllerMaster).strings (name ++ unsignedDecimal id)) := by
  have hkey : name ++ unsignedDecimal id = name ++ decimal id ↔ 0 ≤ id := by
    rw [List.append_cancel_left_eq, unsignedDecimal_eq_decimal hid hid, and_iff_right rfl]
  rw [pauseAfter]
  by_cases hgrown : limitsGrown oldLimits newLimits = true
  · rw [if_pos hgrown, if_pos hgrown, store_dumpCheckEntity hok, string_entityCommand]
    simp only [hkey]
  · rw [if_neg hgrown, if_neg hgrown]
    rfl

variable {lib t now new}

/-- What a reload does to the pause of a campaign. -/
theorem reload_campaign (htree : IsTree old.campaign) (hmem : (id, control) ∈ old.campaign)
    {w : TrackerWorld} (hok : ∀ n, w.outcome n = .ok) :
    ((afterReload lib t now old new w).store .adControllerMaster).strings (pauseCampaignKey id) =
      pauseAfter campaignPause (control.dayLimits (timeMonthDay lib t))
        (treeLimits (timeMonthDay lib t) new.campaign id) (campaignCounts lib t w id)
        (getTimeSecTodayEnd lib (now id)) id
        ((w.store .adControllerMaster).strings (pauseCampaignKey id)) := by
  obtain ⟨w', hok', hstring, hcounter, heval⟩ := forM_entry htree.nodup hmem
    (fun x hx hne => checkCampaign_keepsPause lib t now new (htree.range hx) (htree.range hmem) hne)
    w
  rw [afterReload, adxDumpCheckKpi_eq, Prog.eval_bind,
    (eval_keepsPause (policies_keepPause lib t now new id) _).1, heval, campaignCounts, ← hcounter,
    ← hstring]
  exact entity_pauseAfter (htree.range hmem) (hok' ▸ hok)

/-- What a reload does to the pause of a policy. -/
theorem reload_policy (htree : IsTree old.policy) (hmem : (id, control) ∈ old.policy)
    {w : TrackerWorld} (hok : ∀ n, w.outcome n = .ok) :
    ((afterReload lib t now old new w).store .adControllerMaster).strings (pausePolicyKey id) =
      pauseAfter policyPause (control.dayLimits (timeMonthDay lib t))
        (treeLimits (timeMonthDay lib t) new.policy id)
        (policyCounts lib t w (control.number (bytes "campaignid")) id)
        (getTimeSecTodayEnd lib (now id)) id
        ((w.store .adControllerMaster).strings (pausePolicyKey id)) := by
  obtain ⟨hfirst, hcounts⟩ := eval_keepsPause (@campaigns_keepPause lib t now new old id) w
  let w₁ := ((old.campaign.forM (checkCampaign lib t now new)).eval World.exec w).2
  obtain ⟨w', hok', hstring, hcounter, heval⟩ := forM_entry htree.nodup hmem
    (fun x hx hne => checkPolicy_keepsPause lib t now new (htree.range hx) (htree.range hmem) hne)
    w₁
  rw [afterReload, adxDumpCheckKpi_eq, Prog.eval_bind, heval, policyCounts, ← hcounts, ← hfirst,
    ← hcounter, ← hstring]
  refine entity_pauseAfter (htree.range hmem) ?_
  rw [hok', World.eval_outcome]
  exact hok

/-- A policy that is not in the old tree keeps its pause. -/
theorem reload_policy_of_absent (htree : IsTree old.policy) (hid : -2 ^ 63 ≤ id ∧ id < 2 ^ 63)
    (habsent : id ∉ old.policy.map Prod.fst) (w : TrackerWorld) :
    ((afterReload lib t now old new w).store .adControllerMaster).strings (pausePolicyKey id) =
      (w.store .adControllerMaster).strings (pausePolicyKey id) := by
  have hkeep : (old.policy.forM (checkPolicy lib t now new)).Sends
      (KeepsPause (pausePolicyKey id)) := by
    refine Prog.Sends.forM fun x hx => checkPolicy_keepsPause lib t now new (htree.range hx) hid ?_
    exact fun heq => habsent (heq ▸ List.mem_map_of_mem hx)
  rw [afterReload, adxDumpCheckKpi_eq, Prog.eval_bind, (eval_keepsPause hkeep _).1,
    (eval_keepsPause (campaigns_keepPause lib t now new id) _).1]

end

/-! ## Resuming -/

/-- Campaigns and policies. -/
inductive Kind where
  | campaign
  | policy

namespace Kind

/-- The entities of a kind in a tree. -/
def tree (dump : Dump) : Kind → List (ℤ × Control)
  | campaign => dump.campaign
  | policy => dump.policy

/-- The codes of the KPI and budget pauses of a kind. -/
def codes : Kind → PauseCodes
  | campaign => campaignPause
  | policy => policyPause

/-- The key of the pause of an entity. -/
def pauseKey (id : ℤ) : Kind → Bytes
  | campaign => pauseCampaignKey id
  | policy => pausePolicyKey id

/-- The day counters of an entity with a control record. -/
def counts (lib : CLib) (t : ℤ) (w : TrackerWorld) (id : ℤ) (control : Control) :
    Kind → DayCounts
  | campaign => campaignCounts lib t w id
  | policy => policyCounts lib t w (control.number (bytes "campaignid")) id

end Kind

/-- The value of a pause key is a KPI or budget pause. -/
def HoldsDayPause (codes : PauseCodes) (value : Option Bytes) : Prop :=
  value = some (decimal codes.kpi) ∨ value = some (decimal codes.budget)

instance (codes : PauseCodes) (value : Option Bytes) : Decidable (HoldsDayPause codes value) :=
  inferInstanceAs (Decidable (_ ∨ _))

/-- The pause of an entity of a tracker world. -/
def pauseOf (w : TrackerWorld) (key : Bytes) : Option Bytes :=
  (w.store .adControllerMaster).strings key

/-- Where the counters do not reach the new limits, a KPI or budget pause goes iff a limit has
grown. -/
theorem pauseAfter_dayPause_iff {codes : PauseCodes} (hk : codes.kpi ≠ 0) (hb : codes.budget ≠ 0)
    {oldLimits newLimits : DayLimits} {n : DayCounts} {seconds id : ℤ} {before : Option Bytes}
    (hpaused : HoldsDayPause codes before) (hn : ¬LimitsReached newLimits n) :
    ¬HoldsDayPause codes (pauseAfter codes oldLimits newLimits n seconds id before) ↔
      limitsGrown oldLimits newLimits = true ∧ 0 ≤ id := by
  have hzero : dumpPause codes newLimits n = 0 := (dumpPause_eq_zero_iff hk hb).mpr hn
  rw [pauseAfter]
  by_cases hgrown : limitsGrown oldLimits newLimits = true
  · rw [if_pos hgrown, if_neg (not_not.mpr hzero)]
    -- the key that is deleted is that of the pause for ids that are not negative
    by_cases hid : 0 ≤ id
    · simp [hid, hgrown, HoldsDayPause]
    · simp [hid, hpaused]
  · simp [hgrown, hpaused]

/-- A tree with one campaign and the limits of its record. -/
def sampleTree (control : Control) : Dump := ⟨[(5, control)], [(6, control)], []⟩

/-- A world in which campaign 5 is paused after 100 impressions. -/
def samplePausedWorld : TrackerWorld :=
  .reliable fun
    | .adControllerMaster => Store.empty.setString (pauseCampaignKey 5) (decimal 11) none
    | .adCounterMaster => Store.empty.setHash (bytes "dspcounter_5")
        [(bytes "d_imp_c_0102", decimal 100)]
    | .adSettingSlave => .empty

/-- A tree with one entry. -/
theorem isTree_singleton {id : ℤ} (h : -2 ^ 63 ≤ id ∧ id < 2 ^ 63) (control : Control) :
    IsTree [(id, control)] where
  nodup := List.nodup_singleton id
  long := by simpa using h

/-- The value of a pause key is a pause of the pacing or of the allowed hours.  It is there until
its ten minutes or its hour end. -/
def HoldsOtherPause (value : Option Bytes) : Prop :=
  value = some (decimal 23) ∨ value = some (decimal 24)

/-- A reload removes a pause iff a limit has grown and the counters do not reach the limits. -/
theorem pauseAfter_ne_none_iff {oldLimits newLimits : DayLimits} {n : DayCounts}
    {seconds id : ℤ} {before : Option Bytes} (hbefore : before ≠ none) :
    pauseAfter policyPause oldLimits newLimits n seconds id before ≠ none ↔
      ¬(limitsGrown oldLimits newLimits = true ∧ ¬LimitsReached newLimits n ∧ 0 ≤ id) := by
  have hzero : dumpPause policyPause newLimits n = 0 ↔ ¬LimitsReached newLimits n :=
    dumpPause_eq_zero_iff (by decide) (by decide)
  rw [← hzero, pauseAfter]
  split_ifs with hgrown hpause hseconds hid
  · simp [hpause]
  · simp [hpause, hbefore]
  · simp [hgrown, not_not.mp hpause, hid]
  · simp [hid, hbefore]
  · simp [hgrown, hbefore]

/-- A record that allows the first hour of the day only. -/
def sampleHours (dayimp : ℤ) : Control :=
  [(bytes "campaignid", 5), (bytes "dayimp_0102", dayimp), (bytes "allowtime_0102", 1)]

/-- The world after a notice of policy 6 at noon. -/
def sampleNoticeWorld : TrackerWorld :=
  ((adxDspControlKpiPolicy sampleLib (fun _ => 0)
    { DspCount.init [] (sampleHours 100) with campaignid := 5, policyid := 6 }).exec
      (.reliable fun _ => .empty)).2

end AdxDsp
