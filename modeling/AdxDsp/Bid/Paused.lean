import AdxDsp.Bid.Pipeline

/-!
# Paused campaigns and policies

A policy that is paused, or whose campaign is, does not get through `FilterPolicies`, as long as the
bidder trusts the control data and has read the pause.

* `paused_filtered`: when a pause in redis keeps a policy from being selected.
* `untrusted_pause_selected`: without the stamp of the control data, nothing is paused.
-/

namespace AdxDsp

open CText Redis

/-! ## Reading only -/

/-- `GET` reads only. -/
theorem reads_get (v : CtrlServer) (key : Bytes) : World.Reads (v, .get key) := by
  intro s
  show (s.exec (.get key)).1 = s
  rw [Store.exec]
  split <;> rfl

/-- `SMEMBERS` reads only. -/
theorem reads_smembers (v : CtrlServer) (key : Bytes) : World.Reads (v, .smembers key) :=
  fun _ => rfl

/-- The wrapper of `GET` reads only. -/
theorem xRedisGet_reads (v : CtrlServer) (key : Bytes) : (xRedisGet v key).Sends World.Reads := by
  refine ⟨reads_get v key, fun r => ?_⟩
  cases r <;> exact .ret _

/-- The wrapper of `SMEMBERS` reads only. -/
theorem xRedisSmembers_reads (v : CtrlServer) (key : Bytes) :
    (xRedisSmembers v key).Sends World.Reads := by
  refine ⟨reads_smembers v key, fun r => ?_⟩
  cases r <;> exact .ret _

section

variable (lib : JsonLib) (adx : ℤ)

/-- Looking up a campaign reads only. -/
theorem getCampaignId_reads (policyid : Bytes) :
    (getCampaignId lib adx policyid).Sends World.Reads :=
  .bind (xRedisGet_reads _ _) fun _ => .ret _

/-- Looking up creatives reads only. -/
theorem getCreativeIds_reads (mapids : List Bytes) :
    (getCreativeIds lib mapids).Sends World.Reads := by
  induction mapids with
  | nil => exact .ret _
  | cons mapid rest ih => exact .bind (xRedisGet_reads _ _) fun _ => .bind ih fun _ => .ret _

/-- Looking up the creatives of a policy reads only. -/
theorem getCreativeId_reads (policyid : Bytes) :
    (getCreativeId lib policyid).Sends World.Reads := by
  refine .bind (xRedisSmembers_reads _ _) fun vals => ?_
  cases vals with
  | none => exact .ret _
  | some vals => exact .bind (getCreativeIds_reads lib vals) fun _ => .ret _

/-- Adding the ids of a policy reads only. -/
theorem addAdId_reads (ids : AdIds) (strId : Bytes) :
    (addAdId lib adx ids strId).Sends World.Reads := by
  refine .bind (getCampaignId_reads lib adx strId) fun campaignid => ?_
  cases campaignid with
  | none => exact .ret _
  | some campaignid =>
    refine .bind (getCreativeId_reads lib strId) fun creativeIds => ?_
    cases creativeIds <;> exact .ret _

/-- Adding the ids of all policies reads only. -/
theorem addAdIds_reads (strIds : List Bytes) (ids : AdIds) :
    (addAdIds lib adx strIds ids).Sends World.Reads := by
  induction strIds generalizing ids with
  | nil => exact .ret _
  | cons strId rest ih => exact .bind (addAdId_reads lib adx ids strId) fun ids' => ih ids'

/-- Looking up all ids reads only. -/
theorem getAllAdId_reads : (getAllAdId lib adx).Sends World.Reads := by
  refine .bind (xRedisSmembers_reads _ _) fun vals => ?_
  cases vals with
  | none => exact .ret _
  | some vals => exact addAdIds_reads lib adx vals _

end

/-- Looking up the capped devices reads only. -/
theorem getFreFullDeviceid_reads (key : Bytes) (ids : List ℤ) :
    (getFreFullDeviceid key ids).Sends World.Reads := by
  induction ids with
  | nil => exact .ret _
  | cons id rest ih => exact .bind (xRedisSmembers_reads _ _) fun _ => .bind ih fun _ => .ret _

/-- Looking up the pauses reads only. -/
theorem getPauseAd_reads (key : Bytes) (ids : List ℤ) :
    (getPauseAd key ids).Sends World.Reads := by
  induction ids with
  | nil => exact .ret _
  | cons id rest ih => exact .bind (xRedisGet_reads _ _) fun _ => .bind ih fun _ => .ret _

/-- The check of the stamp reads only. -/
theorem check_reads (e : EffectChecker) (now : ℤ) : (e.check now).Sends World.Reads := by
  refine .bind (xRedisGet_reads _ _) fun val => ?_
  cases val with
  | none => exact .ret _
  | some val => exact .ite (fun _ => .ret _) fun _ => .ret _

/-- Reading the control data reads only. -/
theorem readControl_reads (ids : AdIds) : (readControl ids).Sends World.Reads :=
  .bind (getFreFullDeviceid_reads _ _) fun _ => .bind (getFreFullDeviceid_reads _ _) fun _ =>
    .bind (getFreFullDeviceid_reads _ _) fun _ => .bind (getPauseAd_reads _ _) fun _ =>
      .bind (getPauseAd_reads _ _) fun _ => .ret _

/-- An update reads only. -/
theorem update_reads (lib : JsonLib) (adx now : ℤ) (e : EffectChecker) :
    (AdCtrl.update lib adx now e).Sends World.Reads :=
  .bind (getAllAdId_reads lib adx) fun ids => .bind (readControl_reads ids) fun _ =>
    .bind (check_reads e now) fun _ => .ret _

/-! ## Reading a key -/

/-- The commands of a run of `AdCtrl` with their replies. -/
abbrev CtrlTranscript := List ((CtrlServer × Cmd) × Reply)

/-- The key holds a text in the control redis, and no attempt of the run to read it fails. -/
def ReadsText (w : CtrlWorld) (t : CtrlTranscript) (key text : Bytes) : Prop :=
  (w.store .adControl).strings key = some text ∧
    ∀ r, ((CtrlServer.adControl, Cmd.get key), r) ∈ t → ¬r.Failed

/-- The reply to reading such a key. -/
theorem ReadsText.reply {α : Type} {p : CtrlProg α} (hp : p.Sends World.Reads) {w : CtrlWorld}
    {key text : Bytes} (h : ReadsText w (p.transcript World.exec w) key text) {r : Reply}
    (hr : ((CtrlServer.adControl, Cmd.get key), r) ∈ p.transcript World.exec w) :
    r = .string text := by
  rw [World.reply_of_mem_transcript hp hr (h.2 r hr)]
  show ((w.store .adControl).exec (.get key)).2 = .string text
  rw [Store.exec, h.1]

section

variable {S : Type} {exec : S → CtrlServer × Cmd → S × Reply}

/-- `xRedisClient::get` sends one command, and answers with the text of a string reply. -/
theorem xRedisGet_spec (v : CtrlServer) (key : Bytes) (s : S) :
    (xRedisGet v key).transcript exec s = [((v, .get key), (exec s (v, .get key)).2)] ∧
      ∀ text, (exec s (v, .get key)).2 = .string text →
        ((xRedisGet v key).eval exec s).1 = some text := by
  rw [xRedisGet, Prog.call_bind, Prog.transcript_send, Prog.eval_send]
  constructor
  · cases (exec s (v, Cmd.get key)).2 <;> rfl
  · intro text h
    rw [h]
    rfl

/-- The pause key of each id is read, and a text in it pauses the id. -/
theorem getPauseAd_spec (key : Bytes) {ids : List ℤ} {id : ℤ} (hid : id ∈ ids) (s : S) :
    ∃ r, ((CtrlServer.adControl, Cmd.get (key ++ decimal id)), r) ∈
        (getPauseAd key ids).transcript exec s ∧
      ∀ text, r = .string text → text ≠ [] →
        (((getPauseAd key ids).eval exec s).1.lookup id).isSome := by
  induction ids generalizing s with
  | nil => exact absurd hid List.not_mem_nil
  | cons id₀ rest ih =>
    obtain ⟨htranscript, hget⟩ :=
      @xRedisGet_spec S exec .adControl (key ++ decimal id₀) s
    rw [getPauseAd, Prog.transcript_bind, htranscript, Prog.eval_bind, Prog.transcript_bind,
      Prog.eval_bind]
    rcases List.mem_cons.mp hid with rfl | hrest
    · refine ⟨_, List.mem_cons_self, fun text htext hne => ?_⟩
      rw [hget text htext, Prog.pure_eq_ret, Prog.eval_ret, Option.getD_some, if_neg hne]
      simp
    · obtain ⟨r, hr, hpaused⟩ :=
        ih hrest ((xRedisGet .adControl (key ++ decimal id₀)).eval exec s).2
      refine ⟨r, List.mem_append_right [_] (List.mem_append_left _ hr), fun text htext hne => ?_⟩
      have hlater := hpaused text htext hne
      rw [Prog.pure_eq_ret, Prog.eval_ret]
      split_ifs
      · exact hlater
      · rw [List.lookup_cons]
        split
        · rfl
        · exact hlater

/-- The pause keys of all campaigns and policies are read. -/
theorem readControl_spec (ids : AdIds) (s : S) :
    (∀ id ∈ ids.campaigns, ∃ r, ((CtrlServer.adControl,
        Cmd.get (bytes "pause_campaign_" ++ decimal id)), r) ∈ (readControl ids).transcript exec s ∧
      ∀ text, r = .string text → text ≠ [] →
        (((readControl ids).eval exec s).1.pauseCampaign.lookup id).isSome) ∧
    ∀ id ∈ ids.policies, ∃ r, ((CtrlServer.adControl,
        Cmd.get (bytes "pause_policy_" ++ decimal id)), r) ∈ (readControl ids).transcript exec s ∧
      ∀ text, r = .string text → text ≠ [] →
        (((readControl ids).eval exec s).1.pausePolicy.lookup id).isSome := by
  simp only [readControl, Prog.transcript_bind, Prog.eval_bind, Prog.pure_eq_ret, Prog.eval_ret,
    Prog.transcript_ret, List.mem_append]
  constructor
  · intro id hid
    obtain ⟨r, hr, hpaused⟩ := getPauseAd_spec (bytes "pause_campaign_") hid _
    exact ⟨r, .inr (.inr (.inr (.inl hr))), hpaused⟩
  · intro id hid
    obtain ⟨r, hr, hpaused⟩ := getPauseAd_spec (bytes "pause_policy_") hid _
    exact ⟨r, .inr (.inr (.inr (.inr (.inl hr)))), hpaused⟩

/-- The stamp is new to the checker, or not older than it allows. -/
def EffectChecker.Live (e : EffectChecker) (now : ℤ) (stamp : Bytes) : Prop :=
  e.serverStab ≠ stamp ∨ now - e.timeUpdate ≤ 600

/-- The checker reads the stamp, and accepts a live one. -/
theorem check_spec (e : EffectChecker) (now : ℤ) (s : S) :
    ∃ r, ((CtrlServer.adControl, Cmd.get (bytes "dsp_adcontrol_working")), r) ∈
        (e.check now).transcript exec s ∧
      ∀ stamp, r = .string stamp → e.Live now stamp → ((e.check now).eval exec s).1.1 = true := by
  obtain ⟨htranscript, hget⟩ :=
    @xRedisGet_spec S exec .adControl (bytes "dsp_adcontrol_working") s
  rw [EffectChecker.check, Prog.transcript_bind, htranscript, Prog.eval_bind]
  refine ⟨_, List.mem_append_left _ (List.mem_singleton.mpr rfl), fun stamp hstamp hlive => ?_⟩
  rw [hget stamp hstamp]
  show (Prog.eval exec (if _ then _ else _ : CtrlProg (Bool × EffectChecker)) _).1.1 = true
  split_ifs with hnew
  · rfl
  · exact decide_eq_true (hlive.resolve_left hnew)

/-- An update reads the ids, then the control data, then the stamp. -/
theorem update_spec (lib : JsonLib) (adx now : ℤ) (e : EffectChecker) (s : S) :
    let ids := (getAllAdId lib adx).eval exec s
    let ctrl := (readControl ids.1).eval exec ids.2
    let working := (e.check now).eval exec ctrl.2
    ((AdCtrl.update lib adx now e).eval exec s).1.1 = (if working.1.1 then ctrl.1 else .cleared) ∧
      (AdCtrl.update lib adx now e).transcript exec s =
        (getAllAdId lib adx).transcript exec s ++ ((readControl ids.1).transcript exec ids.2 ++
          (e.check now).transcript exec ctrl.2) := by
  simp only [AdCtrl.update, Prog.eval_bind, Prog.transcript_bind, Prog.pure_eq_ret,
    Prog.eval_ret, Prog.transcript_ret, List.append_nil, true_and]

end

/-- A policy that is paused in redis, by itself or by its campaign, does not pass `FilterPolicies`:
if the update lists it, reads its pause and reads a live stamp. -/
theorem paused_filtered (lib : JsonLib) (adx now : ℤ) (e : EffectChecker) (w : CtrlWorld)
    (work : BidWork) (req : ComRequest) (c : Candidates) (policy : PolicyInfo) (stamp text : Bytes)
    (hctrl : work.adCtrl = ((AdCtrl.update lib adx now e).eval World.exec w).1.1)
    (hstamp : ReadsText w ((AdCtrl.update lib adx now e).transcript World.exec w)
      (bytes "dsp_adcontrol_working") stamp) (hlive : e.Live now stamp) (htext : text ≠ [])
    (hpaused :
      (policy.campaignid ∈ ((getAllAdId lib adx).eval World.exec w).1.campaigns ∧
        ReadsText w ((AdCtrl.update lib adx now e).transcript World.exec w)
          (bytes "pause_campaign_" ++ decimal policy.campaignid) text) ∨
      (policy.id ∈ ((getAllAdId lib adx).eval World.exec w).1.policies ∧
        ReadsText w ((AdCtrl.update lib adx now e).transcript World.exec w)
          (bytes "pause_policy_" ++ decimal policy.id) text)) :
    policy ∉ (work.filterPolicies req c).policies := by
  intro hmem
  have hreads := update_reads lib adx now e
  obtain ⟨hcampaign, hpolicy, -⟩ :=
    BidWork.policyPasses_iff.mp (BidWork.mem_policies_filterPolicies.mp hmem).2
  obtain ⟨hresult, htranscript⟩ := @update_spec _ World.exec lib adx now e w
  -- the stamp is accepted, so that the control data stay
  obtain ⟨r, hr, hworking⟩ := @check_spec _ World.exec e now _
  have hr' : _ ∈ (AdCtrl.update lib adx now e).transcript World.exec w :=
    htranscript ▸ List.mem_append_right _ (List.mem_append_right _ hr)
  rw [if_pos (hworking stamp (hstamp.reply hreads hr') hlive)] at hresult
  rw [hctrl, hresult] at hcampaign hpolicy
  obtain ⟨hcampaigns, hpolicies⟩ := @readControl_spec _ World.exec
    ((getAllAdId lib adx).eval World.exec w).1 ((getAllAdId lib adx).eval World.exec w).2
  rcases hpaused with ⟨hid, hkey⟩ | ⟨hid, hkey⟩
  · obtain ⟨r, hr, hpause⟩ := hcampaigns _ hid
    have hr' : _ ∈ (AdCtrl.update lib adx now e).transcript World.exec w :=
      htranscript ▸ List.mem_append_right _ (List.mem_append_left _ hr)
    have hsome := hpause text (hkey.reply hreads hr') htext
    rw [hcampaign] at hsome
    exact absurd hsome (by simp)
  · obtain ⟨r, hr, hpause⟩ := hpolicies _ hid
    have hr' : _ ∈ (AdCtrl.update lib adx now e).transcript World.exec w :=
      htranscript ▸ List.mem_append_right _ (List.mem_append_left _ hr)
    have hsome := hpause text (hkey.reply hreads hr') htext
    rw [hpolicy] at hsome
    exact absurd hsome (by simp)

/-- A JSON library that knows the record of a policy of campaign 4 and the one of creative 12. -/
def sampleJson : JsonLib where
  parses val :=
    val = bytes "\x7b\"campaignid\":4\x7d" || val = bytes "\x7b\"creativeid\":12\x7d"
  number val label :=
    if val = bytes "\x7b\"campaignid\":4\x7d" ∧ label = bytes "campaignid" then some (bytes "4")
    else if val = bytes "\x7b\"creativeid\":12\x7d" ∧ label = bytes "creativeid" then
      some (bytes "12")
    else none
  integerSet _ _ := none

/-- The policy 9 of campaign 4, with one creative, and the ids of the policies that are listed. -/
def sampleElement (policyids : List Bytes) : Store where
  strings key :=
    if key = bytes "dsp_policy_info_9" then some (bytes "\x7b\"campaignid\":4\x7d")
    else if key = bytes "dsp_mapid_31" then some (bytes "\x7b\"creativeid\":12\x7d")
    else none
  hashes _ := []
  sets key :=
    if key = bytes "dsp_policyids" then policyids
    else if key = bytes "dsp_policy_mapids_9" then [bytes "31"]
    else []
  lifetime _ := none

/-- A pause of policy 9, and the stamp of the control data. -/
def sampleControl (pause : Bytes) (stamp : Option Bytes) : Store where
  strings key :=
    if key = bytes "pause_policy_9" then some pause
    else if key = bytes "dsp_adcontrol_working" then stamp
    else none
  hashes _ := []
  sets _ := []
  lifetime _ := none

/-- The two redis servers, whose connections do not fail. -/
def sampleCtrlWorld (policyids : List Bytes) (pause : Bytes) (stamp : Option Bytes) : CtrlWorld :=
  .reliable fun v =>
    match v with
    | .adElement => sampleElement policyids
    | .adControl => sampleControl pause stamp

/-- The servers with a listed policy that is paused, and a stamp. -/
def sampleListedPause : CtrlWorld := sampleCtrlWorld [bytes "9"] (bytes "21") (some (bytes "1000"))

/-- A worker with the control data of an update, which no other update came before. -/
def sampleCtrlWork (w : CtrlWorld) : BidWork :=
  { sampleWork [] with
    adCtrl := ((AdCtrl.update sampleJson 14 1000 ⟨[], 0⟩).eval World.exec w).1.1 }

/-- With a stamp, the pause of the policy 9 holds. -/
theorem paused_filtered_sample :
    samplePolicy ∉ ((sampleCtrlWork sampleListedPause).filterPolicies (sampleRequest [])
      { Candidates.clear with policies := [samplePolicy] }).policies := by
  have hok : ∀ x ∈ (AdCtrl.update sampleJson 14 1000 ⟨[], 0⟩).transcript World.exec
      sampleListedPause, ¬x.2.Failed := by
    decide +kernel
  exact paused_filtered sampleJson 14 1000 ⟨[], 0⟩ sampleListedPause _ _ _ _
    (bytes "1000") (bytes "21") rfl ⟨by decide +kernel, fun r hr => hok _ hr⟩
    (.inl (by decide)) (by decide)
    (.inr ⟨by decide +kernel, by decide +kernel, fun r hr => hok _ hr⟩)

/-- The same without a stamp, with an empty text for the pause, with a policy that is not listed,
and where the ninth command, which gets the pause, is lost. -/
def sampleUntrusted : List CtrlWorld := [
  sampleCtrlWorld [bytes "9"] (bytes "21") none,
  sampleCtrlWorld [bytes "9"] [] (some (bytes "1000")),
  sampleCtrlWorld [] (bytes "21") (some (bytes "1000")),
  { sampleListedPause with outcome := fun n => if n = 8 then .lost else .ok }]

/-- In each of them the policy 9 passes in spite of its pause key. -/
theorem untrusted_pause_selected :
    sampleUntrusted.Forall fun w =>
      (w.store .adControl).strings (bytes "pause_policy_9") ≠ none ∧
        samplePolicy ∈ ((sampleCtrlWork w).filterPolicies (sampleRequest [])
          { Candidates.clear with policies := [samplePolicy] }).policies := by
  decide +kernel

end AdxDsp
