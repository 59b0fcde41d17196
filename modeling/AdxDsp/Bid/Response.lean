import AdxDsp.Bid.DealPrice

/-!
# What counts as a bid

`BidWork::run` takes a request as bid when `SelectAd`, `SetResponse` and `SetBidRedisFlag` have all
returned true.  `SetResponse` leaves out the bids that do not pass the check of the template, and
returns true whatever is left; `SetBidRedisFlag` goes over the bids there are.

* **The flags** (`written_of_setBidRedisFlag`): when `SetBidRedisFlag` returns true, the key of each
  bid has been written.
* **The bids** (`setResponse_eq_nil_iff`): some bid is left exactly when the first creative of some
  imp passes the template.
* **The answer** (`answered_iff`): a request that counts as bid has a bid, each of them checked and
  with its key written, exactly in this case.
-/

namespace AdxDsp

open CText Redis

/-! ## `SetBidRedisFlag` -/

/-- How `SetBidRedisFlag` ends; `crashed` stands for undefined behaviour. -/
inductive FlagOutcome where
  | crashed
  | failed
  | written
  deriving DecidableEq

/-- The part after an error: connect again and send the command once more.  A command without reply
leaves the error where it is. -/
def resendBidFlag (cmd : Cmd) : ClusterProg FlagOutcome := do
  let connection ← Prog.call .reconnect
  if connection = .connected true then
    let again ← Prog.call (.command cmd)
    match again with
    | .error _ => return .failed
    | .missing => return .failed
    | _ => return .written
  else return .failed

/-- One turn of the inner loop of `SetBidRedisFlag`.  The source writes the key to a buffer of 256
bytes, and reads the type of the reply through its pointer. -/
def writeBidFlag (req : ComRequest) (bid : ComBid) : ClusterProg FlagOutcome :=
  match setBidRedisFlag req bid with
  | none => .ret .crashed
  | some cmd => do
    let reply ← Prog.call (.command cmd)
    match reply with
    | .missing => return .crashed
    | .error _ => resendBidFlag cmd
    | _ => return .written

/-- The loops of `BidWork::SetBidRedisFlag` over the bids of the seats. -/
def writeBidFlags (req : ComRequest) : List PricedBid → ClusterProg FlagOutcome
  | [] => .ret .written
  | bid :: rest => do
    let outcome ← writeBidFlag req bid.toComBid
    if outcome = .written then writeBidFlags req rest else return outcome

/-! ## The three functions -/

/-- The answer to a request: whether it counts as bid, and `_com_resp.seatbid`. -/
inductive BidOutcome where
  | crashed
  | done (bRes : Bool) (seatbid : List (List PricedBid))

namespace BidWork

variable (w : BidWork)

/-- `SetResponse() && SetBidRedisFlag()` for a set of candidates. -/
def answer (req : ComRequest) (tmpl : AdxTemplate) (c : Candidates) : ClusterProg BidOutcome := do
  -- `SetResponse` has no other result than true
  let seatbid := [w.setResponse req tmpl c.impCreatives c.creativePrice]
  match ← writeBidFlags req seatbid.flatten with
  | .crashed => return .crashed
  | .failed => return .done false []
  | .written => return .done true seatbid

/-- `SelectAd() && SetResponse() && SetBidRedisFlag()`. -/
def answerAd (req : ComRequest) (i : BidInput) (tmpl : AdxTemplate) : ClusterProg BidOutcome := do
  match ← w.selectAdBid req i with
  | .crashed => return .crashed
  | .refused => return .done false []
  | .selected req' c => w.answer req' tmpl c

end BidWork

/-! ## The template -/

/-- The checks of `com_bid_object::Check` that no bid can change. -/
def AdxTemplate.Usable (tmpl : AdxTemplate) : Prop :=
  ¬(-(1 / 1000000) < tmpl.ratio ∧ tmpl.ratio < 1 / 1000000) ∧
    tmpl.iurl ≠ [] ∧ tmpl.cturl ≠ [] ∧ tmpl.aurl ≠ [] ∧ tmpl.nurl ≠ []

/-- The template has what the creative needs on the imp: for a banner a text for its type on the os
of the device. -/
def AdxTemplate.Offers (tmpl : AdxTemplate) (req : ComRequest) (imp : ComImpression)
    (creative : CreativeInfo) : Prop :=
  imp.type = impBanner → (req.device.os, creative.type) ∈ tmpl.adms

/-- The first creative of some imp passes the template. -/
def Candidates.Biddable (c : Candidates) (req : ComRequest) (tmpl : AdxTemplate) : Prop :=
  tmpl.Usable ∧ ∃ imp creative rest,
    (imp, creative :: rest) ∈ c.impCreatives ∧ tmpl.Offers req imp.1 creative

section

variable {w : BidWork} {req : ComRequest} {tmpl : AdxTemplate}

/-- A bid is answered just if the template can be used and offers it. -/
theorem check_iff {bid : PricedBid} :
    bid.check tmpl req = true ↔ tmpl.Usable ∧ tmpl.Offers req bid.imp bid.creative := by
  rw [PricedBid.check, AdxTemplate.Usable, AdxTemplate.Offers]
  simp only [List.length_eq_zero_iff]
  split_ifs with hratio htexts hbanner
  · exact ⟨fun h => h.elim, fun h => absurd hratio h.1.1⟩
  · simp only [false_iff]
    tauto
  · have hadms : (tmpl.adms.any fun adm => adm.1 = req.device.os && adm.2 = bid.creative.type) =
        true ↔ (req.device.os, bid.creative.type) ∈ tmpl.adms := by
      simp only [List.any_eq_true, Bool.and_eq_true, decide_eq_true_eq, Prod.exists]
      constructor
      · rintro ⟨_, _, hmem, rfl, rfl⟩
        exact hmem
      · exact fun hmem => ⟨_, _, hmem, rfl, rfl⟩
    rw [hadms]
    tauto
  · tauto

/-- Every bid of the response has been checked. -/
theorem check_of_mem_setResponse {m : List (ImpRef × List CreativeInfo)} {prices : List (ℤ × ℤ)}
    {bid : PricedBid} (h : bid ∈ w.setResponse req tmpl m prices) : bid.check tmpl req = true := by
  induction m generalizing prices with
  | nil => cases h
  | cons e m ih =>
    obtain ⟨imp, creatives⟩ := e
    cases creatives with
    | nil => exact ih h
    | cons creative creatives =>
      simp only [BidWork.setResponse] at h
      split_ifs at h with hcheck
      · rcases List.mem_cons.mp h with rfl | h
        · exact hcheck
        · exact ih h
      · exact ih h

/-- A bid is left exactly when the first creative of some imp passes the template. -/
theorem setResponse_eq_nil_iff {m : List (ImpRef × List CreativeInfo)} {prices : List (ℤ × ℤ)} :
    w.setResponse req tmpl m prices = [] ↔ ¬(tmpl.Usable ∧ ∃ imp creative rest,
      (imp, creative :: rest) ∈ m ∧ tmpl.Offers req imp.1 creative) := by
  induction m generalizing prices with
  | nil => simp [BidWork.setResponse]
  | cons e m ih =>
    obtain ⟨imp, creatives⟩ := e
    cases creatives with
    | nil =>
      rw [BidWork.setResponse, ih]
      simp
    | cons creative creatives =>
      simp only [BidWork.setResponse]
      split_ifs with hcheck
      · obtain ⟨husable, hoffers⟩ := check_iff.mp hcheck
        refine ⟨fun h => h.elim, fun h => absurd ?_ h⟩
        exact ⟨husable, imp, creative, creatives, List.mem_cons_self, hoffers⟩
      · rw [check_iff] at hcheck
        rw [ih]
        refine not_congr (and_congr_right fun husable => ?_)
        -- the first imp has no part in it
        constructor
        · rintro ⟨imp', creative', rest, hmem, hoffers⟩
          exact ⟨imp', creative', rest, List.mem_cons_of_mem _ hmem, hoffers⟩
        · rintro ⟨imp', creative', rest, hmem, hoffers⟩
          rcases List.mem_cons.mp hmem with heq | hmem
          · cases heq
            exact absurd ⟨husable, hoffers⟩ hcheck
          · exact ⟨imp', creative', rest, hmem, hoffers⟩

end

/-! ## The flags -/

/-- The key of the bid was written: the command was sent, and its reply is no error. -/
def FlagWritten (t : List (ClusterCmd × ClusterReply)) (req : ComRequest) (bid : ComBid) : Prop :=
  ∃ cmd reply, setBidRedisFlag req bid = some cmd ∧ (ClusterCmd.command cmd, reply) ∈ t ∧
    reply ≠ .missing ∧ ∀ text, reply ≠ .error text

section

variable {S : Type} {exec : S → ClusterCmd → S × ClusterReply} {s : S}
  {req : ComRequest}

/-- A flag that was written stays written. -/
theorem FlagWritten.mono {t t' : List (ClusterCmd × ClusterReply)} {bid : ComBid}
    (h : FlagWritten t req bid) (ht : t ⊆ t') : FlagWritten t' req bid := by
  obtain ⟨cmd, reply, hcmd, hmem, hok⟩ := h
  exact ⟨cmd, reply, hcmd, ht hmem, hok⟩

/-- After an error, only the reply to the command that is sent again counts. -/
theorem written_resendBidFlag {cmd : Cmd}
    (h : ((resendBidFlag cmd).eval exec s).1 = .written) :
    ∃ reply, (ClusterCmd.command cmd, reply) ∈ (resendBidFlag cmd).transcript exec s ∧
      reply ≠ .missing ∧ ∀ text, reply ≠ .error text := by
  rw [resendBidFlag, Prog.call_bind, Prog.eval_send] at h
  rw [resendBidFlag, Prog.call_bind, Prog.transcript_send]
  split_ifs at h ⊢ with hconn
  · rw [Prog.call_bind, Prog.eval_send] at h
    rw [Prog.call_bind, Prog.transcript_send]
    refine ⟨_, List.mem_cons_of_mem _ List.mem_cons_self, ?_, fun text => ?_⟩
    · intro hmissing
      rw [hmissing] at h
      cases h
    · intro herror
      rw [herror] at h
      cases h
  · cases h

/-- If the writer says so, the flag was written. -/
theorem written_writeBidFlag {bid : ComBid}
    (h : ((writeBidFlag req bid).eval exec s).1 = .written) :
    FlagWritten ((writeBidFlag req bid).transcript exec s) req bid := by
  rw [writeBidFlag] at h ⊢
  cases hcmd : setBidRedisFlag req bid with
  | none =>
    rw [hcmd] at h
    cases h
  | some cmd =>
    rw [hcmd] at h
    simp only [Prog.call_bind, Prog.eval_send, Prog.transcript_send] at h ⊢
    cases hreply : (exec s (.command cmd)).2 with
    | missing =>
      rw [hreply] at h
      cases h
    | error text =>
      rw [hreply] at h
      obtain ⟨reply, hmem, hok⟩ := written_resendBidFlag h
      exact ⟨cmd, reply, hcmd, List.mem_cons_of_mem _ hmem, hok⟩
    | _ => exact ⟨cmd, _, hcmd, List.mem_cons_self, by simp, by simp⟩

/-- When the loop has gone through, each of the bids has its key. -/
theorem written_writeBidFlags {bids : List PricedBid}
    (h : ((writeBidFlags req bids).eval exec s).1 = .written) :
    ∀ bid ∈ bids, FlagWritten ((writeBidFlags req bids).transcript exec s) req bid.toComBid := by
  induction bids generalizing s with
  | nil => exact fun bid hbid => absurd hbid List.not_mem_nil
  | cons b bids ih =>
    rw [writeBidFlags, Prog.eval_bind] at h
    rw [writeBidFlags, Prog.transcript_bind]
    split_ifs at h ⊢ with hone
    · intro bid hbid
      rcases List.mem_cons.mp hbid with rfl | hbid
      · exact (written_writeBidFlag hone).mono (List.subset_append_left _ _)
      · exact (ih h bid hbid).mono (List.subset_append_right _ _)
    · exact absurd h hone

end

/-! ## What counts as a bid -/

/-- The seats hold a bid, and each bid has been checked and has its key. -/
structure Answered (t : List (ClusterCmd × ClusterReply)) (req : ComRequest) (tmpl : AdxTemplate)
    (seatbid : List (List PricedBid)) : Prop where
  bid : seatbid.flatten ≠ []
  checked : ∀ bid ∈ seatbid.flatten, bid.check tmpl req = true
  flagged : ∀ bid ∈ seatbid.flatten, FlagWritten t req bid.toComBid

section

variable {S : Type} {exec : S → ClusterCmd → S × ClusterReply} {s : S} {w : BidWork}
  {req : ComRequest} {tmpl : AdxTemplate} {c : Candidates} {seatbid : List (List PricedBid)}

/-- For any set of candidates, in any transcript that `SetBidRedisFlag` is part of. -/
theorem answer_answered_iff (h : ((w.answer req tmpl c).eval exec s).1 = .done true seatbid)
    {t : List (ClusterCmd × ClusterReply)} (ht : (w.answer req tmpl c).transcript exec s ⊆ t) :
    Answered t req tmpl seatbid ↔ c.Biddable req tmpl := by
  simp only [BidWork.answer, Prog.eval_bind, Prog.transcript_bind] at h ht
  set bids := [w.setResponse req tmpl c.impCreatives c.creativePrice] with hbids
  have hflat : bids.flatten = w.setResponse req tmpl c.impCreatives c.creativePrice := by
    rw [hbids, List.flatten_singleton]
  -- the flags have to be written before the bids are sent
  cases hout : ((writeBidFlags req bids.flatten).eval exec s).1 with
  | crashed =>
    rw [hout] at h
    cases h
  | failed =>
    rw [hout] at h
    cases h
  | written =>
    rw [hout] at h
    obtain rfl : bids = seatbid := (BidOutcome.done.inj h).2
    -- no bid is sent exactly if none is possible
    have hbiddable : bids.flatten = [] ↔ ¬c.Biddable req tmpl := by
      rw [hflat]
      exact setResponse_eq_nil_iff
    rw [← not_iff_not, ← hbiddable]
    constructor
    · intro hno
      by_contra hne
      refine hno ⟨hne, fun bid hbid => ?_, fun bid hbid => ?_⟩
      · rw [hflat] at hbid
        exact check_of_mem_setResponse hbid
      · exact (written_writeBidFlags hout bid hbid).mono fun x hx =>
          ht (List.mem_append_left _ hx)
    · exact fun hnil hans => hans.bid hnil

end

/-- **What counts as a bid is one** exactly when, for one of the imps that `SelectAd` leaves, the
first creative passes the template of the exchange: then the answer has a bid, and each of its bids
has been checked and has its key written. -/
theorem answered_iff (w : BidWork) (req : ComRequest) (i : BidWork.BidInput) (tmpl : AdxTemplate)
    {S : Type} (exec : S → ClusterCmd → S × ClusterReply) (s : S) {req' : ComRequest}
    {c : Candidates} {seatbid : List (List PricedBid)}
    (hsel : ((w.selectAdBid req i).eval exec s).1 = .selected req' c)
    (hdone : ((w.answerAd req i tmpl).eval exec s).1 = .done true seatbid) :
    Answered ((w.answerAd req i tmpl).transcript exec s) req' tmpl seatbid ↔
      c.Biddable req' tmpl := by
  rw [BidWork.answerAd, Prog.eval_bind, hsel] at hdone
  apply answer_answered_iff hdone
  rw [BidWork.answerAd, Prog.transcript_bind, hsel]
  exact List.subset_append_right _ _

/-- A worker with one banner. -/
def sampleBannerWork : BidWork := sampleWork [sampleCreative 1 adtypeImage 320 50]

/-- What it selects for a request. -/
def sampleBannerSelected : Candidates where
  policies := [samplePolicy]
  impPolicies := [((sampleImpression, 0), [samplePolicy])]
  impCreatives := [((sampleImpression, 0), [sampleCreative 1 adtypeImage 320 50])]
  creativePrice := [(31, 100)]

/-- The sample is selected. -/
theorem selected_sampleBanner :
    ((sampleBannerWork.selectAdBid (sampleRequest (bytes "a")) ⟨[], fun _ => 0⟩).eval
      deafCluster ()).1 = .selected (sampleRequest (bytes "a")) sampleBannerSelected := by
  decide +kernel

/-- A template without a text for banners. -/
def textlessTemplate : AdxTemplate := { sampleTemplate with adms := [] }

/-- A template without texts answers with an empty bid. -/
theorem done_textless :
    ((sampleBannerWork.answerAd (sampleRequest (bytes "a")) ⟨[], fun _ => 0⟩ textlessTemplate).eval
      deafCluster ()).1 = .done true [[]] := by
  have hnil : sampleBannerWork.setResponse (sampleRequest (bytes "a")) textlessTemplate
      sampleBannerSelected.impCreatives sampleBannerSelected.creativePrice = [] := by
    rw [setResponse_eq_nil_iff]
    rintro ⟨-, imp, creative, rest, hmem, hoffers⟩
    obtain ⟨rfl, -⟩ := Prod.mk.inj (List.mem_singleton.mp hmem)
    exact absurd (hoffers rfl) List.not_mem_nil
  rw [BidWork.answerAd, Prog.eval_bind, selected_sampleBanner]
  simp only [BidWork.answer, hnil]
  rfl

/-- It is answered just if it can be bid for. -/
theorem answered_iff_textless :
    Answered ((sampleBannerWork.answerAd (sampleRequest (bytes "a")) ⟨[], fun _ => 0⟩
      textlessTemplate).transcript deafCluster ()) (sampleRequest (bytes "a")) textlessTemplate
        [[]] ↔ sampleBannerSelected.Biddable (sampleRequest (bytes "a")) textlessTemplate :=
  answered_iff sampleBannerWork (sampleRequest (bytes "a")) ⟨[], fun _ => 0⟩ textlessTemplate
    deafCluster () selected_sampleBanner done_textless

/-- The request counts as bid, with no bid at all. -/
theorem bid_without_bids :
    ((sampleBannerWork.answerAd (sampleRequest (bytes "a")) ⟨[], fun _ => 0⟩ textlessTemplate).eval
        deafCluster ()).1 = .done true [[]] ∧
      ¬Answered ((sampleBannerWork.answerAd (sampleRequest (bytes "a")) ⟨[], fun _ => 0⟩
        textlessTemplate).transcript deafCluster ()) (sampleRequest (bytes "a")) textlessTemplate
          [[]] :=
  ⟨done_textless, fun h => h.bid rfl⟩

end AdxDsp
