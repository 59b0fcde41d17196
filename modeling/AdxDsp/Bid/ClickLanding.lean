import AdxDsp.Text.UrlCoding
import AdxDsp.Tracker.ParamRead
import AdxDsp.Tracker.Redirect

/-!
# The landing URL behind a click

The click URL of a bid with a redirection carries the landing URL as its last parameter, and the
tracker reads it and sends the user there.  Two adapters build the URL, each with its own copy of
the code (`inmobi_adapter.cpp`, `iflytek_adapter.cpp`).

* **The adapters**: `Inmobi.construct`, `Iflytek.construct`, over `bidObject`.
* `ReadsBack`: the tracker has the landing URL again.
* `landing_iff`: the bids for which it has, in each of the adapters.
* `inmobi_loses_landing`: a bid of the first adapter for which it has not.
-/

namespace AdxDsp

open CText

namespace ClickLanding

/-! ## The adapters -/

/-- The fields of a `COM_BIDOBJECT` from which its URLs are made; the landing URL has been read from
a C string. -/
structure Bid where
  redirect : ℕ
  curl : Bytes
  trackUrlPar : Bytes
  zero_notMem_curl : 0 ∉ curl

/-- The URLs of an `AdxTemplate`. -/
structure Template where
  nurl : Bytes
  iurl : List Bytes
  cturl : List Bytes

/-- The URLs of a bid in the response. -/
structure BidObject where
  nurl : Bytes
  iurl : Bytes
  curl : Bytes
  cturl : Bytes
  deriving DecidableEq

/-- The URL of a click and the one that only counts it, given the text that is encoded as the
landing URL.  The texts that matter are short enough for the block of the encoder
(`Redirects.urlencodeString_curl`, `Inmobi.MessageResponse.urlencodeString_cur`). -/
def clickUrls (landing : Bytes) (tmpl : Template) (bid : Bid) : Bytes × Bytes :=
  match tmpl.cturl with
  | [] => (bid.curl, [])
  | cturl :: _ =>
    if bid.redirect = 1 then
      (cturl ++ bid.trackUrlPar ++ bytes "&curl=" ++ urlencode landing, [])
    else (bid.curl, cturl ++ bid.trackUrlPar)

/-- The URLs of a bid, given the text that is encoded as the landing URL. -/
def bidObject (landing : Bytes) (tmpl : Template) (bid : Bid) : BidObject where
  nurl := if tmpl.nurl = [] then [] else tmpl.nurl ++ bid.trackUrlPar
  iurl :=
    match tmpl.iurl with
    | [] => []
    | iurl :: _ => iurl ++ bid.trackUrlPar
  curl := (clickUrls landing tmpl bid).1
  cturl := (clickUrls landing tmpl bid).2

/-- The bids of the seats of a `COM_RESPONSE`. -/
abbrev Response := List (List Bid)

namespace Inmobi

/-- `MESSAGERESPONSE`: the currency is empty in a new one, and only `Construct` sets it. -/
structure MessageResponse where
  cur : Bytes
  seatbid : List (List BidObject)
  zero_notMem_cur : 0 ∉ cur
  short_cur : 3 * cur.length + 1 < 2 ^ 31

/-- The URLs of a bid: the currency of the response is encoded. -/
def bidUrls (self : MessageResponse) (tmpl : Template) (bid : Bid) : BidObject :=
  bidObject self.cur tmpl bid

/-- `MESSAGERESPONSE::Construct` -/
def construct (self : MessageResponse) (c : Response) (tmpl : Template) : MessageResponse where
  cur := bytes "CNY"
  seatbid := self.seatbid ++ c.map fun seat => seat.map (bidUrls self tmpl)
  zero_notMem_cur := by decide
  short_cur := by decide

/-- The currency fits into the buffer of `urlencode`. -/
theorem MessageResponse.urlencodeString_cur (self : MessageResponse) :
    urlencodeString self.cur = some (urlencode self.cur) :=
  urlencodeString_eq self.zero_notMem_cur self.short_cur

end Inmobi

namespace Iflytek

/-- `MESSAGERESPONSE` -/
structure MessageResponse where
  cur : Bytes
  seatbid : List (List BidObject)

/-- The URLs of a bid: its landing URL is encoded. -/
def bidUrls (tmpl : Template) (bid : Bid) : BidObject := bidObject bid.curl tmpl bid

/-- `MESSAGERESPONSE::Construct` -/
def construct (self : MessageResponse) (c : Response) (tmpl : Template) : MessageResponse where
  cur := bytes "CNY"
  seatbid := self.seatbid ++ c.map fun seat => seat.map (bidUrls tmpl)

end Iflytek

/-! ## What the tracker reads -/

/-- `QUERY_STRING`: what is behind the first `?` of a URL. -/
def queryString (url : Bytes) : Bytes := (url.dropWhile (· ≠ 63)).tail

/-- The URL has a parameter `curl`, which the tracker reads and decodes to this landing URL. -/
def ReadsBack (url curl : Bytes) : Prop :=
  ∃ value, IsParamValue (queryString url) (bytes "curl") value ∧
    adxStringUrlParamValue (queryString url) (bytes "curl") = some value ∧
    ∀ u : UrlInfo, u.curl = value → landingUrl u = curl

/-- A bid with a redirection and without a parameter `curl` of its own, whose landing URL fits the
buffer of the tracker, and a template behind which parameters can follow. -/
structure Redirects (tmpl : Template) (bid : Bid) (cturl : Bytes) : Prop where
  head : tmpl.cturl.head? = some cturl
  last : cturl.getLast? = some 63 ∨ cturl.getLast? = some 38
  redirect : bid.redirect = 1
  noCurl : ∀ value, ¬ IsParamValue bid.trackUrlPar (bytes "curl") value
  short : (urlencode bid.curl).length ≤ 1023

/-- The landing URL of such a bid fits the block of the encoder. -/
theorem Redirects.urlencodeString_curl {tmpl : Template} {bid : Bid} {cturl : Bytes}
    (h : Redirects tmpl bid cturl) : urlencodeString bid.curl = some (urlencode bid.curl) := by
  have hshort := h.short
  rw [urlencode, cstr_eq_self bid.zero_notMem_curl] at hshort
  have hle := length_le_flatMap bid.curl
  exact urlencodeString_eq bid.zero_notMem_curl (by omega)

/-- For each bid that redirects, the tracker has the landing URL again. -/
def LandsAll (tmpl : Template) (c : Response) (seats : List (List BidObject)) : Prop :=
  List.Forall₂ (List.Forall₂ fun bid object =>
    ∀ cturl, Redirects tmpl bid cturl → ReadsBack object.curl bid.curl) c seats

/-- What `construct` of an adapter adds to the seats is right. -/
def Right (tmpl : Template) (c : Response) (before after : List (List BidObject)) : Prop :=
  ∃ seats, after = before ++ seats ∧ LandsAll tmpl c seats

/-! ## Where it does -/

/-- A text in front of the encoded one, and the landing URL that should be read: there is a query,
it fits the buffer of the tracker, and the first `curl` in it is the encoded text, which is the
landing URL, or one in front of it that is read as the landing URL as well. -/
structure Leads (front encoded curl : Bytes) : Prop where
  query : 63 ∈ front
  fits : (queryString front ++ bytes "&curl=" ++ urlencode encoded).length < 2048
  first :
    match firstValue (queryString front) (bytes "curl") with
    | none => encoded = curl
    | some value => value.length < 1024 ∧ cstr (urlDecode (cstr value)) = curl

/-! ## The query of a click -/

section

variable {front rest url encoded curl : Bytes}

/-- No byte is encoded with a question mark. -/
theorem elem_mark_urlencodeByte : ∀ c : UInt8, (urlencodeByte c).elem 63 = false := by
  decide +kernel

/-- An encoded text starts no query. -/
theorem mark_notMem_urlencode (t : Bytes) : 63 ∉ urlencode t := by
  intro h
  obtain ⟨c, -, hc⟩ := List.mem_flatMap.mp h
  have hnot := elem_mark_urlencodeByte c
  rw [List.elem_eq_mem, decide_eq_false_iff_not] at hnot
  exact hnot hc

/-- The query begins behind the question mark. -/
theorem queryString_cons_of_ne {b : UInt8} (hb : b ≠ 63) (url : Bytes) :
    queryString (b :: url) = queryString url := by
  rw [queryString, List.dropWhile_cons_of_pos (by simpa using hb), queryString]

/-- A URL without a question mark has no query. -/
theorem queryString_eq_nil (h : 63 ∉ url) : queryString url = [] := by
  induction url with
  | nil => rfl
  | cons b url ih =>
    rw [queryString_cons_of_ne (List.ne_of_not_mem_cons h).symm]
    exact ih (List.not_mem_of_not_mem_cons h)

/-- What is appended to a URL with a query is appended to its query. -/
theorem queryString_append (h : 63 ∈ front) (rest : Bytes) :
    queryString (front ++ rest) = queryString front ++ rest := by
  induction front with
  | nil => exact absurd h List.not_mem_nil
  | cons b front ih =>
    by_cases hb : b = 63
    · subst hb
      simp [queryString]
    · rw [List.cons_append, queryString_cons_of_ne hb, queryString_cons_of_ne hb]
      exact ih (List.mem_of_ne_of_mem (Ne.symm hb) h)

/-- The segments before a separator come first. -/
theorem firstValue_append_amp (front rest key : Bytes) :
    firstValue (front ++ 38 :: rest) key = (firstValue front key).or (firstValue rest key) := by
  rw [firstValue, urlSegments, List.splitOn_append_cons_self, List.filter_append,
    List.findSome?_append]
  rfl

/-- The parameter at the end is read if there is none of its name before it. -/
theorem firstValue_curl (front encoded : Bytes) :
    firstValue (front ++ (bytes "&curl=" ++ urlencode encoded)) (bytes "curl") =
      (firstValue front (bytes "curl")).or (some (urlencode encoded)) := by
  have hpar : firstValue (urlPar (bytes "curl") (urlencode encoded) ++ []) (bytes "curl") =
      some (urlencode encoded) := by
    rw [firstValue_urlPar (by decide) (by decide) (amp_notMem_urlencode encoded) (.inl rfl),
      if_pos rfl]
  have htext : bytes "&curl=" ++ urlencode encoded =
      38 :: (bytes "curl=" ++ urlencode encoded) := rfl
  have hlast : firstValue (bytes "curl=" ++ urlencode encoded) (bytes "curl") =
      some (urlencode encoded) := by
    rw [← firstValue_amp, ← htext, ← hpar, List.append_nil]
    rfl
  rw [htext, firstValue_append_amp, hlast]

/-- The tracker has a landing URL iff the query fits its buffer and has a parameter `curl` that fits
the other one and is read as this URL. -/
theorem readsBack_iff :
    ReadsBack url curl ↔ (queryString url).length < 2048 ∧
      ∃ value, firstValue (queryString url) (bytes "curl") = some value ∧
        value.length < 1024 ∧ cstr (urlDecode (cstr value)) = curl := by
  -- any notice will do, as only its `curl` is looked at
  have hlanding : ∀ value : Bytes, (∀ u : UrlInfo, u.curl = value → landingUrl u = curl) ↔
      cstr (urlDecode (cstr value)) = curl := by
    intro value
    constructor
    · intro h
      exact h { sampleNotice mtypeClk with curl := value } rfl
    · rintro h u rfl
      exact h
  unfold ReadsBack
  simp only [hlanding, ← firstValue_eq_some_iff, adxStringUrlParamValue_eq_toOption]
  by_cases hlen : (queryString url).length < 2048
  · simp only [paramRead_eq hlen, hlen, true_and]
    apply exists_congr
    intro value
    apply and_congr_right
    intro hvalue
    rw [hvalue]
    dsimp only
    split_ifs with hfits
    · simp [ParamRead.toOption, hfits]
    · simp [ParamRead.toOption, hfits]
  -- a query that is too long is not read
  · refine iff_of_false ?_ fun h => hlen h.1
    rintro ⟨value, -, hread, -⟩
    rw [paramRead, if_pos (by omega)] at hread
    exact absurd hread (Option.some_ne_none value).symm

/-- What is read of an encoded text. -/
theorem decode_urlencode (hzero : 0 ∉ encoded) :
    cstr (urlDecode (cstr (urlencode encoded))) = encoded := by
  have hencoded : 0 ∉ urlencode encoded := zero_notMem_flatMap (zero_notMem_cstr encoded)
  rw [cstr_eq_self hencoded, urlDecode_urlencode, cstr_eq_self (zero_notMem_cstr encoded),
    cstr_eq_self hzero]

/-- The tracker has the landing URL behind this text iff the text leads there. -/
theorem readsBack_click_iff (hzero : 0 ∉ encoded) (hshort : (urlencode curl).length ≤ 1023) :
    ReadsBack (front ++ bytes "&curl=" ++ urlencode encoded) curl ↔ Leads front encoded curl := by
  rw [readsBack_iff, List.append_assoc]
  by_cases hquery : 63 ∈ front
  · rw [queryString_append hquery, firstValue_curl, ← List.append_assoc]
    constructor
    · rintro ⟨hfits, value, hvalue, hread⟩
      refine ⟨hquery, hfits, ?_⟩
      cases hfirst : firstValue (queryString front) (bytes "curl") with
      -- nothing in front is named `curl`, so that the first value is the one behind
      | none =>
        rw [hfirst, Option.none_or, Option.some_inj] at hvalue
        subst hvalue
        rw [← hread.2, decode_urlencode hzero]
      | some own =>
        -- the front has a value of its own, which is read instead
        rw [hfirst, Option.some_or, Option.some_inj] at hvalue
        rw [hvalue]
        exact hread
    · rintro ⟨-, hfits, hread⟩
      refine ⟨hfits, ?_⟩
      cases hfirst : firstValue (queryString front) (bytes "curl") with
      | none =>
        rw [hfirst] at hread
        subst hread
        exact ⟨_, rfl, Nat.lt_succ_of_le hshort, decode_urlencode hzero⟩
      | some own =>
        rw [hfirst] at hread
        exact ⟨own, rfl, hread⟩
  · -- without a query there is nothing to be read
    refine iff_of_false ?_ fun h => hquery h.query
    rintro ⟨-, value, hvalue, -⟩
    have hrest : 63 ∉ bytes "&curl=" ++ urlencode encoded := by
      intro h
      rcases List.mem_append.mp h with h | h
      · revert h
        decide
      · exact mark_notMem_urlencode encoded h
    have hnone : queryString (front ++ (bytes "&curl=" ++ urlencode encoded)) = [] := by
      apply queryString_eq_nil
      intro h
      rcases List.mem_append.mp h with h | h
      · exact hquery h
      · exact hrest h
    rw [hnone] at hvalue
    exact absurd hvalue (Option.some_ne_none value).symm

end

/-! ## The two adapters -/

section

variable {tmpl : Template} {bid : Bid} {landing : Bytes}

/-- The click URL of a bid that redirects. -/
theorem Redirects.bidObject_curl {cturl : Bytes} (h : Redirects tmpl bid cturl) (landing : Bytes) :
    (bidObject landing tmpl bid).curl =
      cturl ++ bid.trackUrlPar ++ bytes "&curl=" ++ urlencode landing := by
  obtain ⟨rest, hcturl⟩ : ∃ rest, tmpl.cturl = cturl :: rest := List.head?_eq_some_iff.mp h.head
  show (clickUrls landing tmpl bid).1 = _
  rw [clickUrls, hcturl]
  exact congrArg Prod.fst (if_pos h.redirect)

/-- A bid of any adapter. -/
theorem bidObject_right_iff (hzero : 0 ∉ landing) :
    (∀ cturl, Redirects tmpl bid cturl →
        ReadsBack (bidObject landing tmpl bid).curl bid.curl) ↔
      ∀ cturl, Redirects tmpl bid cturl →
        Leads (cturl ++ bid.trackUrlPar) landing bid.curl := by
  apply forall_congr'
  intro cturl
  apply imp_congr_right
  intro h
  rw [h.bidObject_curl landing]
  exact readsBack_click_iff hzero h.short

/-- The bids of all seats, with the text that is encoded for each. -/
theorem landsAll_iff {encoded : Bid → Bytes} (hzero : ∀ bid, 0 ∉ encoded bid) (c : Response) :
    LandsAll tmpl c (c.map fun seat => seat.map fun bid => bidObject (encoded bid) tmpl bid) ↔
      ∀ seat ∈ c, ∀ bid ∈ seat, ∀ cturl, Redirects tmpl bid cturl →
        Leads (cturl ++ bid.trackUrlPar) (encoded bid) bid.curl := by
  simp only [LandsAll, List.forall₂_map_right_iff, List.forall₂_same, bidObject_right_iff (hzero _)]

/-- The seats that were there before do not matter. -/
theorem right_append_iff {c : Response} {before seats : List (List BidObject)} :
    Right tmpl c before (before ++ seats) ↔ LandsAll tmpl c seats := by
  constructor
  · rintro ⟨seats', hsame, h⟩
    rwa [List.append_cancel_left hsame]
  · intro h
    exact ⟨seats, rfl, h⟩

end

/-- Each adapter gives the tracker the landing URL of every bid that redirects if and only if each
of these bids has a query that fits the buffer of the tracker, and the first `curl` in it is either
of the template and read as the landing URL, or it is the text that the adapter encodes and this is
the landing URL.  The one encodes the landing URL, the other the currency of its response. -/
theorem landing_iff (tmpl : Template) (c : Response) :
    (∀ self : Inmobi.MessageResponse,
      Right tmpl c self.seatbid (Inmobi.construct self c tmpl).seatbid ↔
        ∀ seat ∈ c, ∀ bid ∈ seat, ∀ cturl, Redirects tmpl bid cturl →
          Leads (cturl ++ bid.trackUrlPar) self.cur bid.curl) ∧
    ∀ self : Iflytek.MessageResponse,
      Right tmpl c self.seatbid (Iflytek.construct self c tmpl).seatbid ↔
        ∀ seat ∈ c, ∀ bid ∈ seat, ∀ cturl, Redirects tmpl bid cturl →
          Leads (cturl ++ bid.trackUrlPar) bid.curl bid.curl := by
  constructor
  · intro self
    exact right_append_iff.trans (landsAll_iff (fun _ => self.zero_notMem_cur) c)
  · intro self
    exact right_append_iff.trans (landsAll_iff (fun bid => bid.zero_notMem_curl) c)

/-- A new `MESSAGERESPONSE`, as `ParseResponse` of the first adapter makes it. -/
def Inmobi.newResponse : Inmobi.MessageResponse := ⟨[], [], List.not_mem_nil, by decide⟩

/-- A bid that redirects to `http://a/`. -/
def sampleBid : Bid where
  redirect := 1
  curl := bytes "http://a/"
  trackUrlPar := bytes "&bid=1"
  zero_notMem_curl := by decide

/-- The template of a tracker. -/
def sampleTemplate : Template where
  nurl := []
  iurl := []
  cturl := [bytes "http://t/c?"]

/-- The sample redirects. -/
theorem sample_redirects : Redirects sampleTemplate sampleBid (bytes "http://t/c?") where
  head := rfl
  last := .inl rfl
  redirect := rfl
  noCurl := by
    intro value h
    have hnone : firstValue (bytes "&bid=1") (bytes "curl") = none := by decide
    have hvalue := firstValue_eq_some_iff.mpr h
    exact absurd (hnone.symm.trans hvalue) (Option.some_ne_none value).symm
  short := by decide

/-- The query of the sample has no `curl` in front of the encoded text. -/
theorem sample_leads_iff {encoded : Bytes} (hlen : (urlencode encoded).length ≤ 1023) :
    Leads (bytes "http://t/c?" ++ bytes "&bid=1") encoded (bytes "http://a/") ↔
      encoded = bytes "http://a/" := by
  have hquery : queryString (bytes "http://t/c?" ++ bytes "&bid=1") = bytes "&bid=1" := by decide
  have hnone : firstValue (bytes "&bid=1") (bytes "curl") = none := by decide
  constructor
  · intro h
    have hfirst := h.first
    rw [hquery, hnone] at hfirst
    exact hfirst
  · rintro rfl
    refine ⟨by decide, by decide, ?_⟩
    rw [hquery, hnone]

/-- A bid that redirects to `http://a/`: the first adapter encodes the currency, which is still
empty, and the click lands nowhere; the second one encodes the landing URL. -/
theorem inmobi_loses_landing :
    ¬Right sampleTemplate [[sampleBid]] []
        (Inmobi.construct Inmobi.newResponse [[sampleBid]] sampleTemplate).seatbid ∧
      Right sampleTemplate [[sampleBid]] []
        (Iflytek.construct ⟨[], []⟩ [[sampleBid]] sampleTemplate).seatbid := by
  constructor
  · intro h
    have hlands := right_append_iff.mp h
    have hall := (landsAll_iff (fun _ => Inmobi.newResponse.zero_notMem_cur) _).mp hlands
    have hleads := hall _ (List.mem_singleton.mpr rfl) _ (List.mem_singleton.mpr rfl) _
      sample_redirects
    have hempty : ([] : Bytes) = bytes "http://a/" := (sample_leads_iff (by decide)).mp hleads
    exact absurd hempty (by decide)
  · apply right_append_iff.mpr
    apply (landsAll_iff (fun bid => bid.zero_notMem_curl) _).mpr
    intro seat hseat bid hbid cturl h
    rw [List.mem_singleton] at hseat
    subst hseat
    rw [List.mem_singleton] at hbid
    subst hbid
    have hcturl : bytes "http://t/c?" = cturl := Option.some_inj.mp h.head
    subst hcturl
    exact (sample_leads_iff (by decide)).mpr rfl

end ClickLanding

end AdxDsp
