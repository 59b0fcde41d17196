import AdxDsp.Bid.TraceUrl
import AdxDsp.Tracker.KpiPause
import AdxDsp.Tracker.Query
import AdxDsp.Tracker.Tracker

/-!
# The flag word of a bid, from the bidder to the tracker

The bidder writes the flag word under the ids as they are and encodes them in the tracking URLs.
The tracker decodes the bid id for exchange 16 only, and never the imp id.  So a notice finds the
flag word of its bid exactly for ids that `urlencode` leaves alone.

* `urlDecode_urlencode`: what the bidder encodes the tracker could decode.
* `flag_key_agrees_iff`: when both sides name one flag word.
-/

namespace AdxDsp

open CText Redis

/-! ## `urlencode` -/

/-- A byte that `urlencode` leaves alone: a letter, a digit, `-`, `.` or `_`. -/
def isPlain (c : UInt8) : Bool := c ≠ 32 && !isEscaped c

/-- A plain byte is written as it is. -/
theorem urlencodeByte_of_isPlain {c : UInt8} (h : isPlain c = true) : urlencodeByte c = [c] := by
  rw [isPlain, Bool.and_eq_true, decide_eq_true_eq, Bool.not_eq_true'] at h
  rw [urlencodeByte, if_neg h.1, h.2]
  rfl

/-- No encoded byte ends a parameter. -/
theorem elem_urlencodeByte : ∀ c : UInt8, (urlencodeByte c).elem 38 = false := by
  decide +kernel

/-- The encoded text has no ampersand. -/
theorem amp_notMem_urlencode (t : Bytes) : 38 ∉ urlencode t := by
  intro h
  obtain ⟨c, -, hc⟩ := List.mem_flatMap.mp h
  have hnot := elem_urlencodeByte c
  rw [List.elem_eq_mem, decide_eq_false_iff_not] at hnot
  exact hnot hc

/-- The two digits of an escaped byte give it back. -/
theorem xdigitValue_hexchar : ∀ c : UInt8, isXdigit (hexchar (c / 16)) = true ∧
    isXdigit (hexchar (c % 16)) = true ∧
      xdigitValue (hexchar (c / 16)) * 16 + xdigitValue (hexchar (c % 16)) = c := by
  decide +kernel

/-- The two special bytes are escaped. -/
theorem isEscaped_of_special : isEscaped 37 = true ∧ isEscaped 43 = true := by decide

/-- An encoded byte is decoded. -/
theorem urlDecode_urlencodeByte (c : UInt8) (rest : Bytes) :
    urlDecode (urlencodeByte c ++ rest) = c :: urlDecode rest := by
  rw [urlencodeByte]
  split_ifs with hblank hesc
  · subst hblank
    exact urlDecode_cons (by decide) rest
  · obtain ⟨h1, h2, hval⟩ := xdigitValue_hexchar c
    simp only [List.cons_append, List.nil_append]
    rw [urlDecode, h1, h2, hval]
    rfl
  · have h37 : c ≠ 37 := by
      rintro rfl
      exact hesc isEscaped_of_special.1
    have h43 : c ≠ 43 := by
      rintro rfl
      exact hesc isEscaped_of_special.2
    rw [List.singleton_append, urlDecode_cons h37, if_neg h43]

/-- Decoding undoes encoding. -/
theorem urlDecode_urlencode (t : Bytes) : urlDecode (urlencode t) = cstr t := by
  rw [urlencode]
  induction cstr t with
  | nil => rfl
  | cons c t ih => rw [List.flatMap_cons, urlDecode_urlencodeByte, ih]

/-- No byte is dropped. -/
theorem one_le_length_urlencodeByte (c : UInt8) : 1 ≤ (urlencodeByte c).length := by
  rw [urlencodeByte]
  split_ifs <;> simp

/-- Encoding makes no text shorter. -/
theorem length_le_length_flatMap (t : Bytes) : t.length ≤ (t.flatMap urlencodeByte).length := by
  induction t with
  | nil => exact Nat.le_refl 0
  | cons c t ih =>
    rw [List.flatMap_cons, List.length_append, List.length_cons]
    have hc := one_le_length_urlencodeByte c
    omega

/-- Encoding makes no C string shorter. -/
theorem length_cstr_le_urlencode (t : Bytes) : (cstr t).length ≤ (urlencode t).length :=
  length_le_length_flatMap (cstr t)

/-- A text that is its own encoding has plain bytes only. -/
theorem flatMap_urlencodeByte_eq_self_iff {t : Bytes} :
    t.flatMap urlencodeByte = t ↔ ∀ b ∈ t, isPlain b = true := by
  induction t with
  | nil => simp
  | cons c t ih =>
    rw [List.flatMap_cons, List.forall_mem_cons]
    refine ⟨fun h => ?_, fun h => ?_⟩
    · have hlen := congrArg List.length h
      have hrest := length_le_length_flatMap t
      rw [List.length_append, List.length_cons] at hlen
      by_cases hblank : c = 32
      · subst hblank
        exact absurd (List.head_eq_of_cons_eq h) (by decide)
      · by_cases hesc : isEscaped c = true
        · rw [urlencodeByte, if_neg hblank, if_pos hesc] at hlen
          simp only [List.length_cons, List.length_nil] at hlen
          omega
        · have hplain : isPlain c = true := by
            rw [isPlain, Bool.not_eq_true] at *
            rw [hesc]
            simpa using hblank
          rw [urlencodeByte_of_isPlain hplain] at h
          exact ⟨hplain, ih.mp (List.tail_eq_of_cons_eq h)⟩
    · rw [urlencodeByte_of_isPlain h.1, ih.mpr h.2]
      rfl

/-- The id is encoded as it is: it has plain bytes only. -/
def PlainId (id : Bytes) : Prop := ∀ b ∈ cstr id, isPlain b = true

instance (id : Bytes) : Decidable (PlainId id) := inferInstanceAs (Decidable (∀ b ∈ _, _))

/-- Only plain ids are written as they are. -/
theorem urlencode_eq_cstr_iff {id : Bytes} : urlencode id = cstr id ↔ PlainId id :=
  flatMap_urlencodeByte_eq_self_iff

/-- Only an empty id is written as nothing. -/
theorem urlencode_eq_nil_iff {id : Bytes} : urlencode id = [] ↔ cstr id = [] := by
  refine ⟨fun h => ?_, fun h => ?_⟩
  · have hlen := length_cstr_le_urlencode id
    rw [h, List.length_nil] at hlen
    exact List.eq_nil_of_length_eq_zero (Nat.le_zero.mp hlen)
  · rw [urlencode, h]
    rfl

/-! ## The query of a notice -/

/-- The query of a notice: the template has the exchange and the kind of the notice, the bid adds
its tracking parameters. -/
def traceQuery (adx : ℤ) (mtype : UInt8) (par : Bytes) : Bytes :=
  bytes "adx=" ++ decimal adx ++ bytes "&mtype=" ++ [mtype] ++ par

section

variable (adx : ℤ) {mtype : UInt8} (req : ComRequest) (bid : ComBid)

/-- The parameters of a notice that are read first under their names. -/
theorem firstValue_traceQuery (hm : mtype ≠ 38) :
    let query := traceQuery adx mtype (traceUrlPar req bid)
    paramValue query (bytes "adx") = decimal adx ∧ paramValue query (bytes "mtype") = [mtype] ∧
      paramValue query (bytes "bid") = urlencode req.id ∧
      paramValue query (bytes "impid") = urlencode bid.impid ∧
      paramValue query (bytes "advid") = decimal bid.imp.ext.advid.toNat ∧
      paramValue query (bytes "mapid") = decimal bid.mapid := by
  intro query
  have hdec : ∀ z : ℤ, (38 : UInt8) ∉ decimal z := notMem_decimal (by decide) (by decide)
  -- the query begins without `&`, all other parameters with one
  have hquery : 38 :: query = urlPar (bytes "adx") (decimal adx) ++
      (urlPar (bytes "mtype") [mtype] ++ (urlPar (bytes "bid") (urlencode req.id) ++
        (urlPar (bytes "impid") (urlencode bid.impid) ++
          (urlPar (bytes "advid") (decimal bid.imp.ext.advid.toNat) ++
            (urlPar (bytes "at") (decimal req.at_) ++ (urlPar (bytes "mapid") (decimal bid.mapid) ++
              traceUrlRest req bid)))))) := by
    simp only [query, traceQuery, traceUrlPar, urlPar, List.append_assoc]
    rfl
  have hrest : ParEnd (traceUrlRest req bid) := by
    simp only [traceUrlRest, List.append_assoc]
    exact parEnd_urlPar _ _ _
  -- `traceUrlRest` is reached only by keys that none of the first parameters has
  have hfirst : ∀ key, firstValue query key =
      if bytes "adx" = key then some (decimal adx)
      else if bytes "mtype" = key then some [mtype]
      else if bytes "bid" = key then some (urlencode req.id)
      else if bytes "impid" = key then some (urlencode bid.impid)
      else if bytes "advid" = key then some (decimal bid.imp.ext.advid.toNat)
      else if bytes "at" = key then some (decimal req.at_)
      else if bytes "mapid" = key then some (decimal bid.mapid)
      else firstValue (traceUrlRest req bid) key := by
    intro key
    rw [← firstValue_amp, hquery,
      firstValue_urlPar (by decide) (by decide) (hdec _) (parEnd_urlPar _ _ _),
      firstValue_urlPar (by decide) (by decide) (by simpa using hm.symm) (parEnd_urlPar _ _ _),
      firstValue_urlPar (by decide) (by decide) (amp_notMem_urlencode _) (parEnd_urlPar _ _ _),
      firstValue_urlPar (by decide) (by decide) (amp_notMem_urlencode _) (parEnd_urlPar _ _ _),
      firstValue_urlPar (by decide) (by decide) (hdec _) (parEnd_urlPar _ _ _),
      firstValue_urlPar (by decide) (by decide) (hdec _) (parEnd_urlPar _ _ _),
      firstValue_urlPar (by decide) (by decide) (hdec _) hrest]
  simp only [paramValue, hfirst]
  exact ⟨rfl, rfl, rfl, rfl, rfl, rfl⟩

end

/-! ## The first command of the tracker -/

/-- When the parameters are accepted. -/
theorem checkParams_eq_success_iff {u : UrlInfo} :
    checkParams u = .success ↔ u.mapid ≠ 0 ∧ (0 < u.adx ∧ u.adx < 255) ∧
      (u.mtype = mtypeWin ∨ u.mtype = mtypeImp ∨ u.mtype = mtypeClk) := by
  rw [checkParams]
  split_ifs with h1 h2 h3
  · simp [h1]
  · simp only [false_iff]
    omega
  · simp only [true_iff]
    exact ⟨h1, by omega, h3⟩
  · simp [h3]

/-- When the ids are accepted. -/
theorem checkIds_eq_success_iff {u : UrlInfo} :
    checkIds u = .success ↔ u.impid ≠ [] ∧ u.bid ≠ [] := by
  rw [checkIds]
  split_ifs with h1 h2 <;> simp [*]

/-- The first thing that `adx_tracker` does with a valid notice is to read its flag word. -/
theorem first_adxTracker (conf : TrackerConf) (clk : ℕ → ℤ) (u : UrlInfo)
    (c : Server × Cmd) :
    (adxTracker conf clk u).first = some c ↔ checkParams u = .success ∧ checkIds u = .success ∧
      c = (.adCounterMaster, .get u.decodeBid.flagKey) := by
  rw [adxTracker]
  by_cases hp : checkParams u = .success
  · by_cases hi : checkIds u = .success
    · rw [if_neg (not_not.mpr hp), if_neg (not_not.mpr hi)]
      simp only [hp, hi, true_and]
      exact ⟨fun h => (Option.some_inj.mp h).symm, fun h => congrArg some h.symm⟩
    · rw [if_neg (not_not.mpr hp), if_pos hi]
      simp [hi, Prog.first]
  · rw [if_pos hp]
    simp [hp, Prog.first]

/-! ## The two keys -/

/-- Keys of flag words agree if their ids do, when neither id of one is shorter. -/
theorem dspIdFlagKey_inj {a a' b b' c : Bytes} (ha : a'.length ≤ a.length)
    (hb : b'.length ≤ b.length) :
    dspIdFlagKey a b c = dspIdFlagKey a' b' c ↔ a = a' ∧ b = b' := by
  refine ⟨fun h => ?_, fun h => by rw [h.1, h.2]⟩
  simp only [dspIdFlagKey, List.append_assoc, List.append_cancel_left_eq] at h
  have hlen := congrArg List.length h
  simp only [List.length_append] at hlen
  obtain ⟨rfl, hrest⟩ := List.append_inj h (by omega)
  rw [List.append_cancel_left_eq] at hrest
  exact ⟨rfl, (List.append_inj hrest (by omega)).1⟩

/-- The key of a notice is the key that the bidder wrote. -/
theorem flagKey_eq_bidFlagKey_iff {u : UrlInfo} {req : ComRequest} {bid : ComBid}
    (hbid : u.bid = urlencode req.id) (himpid : u.impid = urlencode bid.impid)
    (hadvid : u.advid = decimal bid.imp.ext.advid.toNat) :
    u.decodeBid.flagKey = bidFlagKey req bid ↔
      PlainId bid.impid ∧ (u.adx = 16 ∨ PlainId req.id) := by
  have hkey : bidFlagKey req bid =
      dspIdFlagKey (cstr req.id) (cstr bid.impid) (decimal bid.imp.ext.advid.toNat) := rfl
  have himp := length_cstr_le_urlencode bid.impid
  rw [hkey, UrlInfo.flagKey, UrlInfo.decodeBid]
  split_ifs with hadx
  · have hdecoded : googleBidParse u.bid = cstr req.id := by
      rw [googleBidParse, hbid, urlDecode_urlencode, cstr_eq_self (zero_notMem_cstr _)]
    dsimp only
    rw [hdecoded, himpid, hadvid, dspIdFlagKey_inj le_rfl himp, urlencode_eq_cstr_iff]
    simp [hadx]
  · rw [hbid, himpid, hadvid, dspIdFlagKey_inj (length_cstr_le_urlencode _) himp,
      urlencode_eq_cstr_iff, urlencode_eq_cstr_iff]
    simp [hadx, and_comm]

/-- The key of a flag word fits its buffer for ids of at most 60 bytes. -/
theorem length_bidFlagKey_lt {req : ComRequest} {bid : ComBid} (hid : req.id.length ≤ 60)
    (himpid : bid.impid.length ≤ 60) : (bidFlagKey req bid).length < 256 := by
  have h1 := length_cstr_le req.id
  have h2 := length_cstr_le bid.impid
  have h3 : (decimal bid.imp.ext.advid.toNat).length ≤ 5 :=
    length_decimal_natCast_le (by norm_num) (bid.imp.ext.advid.toNat_lt.trans (by norm_num))
  have hprefix : (bytes "dsp_id_flag_").length = 12 := rfl
  have hsep : (bytes "_").length = 1 := rfl
  simp only [bidFlagKey, List.length_append]
  omega

/-- A bid writes its flag word, and its notice asks for this flag word first. -/
def FindsFlag (conf : TrackerConf) (clk : ℕ → ℤ) (remoteaddr ua : Bytes) (adx : ℤ) (mtype : UInt8)
    (req : ComRequest) (bid : ComBid) : Prop :=
  ∃ key life par p, setBidRedisFlag req bid = some (.setex key life (bytes "1")) ∧
    setTraceUrlPar req bid = some par ∧
    adxTrackerRequest conf clk remoteaddr (traceQuery adx mtype par) ua = some p ∧
    p.first = some (.adCounterMaster, .get key)

/-- The notice of a bid asks for the flag word of the bid if and only if its parameters fit the
buffers of the tracker, they pass its checks, the imp id is plain and, except on exchange 16, the
request id is plain too. -/
theorem flag_key_agrees_iff (conf : TrackerConf) (clk : ℕ → ℤ) (remoteaddr ua : Bytes) {adx : ℤ}
    {mtype : UInt8} (req : ComRequest) (bid : ComBid)
    (hm : mtype = mtypeWin ∨ mtype = mtypeImp ∨ mtype = mtypeClk)
    (hadx : -2 ^ 31 ≤ adx ∧ adx < 2 ^ 31) (hmapid : -2 ^ 31 ≤ bid.mapid ∧ bid.mapid < 2 ^ 31)
    (hid : req.id.length ≤ 60) (himpid : bid.impid.length ≤ 60) :
    FindsFlag conf clk remoteaddr ua adx mtype req bid ↔
      FitsBuffers (traceQuery adx mtype (traceUrlPar req bid)) ∧
        (bid.mapid ≠ 0 ∧ 0 < adx ∧ adx < 255 ∧ cstr req.id ≠ [] ∧ cstr bid.impid ≠ []) ∧
          PlainId bid.impid ∧ (adx = 16 ∨ PlainId req.id) := by
  have hamp : mtype ≠ 38 := by
    rcases hm with rfl | rfl | rfl <;> decide
  obtain ⟨vadx, vmtype, vbid, vimpid, vadvid, vmapid⟩ := firstValue_traceQuery adx req bid hamp
  -- what the tracker does with the notice once it has read its parameters
  have hfirst : ∀ {u}, urlInfoParse remoteaddr (traceQuery adx mtype (traceUrlPar req bid)) ua =
      some u → ((adxTracker conf clk u).first = some (.adCounterMaster, .get (bidFlagKey req bid)) ↔
        (bid.mapid ≠ 0 ∧ 0 < adx ∧ adx < 255 ∧ cstr req.id ≠ [] ∧ cstr bid.impid ≠ []) ∧
          PlainId bid.impid ∧ (adx = 16 ∨ PlainId req.id)) := by
    intro u hu
    obtain ⟨-, umtype, ubid, umapid, uimpid, uadx, uadvid⟩ := urlInfoParse_eq_some hu
    rw [vadx, atoi_decimal hadx.1 hadx.2] at uadx
    rw [vmapid, atoi_decimal hmapid.1 hmapid.2] at umapid
    rw [vmtype] at umtype
    rw [vbid] at ubid
    rw [vimpid] at uimpid
    rw [vadvid] at uadvid
    rw [first_adxTracker, checkParams_eq_success_iff, checkIds_eq_success_iff, Prod.mk.injEq,
      Cmd.get.injEq, eq_comm (a := bidFlagKey req bid),
      flagKey_eq_bidFlagKey_iff ubid uimpid uadvid, umapid, uadx, umtype, ubid, uimpid, ne_eq,
      ne_eq, ne_eq, urlencode_eq_nil_iff, urlencode_eq_nil_iff]
    constructor
    · rintro ⟨⟨h0, ⟨hpos, hlt⟩, -⟩, ⟨hi, hb⟩, -, hplain⟩
      exact ⟨⟨h0, hpos, hlt, hb, hi⟩, hplain⟩
    · rintro ⟨⟨h0, hpos, hlt, hb, hi⟩, hplain⟩
      exact ⟨⟨h0, ⟨hpos, hlt⟩, hm⟩, ⟨hi, hb⟩, rfl, hplain⟩
  constructor
  · rintro ⟨key, life, par, p, hset, hpar, hp, hget⟩
    rw [setBidRedisFlag] at hset
    rw [setTraceUrlPar] at hpar
    split_ifs at hset hpar
    obtain rfl := Option.some_inj.mp hpar
    obtain ⟨rfl, -, -⟩ := Cmd.setex.inj (Option.some_inj.mp hset)
    obtain ⟨u, hu, rfl⟩ := Option.map_eq_some_iff.mp hp
    exact ⟨(urlInfoParse_eq_some hu).1, (hfirst hu).mp hget⟩
  · rintro ⟨hfits, hcond⟩
    obtain ⟨u, hu⟩ := Option.isSome_iff_exists.mp (hfits.urlInfoParse_isSome remoteaddr ua)
    have hkey := length_bidFlagKey_lt hid himpid
    have hpar : (traceUrlPar req bid).length < 4096 := by
      have hlen := hfits.1
      simp only [traceQuery, List.length_append] at hlen
      omega
    refine ⟨_, _, _, _, by rw [setBidRedisFlag, if_pos hkey], by rw [setTraceUrlPar, if_pos hpar],
      by rw [adxTrackerRequest, hu]; rfl, (hfirst hu).mpr hcond⟩

/-! ## A request id that is not plain -/

/-- A bid on the sample banner. -/
def sampleBid : ComBid := ⟨31, bytes "1", [], sampleImpression⟩

/-- A tracker without price libraries and records. -/
def sampleTrackerConf : TrackerConf := ⟨sampleLib, [], ⟨[], [], []⟩⟩

/-- The notice of a bid with the request id `b` finds its flag word. -/
theorem flag_key_agrees_iff_sample :
    FindsFlag sampleTrackerConf (fun _ => 0) [] [] 14 mtypeImp (sampleRequest (bytes "b"))
      sampleBid := by
  refine (flag_key_agrees_iff sampleTrackerConf (fun _ => 0) [] [] (sampleRequest (bytes "b"))
    sampleBid (.inr (.inl rfl)) (by norm_num) (by norm_num [sampleBid]) (by decide)
    (by decide)).mpr ?_
  decide +kernel

/-- On exchange 14, the notice of a bid with the request id `a=` asks for another flag word. -/
theorem encoded_id_misses_flag :
    ¬FindsFlag sampleTrackerConf (fun _ => 0) [] [] 14 mtypeImp (sampleRequest (bytes "a="))
      sampleBid := by
  rintro ⟨key, life, par, p, hset, hpar, hp, hget⟩
  have hwritten : setBidRedisFlag (sampleRequest (bytes "a=")) sampleBid =
      some (.setex (bytes "dsp_id_flag_a=_1_0") 1800 (bytes "1")) := by
    decide +kernel
  have hasked : ((setTraceUrlPar (sampleRequest (bytes "a=")) sampleBid).bind fun par =>
      (adxTrackerRequest sampleTrackerConf (fun _ => 0) [] (traceQuery 14 mtypeImp par) []).bind
        Prog.first) = some (.adCounterMaster, .get (bytes "dsp_id_flag_a%3D_1_0")) := by
    decide +kernel
  rw [hwritten, Option.some_inj, Cmd.setex.injEq] at hset
  rw [hpar, Option.bind_some, hp, Option.bind_some, hget, ← hset.1] at hasked
  exact absurd hasked (by decide)

end AdxDsp
