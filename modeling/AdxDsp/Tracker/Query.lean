import AdxDsp.Tracker.UrlInfo

/-!
# Reading a query

What `url_info_parse` finds in a query that is written as a sequence of parameters.

* `firstValue_urlPar`: the first parameter of a name decides.
* `firstValue_parText`: each of several parameters with different names is read back.
* `FitsBuffers.urlInfoParse_isSome`: the parser reads every query that stays within its buffers.
* `urlInfoParse_eq_some`: what it reads, and that it has stayed within its buffers.
-/

namespace AdxDsp

open CText

/-- The value of the first parameter with a name. -/
def firstValue (url key : Bytes) : Option Bytes := (urlSegments url).findSome? (segmentValue? key)

/-- The value of a parameter, empty if there is none. -/
def paramValue (url key : Bytes) : Bytes := (firstValue url key).getD []

/-- A segment has the value of its own name only. -/
theorem segmentValue?_eq {name : Bytes} (hname : 61 ∉ name) (key value : Bytes) :
    segmentValue? key (name ++ 61 :: value) = if name = key then some value else none := by
  have hall : ∀ b ∈ name, (decide (b ≠ 61)) = true := by
    intro b hb
    exact decide_eq_true fun h => hname (h ▸ hb)
  have hdrop : (name ++ 61 :: value).dropWhile (fun b => decide (b ≠ 61)) = 61 :: value := by
    rw [List.dropWhile_append_of_pos hall]
    rfl
  have htake : (name ++ 61 :: value).takeWhile (fun b => decide (b ≠ 61)) = name := by
    rw [List.takeWhile_append_of_pos hall]
    simp
  rw [segmentValue?, hdrop, htake]

/-- An empty segment is skipped. -/
theorem firstValue_amp (url key : Bytes) : firstValue (38 :: url) key = firstValue url key := by
  have hsplit : (38 :: url).splitOn (38 : UInt8) = [] :: url.splitOn 38 :=
    @List.splitOn_append_cons_self_of_not_mem UInt8 [] _ _ 38 List.not_mem_nil url
  rw [firstValue, firstValue, urlSegments, urlSegments, hsplit]
  rfl

/-- The text ends here, or another parameter follows. -/
def ParEnd (rest : Bytes) : Prop := rest = [] ∨ ∃ r, rest = 38 :: r

/-- Behind a parameter the query goes on or ends. -/
theorem parEnd_urlPar (name value rest : Bytes) : ParEnd (urlPar name value ++ rest) :=
  .inr ⟨name ++ bytes "=" ++ value ++ rest, by simp [urlPar, bytes]⟩

/-- The first parameter of a name decides. -/
theorem firstValue_urlPar {name value rest : Bytes} (hname : 61 ∉ name) (hamp : 38 ∉ name)
    (hvalue : 38 ∉ value) (hrest : ParEnd rest) (key : Bytes) :
    firstValue (urlPar name value ++ rest) key =
      if name = key then some value else firstValue rest key := by
  have hseg : (38 : UInt8) ∉ name ++ 61 :: value := by simp [hamp, hvalue]
  have hne : name ++ 61 :: value ≠ [] := by simp
  have htext : urlPar name value ++ rest = 38 :: ((name ++ 61 :: value) ++ rest) := by
    simp [urlPar, bytes]
  rw [htext, firstValue_amp]
  rcases hrest with rfl | ⟨r, rfl⟩
  · rw [firstValue, urlSegments, List.append_nil, List.splitOn_eq_singleton hseg,
      List.filter_cons_of_pos (by simp [hne]), List.filter_nil, List.findSome?_cons,
      segmentValue?_eq hname]
    split_ifs <;> rfl
  · rw [firstValue_amp, firstValue, urlSegments, List.splitOn_append_cons_self_of_not_mem hseg,
      List.filter_cons_of_pos (by simp [hne]), List.findSome?_cons, segmentValue?_eq hname]
    split_ifs <;> rfl

/-- No value that is read contains the separator. -/
theorem amp_notMem_firstValue {url key value : Bytes} (h : firstValue url key = some value) :
    38 ∉ value := by
  obtain ⟨segment, hmem, hvalue⟩ := List.exists_of_findSome?_eq_some h
  have hseg : (38 : UInt8) ∉ segment :=
    notMem_of_mem_splitOn (List.mem_of_mem_filter hmem)
  intro hamp
  apply hseg
  rw [segmentValue?] at hvalue
  split at hvalue
  · simp at hvalue
  · rename_i b v hdrop
    split_ifs at hvalue
    rw [Option.some_inj] at hvalue
    subst hvalue
    have hsuffix : b :: v <:+ segment := hdrop ▸ List.dropWhile_suffix _
    exact hsuffix.subset (List.mem_cons_of_mem b hamp)

/-- The text of several parameters, each a name and a value. -/
def parText (pars : List (Bytes × Bytes)) : Bytes := pars.flatMap fun p => urlPar p.1 p.2

/-- Behind the parameters the query goes on or ends. -/
theorem parEnd_parText (pars : List (Bytes × Bytes)) : ParEnd (parText pars) := by
  cases pars with
  | nil => exact .inl rfl
  | cons p ps =>
    rw [parText, List.flatMap_cons]
    exact parEnd_urlPar _ _ _

/-- Parameters with different names and without separators in them are read back. -/
theorem firstValue_parText {pars : List (Bytes × Bytes)}
    (hname : ∀ p ∈ pars, 61 ∉ p.1 ∧ 38 ∉ p.1) (hvalue : ∀ p ∈ pars, 38 ∉ p.2)
    (hnodup : (pars.map Prod.fst).Nodup) {p : Bytes × Bytes} (hp : p ∈ pars) :
    firstValue (parText pars) p.1 = some p.2 := by
  induction pars with
  | nil => exact absurd hp List.not_mem_nil
  | cons q qs ih =>
    obtain ⟨hq, hname⟩ := List.forall_mem_cons.mp hname
    obtain ⟨hqv, hvalue⟩ := List.forall_mem_cons.mp hvalue
    obtain ⟨hnot, hnodup⟩ := List.nodup_cons.mp hnodup
    have htext : parText (q :: qs) = urlPar q.1 q.2 ++ parText qs := List.flatMap_cons
    rw [htext, firstValue_urlPar hq.1 hq.2 hqv (parEnd_parText qs)]
    rcases List.mem_cons.mp hp with rfl | hp
    · rw [if_pos rfl]
    · have hne : q.1 ≠ p.1 := fun h => hnot (h ▸ List.mem_map_of_mem hp)
      rw [if_neg hne]
      exact ih hname hvalue hnodup hp

/-! ## The buffers of the parser -/

/-- The names of the parameters that `url_info_parse` reads. -/
def paramNames : List Bytes :=
  [bytes "ip", bytes "mtype", bytes "bid", bytes "at", bytes "mapid", bytes "impid", bytes "impt",
    bytes "impm", bytes "w", bytes "h", bytes "deviceidtype", bytes "adx", bytes "price",
    bytes "curl", bytes "appid", bytes "nw", bytes "os", bytes "gp", bytes "tp", bytes "mb",
    bytes "md", bytes "op", bytes "ds", bytes "dealid", bytes "advid", bytes "deviceid",
    bytes "activation_parameter"]

/-- The query and the values that are read fit the buffers of the parser. -/
def FitsBuffers (query : Bytes) : Prop :=
  query.length < 2048 ∧ ∀ key ∈ paramNames, (paramValue query key).length < 1024

instance (query : Bytes) : Decidable (FitsBuffers query) := inferInstanceAs (Decidable (_ ∧ _))

/-- The reader yields a value just if the query and the value fit. -/
theorem adxStringUrlParamValue_eq_some_iff {url key value : Bytes} :
    adxStringUrlParamValue url key = some value ↔
      url.length < 2048 ∧ (paramValue url key).length < 1024 ∧ paramValue url key = value := by
  rw [adxStringUrlParamValue, paramValue, firstValue]
  by_cases hlen : 2048 ≤ url.length
  · simp [hlen, Nat.not_lt.mpr hlen]
  · rw [if_neg hlen]
    cases (urlSegments url).findSome? (segmentValue? key) with
    | none => simp [Nat.lt_of_not_le hlen]
    | some v => simp [Nat.lt_of_not_le hlen]

/-- A query that fits yields each parameter. -/
theorem FitsBuffers.value {query : Bytes} (h : FitsBuffers query) {key : Bytes}
    (hkey : key ∈ paramNames) :
    adxStringUrlParamValue query key = some (paramValue query key) :=
  adxStringUrlParamValue_eq_some_iff.mpr ⟨h.1, h.2 key hkey, rfl⟩

/-- The parser reads a query that fits its buffers. -/
theorem FitsBuffers.urlInfoParse_isSome {query : Bytes} (h : FitsBuffers query)
    (remoteaddr ua : Bytes) : (urlInfoParse remoteaddr query ua).isSome := by
  have hvalue : ∀ key ∈ paramNames, _ := fun key hkey => @FitsBuffers.value query h key hkey
  simp only [paramNames, List.forall_mem_cons] at hvalue
  simp only [urlInfoParse, hvalue, Option.bind_eq_bind, Option.bind_some, Option.pure_def,
    Option.isSome_some]

/-- What the parser has read, and that nothing has overrun its buffers. -/
theorem urlInfoParse_eq_some {remoteaddr query ua : Bytes} {u : UrlInfo}
    (h : urlInfoParse remoteaddr query ua = some u) :
    FitsBuffers query ∧ u.mtype = (paramValue query (bytes "mtype")).headD 0 ∧
      u.bid = paramValue query (bytes "bid") ∧ u.mapid = atoi (paramValue query (bytes "mapid")) ∧
      u.impid = paramValue query (bytes "impid") ∧ u.adx = atoi (paramValue query (bytes "adx")) ∧
      u.advid = paramValue query (bytes "advid") := by
  unfold urlInfoParse at h
  -- one reading after the other, in the order of the source
  obtain ⟨_, hip, h⟩ := Option.bind_eq_some_iff.mp h
  obtain ⟨_, hmtype, h⟩ := Option.bind_eq_some_iff.mp h
  obtain ⟨_, hbid, h⟩ := Option.bind_eq_some_iff.mp h
  obtain ⟨_, hat, h⟩ := Option.bind_eq_some_iff.mp h
  obtain ⟨_, hmapid, h⟩ := Option.bind_eq_some_iff.mp h
  obtain ⟨_, himpid, h⟩ := Option.bind_eq_some_iff.mp h
  obtain ⟨_, himpt, h⟩ := Option.bind_eq_some_iff.mp h
  obtain ⟨_, himpm, h⟩ := Option.bind_eq_some_iff.mp h
  obtain ⟨_, hw, h⟩ := Option.bind_eq_some_iff.mp h
  obtain ⟨_, hh, h⟩ := Option.bind_eq_some_iff.mp h
  obtain ⟨_, hdeviceidtype, h⟩ := Option.bind_eq_some_iff.mp h
  obtain ⟨_, hadx, h⟩ := Option.bind_eq_some_iff.mp h
  obtain ⟨_, hprice, h⟩ := Option.bind_eq_some_iff.mp h
  obtain ⟨_, hcurl, h⟩ := Option.bind_eq_some_iff.mp h
  obtain ⟨_, happid, h⟩ := Option.bind_eq_some_iff.mp h
  obtain ⟨_, hnw, h⟩ := Option.bind_eq_some_iff.mp h
  obtain ⟨_, hos, h⟩ := Option.bind_eq_some_iff.mp h
  obtain ⟨_, hgp, h⟩ := Option.bind_eq_some_iff.mp h
  obtain ⟨_, htp, h⟩ := Option.bind_eq_some_iff.mp h
  obtain ⟨_, hmb, h⟩ := Option.bind_eq_some_iff.mp h
  obtain ⟨_, hmd, h⟩ := Option.bind_eq_some_iff.mp h
  obtain ⟨_, hop, h⟩ := Option.bind_eq_some_iff.mp h
  obtain ⟨_, hds, h⟩ := Option.bind_eq_some_iff.mp h
  obtain ⟨_, hdealid, h⟩ := Option.bind_eq_some_iff.mp h
  obtain ⟨_, hadvid, h⟩ := Option.bind_eq_some_iff.mp h
  obtain ⟨_, hdeviceid, h⟩ := Option.bind_eq_some_iff.mp h
  obtain ⟨_, hactivation, h⟩ := Option.bind_eq_some_iff.mp h
  obtain rfl := Option.some_inj.mp h
  have hsome : ∀ key ∈ paramNames, ∃ value, adxStringUrlParamValue query key = some value := by
    simp only [paramNames, List.forall_mem_cons]
    exact ⟨⟨_, hip⟩, ⟨_, hmtype⟩, ⟨_, hbid⟩, ⟨_, hat⟩, ⟨_, hmapid⟩, ⟨_, himpid⟩, ⟨_, himpt⟩,
      ⟨_, himpm⟩, ⟨_, hw⟩, ⟨_, hh⟩, ⟨_, hdeviceidtype⟩, ⟨_, hadx⟩, ⟨_, hprice⟩, ⟨_, hcurl⟩,
      ⟨_, happid⟩, ⟨_, hnw⟩, ⟨_, hos⟩, ⟨_, hgp⟩, ⟨_, htp⟩, ⟨_, hmb⟩, ⟨_, hmd⟩, ⟨_, hop⟩, ⟨_, hds⟩,
      ⟨_, hdealid⟩, ⟨_, hadvid⟩, ⟨_, hdeviceid⟩, ⟨_, hactivation⟩, by simp⟩
  have hread : ∀ {key value}, adxStringUrlParamValue query key = some value →
      value = paramValue query key := fun hv => (adxStringUrlParamValue_eq_some_iff.mp hv).2.2.symm
  refine ⟨⟨(adxStringUrlParamValue_eq_some_iff.mp hip).1, fun key hkey => ?_⟩, ?_⟩
  · obtain ⟨value, hvalue⟩ := hsome key hkey
    exact (adxStringUrlParamValue_eq_some_iff.mp hvalue).2.1
  · dsimp only
    rw [hread hmtype, hread hbid, hread hmapid, hread himpid, hread hadx, hread hadvid]
    exact ⟨rfl, rfl, rfl, rfl, rfl, rfl⟩

end AdxDsp
