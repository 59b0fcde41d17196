import AdxDsp.Tracker.Query

/-!
# What a call of `adx_string_url_param_value` does

The calls that the model of the parser leaves without an answer, told apart: a call may return
`NULL`, and it may write past the buffer of its caller.

* **`IsParamValue`**: the value of a parameter, by the places of its text in the query.
* **`param_read_iff`**: when a call answers as it should, and when the parser comes to its end.
-/

namespace AdxDsp

open CText

/-- The end of a call of `adx_string_url_param_value` with a buffer of 1024 bytes. -/
inductive ParamRead where
  /-- `NULL` is returned. -/
  | null
  /-- The value and its terminator have been written past the end of the buffer. -/
  | overrun (value : Bytes)
  /-- A string is returned. -/
  | str (value : Bytes)
  deriving DecidableEq

/-- The string that a call returns, if nothing has gone wrong. -/
def ParamRead.toOption : ParamRead → Option Bytes
  | str value => some value
  | _ => none

/-- The loop over the segments. -/
def paramLoop (key : Bytes) : List Bytes → ParamRead
  | [] => .str []
  | segment :: rest =>
    match segment.dropWhile (· ≠ 61) with
    | [] => paramLoop key rest
    | _ :: value =>
      if segment.takeWhile (· ≠ 61) = key then
        -- the pointer of the length test still points to the terminator that has replaced the `=`
        if 1024 ≤ (cstr (0 :: value)).length then .str []
        else if value.length < 1024 then .str value
        else .overrun value
      else paramLoop key rest

/-- `adx_string_url_param_value`, with everything that can happen. -/
def paramRead (url key : Bytes) : ParamRead :=
  if 2048 ≤ url.length then .null else paramLoop key (urlSegments url)

/-! ## The value of a parameter -/

/-- The text behind the first `=` of the first segment that has this name before it. -/
def IsParamValue (url key value : Bytes) : Prop :=
  61 ∉ key ∧ ∃ pre suf, urlSegments url = pre ++ (key ++ 61 :: value) :: suf ∧
    ∀ s ∈ pre, ∀ v, s ≠ key ++ 61 :: v

/-- The call returns the value of the parameter, and the empty string if there is none or if it is
longer than 1023 bytes. -/
def ReadsParam (url key : Bytes) : Prop :=
  ∃ r, paramRead url key = .str r ∧ r.length ≤ 1023 ∧
    (IsParamValue url key r ∨ r = [] ∧ ∀ v, IsParamValue url key v → 1023 < v.length)

/-- A segment has a value under a name if it is the name, a `=` and the value. -/
theorem segmentValue?_eq_some_iff {key segment value : Bytes} :
    segmentValue? key segment = some value ↔ 61 ∉ key ∧ segment = key ++ 61 :: value := by
  constructor
  · intro h
    have hsegment := @List.takeWhile_append_dropWhile _ (fun b : UInt8 => decide (b ≠ 61)) segment
    rw [segmentValue?] at h
    split at h
    · simp at h
    · rename_i b v hdrop
      split_ifs at h with hkey
      rw [Option.some_inj] at h
      subst h hkey
      have hb : b = 61 := by
        have hhead := List.head?_dropWhile_not (fun b : UInt8 => decide (b ≠ 61)) segment
        rw [hdrop] at hhead
        simpa using hhead
      refine ⟨?_, ?_⟩
      · intro hmem
        have := List.mem_takeWhile_imp hmem
        simp at this
      · rw [hdrop, hb] at hsegment
        exact hsegment.symm
  · rintro ⟨hkey, rfl⟩
    rw [segmentValue?_eq hkey, if_pos rfl]

/-- The first value that is found is the value of the parameter. -/
theorem firstValue_eq_some_iff {url key value : Bytes} :
    firstValue url key = some value ↔ IsParamValue url key value := by
  rw [firstValue, List.findSome?_eq_some_iff]
  constructor
  · rintro ⟨pre, segment, suf, hsplit, hvalue, hpre⟩
    obtain ⟨hkey, rfl⟩ := segmentValue?_eq_some_iff.mp hvalue
    refine ⟨hkey, pre, suf, hsplit, ?_⟩
    intro s hs v heq
    have hnone := hpre s hs
    rw [segmentValue?_eq_some_iff.mpr ⟨hkey, heq⟩] at hnone
    exact Option.some_ne_none v hnone
  · rintro ⟨hkey, pre, suf, hsplit, hpre⟩
    refine ⟨pre, _, suf, hsplit, segmentValue?_eq_some_iff.mpr ⟨hkey, rfl⟩, ?_⟩
    intro s hs
    apply Option.eq_none_iff_forall_ne_some.mpr
    intro v hv
    exact hpre s hs v (segmentValue?_eq_some_iff.mp hv).2

/-! ## The loop -/

/-- The loop stops at the first value; its length test never fails. -/
theorem paramLoop_eq (key : Bytes) (segments : List Bytes) :
    paramLoop key segments =
      match segments.findSome? (segmentValue? key) with
      | some value => if value.length < 1024 then .str value else .overrun value
      | none => .str [] := by
  induction segments with
  | nil => rfl
  | cons segment rest ih =>
    rw [paramLoop, List.findSome?_cons, segmentValue?]
    cases segment.dropWhile (· ≠ 61) with
    | nil => exact ih
    | cons b value =>
      by_cases hkey : segment.takeWhile (· ≠ 61) = key
      · -- `strlen(_value)` stops at the terminator that has replaced the `=`
        have htest : ¬1024 ≤ (cstr (0 :: value)).length := by simp [cstr]
        simp only [hkey, if_true, if_neg htest]
      · simp only [hkey, if_false]
        exact ih

/-- In a short query the reader sees the first value of the key. -/
theorem paramRead_eq {url : Bytes} (hlen : url.length < 2048) (key : Bytes) :
    paramRead url key =
      match firstValue url key with
      | some value => if value.length < 1024 then .str value else .overrun value
      | none => .str [] := by
  rw [paramRead, if_neg (by omega), paramLoop_eq, firstValue]

/-- The parser takes a string from a call exactly when the call returns one. -/
theorem adxStringUrlParamValue_eq_toOption (url key : Bytes) :
    adxStringUrlParamValue url key = (paramRead url key).toOption := by
  rw [adxStringUrlParamValue, paramRead]
  split_ifs with hlen
  · rfl
  · rw [paramLoop_eq]
    cases (urlSegments url).findSome? (segmentValue? key) with
    | none => rfl
    | some value =>
      by_cases hvalue : value.length < 1024
      · simp only [hvalue, if_true, ParamRead.toOption]
      · simp only [hvalue, if_false, ParamRead.toOption]

/-- The length of what is read, by the value of the parameter. -/
theorem length_paramValue_lt_iff {url key : Bytes} :
    (paramValue url key).length < 1024 ↔ ∀ v, IsParamValue url key v → v.length ≤ 1023 := by
  simp only [← firstValue_eq_some_iff]
  rw [paramValue]
  cases firstValue url key with
  | none => simp
  | some value =>
    constructor
    · intro hlen v hv
      rw [Option.some_inj] at hv
      subst hv
      exact Nat.le_of_lt_succ hlen
    · intro h
      exact Nat.lt_succ_of_le (h value rfl)

/-- A call answers as it should if the query fits the buffer of the call and the value the buffer of
the caller. -/
theorem readsParam_iff {url key : Bytes} :
    ReadsParam url key ↔ url.length < 2048 ∧ ∀ v, IsParamValue url key v → v.length ≤ 1023 := by
  by_cases hlen : url.length < 2048
  · -- a query that fits: the value of the parameter decides
    unfold ReadsParam
    simp only [paramRead_eq hlen, hlen, true_and, ← firstValue_eq_some_iff]
    cases firstValue url key with
    | none =>
      refine iff_of_true ⟨[], rfl, by simp, .inr ⟨rfl, ?_⟩⟩ ?_ <;> intro v hv <;> simp at hv
    | some value =>
      constructor
      · rintro ⟨r, hr, -, -⟩ v hv
        rw [Option.some_inj] at hv
        subst hv
        by_contra hlong
        simp only [if_neg (show ¬value.length < 1024 by omega)] at hr
        exact absurd hr (by simp)
      · intro h
        have hshort : value.length ≤ 1023 := h value rfl
        refine ⟨value, ?_, hshort, .inl rfl⟩
        exact if_pos (Nat.lt_succ_of_le hshort)
  · -- a query that does not fit: the call returns `NULL`
    refine iff_of_false ?_ fun h => hlen h.1
    rintro ⟨r, hr, -⟩
    rw [paramRead, if_pos (by omega)] at hr
    exact absurd hr (by simp)

/-- A call answers as it should if and only if the query is shorter than 2048 bytes and the value of
the parameter, if there is one, is at most 1023 bytes long.  The parser comes to its end if and only
if this is so for every parameter it reads. -/
theorem param_read_iff (query : Bytes) :
    (∀ key, ReadsParam query key ↔
      query.length < 2048 ∧ ∀ v, IsParamValue query key v → v.length ≤ 1023) ∧
    ∀ remoteaddr ua, (urlInfoParse remoteaddr query ua).isSome ↔
      query.length < 2048 ∧
        ∀ key ∈ paramNames, ∀ v, IsParamValue query key v → v.length ≤ 1023 := by
  refine ⟨fun key => readsParam_iff, fun remoteaddr ua => ?_⟩
  have hfits : FitsBuffers query ↔ query.length < 2048 ∧
      ∀ key ∈ paramNames, ∀ v, IsParamValue query key v → v.length ≤ 1023 := by
    simp only [FitsBuffers, length_paramValue_lt_iff]
  rw [← hfits]
  constructor
  · intro h
    obtain ⟨u, hu⟩ := Option.isSome_iff_exists.mp h
    exact (urlInfoParse_eq_some hu).1
  · intro h
    exact h.urlInfoParse_isSome remoteaddr ua

/-- A query of 2048 bytes: every call returns `NULL`, and the parser does not come to its end. -/
theorem long_query_null :
    (∀ key, paramRead (List.replicate 2048 97) key = .null) ∧
      urlInfoParse [] (List.replicate 2048 97) [] = none ∧
      ¬ReadsParam (List.replicate 2048 97) (bytes "ip") := by
  have hlen : (List.replicate 2048 (97 : UInt8)).length = 2048 := List.length_replicate
  refine ⟨?_, ?_, ?_⟩
  · intro key
    rw [paramRead, if_pos hlen.ge]
  · apply Option.eq_none_iff_forall_ne_some.mpr
    intro u hu
    have hlt := (urlInfoParse_eq_some hu).1.1
    omega
  · intro h
    have hlt := (readsParam_iff.mp h).1
    omega

/-- A value of 1024 bytes or more is written past the end of the buffer: the length test does not
see it. -/
theorem long_value_overrun {value : Bytes} (hamp : 38 ∉ value) (hlong : 1024 ≤ value.length)
    (hfit : value.length < 2045) :
    paramRead (bytes "ip=" ++ value) (bytes "ip") = .overrun value := by
  have hvalue : firstValue (bytes "ip=" ++ value) (bytes "ip") = some value := by
    have htext : 38 :: (bytes "ip=" ++ value) = urlPar (bytes "ip") value ++ [] := by
      simp [urlPar, bytes]
    rw [← firstValue_amp, htext, firstValue_urlPar (by decide) (by decide) hamp (.inl rfl),
      if_pos rfl]
  have hlen : (bytes "ip=" ++ value).length < 2048 := by
    rw [List.length_append]
    show 3 + value.length < 2048
    omega
  rw [paramRead_eq hlen, hvalue]
  exact if_neg (by omega)

end AdxDsp
