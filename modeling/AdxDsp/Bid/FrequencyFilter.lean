import AdxDsp.Bid.Element
import AdxDsp.Tracker.Count

/-!
# Devices that have reached a frequency limit

The tracker adds a device that has reached the limit of a campaign, a policy or a creative to a set,
under the name of its id type and its id in lower case.  The bidder searches the members of that set
for the ids of a request, as the exchange has sent them (`filter_assist.cpp`).

* `check_spec`, `valid_checkAll`: what a filter remembers never changes its answer.
* `capped_iff_added_iff`: when a request is refused exactly for a device that was added.
-/

namespace AdxDsp

open CText

/-! ## The filter -/

/-- `FrequencyFilter`: the ids that were checked before, by the answer. -/
structure FrequencyFilter where
  pass : List ℤ
  failed : List ℤ
  deriving DecidableEq

namespace FrequencyFilter

/-- A filter that has checked nothing. -/
def new : FrequencyFilter := ⟨[], []⟩

/-- `FrequencyFilter::DeviceidInSet`: a device id occurs in a member. -/
def deviceidInSet (ids : List (ℕ × Bytes)) (fullSet : List Bytes) : Bool :=
  ids.any fun id => fullSet.any fun full => decide (id.2 <:+: full)

/-- `FrequencyFilter::Check`: false for a device at its limit. -/
def check (f : FrequencyFilter) (id : ℤ) (req : ComRequest) (full : List (ℤ × List Bytes)) :
    Bool × FrequencyFilter :=
  if id ∈ f.pass then (true, f)
  else if id ∈ f.failed then (false, f)
  else
    match full.lookup id with
    | none => (true, { f with pass := id :: f.pass })
    | some fullSet =>
      if deviceidInSet req.device.dids fullSet || deviceidInSet req.device.dpids fullSet then
        (false, { f with failed := id :: f.failed })
      else (true, { f with pass := id :: f.pass })

/-- A filter after several checks for one request. -/
def checkAll (req : ComRequest) (full : List (ℤ × List Bytes)) (ids : List ℤ) : FrequencyFilter :=
  ids.foldl (fun f id => (f.check id req full).2) new

end FrequencyFilter

/-! ## What a filter answers -/

/-- All ids of the device of a request, with their types. -/
def ComRequest.deviceids (req : ComRequest) : List (ℕ × Bytes) :=
  req.device.dids ++ req.device.dpids

/-- The members that are recorded for an id. -/
def fullMembers (full : List (ℤ × List Bytes)) (id : ℤ) : List Bytes := (full.lookup id).getD []

/-- A device id of the request occurs in a member. -/
def Capped (req : ComRequest) (full : List (ℤ × List Bytes)) (id : ℤ) : Prop :=
  ∃ r ∈ req.deviceids, ∃ m ∈ fullMembers full id, r.2 <:+: m

instance (req : ComRequest) (full : List (ℤ × List Bytes)) (id : ℤ) :
    Decidable (Capped req full id) :=
  inferInstanceAs (Decidable (∃ _ ∈ _, _))

namespace FrequencyFilter

variable {req : ComRequest} {full : List (ℤ × List Bytes)} {f : FrequencyFilter}

/-- What the filter remembers is right. -/
structure Valid (req : ComRequest) (full : List (ℤ × List Bytes)) (f : FrequencyFilter) : Prop where
  pass : ∀ id ∈ f.pass, ¬Capped req full id
  failed : ∀ id ∈ f.failed, Capped req full id

/-- A new filter has memoised nothing. -/
theorem valid_new : Valid req full new := ⟨by simp [new], by simp [new]⟩

/-- A device is in the set if one of its ids is a part of a member. -/
theorem deviceidInSet_iff {fullSet : List Bytes} :
    (deviceidInSet req.device.dids fullSet || deviceidInSet req.device.dpids fullSet) = true ↔
      ∃ r ∈ req.deviceids, ∃ m ∈ fullSet, r.2 <:+: m := by
  simp only [deviceidInSet, Bool.or_eq_true, List.any_eq_true, decide_eq_true_eq,
    ComRequest.deviceids, List.mem_append, or_and_right, exists_or]

/-- An id that passes may be memoised as one. -/
theorem Valid.insert_pass (h : Valid req full f) {id : ℤ} (hid : ¬Capped req full id) :
    Valid req full { f with pass := id :: f.pass } :=
  ⟨List.forall_mem_cons.mpr ⟨hid, h.pass⟩, h.failed⟩

/-- An id that is capped may be memoised as one. -/
theorem Valid.insert_failed (h : Valid req full f) {id : ℤ} (hid : Capped req full id) :
    Valid req full { f with failed := id :: f.failed } :=
  ⟨h.pass, List.forall_mem_cons.mpr ⟨hid, h.failed⟩⟩

/-- A check refuses a device at its limit, and remembers the right answer. -/
theorem check_spec (h : Valid req full f) (id : ℤ) :
    ((f.check id req full).1 = true ↔ ¬Capped req full id) ∧
      Valid req full (f.check id req full).2 := by
  rw [check]
  split_ifs with hpass hfailed
  · exact ⟨iff_of_true rfl (h.pass id hpass), h⟩
  · exact ⟨iff_of_false (by simp) (not_not.mpr (h.failed id hfailed)), h⟩
  · cases hlookup : full.lookup id with
    | none =>
      have hid : ¬Capped req full id := by
        rintro ⟨r, -, m, hm, -⟩
        rw [fullMembers, hlookup] at hm
        exact absurd hm List.not_mem_nil
      exact ⟨iff_of_true rfl hid, h.insert_pass hid⟩
    | some fullSet =>
      have hiff : (deviceidInSet req.device.dids fullSet || deviceidInSet req.device.dpids fullSet)
          = true ↔ Capped req full id := by
        rw [Capped, fullMembers, hlookup]
        exact deviceidInSet_iff
      show ((if _ then _ else _ : Bool × FrequencyFilter).1 = true ↔ _) ∧
        Valid req full (if _ then _ else _ : Bool × FrequencyFilter).2
      split_ifs with hin
      · have hid := hiff.mp hin
        exact ⟨iff_of_false (by simp) (not_not.mpr hid), h.insert_failed hid⟩
      · have hid : ¬Capped req full id := fun hid => hin (hiff.mpr hid)
        exact ⟨iff_of_true rfl hid, h.insert_pass hid⟩

/-- Checking ids keeps the memory right. -/
theorem valid_checkAll (req : ComRequest) (full : List (ℤ × List Bytes)) (ids : List ℤ) :
    Valid req full (checkAll req full ids) := by
  induction ids using List.reverseRecOn with
  | nil => exact valid_new
  | append_singleton ids id ih =>
    rw [checkAll, List.foldl_append]
    exact (check_spec ih id).2

end FrequencyFilter

/-! ## Against the devices that were added -/

/-- `did_(idtype name)_(deviceid)`: what the tracker adds for a notice with an id type and a device
id. -/
def fcMember (a : ℤ × Bytes) : Bytes := didKey (getDeviceidtype a.1) (tolower a.2)

/-- The members recorded for an id are those that the tracker added. -/
def Records (full : List (ℤ × List Bytes)) (id : ℤ) (added : List (ℤ × Bytes)) : Prop :=
  ∀ m, m ∈ fullMembers full id ↔ ∃ a ∈ added, m = fcMember a

/-- The device id was added, with its type and up to letter case. -/
def WasAdded (added : List (ℤ × Bytes)) (r : ℕ × Bytes) : Prop :=
  ∃ a ∈ added, (r.1 : ℤ) = a.1 ∧ tolower r.2 = tolower a.2

/-- The device id is written in lower case. -/
def IsLower (r : ℕ × Bytes) : Prop := tolower r.2 = r.2

/-- The device id is part of a member, and not because it was added and is in lower case: it is
empty, part of the id of another device or of an id type, or the id under another type. -/
def IsStray (added : List (ℤ × Bytes)) (r : ℕ × Bytes) : Prop :=
  (∃ a ∈ added, r.2 <:+: fcMember a) ∧ ¬(WasAdded added r ∧ IsLower r)

instance (added : List (ℤ × Bytes)) (r : ℕ × Bytes) : Decidable (WasAdded added r) :=
  inferInstanceAs (Decidable (∃ _ ∈ _, _))

instance (r : ℕ × Bytes) : Decidable (IsLower r) := inferInstanceAs (Decidable (_ = _))

instance (added : List (ℤ × Bytes)) (r : ℕ × Bytes) : Decidable (IsStray added r) :=
  inferInstanceAs (Decidable (_ ∧ _))

section

variable {added : List (ℤ × Bytes)} {r : ℕ × Bytes}

/-- An id in lower case that was added ends its member. -/
theorem WasAdded.isInfix (h : WasAdded added r) (hlower : IsLower r) :
    ∃ a ∈ added, r.2 <:+: fcMember a := by
  obtain ⟨a, ha, -, hid⟩ := h
  refine ⟨a, ha, ?_⟩
  have hsuffix : r.2 <:+ fcMember a := by
    rw [fcMember, ← hid, hlower, didKey]
    exact List.suffix_append _ _
  exact hsuffix.isInfix

/-- A device counts as capped by an id that was added or by a stray one. -/
theorem capped_iff {req : ComRequest} {full : List (ℤ × List Bytes)} {id : ℤ}
    (hfull : Records full id added) :
    Capped req full id ↔ (∃ r ∈ req.deviceids, WasAdded added r ∧ IsLower r) ∨
      ∃ r ∈ req.deviceids, IsStray added r := by
  have hpart : ∀ r : ℕ × Bytes,
      (∃ m ∈ fullMembers full id, r.2 <:+: m) ↔ ∃ a ∈ added, r.2 <:+: fcMember a := by
    intro r
    constructor
    · rintro ⟨m, hm, hin⟩
      obtain ⟨a, ha, rfl⟩ := (hfull m).mp hm
      exact ⟨a, ha, hin⟩
    · rintro ⟨a, ha, hin⟩
      exact ⟨fcMember a, (hfull _).mpr ⟨a, ha, rfl⟩, hin⟩
  simp only [Capped, hpart]
  constructor
  · rintro ⟨r, hr, hin⟩
    by_cases hadded : WasAdded added r ∧ IsLower r
    · exact .inl ⟨r, hr, hadded⟩
    · exact .inr ⟨r, hr, hin, hadded⟩
  · rintro (⟨r, hr, hadded, hlower⟩ | ⟨r, hr, hin, -⟩)
    · exact ⟨r, hr, hadded.isInfix hlower⟩
    · exact ⟨r, hr, hin⟩

end

/-- The filter tells the devices that were added: one of them is in the request in lower case, or
there is a stray id in the request exactly if there is one in capitals. -/
theorem capped_iff_added_iff {full : List (ℤ × List Bytes)} {id : ℤ} {added : List (ℤ × Bytes)}
    (hfull : Records full id added) (req : ComRequest) (ids : List ℤ) :
    (((FrequencyFilter.checkAll req full ids).check id req full).1 = false ↔
        ∃ r ∈ req.deviceids, WasAdded added r) ↔
      (∃ r ∈ req.deviceids, WasAdded added r ∧ IsLower r) ∨
        ((∃ r ∈ req.deviceids, WasAdded added r) ↔ ∃ r ∈ req.deviceids, IsStray added r) := by
  have hcheck := (FrequencyFilter.check_spec (FrequencyFilter.valid_checkAll req full ids) id).1
  rw [Bool.eq_false_iff, Ne, hcheck, not_not, capped_iff hfull]
  by_cases hlower : ∃ r ∈ req.deviceids, WasAdded added r ∧ IsLower r
  · have ⟨r, hr, hadded, _⟩ := hlower
    exact iff_of_true (iff_of_true (.inl hlower) ⟨r, hr, hadded⟩) (.inl hlower)
  · rw [or_iff_right hlower, or_iff_right hlower]
    exact Iff.comm

/-- The members of the set of one campaign. -/
def sampleFull (added : List (ℤ × Bytes)) : List (ℤ × List Bytes) := [(4, added.map fcMember)]

/-- The sample has the records that were added. -/
theorem records_sampleFull (added : List (ℤ × Bytes)) : Records (sampleFull added) 4 added := by
  intro m
  rw [show fullMembers (sampleFull added) 4 = added.map fcMember from rfl, List.mem_map]
  refine exists_congr fun a => and_congr_right fun _ => ?_
  exact eq_comm

/-- An IMEI of fifteen digits, with a check digit. -/
def longImei : ℕ × Bytes := (16, bytes "358240051111110")

/-- An IMEI of fourteen digits, without its check digit.  `com_device_object::Check` takes either. -/
def shortImei : ℕ × Bytes := (16, bytes "35824005111111")

/-- The ids as the tracker has them. -/
def sampleAdded (ids : List (ℕ × Bytes)) : List (ℤ × Bytes) := ids.map fun id => (id.1, id.2)

/-- A request of the device with fourteen digits. -/
def sampleImeiRequest : ComRequest :=
  { sampleRequest (bytes "a") with
    device := { (sampleRequest (bytes "a")).device with
      deviceid := shortImei.2
      dids := [shortImei] } }

/-- Both devices were added, and the one with fourteen digits is refused. -/
theorem capped_iff_added_iff_sample :
    ((FrequencyFilter.checkAll sampleImeiRequest
        (sampleFull (sampleAdded [longImei, shortImei])) []).check 4
        sampleImeiRequest (sampleFull (sampleAdded [longImei, shortImei]))).1 = false ↔
      ∃ r ∈ sampleImeiRequest.deviceids, WasAdded (sampleAdded [longImei, shortImei]) r := by
  refine (capped_iff_added_iff (records_sampleFull _) sampleImeiRequest []).mpr (.inl ?_)
  decide +kernel

/-- The device with fifteen digits was added, and the one with fourteen is refused. -/
theorem capped_by_substring :
    Records (sampleFull (sampleAdded [longImei])) 4 (sampleAdded [longImei]) ∧
      ¬(((FrequencyFilter.checkAll sampleImeiRequest
          (sampleFull (sampleAdded [longImei])) []).check 4
          sampleImeiRequest (sampleFull (sampleAdded [longImei]))).1 = false ↔
        ∃ r ∈ sampleImeiRequest.deviceids, WasAdded (sampleAdded [longImei]) r) := by
  refine ⟨records_sampleFull _, fun h => ?_⟩
  have hadded := h.mp (by decide +kernel)
  exact absurd hadded (by decide +kernel)

end AdxDsp
