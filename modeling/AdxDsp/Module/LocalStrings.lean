import AdxDsp.Module.BaiduAdapter

/-!
# Strings in local arrays

`adx_com_baidu_adapter_to_com` prints the key of each ad slot into one array of the loop, and the
system version into another array.  `adx_com_to_chain` packs the strings when the function has
returned, and the arrays are dead.

* `packed_right_iff`: what the dead arrays have to hold.
* `intact_right_iff`: where they still hold what was printed last.
* `two_slots_one_id`: two ad slots.
-/

namespace AdxDsp

open CText

namespace LocalStrings

open Pointer BaiduAdapter

/-! ## What should be packed -/

/-- The slot with the text of its own key. -/
def ownSlot (adxSlot : AdSlot) : ComAdxSlot Bytes where
  adxSlotId := adxSlot.keyText
  adxSlotSequenceId := adxSlot.sequenceId
  priceFloor := adxSlot.minimumCpm
  adxSlotType := comAdxSlotType adxSlot.adslotType
  banner :=
    if comAdxSlotType adxSlot.adslotType = .banner then some (adxSlot.width, adxSlot.height)
    else none

/-- The packed request has the ad slots in their order, each with the text of its own key, and the
text of the system version. -/
structure Right (adxSlots : List AdSlot) (osVersion : DeviceOsVersion)
    (packed : BaiduAdapter.ComRequest Bytes) : Prop where
  adxSlot : packed.adxSlot = adxSlots.map ownSlot
  osVersion : packed.device.osVersion = osVersion.text

/-- The arrays hold the texts: the key of every ad slot, and the system version. -/
structure Hold (adxSlots : List AdSlot) (osVersion : DeviceOsVersion) (dead : Locals) : Prop where
  adxSlotIdStr : ∀ adxSlot ∈ adxSlots, adxSlot.keyText <+: dead.adxSlotIdStr
  osVersionStr : osVersion.text <+: dead.osVersionStr

/-! ## What is packed -/

section

variable {locals left dead : Locals} {bidRequest : BidRequest}
  {comRequest : BaiduAdapter.ComRequest Text}
  {mobile : Mobile} {adxSlots : List AdSlot} {osVersion : DeviceOsVersion}

/-- The slots are converted one by one. -/
theorem comAdxSlots_fst (array : Bytes) :
    (comAdxSlots array adxSlots).1 = adxSlots.map comAdxSlot := by
  induction adxSlots generalizing array with
  | nil => rfl
  | cons adxSlot adxSlots ih => rw [comAdxSlots, List.map_cons, ih]

/-- The array is left as the last slot prints it. -/
theorem comAdxSlots_snd (array : Bytes) (adxSlot : AdSlot) :
    ∃ before, (comAdxSlots array (adxSlots ++ [adxSlot])).2 = sprintf before adxSlot.keyText := by
  induction adxSlots generalizing array with
  | nil => exact ⟨array, rfl⟩
  | cons first adxSlots ih => exact ih (sprintf array first.keyText)

/-- The strings of the conversion, and what it leaves in its arrays. -/
theorem toCom_strings (h : toCom locals bidRequest = .ok (comRequest, left))
    (hslots : bidRequest.adslot = some adxSlots) (hmobile : bidRequest.mobile = some mobile)
    (hos : mobile.osVersion = some osVersion) :
    comRequest.adxSlot = adxSlots.map comAdxSlot ∧
      comRequest.device.osVersion = .osVersionStr osVersion.text.length ∧
      left.adxSlotIdStr = (comAdxSlots locals.adxSlotIdStr adxSlots).2 ∧
      left.osVersionStr = sprintf locals.osVersionStr osVersion.text := by
  rw [toCom, hmobile, hslots] at h
  simp only [deref_some, hos, Except.bind, bind] at h
  cases hid : mobile.id with
  | none => simp [hid, deref] at h
  | some ids =>
    cases hids : mobile.forAdvertisingId with
    | none => simp [hid, hids, deref] at h
    | some ids2 =>
      cases happ : mobile.mobileApp with
      | none => simp [hid, hids, happ, deref] at h
      | some app =>
        simp only [hid, hids, happ, deref_some] at h
        cases h
        exact ⟨comAdxSlots_fst _, rfl, rfl, rfl⟩

/-- The first bytes of an array are a text just if the array begins with it. -/
theorem take_eq_iff_prefix {text array : Bytes} :
    array.take text.length = text ↔ text <+: array := by
  rw [List.prefix_iff_eq_take, eq_comm]

/-- A slot is read right just if the dead array still begins with its key. -/
theorem comAdxSlot_read_eq (adxSlot : AdSlot) :
    (comAdxSlot adxSlot).read dead = ownSlot adxSlot ↔ adxSlot.keyText <+: dead.adxSlotIdStr := by
  rw [← take_eq_iff_prefix]
  constructor
  · exact fun h => congrArg ComAdxSlot.adxSlotId h
  · intro h
    simp only [ComAdxSlot.read, comAdxSlot, ownSlot, Text.read, h]

/-- The packed request is right exactly if the arrays hold the texts. -/
theorem right_read_iff (hslots : comRequest.adxSlot = adxSlots.map comAdxSlot)
    (hos : comRequest.device.osVersion = .osVersionStr osVersion.text.length) :
    Right adxSlots osVersion (comRequest.read dead) ↔ Hold adxSlots osVersion dead := by
  have hread : (comRequest.read dead).adxSlot =
      adxSlots.map fun adxSlot => (comAdxSlot adxSlot).read dead := by
    rw [BaiduAdapter.ComRequest.read, hslots, List.map_map]
    rfl
  have hversion : (comRequest.read dead).device.osVersion =
      dead.osVersionStr.take osVersion.text.length := by
    change comRequest.device.osVersion.read dead = _
    rw [hos, Text.read]
  constructor
  · intro h
    have hown := h.adxSlot
    rw [hread, List.map_inj_left] at hown
    refine ⟨fun adxSlot hmem => (comAdxSlot_read_eq adxSlot).mp (hown adxSlot hmem), ?_⟩
    rw [← take_eq_iff_prefix, ← hversion]
    exact h.osVersion
  · intro h
    refine ⟨?_, ?_⟩
    · rw [hread, List.map_inj_left]
      exact fun adxSlot hmem => (comAdxSlot_read_eq adxSlot).mpr (h.adxSlotIdStr adxSlot hmem)
    · rw [hversion, take_eq_iff_prefix]
      exact h.osVersionStr

/-- The version has a text. -/
theorem text_ne_nil (osVersion : DeviceOsVersion) : osVersion.text ≠ [] := by
  intro h
  have hdot := (List.append_eq_nil_iff.mp (List.append_eq_nil_iff.mp h).1).2
  exact absurd hdot (by decide)

/-- For every Baidu request with its parts, and whatever the arrays hold when the request is packed:
it is right exactly if they hold the texts of all keys and of the version, and there is no request
for which they have to. -/
theorem packed_right_iff (h : toCom locals bidRequest = .ok (comRequest, left))
    (hslots : bidRequest.adslot = some adxSlots) (hmobile : bidRequest.mobile = some mobile)
    (hos : mobile.osVersion = some osVersion) :
    (∀ dead, Right adxSlots osVersion (comRequest.read dead) ↔ Hold adxSlots osVersion dead) ∧
      ∃ dead, ¬ Right adxSlots osVersion (comRequest.read dead) := by
  obtain ⟨hadxSlot, hversion, -, -⟩ := toCom_strings h hslots hmobile hos
  refine ⟨fun dead => right_read_iff hadxSlot hversion, ⟨[], []⟩, fun hright => ?_⟩
  have hhold := (right_read_iff hadxSlot hversion).mp hright
  exact text_ne_nil osVersion (List.prefix_nil.mp hhold.osVersionStr)

/-! ## Arrays that are left alone -/

/-- The key is a C string. -/
theorem zero_notMem_keyText (adxSlot : AdSlot) : 0 ∉ adxSlot.keyText :=
  fun h => absurd (isDigit_of_mem_decimalNat h) (by decide)

/-- A text without NUL that an array starts with is a prefix of the one printed last. -/
theorem prefix_sprintf_iff {array text text' : Bytes} (hzero : 0 ∉ text) :
    text <+: sprintf array text' ↔ text <+: text' := by
  constructor
  · intro h
    rcases Nat.lt_or_ge text'.length text.length with hlen | hlen
    · -- the text would contain the NUL
      have hshort : text' ++ [0] <+: text := by
        refine List.prefix_of_prefix_length_le ⟨array.drop (text'.length + 1), ?_⟩ h ?_
        · rw [List.append_assoc, List.singleton_append, sprintf]
        · rw [List.length_append, List.length_singleton]
          exact hlen
      exact absurd (hshort.subset (List.mem_append_right text' (List.mem_singleton_self 0))) hzero
    · exact List.prefix_of_prefix_length_le h (List.prefix_append _ _) hlen
  · exact fun h => h.trans (List.prefix_append _ _)

/-- Where nothing reuses the arrays, the version is right, and the keys are if each is a prefix of
the last one. -/
theorem intact_right_iff (h : toCom locals bidRequest = .ok (comRequest, left))
    (hslots : bidRequest.adslot = some adxSlots) (hmobile : bidRequest.mobile = some mobile)
    (hos : mobile.osVersion = some osVersion) :
    Right adxSlots osVersion (comRequest.read left) ↔
      ∀ last ∈ adxSlots.getLast?, ∀ adxSlot ∈ adxSlots, adxSlot.keyText <+: last.keyText := by
  obtain ⟨hadxSlot, hversion, hid, hstr⟩ := toCom_strings h hslots hmobile hos
  rw [right_read_iff hadxSlot hversion]
  have hkey : ∀ last ∈ adxSlots.getLast?, ∀ adxSlot : AdSlot,
      adxSlot.keyText <+: left.adxSlotIdStr ↔ adxSlot.keyText <+: last.keyText := by
    intro last hlast adxSlot
    obtain ⟨init, rfl⟩ := List.getLast?_eq_some_iff.mp hlast
    obtain ⟨before, hbefore⟩ := @comAdxSlots_snd init locals.adxSlotIdStr last
    rw [hid, hbefore, prefix_sprintf_iff (zero_notMem_keyText adxSlot)]
  constructor
  · intro hhold last hlast adxSlot hmem
    exact (hkey last hlast adxSlot).mp (hhold.adxSlotIdStr adxSlot hmem)
  · intro hlast
    refine ⟨fun adxSlot hmem => ?_, ?_⟩
    · cases hsome : adxSlots.getLast? with
      | none =>
        rw [List.getLast?_eq_none_iff.mp hsome] at hmem
        cases hmem
      | some last => exact (hkey last hsome adxSlot).mpr (hlast last hsome adxSlot hmem)
    · rw [hstr]
      exact List.prefix_append _ _

end

/-! ## Ad slots by their keys -/

/-- A request for ad slots with these keys, from a phone with version 4.2.1. -/
def sampleRequest (keys : List UInt64) : BidRequest where
  id := bytes "r"
  ip := []
  userAgent := []
  mobile := some {
    id := some []
    forAdvertisingId := some []
    deviceType := 1
    platform := 1
    osVersion := some ⟨4, 2, 1⟩
    brand := []
    model := []
    carrierId := 46000
    wirelessNetworkType := 1
    mobileApp := some ⟨bytes "a", 0⟩ }
  adslot := some (keys.map fun key => ⟨key, 1, 0, 320, 50, 10⟩)

/-- The com request of `sampleRequest`. -/
def sampleCom (keys : List UInt64) : Reads (BaiduAdapter.ComRequest Text × Locals) :=
  toCom ⟨[], []⟩ (sampleRequest keys)

/-- One ad slot, and arrays that still hold its texts. -/
theorem one_slot_right :
    ∃ com, sampleCom [11] = .ok com ∧
      Right [⟨11, 1, 0, 320, 50, 10⟩] ⟨4, 2, 1⟩ (com.1.read ⟨bytes "11", bytes "4.2.1"⟩) := by
  have hcom : ∃ com, sampleCom [11] = .ok com := ⟨_, rfl⟩
  obtain ⟨com, hcom⟩ := hcom
  refine ⟨com, hcom, ?_⟩
  exact ((packed_right_iff hcom rfl rfl rfl).1 _).mpr ⟨by decide, by decide⟩

/-- Two ad slots with the keys 11 and 22: whatever the array holds, both have one id. -/
theorem two_slots_one_id :
    ∃ com, sampleCom [11, 22] = .ok com ∧
      ∀ dead, ¬ Right [⟨11, 1, 0, 320, 50, 10⟩, ⟨22, 1, 0, 320, 50, 10⟩] ⟨4, 2, 1⟩
        (com.1.read dead) := by
  have hcom : ∃ com, sampleCom [11, 22] = .ok com := ⟨_, rfl⟩
  obtain ⟨com, hcom⟩ := hcom
  obtain ⟨hslots, hversion, -, -⟩ := toCom_strings hcom rfl rfl rfl
  refine ⟨com, hcom, fun dead hright => ?_⟩
  have hhold := ((right_read_iff hslots hversion).mp hright).adxSlotIdStr
  have h11 := hhold ⟨11, 1, 0, 320, 50, 10⟩ List.mem_cons_self
  have h22 := hhold ⟨22, 1, 0, 320, 50, 10⟩ (List.mem_cons_of_mem _ (List.mem_singleton_self _))
  exact absurd (List.prefix_of_prefix_length_le h11 h22 (by decide)) (by decide)

end LocalStrings

end AdxDsp
