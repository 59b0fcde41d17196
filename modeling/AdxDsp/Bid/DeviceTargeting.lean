import AdxDsp.Bid.Filter

/-!
# White lists and black lists of devices

`TargetDevice::Check` (`ad_element.cpp`) looks at a device in six dimensions, for each of which the
flag has one bit for a white list and one for a black list.  It only ever lets a device pass whose
value is in the set, so that a dimension with a black list lets none pass.

* `TargetDevice.check_eq_success_iff`: the devices that pass.
* `TargetDevice.respectsLists_iff`: when these are the ones that the lists let pass.
* `black_list_stops_all`: a black list of one region, and a device from another one.
-/

namespace AdxDsp

open CText

/-- A dimension of the targeting: the bits of its lists, and whether the value of the device is in
the set. -/
structure TargetPart where
  whitelist : ℕ
  blacklist : ℕ
  found : Bool

namespace TargetPart

variable (flag : ℕ) (p : TargetPart)

/-- The bits of both lists. -/
def mask : ℕ := p.whitelist ||| p.blacklist

/-- The flag sets no list, or at most one. -/
def AtMostOne : Prop := flag &&& p.whitelist = 0 ∨ flag &&& p.blacklist = 0

/-- What the lists are for: a white list lets its members pass, and a black list all others. -/
def Allows : Prop :=
  (flag &&& p.whitelist = 0 ∧ flag &&& p.blacklist = 0) ∨
    (flag &&& p.whitelist ≠ 0 ∧ p.found = true) ∨ (flag &&& p.blacklist ≠ 0 ∧ p.found = false)

/-- A list of this dimension keeps the device out: a white list without it, or a black list with
it. -/
def Excludes : Prop :=
  (flag &&& p.whitelist ≠ 0 ∧ p.found = false) ∨ (flag &&& p.blacklist ≠ 0 ∧ p.found = true)

variable {flag p}

/-- The mask has both lists. -/
theorem mask_eq_zero_iff :
    flag &&& p.mask = 0 ↔ flag &&& p.whitelist = 0 ∧ flag &&& p.blacklist = 0 := by
  rw [mask, Nat.and_or_distrib_left, Nat.or_eq_zero_iff]

/-- With at most one list, to be excluded is not to be allowed. -/
theorem excludes_iff_not_allows (hone : p.AtMostOne flag) : p.Excludes flag ↔ ¬p.Allows flag := by
  unfold AtMostOne at hone
  unfold Excludes Allows
  cases p.found <;> simp <;> tauto

/-- A dimension passes exactly if it should and has no black list. -/
theorem passes_iff (hone : p.AtMostOne flag) :
    devicePartPasses flag p.whitelist p.mask p.found = true ↔
      p.Allows flag ∧ flag &&& p.blacklist = 0 := by
  unfold AtMostOne at hone
  unfold Allows
  rw [devicePartPasses, Bool.or_eq_true, Bool.and_eq_true, decide_eq_true_iff, decide_eq_true_iff,
    mask_eq_zero_iff]
  cases p.found <;> simp <;> tauto

end TargetPart

namespace TargetDevice

variable (t : TargetDevice) (device : ComDevice)

/-- `location` in `Check`: the region code of the device without that of the country, 0 if the
region is not known. -/
def location : ℕ := ((device.location - 1156000000) % 2 ^ 32).toNat

/-- The dimensions in the order in which `Check` looks at them. -/
def parts : List TargetPart :=
  [⟨0x1, 0x2, location device ∈ t.regioncode⟩, ⟨0x4, 0x8, device.connectiontype ∈ t.connectiontype⟩,
    ⟨0x10, 0x20, device.os ∈ t.os⟩, ⟨0x40, 0x80, device.carrier ∈ t.carrier⟩,
    ⟨0x100, 0x200, device.devicetype ∈ t.devicetype⟩, ⟨0x400, 0x800, device.make ∈ t.make⟩]

variable {t device} {isPolicy : Bool}

/-- A part of the check, and what follows. -/
theorem ite_targetDevice_eq_success {passes : Bool} {part : DevicePart} {rest : BidErr} :
    (if ¬passes then BidErr.targetDevice isPolicy part else rest) = .success ↔
      passes = true ∧ rest = .success := by
  cases passes <;> simp

/-- A device whose region is known passes if every dimension lets it pass. -/
theorem check_eq_success_iff (hnone : t.flag ≠ 0) (hall : t.flag ≠ 0xFFF)
    (hknown : location device ≠ 0) :
    t.check device isPolicy = .success ↔
      ∀ p ∈ t.parts device, devicePartPasses t.flag p.whitelist p.mask p.found = true := by
  -- `Check` looks for the region only if it is known
  have hregion : (decide (location device ≠ 0) && decide (location device ∈ t.regioncode)) =
      decide (location device ∈ t.regioncode) := by
    rw [decide_eq_true hknown, Bool.true_and]
  unfold check
  rw [if_neg hnone, if_neg hall]
  simp only [ite_targetDevice_eq_success, parts, List.forall_mem_cons, List.not_mem_nil,
    IsEmpty.forall_iff, implies_true, and_true, TargetPart.mask, Nat.reduceOr]
  change (devicePartPasses t.flag 0x1 0x3
    (decide (location device ≠ 0) && decide (location device ∈ t.regioncode)) = true ∧ _) ↔ _
  rw [hregion]

/-- `Check` lets exactly the devices pass that every dimension allows. -/
def RespectsLists (t : TargetDevice) (device : ComDevice) (isPolicy : Bool) : Prop :=
  t.check device isPolicy = .success ↔ ∀ p ∈ t.parts device, p.Allows t.flag

/-- Where each dimension has at most one list, `Check` does as the lists say exactly if there is no
black list, or some list keeps the device out. -/
theorem respectsLists_iff (hnone : t.flag ≠ 0) (hall : t.flag ≠ 0xFFF)
    (hone : ∀ p ∈ t.parts device, p.AtMostOne t.flag) (hknown : location device ≠ 0) :
    RespectsLists t device isPolicy ↔
      (∀ p ∈ t.parts device, t.flag &&& p.blacklist = 0) ∨
        ∃ p ∈ t.parts device, p.Excludes t.flag := by
  have hcheck : t.check device isPolicy = .success ↔ (∀ p ∈ t.parts device, p.Allows t.flag) ∧
      ∀ p ∈ t.parts device, t.flag &&& p.blacklist = 0 := by
    rw [check_eq_success_iff hnone hall hknown, ← forall₂_and]
    exact forall₂_congr fun p hp => TargetPart.passes_iff (hone p hp)
  -- some list keeps the device out exactly if not all dimensions allow it
  have hexcludes : (∃ p ∈ t.parts device, p.Excludes t.flag) ↔
      ¬∀ p ∈ t.parts device, p.Allows t.flag := by
    simp only [not_forall]
    constructor
    · rintro ⟨p, hp, hexcl⟩
      exact ⟨p, hp, (TargetPart.excludes_iff_not_allows (hone p hp)).mp hexcl⟩
    · rintro ⟨p, hp, hnot⟩
      exact ⟨p, hp, (TargetPart.excludes_iff_not_allows (hone p hp)).mpr hnot⟩
  unfold RespectsLists
  rw [hcheck, hexcludes, and_iff_left_iff_imp, imp_iff_or_not]

end TargetDevice

/-! ## The region of a phone -/

/-- A white list of regions. -/
def regionWhitelist : TargetDevice := ⟨0x1, [110000], [], [], [], [], []⟩

/-- A black list of regions. -/
def regionBlacklist : TargetDevice := ⟨0x2, [310000], [], [], [], [], []⟩

/-- The region of the device is on the white list. -/
theorem white_list_respected :
    TargetDevice.RespectsLists regionWhitelist (sampleRequest []).device true :=
  (TargetDevice.respectsLists_iff (by decide) (by decide)
    (by unfold TargetPart.AtMostOne; decide) (by decide)).mpr
      (.inl (by decide))

/-- The region of the device is not on the black list, and the device does not pass. -/
theorem black_list_stops_all :
    regionBlacklist.check (sampleRequest []).device true = .targetDevice true .regioncode ∧
      ∀ p ∈ regionBlacklist.parts (sampleRequest []).device, p.Allows regionBlacklist.flag := by
  refine ⟨by decide, ?_⟩
  unfold TargetPart.Allows
  decide

end AdxDsp
