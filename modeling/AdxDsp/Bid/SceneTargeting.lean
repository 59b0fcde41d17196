import AdxDsp.Bid.Filter

/-!
# Targeting of places

A policy can list places, as geohashes of some length; `TargetScene::ParsePolicy` cuts the listed
ones to this length, and `TargetScene::Check` the one of the device (`ad_element.cpp`,
`ad_element.h`).  The length is a number of the document, and the constructor does not set it.

* `substr`: what a part of a text is when nothing is known of the length.
* `sceneTargets_iff`: the documents and devices for which every part is one of its text.
* `Scene.check_eq`: the answer is then the one of `TargetScene.check`.
-/

namespace AdxDsp

open CText

/-- The members of a `TargetScene` in memory: `length` has no value before it is set. -/
structure Scene where
  flag : ℕ
  length : Option ℤ
  locSet : List Bytes

/-- `TargetScene::TargetScene`. -/
def Scene.init : Scene := ⟨0, none, []⟩

/-- The label `scene` of a document: the texts of the numbers `flag` and `length`, and of the string
`id` in each element of the array `loc`, where they are there with their type. -/
structure SceneLabel where
  flag : Option Bytes
  length : Option Bytes
  loc : Option (List (Option Bytes))

/-- What goes wrong with the length of a part. -/
inductive LengthFault where
  /-- It was never set. -/
  | undefined
  | negative
  /-- The part goes on behind the text. -/
  | outside
  deriving DecidableEq

/-- `string(text, length)` -/
def substr (text : Bytes) (length : Option ℤ) : Except LengthFault Bytes :=
  match length with
  | none => .error .undefined
  | some n =>
    if n < 0 then .error .negative
    else if (cstr text).length < n then .error .outside
    else .ok (text.take n.toNat)

/-- The loop of `ParsePolicy` over the array `loc`. -/
def Scene.insertIds (t : Scene) : List (Option Bytes) → Except LengthFault Scene
  | [] => .ok t
  | none :: rest => t.insertIds rest
  | some text :: rest => do
    let id ← substr text t.length
    Scene.insertIds { t with locSet := t.locSet ++ [id] } rest

/-- The lists that a number asks for: 1 a white one, 2 a black one. -/
def sceneMask (text : Bytes) : ℕ := (atoi text % 2 ^ 32).toNat &&& 0x3

/-- `TargetScene::ParsePolicy`, where the document has a label `scene`. -/
def Scene.parseLabel (t : Scene) (scene : SceneLabel) : Except LengthFault Scene :=
  match scene.flag with
  | none => .ok t
  | some text =>
    let flag := sceneMask text
    let t := { t with flag := flag }
    if flag ≠ 0 then
      let t := match scene.length with
        | some text => { t with length := some (atoi text) }
        | none => t
      t.insertIds (scene.loc.getD [])
    else .ok t

/-- `TargetScene::ParsePolicy`; without the label nothing is set. -/
def Scene.parsePolicy (t : Scene) (document : Option SceneLabel) : Except LengthFault Scene :=
  document.elim (.ok t) t.parseLabel

/-- `TargetScene::Check` -/
def Scene.check (t : Scene) (device : ComDevice) : Except LengthFault BidErr :=
  if t.flag = 0 then .ok .success
  else if t.flag = 0x3 then .ok .policyTargetScene
  else if t.flag &&& 0x3 ≠ 0 ∧ cstr device.locid ≠ [] then do
    let locid ← substr device.locid t.length
    if locid ∈ t.locSet then
      if t.flag &&& 0x1 ≠ 0 then .ok .success else .ok .policyTargetScene
    else if t.flag &&& 0x2 ≠ 0 then .ok .success
    else .ok .policyTargetScene
  else .ok .policyTargetScene

/-- The targets of a policy that has just been made, and then a device. -/
def sceneTargets (document : Option SceneLabel) (device : ComDevice) :
    Except LengthFault BidErr := do
  let t ← Scene.init.parsePolicy document
  t.check device

/-! ## The lengths -/

/-- The lists that the document asks for. -/
def sceneFlag (document : Option SceneLabel) : ℕ :=
  (document.bind SceneLabel.flag).elim 0 sceneMask

/-- The length of the document. -/
def sceneLength (document : Option SceneLabel) : Option ℤ :=
  (document.bind SceneLabel.length).map atoi

/-- The texts that are cut: the places of the document, and the one of the device if there is just
one list. -/
def sceneTexts (document : Option SceneLabel) (device : ComDevice) : List Bytes :=
  ((document.bind SceneLabel.loc).getD []).reduceOption ++
    if sceneFlag document ≠ 0x3 ∧ cstr device.locid ≠ [] then [device.locid] else []

/-- A length for a part of the text. -/
def FitsText (length : Option ℤ) (text : Bytes) : Prop :=
  ∃ n, length = some n ∧ 0 ≤ n ∧ n ≤ (cstr text).length

section

variable {t : Scene} {text : Bytes} {length : Option ℤ} {device : ComDevice}

/-- `substr` throws nothing just if the place is in the text. -/
theorem exists_substr_iff : (∃ part, substr text length = .ok part) ↔ FitsText length text := by
  unfold substr FitsText
  cases length with
  | none => simp
  | some n =>
    dsimp only
    split_ifs with hneg hout
    · simp
      omega
    · simp
      omega
    · simp
      omega

/-- The ids are inserted if the length fits all of them. -/
theorem exists_insertIds_iff {ids : List (Option Bytes)} :
    (∃ t', t.insertIds ids = .ok t') ↔ ∀ id ∈ ids.reduceOption, FitsText t.length id := by
  induction ids generalizing t with
  | nil => simp [Scene.insertIds]
  | cons id ids ih =>
    cases id with
    | none => simpa [Scene.insertIds] using ih
    | some id =>
      rw [Scene.insertIds, List.reduceOption_cons_of_some, List.forall_mem_cons,
        ← exists_substr_iff]
      cases hsub : substr id t.length with
      | error e => simp [bind, Except.bind]
      | ok part => simpa [bind, Except.bind] using ih

/-- Inserting ids keeps the flag and the length. -/
theorem insertIds_members {ids : List (Option Bytes)} {t' : Scene} (h : t.insertIds ids = .ok t') :
    t'.flag = t.flag ∧ t'.length = t.length := by
  induction ids generalizing t with
  | nil =>
    cases h
    exact ⟨rfl, rfl⟩
  | cons id ids ih =>
    cases id with
    | none => exact ih h
    | some id =>
      rw [Scene.insertIds] at h
      cases hsub : substr id t.length with
      | error e =>
        rw [hsub] at h
        cases h
      | ok part =>
        rw [hsub] at h
        exact ih (t := { t with locSet := t.locSet ++ [part] }) h

/-- `Check` gives an answer if it cuts nothing, or the length fits the place of the device. -/
theorem exists_check_iff (hflag : t.flag &&& 0x3 = t.flag) :
    (∃ e, t.check device = .ok e) ↔
      (t.flag ≠ 0 → t.flag ≠ 0x3 → cstr device.locid ≠ [] → FitsText t.length device.locid) := by
  unfold Scene.check
  by_cases hall : t.flag = 0
  · simp [hall]
  by_cases hnone : t.flag = 0x3
  · simp [hnone]
  rw [if_neg hall, if_neg hnone, hflag]
  by_cases hloc : cstr device.locid = []
  · simp [hloc]
  rw [if_pos ⟨hall, hloc⟩, ← exists_substr_iff]
  cases hsub : substr device.locid t.length with
  | error e => simp [bind, Except.bind, hall, hnone, hloc]
  | ok part =>
    refine iff_of_true ?_ fun _ _ _ => ⟨part, rfl⟩
    simp only [bind, Except.bind]
    split_ifs <;> exact ⟨_, rfl⟩

end

/-- A document that asks for a list, and then a device. -/
theorem exists_insertIds_check_iff {t : Scene} {ids : List (Option Bytes)} {device : ComDevice}
    (hflag : t.flag &&& 0x3 = t.flag) (hne : t.flag ≠ 0) :
    (∃ e, (t.insertIds ids >>= fun t => t.check device) = .ok e) ↔
      ∀ text ∈ ids.reduceOption ++
        (if t.flag ≠ 0x3 ∧ cstr device.locid ≠ [] then [device.locid] else []),
          FitsText t.length text := by
  rw [List.forall_mem_append, ← exists_insertIds_iff]
  cases hids : t.insertIds ids with
  | error e => simp [bind, Except.bind]
  | ok t' =>
    obtain ⟨hflag', hlength⟩ := insertIds_members hids
    have hcheck := @exists_check_iff t' device (by rw [hflag', hflag])
    rw [hflag', hlength] at hcheck
    change (∃ e, t'.check device = .ok e) ↔ _
    rw [hcheck]
    by_cases h : t.flag ≠ 0x3 ∧ cstr device.locid ≠ []
    · rw [if_pos h, List.forall_mem_singleton]
      exact ⟨fun hfits => ⟨⟨t', rfl⟩, hfits hne h.1 h.2⟩, fun hfits _ _ _ => hfits.2⟩
    · rw [if_neg h]
      exact iff_of_true (fun _ hnot hloc => absurd ⟨hnot, hloc⟩ h) ⟨⟨t', rfl⟩, nofun⟩

/-- Every part is one of its text if and only if the document asks for no list, or its length is
there, is not negative, and is at most the one of each text that is cut. -/
theorem sceneTargets_iff (document : Option SceneLabel) (device : ComDevice) :
    (∃ e, sceneTargets document device = .ok e) ↔
      (sceneFlag document ≠ 0 →
        ∀ text ∈ sceneTexts document device, FitsText (sceneLength document) text) := by
  -- nothing is cut without a list
  have hinit : ∃ e, Scene.init.check device = .ok e := ⟨_, rfl⟩
  cases document with
  | none => exact iff_of_true hinit fun hflag => absurd (show sceneFlag none = 0 from rfl) hflag
  | some scene =>
    obtain ⟨flag, length, loc⟩ := scene
    cases flag with
    | none =>
      exact iff_of_true hinit fun hflag =>
        absurd (show sceneFlag (some ⟨none, length, loc⟩) = 0 from rfl) hflag
    | some text =>
      change _ ↔ (sceneMask text ≠ 0 → _)
      by_cases hflag : sceneMask text = 0
      · have hcheck : sceneTargets (some ⟨some text, length, loc⟩) device = .ok .success := by
          simp [sceneTargets, Scene.parsePolicy, Scene.parseLabel, Scene.check, hflag, bind,
            Except.bind]
        exact iff_of_true ⟨_, hcheck⟩ fun hne => absurd hflag hne
      · have hdef : sceneTargets (some ⟨some text, length, loc⟩) device =
            (Scene.insertIds ⟨sceneMask text, length.map atoi, []⟩ (loc.getD []) >>=
              fun t => t.check device) := by
          cases length <;>
            simp [sceneTargets, Scene.parsePolicy, Scene.parseLabel, Scene.init, hflag]
        have hmask : sceneMask text &&& 0x3 = sceneMask text := by
          rw [sceneMask, Nat.and_assoc]
          rfl
        rw [hdef, exists_insertIds_check_iff hmask hflag]
        exact ⟨fun h _ => h, fun h => h hflag⟩

/-- What `substr` yields is the first part. -/
theorem eq_take_of_substr {text part : Bytes} {n : ℕ}
    (h : substr text (some (n : ℤ)) = .ok part) : part = text.take n := by
  unfold substr at h
  dsimp only at h
  split_ifs at h
  exact (Except.ok.inj h).symm

/-- The answer is then the one of the model in which the length is a number. -/
theorem Scene.check_eq {t : Scene} {device : ComDevice} {n : ℕ} (hlength : t.length = some (n : ℤ))
    {e : BidErr} (h : t.check device = .ok e) :
    e = TargetScene.check ⟨t.flag, n, t.locSet⟩ device := by
  unfold Scene.check at h
  unfold TargetScene.check
  dsimp only
  by_cases hall : t.flag = 0
  · rw [if_pos hall] at h ⊢
    exact (Except.ok.inj h).symm
  by_cases hnone : t.flag = 0x3
  · rw [if_neg hall, if_pos hnone] at h ⊢
    exact (Except.ok.inj h).symm
  rw [if_neg hall, if_neg hnone] at h ⊢
  by_cases hcut : t.flag &&& 0x3 ≠ 0 ∧ cstr device.locid ≠ []
  · rw [if_pos hcut, hlength] at h
    rw [if_pos hcut]
    cases hsub : substr device.locid (some (n : ℤ)) with
    | error fault =>
      rw [hsub] at h
      cases h
    | ok part =>
      rw [hsub, eq_take_of_substr hsub] at h
      change (if _ then if _ then _ else _ else if _ then _ else _) = _ at h
      split_ifs at h ⊢ <;> exact (Except.ok.inj h).symm
  · rw [if_neg hcut] at h ⊢
    exact (Except.ok.inj h).symm

/-- A device at a place. -/
def sampleDevice (locid : Bytes) : ComDevice := { (sampleRequest []).device with locid := locid }

/-- A white list with a place of five letters, and no length. -/
theorem length_not_set :
    sceneTargets (some ⟨some (bytes "1"), none, some [some (bytes "wx4g0")]⟩)
      (sampleDevice (bytes "wx4g0ec19x3d")) = .error .undefined := by
  decide

/-- Geohashes of four letters are cut behind their end when the length is five. -/
theorem length_outside :
    sceneTargets (some ⟨some (bytes "1"), some (bytes "5"), some [some (bytes "wx4g")]⟩)
      (sampleDevice (bytes "wx4g0ec19x3d")) = .error .outside := by
  decide

end AdxDsp
