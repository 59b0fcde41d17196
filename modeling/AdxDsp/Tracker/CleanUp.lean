import AdxDsp.Tracker.FrequencyCount
import AdxDsp.Tracker.Periods

/-!
# The index of the frequency fields

`adx_dsp_control_count` counts in a field of a device that names the end of a period, and adds the
field to the set of what is to be removed at that end.  The end is computed three times, each time
from a new reading of the clock.

* `mem_sent_iff`: what a call sends to the hashes of devices and to the sets.
* `indexed_iff`: the calls that add every field to its set.
* `indexed_of_periodIndex`: those whose clock stays in one period.
-/

namespace AdxDsp

open CText Redis

/-! ## What a call counts -/

/-- A frequency counter of a call: its settings, the id in the name of its field, and the number of
the first of its three readings of the clock. -/
structure FrequencyCounter where
  frequency : Frequency
  id : ℤ
  reading : ℕ

namespace FrequencyCounter

variable (lib : CLib) (clk : ℕ → ℤ) (x y : FrequencyCounter)

/-- The end that is computed from one of the readings. -/
def enddatetime (j : ℕ) : ℤ := x.frequency.enddatetime lib (clk (x.reading + j))

/-- The field, with the end from one of the readings. -/
def field (j : ℕ) : Bytes :=
  fcField x.id x.frequency.action x.frequency.period (x.enddatetime lib clk j)

/-- The counter, and what is noted for its removal. -/
def cmds (did : Bytes) : List (Server × Cmd) :=
  [(.adCounterMaster, .hincrby did (x.field lib clk 0) 1),
    (.adCounterMaster,
      .sadd (delKey (x.enddatetime lib clk 1)) (delMember did (x.field lib clk 2)))]

/-- Two counters whose fields differ at most in the end. -/
structure SameName : Prop where
  id : unsignedDecimal x.id = unsignedDecimal y.id
  action : x.frequency.action = y.frequency.action
  period : x.frequency.period = y.frequency.period

/-- The period does not end between the readings. -/
structure InOnePeriod : Prop where
  key : x.enddatetime lib clk 1 = x.enddatetime lib clk 0
  member : x.enddatetime lib clk 2 = x.enddatetime lib clk 0

/-- Another counter is noted with the name and the end of this one. -/
structure NotedBy : Prop where
  name : SameName x y
  key : y.enddatetime lib clk 1 = x.enddatetime lib clk 0
  member : y.enddatetime lib clk 2 = x.enddatetime lib clk 0

end FrequencyCounter

/-- The counter of the campaign, or that of the creative, by the settings of the campaign. -/
def campaignCounters (u : UrlInfo) (f : Frequency) (campaignid creativeid : ℤ) :
    List FrequencyCounter :=
  if f.counts u.mtype then
    if f.type = 1 then [⟨f, campaignid, 13⟩]
    else if f.type = 2 then [⟨f, creativeid, 16⟩]
    else []
  else []

/-- The counter of the policy. -/
def policyCounters (u : UrlInfo) (f : Frequency) (policyid : ℤ) : List FrequencyCounter :=
  if f.counts u.mtype then if f.type = 1 then [⟨f, policyid, 19⟩] else [] else []

/-- The frequency counters of a call of `adx_dsp_control_count`; none if an id is missing. -/
def frequencyCounters (dump : Dump) (u : UrlInfo) (d : DspCount) : List FrequencyCounter :=
  if dump.campaignid u.mapid = 0 ∨ dump.policyid u.mapid = 0 ∨ dump.creativeid u.mapid = 0 then []
  else
    campaignCounters u d.campaignControl.frequency (dump.campaignid u.mapid)
        (dump.creativeid u.mapid) ++
      policyCounters u d.policyControl.frequency (dump.policyid u.mapid)

/-! ## What a call sends -/

/-- The commands on the hashes of devices and on sets. -/
def IndexCmd (c : Server × Cmd) : Prop :=
  (∃ key f n, isDidKey key = true ∧ c = (.adCounterMaster, .hincrby key f n)) ∨
    ∃ key m, c = (.adCounterMaster, .sadd key m)

/-- Counters of other keys are no index commands. -/
theorem not_indexCmd_hincrby {key : Bytes} (hkey : isDidKey key = false) (f : Bytes) (n : ℤ) :
    ¬IndexCmd (.adCounterMaster, .hincrby key f n) := by
  rintro (⟨_, _, _, hdid, h⟩ | ⟨_, _, h⟩)
  · cases h
    rw [hkey] at hdid
    cases hdid
  · cases h

/-- The counters of the notices are no index commands. -/
theorem countSends_not_indexCmd : CountSends (¬IndexCmd ·) where
  hget := by
    rintro key f (⟨_, _, _, -, h⟩ | ⟨_, _, h⟩) <;> cases h
  hincrby key f n hkey _ := not_indexCmd_hincrby hkey f n
  expireSlot := by
    rintro p slot (⟨_, _, _, -, h⟩ | ⟨_, _, h⟩) <;> cases h
  expireAuto := by
    rintro p day n (⟨_, _, _, -, h⟩ | ⟨_, _, h⟩) <;> cases h

/-- The record keeps the ids and the settings. -/
structure SettingsKept (d d' : DspCount) : Prop where
  campaignid : d'.campaignid = d.campaignid
  creativeid : d'.creativeid = d.creativeid
  policyid : d'.policyid = d.policyid
  campaignControl : d'.campaignControl = d.campaignControl
  policyControl : d'.policyControl = d.policyControl

/-- Settings that are kept twice are kept. -/
theorem SettingsKept.trans {d d' d'' : DspCount} (h : SettingsKept d d')
    (h' : SettingsKept d' d'') : SettingsKept d d'' where
  campaignid := h'.campaignid.trans h.campaignid
  creativeid := h'.creativeid.trans h.creativeid
  policyid := h'.policyid.trans h.policyid
  campaignControl := h'.campaignControl.trans h.campaignControl
  policyControl := h'.policyControl.trans h.policyControl

section

variable {lib : CLib} {clk : ℕ → ℤ} {u : UrlInfo} {d : DspCount} {w : TrackerWorld}
  {c : Server × Cmd}

/-- What two programs in a row have sent. -/
theorem mem_sent_bind {α β : Type} {p : TrackerProg α} {f : α → TrackerProg β} :
    c ∈ (p >>= f).sent World.exec w ↔
      c ∈ p.sent World.exec w ∨ c ∈ (f (p.exec w).1).sent World.exec (p.exec w).2 := by
  rw [Prog.sent_bind, List.mem_append]
  rfl

/-- A program that never sends an index command has not sent one. -/
theorem notMem_sent {α : Type} {p : TrackerProg α} (hp : p.Sends (¬IndexCmd ·)) (hc : IndexCmd c) :
    c ∉ p.sent World.exec w := fun h => hp.of_mem_sent h hc

variable (lib clk) in
/-- Counting the type keeps the settings. -/
theorem settingsKept_countMtype : SettingsKept d ((countMtype lib clk u d).exec w).1 := by
  rw [countMtype]
  split_ifs
  · exact ⟨rfl, rfl, rfl, rfl, rfl⟩
  · exact ⟨rfl, rfl, rfl, rfl, rfl⟩
  · exact ⟨rfl, rfl, rfl, rfl, rfl⟩

variable (lib clk) in
/-- Counting the costs keeps the settings. -/
theorem settingsKept_countCost (price : ℚ) :
    SettingsKept d ((countCost lib clk u price d).exec w).1 := by
  rw [countCost]
  dsimp only
  split_ifs
  · exact ⟨rfl, rfl, rfl, rfl, rfl⟩
  · exact ⟨rfl, rfl, rfl, rfl, rfl⟩

/-- The commands of one frequency counter. -/
theorem sent_countFrequency (f : Frequency) (id old : ℤ) (i : ℕ) :
    (countFrequency lib clk f d id old i).sent World.exec w =
      FrequencyCounter.cmds lib clk ⟨f, id, i⟩ (didKey d.deviceidtype d.deviceid) := rfl

/-- The commands of the counters of a campaign and its creative. -/
theorem sent_countFrequencyCampaign (e : ErrCode) :
    (countFrequencyCampaign lib clk u e d).sent World.exec w =
      (campaignCounters u d.campaignControl.frequency d.campaignid d.creativeid).flatMap
        fun x => x.cmds lib clk (didKey d.deviceidtype d.deviceid) := by
  rw [countFrequencyCampaign, campaignCounters]
  split_ifs
  · rw [Prog.sent_bind, sent_countFrequency]
    rfl
  · rw [Prog.sent_bind, sent_countFrequency]
    rfl
  · rfl
  · rfl

variable (lib clk) in
/-- Counting for the campaign changes nothing that counting for the policy reads. -/
theorem exec_countFrequencyCampaign (e : ErrCode) :
    let d' := ((countFrequencyCampaign lib clk u e d).exec w).1.2
    d'.policyControl = d.policyControl ∧ d'.policyid = d.policyid ∧
      didKey d'.deviceidtype d'.deviceid = didKey d.deviceidtype d.deviceid := by
  rw [countFrequencyCampaign]
  dsimp only
  split_ifs
  · exact ⟨rfl, rfl, rfl⟩
  · exact ⟨rfl, rfl, rfl⟩
  · exact ⟨rfl, rfl, rfl⟩
  · exact ⟨rfl, rfl, rfl⟩

/-- The commands of the counters of a policy. -/
theorem sent_countFrequencyPolicy (e : ErrCode) :
    (countFrequencyPolicy lib clk u e d).sent World.exec w =
      (policyCounters u d.policyControl.frequency d.policyid).flatMap
        fun x => x.cmds lib clk (didKey d.deviceidtype d.deviceid) := by
  rw [countFrequencyPolicy, policyCounters]
  split_ifs
  · rw [Prog.sent_bind, sent_countFrequency]
    rfl
  · rfl
  · rfl

/-- The index commands come from the frequency counters only. -/
theorem mem_sent_countRest_iff (hc : IndexCmd c) :
    c ∈ (countRest lib clk u d).sent World.exec w ↔
      ∃ x ∈ campaignCounters u d.campaignControl.frequency d.campaignid d.creativeid ++
          policyCounters u d.policyControl.frequency d.policyid,
        c ∈ x.cmds lib clk (didKey (getDeviceidtype u.deviceidtype) u.deviceid) := by
  rw [countRest, mem_sent_bind, mem_sent_bind, or_iff_right
    (notMem_sent (countLifetimes_sends countSends_not_indexCmd lib clk d) hc),
    sent_countFrequencyCampaign, sent_countFrequencyPolicy]
  obtain ⟨hcontrol, hid, hdid⟩ := exec_countFrequencyCampaign lib clk
    (u := u) (w := ((countLifetimes lib clk d).exec w).2)
    (d := { d with deviceid := u.deviceid, deviceidtype := getDeviceidtype u.deviceidtype })
    ((countLifetimes lib clk d).exec w).1
  rw [hcontrol, hid, hdid, ← List.mem_append, ← List.flatMap_append, List.mem_flatMap]

/-- The commands of a call on the hashes of devices and on sets. -/
theorem mem_sent_iff {dump : Dump} {price : ℚ} (hc : IndexCmd c) :
    c ∈ (adxDspControlCount lib clk u dump price d).sent World.exec w ↔
      ∃ x ∈ frequencyCounters dump u d,
        c ∈ x.cmds lib clk (didKey (getDeviceidtype u.deviceidtype) u.deviceid) := by
  by_cases h : dump.campaignid u.mapid = 0 ∨ dump.policyid u.mapid = 0 ∨
      dump.creativeid u.mapid = 0
  · rw [adxDspControlCount, if_pos h, frequencyCounters, if_pos h]
    simp
  · have hcall : adxDspControlCount lib clk u dump price d = (do
        let d ← countMtype lib clk u (d.withIds dump u)
        let d ← countCost lib clk u price d
        countRest lib clk u d) := if_neg h
    have hmtype := settingsKept_countMtype lib clk (u := u) (w := w)
      (d := d.withIds dump u)
    have hcost := settingsKept_countCost lib clk (u := u)
      (w := ((countMtype lib clk u (d.withIds dump u)).exec w).2)
      (d := ((countMtype lib clk u (d.withIds dump u)).exec w).1) price
    have hquiet := countCost_sends (P := (¬IndexCmd ·)) lib clk u countSends_not_indexCmd.hget
      (fun key f n hkey => not_indexCmd_hincrby hkey f n) price
    -- of the three parts, only the last one sends such commands
    rw [hcall, frequencyCounters, if_neg h, mem_sent_bind,
      or_iff_right (notMem_sent (countMtype_sends countSends_not_indexCmd lib clk u _) hc),
      mem_sent_bind, or_iff_right (notMem_sent (hquiet _) hc), mem_sent_countRest_iff hc]
    -- it reads the settings as they were before the other two
    have hkept := hmtype.trans hcost
    rw [hkept.campaignControl, hkept.policyControl, hkept.campaignid, hkept.creativeid,
      hkept.policyid]
    rfl

/-! ## Fields and sets -/

/-- Every field of a device that is counted in is added, with its hash, to the set of its end. -/
def Indexed (cmds : List (Server × Cmd)) : Prop :=
  ∀ key f n, isDidKey key = true → (.adCounterMaster, .hincrby key f n) ∈ cmds →
    ∃ id action period enddatetime, f = fcField id action period enddatetime ∧
      (.adCounterMaster, .sadd (delKey enddatetime) (delMember key f)) ∈ cmds

/-- The field names its four numbers, the id modulo 2^32. -/
theorem fcField_eq_iff {id id' action action' period period' enddatetime enddatetime' : ℤ} :
    fcField id action period enddatetime = fcField id' action' period' enddatetime' ↔
      unsignedDecimal id = unsignedDecimal id' ∧ action = action' ∧ period = period' ∧
        enddatetime = enddatetime' := by
  have hsep : ∀ z, (95 : UInt8) ∉ decimal z := notMem_decimal (by decide) (by decide)
  have hsep' : ∀ z, (95 : UInt8) ∉ unsignedDecimal z := fun z => hsep _
  constructor
  · intro h
    -- no number has an underscore, so that the first one in both ends the first number
    simp only [fcField, List.append_assoc, List.append_cancel_left_eq] at h
    obtain ⟨hi, h⟩ := (append_sep_inj (hsep' _) (hsep' _)).mp h
    obtain ⟨ha, h⟩ := (append_sep_inj (hsep _) (hsep _)).mp h
    obtain ⟨hp, h⟩ := (append_sep_inj (hsep _) (hsep _)).mp h
    exact ⟨hi, decimal_inj.mp ha, decimal_inj.mp hp, decimal_inj.mp h⟩
  · rintro ⟨hi, rfl, rfl, rfl⟩
    rw [fcField, fcField, hi]

/-- Two counters have one field just if they have one name and one end. -/
theorem FrequencyCounter.field_eq_iff {x y : FrequencyCounter} {i j : ℕ} :
    x.field lib clk i = y.field lib clk j ↔
      SameName x y ∧ x.enddatetime lib clk i = y.enddatetime lib clk j := by
  rw [field, field, fcField_eq_iff]
  exact ⟨fun ⟨hi, ha, hp, he⟩ => ⟨⟨hi, ha, hp⟩, he⟩, fun ⟨⟨hi, ha, hp⟩, he⟩ => ⟨hi, ha, hp, he⟩⟩

/-- The increments of a counter. -/
theorem mem_cmds_hincrby {x : FrequencyCounter} {did key f : Bytes} {n : ℤ} :
    ((.adCounterMaster, .hincrby key f n) : Server × Cmd) ∈ x.cmds lib clk did ↔
      key = did ∧ f = x.field lib clk 0 ∧ n = 1 := by
  simp [FrequencyCounter.cmds]

/-- The entries of a counter in the sets of the clean-up. -/
theorem mem_cmds_sadd {x : FrequencyCounter} {did key m : Bytes} :
    ((.adCounterMaster, .sadd key m) : Server × Cmd) ∈ x.cmds lib clk did ↔
      key = delKey (x.enddatetime lib clk 1) ∧ m = delMember did (x.field lib clk 2) := by
  simp [FrequencyCounter.cmds]

/-- A counter is noted by one whose field has its name and whose readings give its end. -/
theorem exists_mem_cmds_sadd_iff {x y : FrequencyCounter} {did : Bytes} :
    (∃ id action period enddatetime, x.field lib clk 0 = fcField id action period enddatetime ∧
        ((.adCounterMaster, .sadd (delKey enddatetime) (delMember did (x.field lib clk 0))) :
          Server × Cmd) ∈ y.cmds lib clk did) ↔ FrequencyCounter.NotedBy lib clk x y := by
  simp only [mem_cmds_sadd, delKey, delMember, List.append_cancel_left_eq, decimal_inj]
  constructor
  · rintro ⟨id, action, period, e, hfield, rfl, hmember⟩
    obtain ⟨-, -, -, he⟩ := fcField_eq_iff.mp hfield
    obtain ⟨hname, hend⟩ := FrequencyCounter.field_eq_iff.mp hmember
    exact ⟨hname, he.symm, hend.symm⟩
  · rintro ⟨hname, hkey, hmember⟩
    exact ⟨_, _, _, _, rfl, hkey.symm, FrequencyCounter.field_eq_iff.mpr ⟨hname, hmember.symm⟩⟩

/-- A period that ends between the readings leaves a field that no set has. -/
theorem indexed_iff {dump : Dump} {price : ℚ} :
    Indexed ((adxDspControlCount lib clk u dump price d).sent World.exec w) ↔
      ∀ x ∈ frequencyCounters dump u d, x.InOnePeriod lib clk ∨
        ∃ y ∈ frequencyCounters dump u d, FrequencyCounter.NotedBy lib clk x y := by
  have hsadd : ∀ key m, IndexCmd (.adCounterMaster, .sadd key m) := fun key m => .inr ⟨key, m, rfl⟩
  have hhincrby : ∀ key f n, isDidKey key = true → IndexCmd (.adCounterMaster, .hincrby key f n) :=
    fun key f n h => .inl ⟨key, f, n, h, rfl⟩
  have hself : ∀ x : FrequencyCounter, x.InOnePeriod lib clk →
      FrequencyCounter.NotedBy lib clk x x := fun x h => ⟨⟨rfl, rfl, rfl⟩, h.key, h.member⟩
  constructor
  · -- the field of a counter is in a set because some counter sends it there
    intro h x hx
    obtain ⟨id, action, period, e, hfield, hmem⟩ := h _ _ 1 (isDidKey_didKey _ _)
      ((mem_sent_iff (hhincrby _ _ _ (isDidKey_didKey _ _))).mpr
        ⟨x, hx, mem_cmds_hincrby.mpr ⟨rfl, rfl, rfl⟩⟩)
    obtain ⟨y, hy, hcmd⟩ := (mem_sent_iff (hsadd _ _)).mp hmem
    exact .inr ⟨y, hy, exists_mem_cmds_sadd_iff.mp ⟨id, action, period, e, hfield, hcmd⟩⟩
  · intro h key f n hkey hmem
    obtain ⟨x, hx, hcmd⟩ := (mem_sent_iff (hhincrby _ _ _ hkey)).mp hmem
    obtain ⟨rfl, rfl, -⟩ := mem_cmds_hincrby.mp hcmd
    obtain ⟨y, hy, hnoted⟩ : ∃ y ∈ frequencyCounters dump u d,
        FrequencyCounter.NotedBy lib clk x y := by
      rcases h x hx with hown | hother
      · exact ⟨x, hx, hself x hown⟩
      · exact hother
    obtain ⟨id, action, period, e, hfield, hmem⟩ := exists_mem_cmds_sadd_iff.mpr hnoted
    exact ⟨id, action, period, e, hfield, (mem_sent_iff (hsadd _ _)).mpr ⟨y, hy, hmem⟩⟩

/-- Where local time has a fixed offset, it is enough that no period ends during the readings. -/
theorem indexed_of_periodIndex {off : ℤ} {dump : Dump} {price : ℚ}
    (h : ∀ x ∈ frequencyCounters dump u d, ∀ j ≤ 2,
      periodIndex off x.frequency.period (clk (x.reading + j)) =
        periodIndex off x.frequency.period (clk x.reading)) :
    Indexed ((adxDspControlCount (lib.fixedOffset off) clk u dump price d).sent World.exec w) := by
  rw [indexed_iff]
  intro x hx
  have hend : ∀ j ≤ 2, x.enddatetime (lib.fixedOffset off) clk j =
      x.enddatetime (lib.fixedOffset off) clk 0 := by
    intro j hj
    rw [FrequencyCounter.enddatetime, FrequencyCounter.enddatetime, Frequency.enddatetime,
      Frequency.enddatetime]
    by_cases hp : 1 ≤ x.frequency.period ∧ x.frequency.period ≤ 4
    · exact (getEnddatetime_eq_iff lib off _ _ _ hp).mpr (h x hx j hj)
    · -- the other periods have no end
      unfold getEnddatetime
      split_ifs <;> omega
  exact .inl ⟨hend 1 (by decide), hend 2 (by decide)⟩

end

/-! ## The end of an hour -/

/-- A campaign that limits its impressions in each hour. -/
def sampleHourly : Control :=
  [(bytes "frequencytype", 1), (bytes "frequencyaction", 1), (bytes "frequencyperiod", 1)]

/-- The hour ends between the counter and the set: no set has the field. -/
theorem not_indexed_hour : ¬∀ clk : ℕ → ℤ, Monotone clk →
    Indexed ((adxDspControlCount utcLib clk (sampleNotice mtypeImp)
      ⟨[(5, sampleHourly)], [], [(31, ⟨5, 6, 7⟩)]⟩ 0 (DspCount.init sampleHourly [])).sent
        World.exec (.reliable fun _ => .empty)) := by
  intro h
  have hmono : Monotone fun i : ℕ => if i ≤ 13 then (3599 : ℤ) else 3600 := by
    intro a b hab
    dsimp only
    split_ifs <;> omega
  have hindexed := indexed_iff.mp (h _ hmono)
  have hcounters : frequencyCounters ⟨[(5, sampleHourly)], [], [(31, ⟨5, 6, 7⟩)]⟩
      (sampleNotice mtypeImp) (DspCount.init sampleHourly []) =
        [⟨sampleHourly.frequency, 5, 13⟩] := rfl
  have hkey : FrequencyCounter.enddatetime utcLib (fun i => if i ≤ 13 then 3599 else 3600)
      ⟨sampleHourly.frequency, 5, 13⟩ 1 ≠ FrequencyCounter.enddatetime utcLib
        (fun i => if i ≤ 13 then 3599 else 3600) ⟨sampleHourly.frequency, 5, 13⟩ 0 := by
    decide
  rw [hcounters] at hindexed
  rcases hindexed _ (List.mem_singleton_self _) with hown | ⟨y, hy, hother⟩
  · exact hkey hown.key
  · obtain rfl := List.mem_singleton.mp hy
    exact hkey hother.key

end AdxDsp
