import AdxDsp.Lib.Expiry
import AdxDsp.Lib.Steps
import AdxDsp.Tracker.Sends

/-!
# The ten-minute counters in time

A policy has a hash of counters for each of the six ten-minute slots of an hour.  The tracker
increments counters of the current slot and gives its hash half an hour to live
(`adx_dsp_control_count`).  The bidders (`RecordCount`) increment counters of the slot in which they
have bid, a while later, and give no lifetime.

* `slot_law`: a hash counts the events of the latest ten minutes of its slot only, in every run in
  which no hash without a lifetime outlives its ten minutes and records are sent in time.
* `law_breaks`: as soon as a step does not meet this, the law will be broken.
-/

namespace AdxDsp

open CText Expiry

/-! ## Time -/

/-- `tm_min`, for a clock of seconds that starts at a full hour of the local time. -/
def tmMin (t : ℕ) : ℕ := t / 60 % 60

/-- `GetTimeHourSplit`. -/
def getTimeHourSplit (min t : ℕ) : ℕ := tmMin t / min

/-- The number of the ten minutes that a time is in, counted from the start of the clock. -/
def tenMinutes (t : ℕ) : ℕ := t / 600

/-- The slot of a time. -/
theorem getTimeHourSplit_ten (t : ℕ) : getTimeHourSplit 10 t = tenMinutes t % 6 := by
  simp only [getTimeHourSplit, tmMin, tenMinutes]
  omega

/-- A later time has no earlier slot, counted through all hours. -/
theorem tenMinutes_mono {a b : ℕ} (h : a ≤ b) : tenMinutes a ≤ tenMinutes b :=
  Nat.div_le_div_right h

/-- Past times of the latest ten minutes of one slot are in the same ten minutes. -/
theorem tenMinutes_eq_of_latest {now a b : ℕ} (ha : a ≤ now) (hb : b ≤ now)
    (hslot : tenMinutes a % 6 = tenMinutes b % 6) (hla : tenMinutes now < tenMinutes a + 6)
    (hlb : tenMinutes now < tenMinutes b + 6) : tenMinutes a = tenMinutes b := by
  have hamono := tenMinutes_mono ha
  have hbmono := tenMinutes_mono hb
  omega

/-- An event of the slot belongs to the latest ten minutes of the slot that have begun. -/
def InLatest (now slot time : ℕ) : Prop :=
  time ≤ now ∧ getTimeHourSplit 10 time = slot ∧
    ∀ t ≤ now, getTimeHourSplit 10 t = slot → tenMinutes t ≤ tenMinutes time

/-- The slot comes again an hour later. -/
theorem inLatest_iff {now slot time : ℕ} : InLatest now slot time ↔
    time ≤ now ∧ tenMinutes time % 6 = slot ∧ tenMinutes now < tenMinutes time + 6 := by
  simp only [InLatest, getTimeHourSplit_ten]
  refine and_congr_right fun htime => and_congr_right fun hslot => ?_
  constructor
  · intro h
    by_contra hlate
    -- an hour after the ten minutes of the event the slot has begun again
    have hagain := h ((tenMinutes time + 6) * 600) (by simp only [tenMinutes] at *; omega)
      (by simp only [tenMinutes] at *; omega)
    simp only [tenMinutes] at hagain
    omega
  · intro h t ht hsame
    simp only [tenMinutes] at *
    omega

/-! ## The hashes and their increments -/

/-- An increment of a counter: its field, by how much it grows, and when the event happened that it
counts.  The number in a field is the sum of its increments. -/
structure Increment where
  field : Bytes
  amount : ℤ
  time : ℕ
  deriving DecidableEq

/-- `dsp10minutecounter_(policyid)_(slot)`. -/
def minuteKey (policy : Bytes) (slot : ℕ) : Bytes :=
  bytes "dsp10minutecounter_" ++ policy ++ bytes "_" ++ decimal slot

/-- The key of the tracker. -/
theorem dsp10minutecounterKey_eq (policyid : ℤ) (slot : ℕ) :
    dsp10minutecounterKey policyid slot = minuteKey (unsignedDecimal policyid) slot := rfl

/-- A digit is one character. -/
theorem decimal_digit : ∀ k < 10, decimal (k : ℕ) = [48 + k.toUInt8] := by decide

/-- A key tells its slot. -/
theorem minuteKey_slot {p q : Bytes} {k j : ℕ} (hk : k < 6) (hj : j < 6)
    (h : minuteKey p k = minuteKey q j) : k = j := by
  rw [minuteKey, minuteKey, decimal_digit k (by omega), decimal_digit j (by omega)] at h
  have hdigits : ∀ k < 6, ∀ j < 6, ([48 + k.toUInt8] : Bytes) = [48 + j.toUInt8] → k = j := by
    decide
  exact hdigits k hk j hj (List.append_inj_right' h rfl)

/-- `Record`, with the time of the bid, which the source does not keep. -/
structure Record where
  pid : ℤ
  mapid : ℤ
  at_ : ℤ
  regcode : ℤ
  price : ℤ
  section_ : ℕ
  time : ℕ

namespace Record

variable (r : Record) (adx : ℤ)

/-- The key of a record. -/
def key : Bytes := minuteKey (decimal r.pid) r.section_

/-- `(at)_(mapid)_(adxcode)_(regioncode)`. -/
def field : Bytes :=
  decimal r.at_ ++ bytes "_" ++ decimal r.mapid ++ bytes "_" ++ decimal adx ++ bytes "_" ++
    decimal r.regcode

/-- The first command of `RecordOne`. -/
def bid : Increment := ⟨bytes "bid_" ++ r.field adx, 1, r.time⟩

/-- The second command of `RecordOne`. -/
def bidprice : Increment := ⟨bytes "bidprice_" ++ r.field adx, r.price, r.time⟩

end Record

namespace RecordCount

variable {B : Type} [DecidableEq B] (adx : B → ℤ)

/-- The counters, and the records of each bidder. -/
structure State (B : Type) where
  store : Store Bytes Increment
  /-- The records that wait to be sent. -/
  all : B → List Record
  /-- The record whose first command has been sent. -/
  one : B → Option Record

/-- Nothing has been counted. -/
def init : State B := ⟨.empty, fun _ => [], fun _ => none⟩

/-- What the clock, the bidders and the trackers do. -/
inductive Event (B : Type) where
  | tick
  /-- A bidder calls `AddRecord`. -/
  | addRecord (b : B) (policyid mapid at_ regcode price : ℤ)
  /-- The thread of a bidder takes a record and sends the first command of `RecordOne`. -/
  | recordBid (b : B)
  /-- It sends the second command. -/
  | recordBidprice (b : B)
  /-- A tracker increments a counter of the current slot. -/
  | count (policyid : ℤ) (field : Bytes) (n : ℤ)
  /-- A tracker sets the lifetime of the current slot. -/
  | expire (policyid : ℤ)

/-- The fields that a notice increments. -/
def noticeFields : List Bytes := [bytes "imp_count", bytes "clk_count", bytes "cost_count"]

/-- One step; `none` where the event cannot happen. -/
def step (s : State B) : Event B → Option (State B)
  | .tick => some { s with store := s.store.tick }
  | .addRecord b policyid mapid at_ regcode price =>
    let one : Record := ⟨policyid, mapid, at_, regcode, price,
      getTimeHourSplit 10 s.store.now, s.store.now⟩
    some { s with all := Function.update s.all b (s.all b ++ [one]) }
  | .recordBid b =>
    match s.one b, s.all b with
    | none, r :: rest => some {
        store := s.store.hincrby r.key (r.bid (adx b))
        all := Function.update s.all b rest
        one := Function.update s.one b (some r) }
    | _, _ => none
  | .recordBidprice b =>
    match s.one b with
    | some r => some { s with
        store := s.store.hincrby r.key (r.bidprice (adx b))
        one := Function.update s.one b none }
    | none => none
  | .count policyid field n =>
    let key := dsp10minutecounterKey policyid (getTimeHourSplit 10 s.store.now)
    if field ∈ noticeFields then
      some { s with store := s.store.hincrby key ⟨field, n, s.store.now⟩ }
    else none
  | .expire policyid =>
    let key := dsp10minutecounterKey policyid (getTimeHourSplit 10 s.store.now)
    some { s with store := s.store.expire key 1800 }

/-- A thread counts a bid: the first command of its record. -/
theorem recordBid_cases {s s' : State B} {b : B} (h : step adx s (.recordBid b) = some s') :
    ∃ r rest, s.one b = none ∧ s.all b = r :: rest ∧ s' = {
      store := s.store.hincrby r.key (r.bid (adx b))
      all := Function.update s.all b rest
      one := Function.update s.one b (some r) } := by
  simp only [step] at h
  split at h
  next r rest hone hall => exact ⟨r, rest, hone, hall, (Option.some.inj h).symm⟩
  next => cases h

/-- The thread adds the price: the second command. -/
theorem recordBidprice_cases {s s' : State B} {b : B}
    (h : step adx s (.recordBidprice b) = some s') :
    ∃ r, s.one b = some r ∧ s' = { s with
      store := s.store.hincrby r.key (r.bidprice (adx b))
      one := Function.update s.one b none } := by
  simp only [step] at h
  split at h
  next r hone => exact ⟨r, hone, (Option.some.inj h).symm⟩
  next => cases h

/-- A hash counts events of the latest ten minutes of its slot only. -/
def SlotLaw (s : State B) : Prop :=
  ∀ policy slot c, slot < 6 → s.store.find (minuteKey policy slot) = some c →
    ∀ i ∈ c.counted, InLatest s.store.now slot i.time

/-- The record is sent in the ten minutes of its bid, or to a hash that will expire before they come
again. -/
def Timely (s : State B) (r : Record) : Prop :=
  tenMinutes r.time = tenMinutes s.store.now ∨
    tenMinutes s.store.now < tenMinutes r.time + 6 ∧
      ∃ c, s.store.find r.key = some c ∧ c.expireAt ≠ none

/-- When ten minutes end, the hashes of their slot have a lifetime; records are sent in time. -/
def StepOk (s : State B) : Event B → Prop
  | .tick => tenMinutes (s.store.now + 1) = tenMinutes s.store.now ∨
      ∀ policy c, s.store.find (minuteKey policy (getTimeHourSplit 10 s.store.now)) = some c →
        c.expireAt ≠ none
  | .recordBid b => ∀ r ∈ (s.all b).head?, Timely s r
  | .recordBidprice b => ∀ r ∈ s.one b, Timely s r
  | _ => True

/-! ## The law -/

/-- The invariant of a hash of a slot. -/
structure CellInv (now slot : ℕ) (c : Cell Increment) : Prop where
  counted : c.counted ≠ []
  latest : ∀ i ∈ c.counted, i.time ≤ now ∧ tenMinutes i.time % 6 = slot ∧
    tenMinutes now < tenMinutes i.time + 6
  /-- Without a lifetime the hash is that of the current slot. -/
  current : c.expireAt = none → tenMinutes now % 6 = slot
  lifetime : ∀ e, c.expireAt = some e → e ≤ now + 1800
  /-- The hash expires before the slot comes again. -/
  expires : ∀ e, c.expireAt = some e → ∀ i ∈ c.counted, e ≤ (tenMinutes i.time + 6) * 600

section

variable {now slot : ℕ} {c : Cell Increment}

/-- A second passes. -/
theorem CellInv.tick (h : CellInv now slot c) (hlive : c.live (now + 1) = true)
    (hok : tenMinutes (now + 1) = tenMinutes now ∨
      (tenMinutes now % 6 = slot → c.expireAt ≠ none)) : CellInv (now + 1) slot c where
  counted := h.counted
  latest i hi := by
    obtain ⟨htime, hslot, hlatest⟩ := h.latest i hi
    refine ⟨by omega, hslot, ?_⟩
    cases hexp : c.expireAt with
    | none =>
      -- the hash is that of the current slot, and the clock stays in its ten minutes
      have hsame := hok.resolve_right fun hne => hne (h.current hexp) hexp
      omega
    | some e =>
      -- the hash is still there, so its slot has not come again
      have hbefore := h.expires e hexp i hi
      rw [Cell.live, hexp] at hlive
      have hlt : now + 1 < e := of_decide_eq_true hlive
      simp only [tenMinutes] at *
      omega
  current hexp := by
    have hsame := hok.resolve_right fun hne => hne (h.current hexp) hexp
    rw [hsame]
    exact h.current hexp
  lifetime e he := Nat.le_succ_of_le (h.lifetime e he)
  expires := h.expires

/-- The lifetime is set in the slot. -/
theorem CellInv.expire (h : CellInv now slot c) (hslot : tenMinutes now % 6 = slot) :
    CellInv now slot { c with expireAt := some (now + 1800) } where
  counted := h.counted
  latest := h.latest
  current hexp := by cases hexp
  lifetime e he := by
    cases he
    exact Nat.le_refl _
  expires e he i hi := by
    cases he
    obtain ⟨htime, hsame, hlatest⟩ := h.latest i hi
    simp only [tenMinutes] at *
    omega

/-- The increment comes in the ten minutes of its event, or to a hash with a lifetime before these
come again. -/
theorem CellInv.add {found : Option (Cell Increment)}
    (h : ∀ c, found = some c → CellInv now slot c) {i : Increment} (htime : i.time ≤ now)
    (hslot : tenMinutes i.time % 6 = slot)
    (hok : tenMinutes i.time = tenMinutes now ∨
      tenMinutes now < tenMinutes i.time + 6 ∧ ∃ c, found = some c ∧ c.expireAt ≠ none) :
    CellInv now slot (Cell.add i found) := by
  have hlatest : tenMinutes now < tenMinutes i.time + 6 := by
    rcases hok with hsame | ⟨hlatest, -⟩ <;> omega
  cases found with
  | none =>
    -- the hash begins with this event, and without a lifetime
    have hsame : tenMinutes i.time = tenMinutes now :=
      hok.resolve_right fun ⟨_, c, hc, _⟩ => by cases hc
    constructor
    · exact List.cons_ne_nil _ _
    · intro j hj
      obtain rfl := List.mem_singleton.mp hj
      exact ⟨htime, hslot, hlatest⟩
    · intro _
      rw [← hsame]
      exact hslot
    · intro e he
      cases he
    · intro e he
      cases he
  | some c =>
    have hc := h c rfl
    constructor
    · exact List.cons_ne_nil _ _
    · intro j hj
      rcases List.mem_cons.mp hj with rfl | hj
      · exact ⟨htime, hslot, hlatest⟩
      · exact hc.latest j hj
    · exact hc.current
    · exact hc.lifetime
    · intro e he j hj
      rcases List.mem_cons.mp hj with rfl | hj
      · -- the new event is of the ten minutes of the events before it
        obtain ⟨k, hk⟩ := List.exists_mem_of_ne_nil _ hc.counted
        obtain ⟨hktime, hkslot, hklatest⟩ := hc.latest k hk
        have hsame :=
          tenMinutes_eq_of_latest hktime htime (hkslot.trans hslot.symm) hklatest hlatest
        rw [← hsame]
        exact hc.expires e he k hk
      · exact hc.expires e he j hj

end

/-- A record of a past bid. -/
def Past (now : ℕ) (r : Record) : Prop :=
  r.time ≤ now ∧ r.section_ = getTimeHourSplit 10 r.time

/-- The invariant of the runs whose steps are fine. -/
structure Inv (s : State B) : Prop where
  cells : ∀ policy slot c, slot < 6 → s.store.find (minuteKey policy slot) = some c →
    CellInv s.store.now slot c
  all : ∀ b, ∀ r ∈ s.all b, Past s.store.now r
  one : ∀ b r, s.one b = some r → Past s.store.now r

omit [DecidableEq B] in
/-- The invariant holds at the start. -/
theorem inv_init : Inv (init : State B) where
  cells _ _ c _ h := by cases h
  all _ r h := by cases h
  one _ r h := by cases h

omit [DecidableEq B] in
/-- The invariant gives the law of the slots. -/
theorem Inv.law {s : State B} (h : Inv s) : SlotLaw s := fun policy slot c hslot hc i hi =>
  inLatest_iff.mpr ((h.cells policy slot c hslot hc).latest i hi)

omit [DecidableEq B] in
/-- An increment of a hash keeps the invariant of all hashes. -/
theorem cells_hincrby {s : State B} (h : Inv s) {policy₀ : Bytes} {slot₀ : ℕ} (h₀ : slot₀ < 6)
    {i : Increment} (htime : i.time ≤ s.store.now) (hslot : tenMinutes i.time % 6 = slot₀)
    (hok : tenMinutes i.time = tenMinutes s.store.now ∨
      tenMinutes s.store.now < tenMinutes i.time + 6 ∧
        ∃ c, s.store.find (minuteKey policy₀ slot₀) = some c ∧ c.expireAt ≠ none) :
    ∀ policy slot c, slot < 6 →
      (s.store.hincrby (minuteKey policy₀ slot₀) i).find (minuteKey policy slot) = some c →
        CellInv s.store.now slot c := by
  intro policy slot c hlt hc
  rw [Store.find_hincrby] at hc
  split_ifs at hc with hkey
  · obtain rfl := minuteKey_slot hlt h₀ hkey
    cases hc
    exact CellInv.add (fun c hc => h.cells policy₀ slot c hlt hc) htime hslot hok
  · exact h.cells policy slot c hlt hc

/-- There are six slots. -/
theorem getTimeHourSplit_ten_lt (t : ℕ) : getTimeHourSplit 10 t < 6 := by
  rw [getTimeHourSplit_ten]
  exact Nat.mod_lt _ (by decide)

omit [DecidableEq B] in
/-- One of the two commands of `RecordOne` keeps the invariant of the hashes. -/
theorem cells_record {s : State B} (h : Inv s) {r : Record} (hr : Past s.store.now r)
    (hok : Timely s r) {i : Increment} (htime : i.time = r.time) :
    ∀ policy slot c, slot < 6 → (s.store.hincrby r.key i).find (minuteKey policy slot) = some c →
      CellInv s.store.now slot c := by
  obtain ⟨hpast, hsection⟩ := hr
  have hlt : r.section_ < 6 := hsection ▸ getTimeHourSplit_ten_lt r.time
  apply cells_hincrby h hlt
  · rw [htime]
    exact hpast
  · rw [htime, hsection, getTimeHourSplit_ten]
  · rw [htime]
    exact hok

/-- A step that meets the condition keeps the invariant. -/
theorem step_inv {s s' : State B} {e : Event B} (h : Inv s) (hok : StepOk s e)
    (hs : step adx s e = some s') : Inv s' := by
  cases e with
  | tick =>
    obtain rfl := Option.some.inj hs
    have hpast : ∀ {r : Record}, Past s.store.now r → Past (s.store.now + 1) r := fun hr =>
      ⟨Nat.le_succ_of_le hr.1, hr.2⟩
    constructor
    · intro policy slot c hslot hc
      obtain ⟨hfind, hlive⟩ := Store.find_tick.mp hc
      -- a hash of the slot that ends has a lifetime
      refine (h.cells policy slot c hslot hfind).tick hlive (hok.imp_right fun hexp hnow => ?_)
      rw [← hnow, ← getTimeHourSplit_ten] at hfind
      exact hexp policy c hfind
    · exact fun b r hr => hpast (h.all b r hr)
    · exact fun b r hr => hpast (h.one b r hr)
  | addRecord b policyid mapid at_ regcode price =>
    obtain rfl := Option.some.inj hs
    refine ⟨h.cells, ?_, h.one⟩
    refine (Function.forall_update_iff s.all fun _ l => ∀ r ∈ l, Past s.store.now r).mpr
      ⟨fun r hr => ?_, fun b' _ => h.all b'⟩
    rcases List.mem_append.mp hr with hr | hr
    · exact h.all b r hr
    · obtain rfl := List.mem_singleton.mp hr
      exact ⟨Nat.le_refl _, rfl⟩
  | recordBid b =>
    obtain ⟨r, rest, hone, hall, rfl⟩ := recordBid_cases adx hs
    have hr : Past s.store.now r := h.all b r (by rw [hall]; exact List.mem_cons_self)
    have htimely : Timely s r := hok r (by rw [hall]; rfl)
    refine ⟨cells_record h hr htimely rfl, ?_, ?_⟩
    · refine (Function.forall_update_iff s.all fun _ l => ∀ r ∈ l, Past s.store.now r).mpr
        ⟨fun q hq => ?_, fun b' _ => h.all b'⟩
      exact h.all b q (by rw [hall]; exact List.mem_cons_of_mem r hq)
    · refine (Function.forall_update_iff s.one fun _ o => ∀ r, o = some r →
        Past s.store.now r).mpr ⟨fun q hq => ?_, fun b' _ => h.one b'⟩
      obtain rfl := Option.some.inj hq
      exact hr
  | recordBidprice b =>
    obtain ⟨r, hone, rfl⟩ := recordBidprice_cases adx hs
    have hr : Past s.store.now r := h.one b r hone
    have htimely : Timely s r := hok r hone
    refine ⟨cells_record h hr htimely rfl, h.all, ?_⟩
    refine (Function.forall_update_iff s.one fun _ o => ∀ r, o = some r →
      Past s.store.now r).mpr ⟨fun q hq => ?_, fun b' _ => h.one b'⟩
    cases hq
  | count policyid field n =>
    simp only [step] at hs
    split_ifs at hs
    obtain rfl := Option.some.inj hs
    have hslot := getTimeHourSplit_ten s.store.now
    -- a tracker counts at once, in the slot of its clock
    refine ⟨cells_hincrby h (getTimeHourSplit_ten_lt _) (Nat.le_refl _) hslot.symm (.inl rfl),
      h.all, h.one⟩
  | expire policyid =>
    obtain rfl := Option.some.inj hs
    refine ⟨fun policy slot c hlt hc => ?_, fun b r hr => ?_, fun b r hr => ?_⟩
    · rw [Store.now_expire]
      rw [Store.find_expire (by decide)] at hc
      split_ifs at hc with hkey
      · obtain rfl := minuteKey_slot hlt (getTimeHourSplit_ten_lt _) hkey
        obtain ⟨d, hd, rfl⟩ := Option.map_eq_some_iff.mp hc
        exact (h.cells _ _ d hlt hd).expire (getTimeHourSplit_ten _).symm
      · exact h.cells policy slot c hlt hc
    · rw [Store.now_expire]
      exact h.all b r hr
    · rw [Store.now_expire]
      exact h.one b r hr

/-- In every run whose steps meet the condition, every hash of counters counts the events of the
latest ten minutes of its slot only. -/
theorem slot_law (es : List (Event B)) (s : State B)
    (h : Steps.run (step adx) init es = some s)
    (hok : Steps.Along (step adx) StepOk init es) : SlotLaw s :=
  Inv.law (Steps.run_keeps (fun hs hok h => step_inv adx hs hok h) inv_init hok h)

/-- A bid in the first ten minutes, and a notice that gives its hash a lifetime. -/
def sampleRun : List (Event Unit) :=
  [.addRecord () 9 31 0 1156110000 100, .count 9 (bytes "imp_count") 1, .recordBid (), .tick,
    .recordBidprice (), .expire 9]

/-- A run in which two threads count. -/
theorem slot_law_sample :
    ∃ s, Steps.run (step fun _ => 14) init sampleRun = some s ∧ SlotLaw s := by
  obtain ⟨s, hs⟩ : ∃ s, Steps.run (step fun _ => 14) init sampleRun = some s := ⟨_, rfl⟩
  refine ⟨s, hs, slot_law (fun _ => 14) sampleRun s hs ?_⟩
  refine ⟨trivial, ?_⟩
  rintro _ ⟨⟩
  refine ⟨trivial, ?_⟩
  rintro _ ⟨⟩
  refine ⟨?_, ?_⟩
  · rintro r ⟨⟩
    exact .inl rfl
  rintro _ ⟨⟩
  refine ⟨.inl rfl, ?_⟩
  rintro _ ⟨⟩
  refine ⟨?_, ?_⟩
  · rintro r ⟨⟩
    exact .inl rfl
  rintro _ ⟨⟩
  refine ⟨trivial, ?_⟩
  rintro _ ⟨⟩
  trivial

/-! ## Where the law breaks -/

omit [DecidableEq B] in
/-- Nothing happens but that the time goes by. -/
theorem run_ticks [DecidableEq B] (s : State B) (n : ℕ) :
    Steps.run (step adx) s (List.replicate n .tick) =
      some { s with store := Store.tick^[n] s.store } := by
  induction n generalizing s with
  | zero => rfl
  | succ n ih => exact ih { s with store := s.store.tick }

/-- A hash without a lifetime will count events of past ten minutes. -/
theorem law_breaks_of_find {s : State B} {policy : Bytes} {slot : ℕ} (hslot : slot < 6)
    {c : Cell Increment} (hc : s.store.find (minuteKey policy slot) = some c)
    (hexp : c.expireAt = none) (hcounted : c.counted ≠ []) :
    ∃ n s', Steps.run (step adx) s (List.replicate n .tick) = some s' ∧ ¬SlotLaw s' := by
  obtain ⟨i, hi⟩ := List.exists_mem_of_ne_nil _ hcounted
  -- by then the ten minutes of the event have come again
  let n := (tenMinutes i.time + 6) * 600
  obtain ⟨hfind, hnow⟩ := Store.find_tick_iterate hc hexp n
  refine ⟨n, _, run_ticks adx s n, fun hlaw => ?_⟩
  obtain ⟨-, -, hlatest⟩ := inLatest_iff.mp (hlaw policy slot c hslot hfind i hi)
  have hlate : tenMinutes i.time + 6 ≤ tenMinutes (s.store.now + n) := by
    simp only [tenMinutes, n]
    omega
  rw [← hnow] at hlate
  exact absurd hlatest (not_lt.mpr hlate)

/-- A record that is not sent in time breaks the law. -/
theorem law_breaks_of_record {s s' : State B} {r : Record} (hr : Past s.store.now r)
    (hlate : ¬Timely s r) {i : Increment} (htime : i.time = r.time)
    (hs : s'.store = s.store.hincrby r.key i) :
    ∃ n s'', Steps.run (step adx) s' (List.replicate n .tick) = some s'' ∧ ¬SlotLaw s'' := by
  have hlt : r.section_ < 6 := hr.2 ▸ getTimeHourSplit_ten_lt r.time
  have hfind : s'.store.find (minuteKey (decimal r.pid) r.section_) =
      some (Cell.add i (s.store.find r.key)) := by
    rw [hs]
    exact (Store.find_hincrby r.key r.key i).trans (if_pos rfl)
  have hmem : i ∈ (Cell.add i (s.store.find r.key)).counted := by
    cases s.store.find r.key <;> exact List.mem_cons_self
  rw [Timely, not_or, not_and_or] at hlate
  rcases hlate.2 with hover | hnone
  · -- the slot has come again before the record is sent
    refine ⟨0, s', rfl, fun hlaw => ?_⟩
    obtain ⟨-, -, hlatest⟩ := inLatest_iff.mp (hlaw _ _ _ hlt hfind i hmem)
    rw [hs, Store.now_hincrby, htime] at hlatest
    exact hover hlatest
  · refine law_breaks_of_find adx hlt hfind ?_ (List.ne_nil_of_mem hmem)
    cases hfound : s.store.find r.key with
    | none => rfl
    | some c =>
      by_contra hexp
      exact hnone ⟨c, hfound, hexp⟩

/-- After the first step of a run that does not meet the condition, the law is broken as soon as
enough time has gone by. -/
theorem law_breaks {es : List (Event B)} {s s' : State B} {e : Event B}
    (h : Steps.run (step adx) init es = some s) (hok : Steps.Along (step adx) StepOk init es)
    (hs : step adx s e = some s') (hbad : ¬StepOk s e) :
    ∃ n s'', Steps.run (step adx) s' (List.replicate n .tick) = some s'' ∧ ¬SlotLaw s'' := by
  have hinv : Inv s := Steps.run_keeps (fun hs hok h => step_inv adx hs hok h) inv_init hok h
  cases e with
  | tick =>
    obtain rfl := Option.some.inj hs
    rw [StepOk, not_or] at hbad
    obtain ⟨policy, hbad⟩ := not_forall.mp hbad.2
    obtain ⟨c, hbad⟩ := not_forall.mp hbad
    obtain ⟨hfind, hexp⟩ := Classical.not_imp.mp hbad
    rw [not_ne_iff] at hexp
    -- this hash outlives its ten minutes, and nothing will remove it
    have hlt := getTimeHourSplit_ten_lt s.store.now
    have hlive : c.live (s.store.now + 1) = true := by rw [Cell.live, hexp]
    exact law_breaks_of_find adx hlt (Store.find_tick.mpr ⟨hfind, hlive⟩) hexp
      (hinv.cells _ _ c hlt hfind).counted
  | recordBid b =>
    obtain ⟨r, rest, hone, hall, rfl⟩ := recordBid_cases adx hs
    refine law_breaks_of_record adx (hinv.all b r (by rw [hall]; exact List.mem_cons_self)) ?_
      (i := r.bid (adx b)) rfl rfl
    intro htimely
    refine hbad fun q hq => ?_
    rw [hall] at hq
    cases hq
    exact htimely
  | recordBidprice b =>
    obtain ⟨r, hone, rfl⟩ := recordBidprice_cases adx hs
    refine law_breaks_of_record adx (hinv.one b r hone) ?_ (i := r.bidprice (adx b)) rfl rfl
    intro htimely
    refine hbad fun q hq => ?_
    rw [hone] at hq
    cases hq
    exact htimely
  | addRecord | count | expire => exact absurd trivial hbad

/-- The record of a bid. -/
def sampleRecord : Record := ⟨9, 31, 0, 1156110000, 100, 0, 0⟩

/-- A bid of a policy without notices: an hour later its counters are still there, when the slot has
come again. -/
theorem bid_never_expires : ∃ s, Steps.run (step fun _ => 14) init
    ([.addRecord () 9 31 0 1156110000 100, .recordBid (), .recordBidprice ()] ++
      List.replicate 3600 .tick) = some s ∧ ¬SlotLaw s := by
  have hsent : ∃ t, Steps.run (step fun _ => 14) init
      [.addRecord () 9 31 0 1156110000 100, .recordBid (), .recordBidprice ()] = some t ∧
        t.store.find sampleRecord.key =
          some ⟨[sampleRecord.bidprice 14, sampleRecord.bid 14], none⟩ ∧ t.store.now = 0 :=
    ⟨_, rfl, by decide +kernel, rfl⟩
  obtain ⟨t, ht, hfind, hzero⟩ := hsent
  -- the ticks are counted, not run
  generalize hn : 3600 = n
  obtain ⟨hfind, hnow⟩ := Store.find_tick_iterate hfind rfl n
  refine ⟨_, Steps.run_append.mpr ⟨t, ht, run_ticks _ t n⟩, fun hlaw => ?_⟩
  obtain ⟨-, -, hlatest⟩ := inLatest_iff.mp (hlaw _ _ _ (by decide) hfind (sampleRecord.bid 14)
    (List.mem_cons_of_mem _ List.mem_cons_self))
  rw [hnow, hzero, ← hn] at hlatest
  exact absurd hlatest (by decide)

end RecordCount

/-! ## The commands of a notice -/

/-- Tells the hashes of the ten-minute counters from the other keys. -/
def isMinuteKey (key : Bytes) : Bool := (bytes "dsp10minutecounter_").isPrefixOf key

section

variable (lib : CLib) (clk : ℕ → ℤ)

/-- The slot of the tracker is that of the clock. -/
theorem timeHour10m_eq {t : ℤ} {now : ℕ} (h : (lib.localtime t).min = tmMin now) :
    timeHour10m lib t = getTimeHourSplit 10 now := by
  rw [timeHour10m, h]
  rfl

/-- A command that changes a ten-minute counter is an increment of a counter of a notice, or half an
hour of lifetime, for the slot at a reading of the clock. -/
def MinuteCommand : Server × Redis.Cmd → Prop
  | (_, .hincrby key field _) => isMinuteKey key = true → ∃ policyid i,
      key = dsp10minutecounterKey policyid (timeHour10m lib (clk i)) ∧
        field ∈ RecordCount.noticeFields
  | (_, .expire key seconds) => isMinuteKey key = true → ∃ policyid i,
      key = dsp10minutecounterKey policyid (timeHour10m lib (clk i)) ∧ seconds = 1800
  | (_, c) => ∀ key field, isMinuteKey key = true → ¬c.writesField key field

variable {lib clk} {v : Server} {key field : Bytes} {n : ℤ}

/-- Reading is allowed. -/
theorem minuteCommand_hget : MinuteCommand lib clk (v, .hget key field) := fun _ _ _ h => h

/-- Sets are allowed. -/
theorem minuteCommand_sadd : MinuteCommand lib clk (v, .sadd key field) := fun _ _ _ h => h

/-- Counters of other keys are allowed. -/
theorem minuteCommand_other (h : isMinuteKey key = false) :
    MinuteCommand lib clk (v, .hincrby key field n) := fun hkey => by simp [h] at hkey

/-- The counter of the current slot is allowed. -/
theorem minuteCommand_slot {policyid : ℤ} {i : ℕ} (h : field ∈ RecordCount.noticeFields) :
    MinuteCommand lib clk
      (v, .hincrby (dsp10minutecounterKey policyid (timeHour10m lib (clk i))) field n) :=
  fun _ => ⟨policyid, i, rfl, h⟩

/-- Counting the type uses the current slot. -/
theorem countMtype_minutes (u : UrlInfo) (d : DspCount) :
    (countMtype lib clk u d).Sends (MinuteCommand lib clk) := by
  have hget : ∀ key f, MinuteCommand lib clk (.adCounterMaster, .hget key f) :=
    fun _ _ => minuteCommand_hget
  refine .ite (fun _ => ?_) fun _ => .ite (fun _ => ?_) fun _ => .ret _
  · exact countShow_sendsOf hget (fun _ _ => minuteCommand_other rfl)
      (fun _ => minuteCommand_slot (by decide)) fun _ _ => minuteCommand_other rfl
  · exact countClick_sendsOf hget (fun _ _ => minuteCommand_other rfl)
      (fun _ => minuteCommand_slot (by decide)) fun _ _ => minuteCommand_other rfl

/-- Counting the costs uses the current slot. -/
theorem countCost_minutes (u : UrlInfo) (price : ℚ) (d : DspCount) :
    (countCost lib clk u price d).Sends (MinuteCommand lib clk) :=
  countCost_sendsOf (fun _ _ => minuteCommand_hget) (fun _ => minuteCommand_other rfl)
    (fun _ => minuteCommand_slot (by decide)) fun _ _ => minuteCommand_other rfl

/-- Setting the lifetimes counts nothing. -/
theorem countLifetimes_minutes (d : DspCount) :
    (countLifetimes lib clk d).Sends (MinuteCommand lib clk) := by
  refine .bind (sends_adxRedisCommand.mpr ?_) fun _ => sends_adxRedisCommand.mpr ?_
  · exact fun _ => ⟨d.policyid, 10, rfl, rfl⟩
  · intro hkey
    have hother : isMinuteKey (autoCostBidKey d.policyid
      (getTimeStrMonthDay lib (clk 0) (bytes "_"))) = false := rfl
    simp [hother] at hkey

/-- What a notice sends to the ten-minute counters are the steps of a tracker. -/
theorem adxDspControlCount_minutes (u : UrlInfo) (dump : Dump) (price : ℚ) (d : DspCount) :
    (adxDspControlCount lib clk u dump price d).Sends (MinuteCommand lib clk) := by
  have hfc : ∀ t d id a p e, MinuteCommand lib clk
      (.adCounterMaster, .hincrby (didKey t d) (fcField id a p e) 1) :=
    fun _ _ _ _ _ _ => minuteCommand_other rfl
  have hsadd : ∀ key m, MinuteCommand lib clk (.adCounterMaster, .sadd key m) :=
    fun _ _ => minuteCommand_sadd
  unfold adxDspControlCount
  refine .ite (fun _ => .ret _) fun _ => ?_
  refine .bind (countMtype_minutes u _) fun _ => .bind (countCost_minutes u price _) fun _ => ?_
  exact .bind (countLifetimes_minutes _) fun _ =>
    .bind (countFrequencyCampaign_sends hfc hsadd lib clk u _ _) fun _ =>
      countFrequencyPolicy_sends hfc hsadd lib clk u _ _

end

end AdxDsp
