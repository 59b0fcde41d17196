import AdxDsp.Lib.Growth
import AdxDsp.Tracker.Charging

/-!
# The counters of a campaign agree

The hash `dspcounter_(campaignid)` counts impressions, clicks and costs of a campaign four times: in
total, by policy, by day, and by policy and day.  Every call of `adx_dsp_control_count` adds the
same amount to each of the four counts of a metric.

* **`counterField`**: the four families of fields of the three metrics.
* **`grows_adxDspControlCount`**: what one call adds.
* **`counters_balanced`**: after every run the four counts of every metric agree.
-/

namespace AdxDsp

open CText Redis

/-! ## The fields -/

/-- What is counted. -/
inductive Metric where
  | imp
  | clk
  | cost
  deriving DecidableEq

/-- The name of a metric in the fields. -/
def Metric.name : Metric → Bytes
  | .imp => bytes "imp"
  | .clk => bytes "clk"
  | .cost => bytes "cost"

/-- How a count is broken down. -/
inductive Breakdown where
  | campaign
  | policy
  | day
  | policyDay
  deriving DecidableEq

/-- The parts of a breakdown: policy ids, as the fields show them, and days. -/
def Breakdown.Index : Breakdown → Type
  | .campaign => Unit
  | .policy => ℤ
  | .day => Bytes
  | .policyDay => ℤ × Bytes

/-- What the fields of a family start with. -/
def counterPrefix : Metric × Breakdown → Bytes
  | (m, .campaign) => m.name ++ bytes "_c"
  | (m, .policy) => m.name ++ bytes "_p_"
  | (m, .day) => bytes "d_" ++ m.name ++ bytes "_c_"
  | (m, .policyDay) => bytes "d_" ++ m.name ++ bytes "_p_"

/-- What follows in the field of one part. -/
def Breakdown.suffix : ∀ k : Breakdown, k.Index → Bytes
  | .campaign, _ => []
  | .policy, v => decimal v
  | .day, d => d
  | .policyDay, (v, d) => decimal v ++ bytes "_" ++ d

/-- The fields of the hash of a campaign. -/
def counterField (x : Metric × Breakdown) (i : x.2.Index) : Bytes :=
  counterPrefix x ++ x.2.suffix i

/-- The breakdowns have different suffixes. -/
theorem Breakdown.suffix_injective (k : Breakdown) : Function.Injective k.suffix := by
  intro i j h
  cases k with
  | campaign => rfl
  | policy => exact decimal_injective h
  | day => exact h
  | policyDay =>
    obtain ⟨v, d⟩ := i
    obtain ⟨v', d'⟩ := j
    have hsep : ∀ z : ℤ, (95 : UInt8) ∉ decimal z := notMem_decimal (by decide) (by decide)
    have hcut : decimal v ++ 95 :: d = decimal v' ++ 95 :: d' := by
      have htext : decimal v ++ bytes "_" ++ d = decimal v' ++ bytes "_" ++ d' := h
      rw [List.append_assoc, List.append_assoc] at htext
      exact htext
    obtain ⟨hv, hd⟩ := (append_sep_inj (hsep v) (hsep v')).mp hcut
    rw [decimal_inj.mp hv, hd]

/-- The families start in incomparable ways. -/
theorem counterPrefix_incomparable {x y : Metric × Breakdown} (h : x ≠ y) :
    ((counterPrefix x).isPrefixOf (counterPrefix y) ||
      (counterPrefix y).isPrefixOf (counterPrefix x)) = false := by
  obtain ⟨m, j⟩ := x
  obtain ⟨n, k⟩ := y
  cases m <;> cases j <;> cases n <;> cases k <;> first | rfl | exact absurd rfl h

/-- Each field belongs to one part of one family. -/
theorem counterField_injective : Function.Injective
    fun x : Σ x : Metric × Breakdown, x.2.Index => counterField x.1 x.2 := by
  rintro ⟨x, i⟩ ⟨y, j⟩ h
  by_cases hxy : x = y
  · subst hxy
    have hsuffix : x.2.suffix i = x.2.suffix j := List.append_cancel_left h
    rw [x.2.suffix_injective hsuffix]
  · exact absurd h (append_ne_append (counterPrefix_incomparable hxy) _ _)

/-! ## What the commands add -/

section

variable (campaignid : ℤ)

/-- The sums over the families of the hash of a campaign. -/
noncomputable def counterSums (w : TrackerWorld) : Metric × Breakdown → ℤ :=
  (w.store .adCounterMaster).familySum (dspcounterKey campaignid) counterField

/-- The sums are finite. -/
def CountersFinite (w : TrackerWorld) : Prop :=
  (w.store .adCounterMaster).FiniteFamilies (dspcounterKey campaignid) counterField

/-- Every run of the program in which all commands succeed adds `δ` to the sums. -/
def Adds {α : Type} (p : TrackerProg α) (δ : Metric × Breakdown → ℤ) : Prop :=
  p.Grows World.exec Reply.Failed (CountersFinite campaignid) (counterSums campaignid) δ

/-- The command writes no counter of the campaign. -/
def CounterQuiet (c : Server × Cmd) : Prop :=
  c.1 = .adCounterMaster → ∀ x i, ¬c.2.writesField (dspcounterKey campaignid) (counterField x i)

/-- The same amount for every breakdown of a metric. -/
def spread (m : Metric) (n : ℤ) : Metric × Breakdown → ℤ := fun x => if x.1 = m then n else 0

variable {campaignid}

/-- A program that writes no counter of the campaign adds nothing. -/
theorem adds_of_quiet {α : Type} {p : TrackerProg α} (hp : p.Sends (CounterQuiet campaignid)) :
    Adds campaignid p 0 := by
  apply Prog.Grows.of_sends hp
  intro c hc w hw
  unfold CountersFinite counterSums at *
  rcases World.exec_store w c with h | h
  · rw [h]
    exact ⟨hw, rfl⟩
  · rw [h]
    by_cases hmaster : c.1 = .adCounterMaster
    · rw [← hmaster, Function.update_self]
      rw [← hmaster] at hw
      exact Store.familySum_exec (hc hmaster) hw
    · rw [Function.update_of_ne (Ne.symm hmaster)]
      exact ⟨hw, rfl⟩

/-- `HINCRBY` on a counter of a campaign. -/
theorem adds_countNumber (c : ℤ) (x : Metric × Breakdown) (i : x.2.Index) (old n : ℤ) :
    Adds campaignid (countNumber old (.hincrby (dspcounterKey c) (counterField x i) n))
      (if dspcounterKey c = dspcounterKey campaignid then Pi.single x n else 0) := by
  by_cases hkey : dspcounterKey c = dspcounterKey campaignid
  · rw [if_pos hkey, hkey]
    have hcall : Adds campaignid (Prog.call (.adCounterMaster,
        .hincrby (dspcounterKey campaignid) (counterField x i) n)) (Pi.single x n) := by
      apply Prog.Grows.call
      intro w hw hok
      obtain ⟨hstore, hok⟩ := World.store_exec_of_not_failed hok
      unfold CountersFinite counterSums at *
      rw [hstore, Function.update_self]
      exact Store.familySum_hincrby counterField_injective hok hw
    have hbind := Prog.Grows.bind hcall fun r => Prog.Grows.ret (replyNumber old r).2
    exact hbind.congr (add_zero _)
  · rw [if_neg hkey]
    apply adds_of_quiet
    rw [sends_countNumber]
    intro _ y j hw
    exact hkey hw.1

end

/-! ## One call -/

/-- The keys of the other hashes and the fields of the source. -/
theorem dsp10minutecounterKey_ne (p : ℤ) (slot : ℕ) (c : ℤ) :
    dsp10minutecounterKey p slot ≠ dspcounterKey c := by
  simp only [dsp10minutecounterKey, dspcounterKey, List.append_assoc]
  exact append_ne_append rfl _ _

/-- The key of the automatic bids is none of the counters. -/
theorem autoCostBidKey_ne (p : ℤ) (day : Bytes) (c : ℤ) :
    autoCostBidKey p day ≠ dspcounterKey c := by
  simp only [autoCostBidKey, dspcounterKey, List.append_assoc]
  exact append_ne_append rfl _ _

/-- The key of a device is none of the counters. -/
theorem didKey_ne (t d : Bytes) (c : ℤ) : didKey t d ≠ dspcounterKey c := by
  simp only [didKey, dspcounterKey, List.append_assoc]
  exact append_ne_append rfl _ _

section

variable {campaignid : ℤ} (lib : CLib) (clk : ℕ → ℤ) (u : UrlInfo) (d : DspCount)

/-- Adding once to each breakdown of a metric. -/
theorem spread_eq (m : Metric) (n : ℤ) :
    Pi.single (m, Breakdown.campaign) n + (Pi.single (m, Breakdown.policy) n +
      (Pi.single (m, Breakdown.day) n + (Pi.single (m, Breakdown.policyDay) n + 0))) =
        spread m n := by
  funext x
  obtain ⟨j, k⟩ := x
  simp only [Pi.add_apply, add_zero, spread, Pi.single_apply, Prod.mk.injEq]
  by_cases hj : j = m
  · cases k <;> simp [hj]
  · simp [hj]

/-- What the four counts of a metric add. -/
theorem add_ite_spread {P : Prop} [Decidable P] (m : Metric) (n : ℤ) :
    (if P then Pi.single (m, Breakdown.campaign) n else 0) +
      ((if P then Pi.single (m, Breakdown.policy) n else 0) +
        ((if P then Pi.single (m, Breakdown.day) n else 0) +
          ((if P then Pi.single (m, Breakdown.policyDay) n else 0) + 0))) =
      if P then spread m n else 0 := by
  by_cases hP : P
  · simp only [hP, if_true, spread_eq]
  · simp only [hP, if_false, add_zero]

/-- A part that writes no counter of the campaign, and what follows. -/
theorem adds_quiet_bind {α β : Type} {p : TrackerProg α} {f : α → TrackerProg β}
    {δ : Metric × Breakdown → ℤ} (hp : p.Sends (CounterQuiet campaignid))
    (hf : ∀ a, Adds campaignid (f a) δ) : Adds campaignid (p >>= f) δ :=
  (Prog.Grows.bind (adds_of_quiet hp) hf).congr (zero_add δ)

/-- Reading leaves the counters alone. -/
theorem quiet_hget (key f : Bytes) : CounterQuiet campaignid (.adCounterMaster, .hget key f) :=
  fun _ _ _ hw => hw

/-- The counters of ten minutes are other ones. -/
theorem quiet_slot (p : ℤ) (slot : ℕ) (f : Bytes) (n : ℤ) :
    CounterQuiet campaignid (.adCounterMaster, .hincrby (dsp10minutecounterKey p slot) f n) :=
  fun _ _ _ hw => dsp10minutecounterKey_ne p slot campaignid hw.1

/-- The counters of the automatic bids are other ones. -/
theorem quiet_auto (p : ℤ) (day f : Bytes) (n : ℤ) :
    CounterQuiet campaignid (.adCounterMaster, .hincrby (autoCostBidKey p day) f n) :=
  fun _ _ _ hw => autoCostBidKey_ne p day campaignid hw.1

/-- An impression adds one to each of its counts. -/
theorem adds_countShow : Adds campaignid (countShow lib clk u d)
    (if dspcounterKey d.campaignid = dspcounterKey campaignid then spread .imp 1 else 0) := by
  rw [← add_ite_spread]
  unfold countShow
  refine .bind (adds_countNumber d.campaignid (.imp, .campaign) () _ _) fun cImp => ?_
  refine .bind (adds_countNumber d.campaignid (.imp, .policy) (unsignedValue d.policyid) _ _)
    fun pImp => ?_
  refine .bind (adds_countNumber d.campaignid (.imp, .day) (timeMonthDay lib (clk 1)) _ _)
    fun cImpDay => ?_
  refine .bind (adds_countNumber d.campaignid (.imp, .policyDay)
    (unsignedValue d.policyid, timeMonthDay lib (clk 2)) _ _) fun pImpDay => ?_
  -- the clicks are read, and the other counters are in other hashes
  refine adds_quiet_bind (sends_countNumber.mpr (quiet_hget _ _)) fun cClk => ?_
  refine adds_quiet_bind (sends_countNumber.mpr (quiet_hget _ _)) fun pClk => ?_
  refine adds_quiet_bind (sends_countNumber.mpr (quiet_hget _ _)) fun cClkDay => ?_
  refine adds_quiet_bind (sends_countNumber.mpr (quiet_hget _ _)) fun pClkDay => ?_
  refine adds_quiet_bind (sends_countNumber.mpr (quiet_slot _ _ _ _)) fun pImp10m => ?_
  refine adds_quiet_bind (sends_countNumber.mpr (quiet_hget _ _)) fun pClk10m => ?_
  refine adds_quiet_bind (sends_adxRedisCommand.mpr (quiet_auto _ _ _ _)) fun e => ?_
  exact .ret _

/-- A click adds one to each of its counts. -/
theorem adds_countClick : Adds campaignid (countClick lib clk u d)
    (if dspcounterKey d.campaignid = dspcounterKey campaignid then spread .clk 1 else 0) := by
  rw [← add_ite_spread]
  unfold countClick
  -- the impressions are read
  refine adds_quiet_bind (sends_countNumber.mpr (quiet_hget _ _)) fun cImp => ?_
  refine adds_quiet_bind (sends_countNumber.mpr (quiet_hget _ _)) fun pImp => ?_
  refine adds_quiet_bind (sends_countNumber.mpr (quiet_hget _ _)) fun cImpDay => ?_
  refine adds_quiet_bind (sends_countNumber.mpr (quiet_hget _ _)) fun pImpDay => ?_
  refine .bind (adds_countNumber d.campaignid (.clk, .campaign) () _ _) fun cClk => ?_
  refine .bind (adds_countNumber d.campaignid (.clk, .policy) (unsignedValue d.policyid) _ _)
    fun pClk => ?_
  refine .bind (adds_countNumber d.campaignid (.clk, .day) (timeMonthDay lib (clk 3)) _ _)
    fun cClkDay => ?_
  refine .bind (adds_countNumber d.campaignid (.clk, .policyDay)
    (unsignedValue d.policyid, timeMonthDay lib (clk 4)) _ _) fun pClkDay => ?_
  refine adds_quiet_bind (sends_countNumber.mpr (quiet_hget _ _)) fun pImp10m => ?_
  refine adds_quiet_bind (sends_countNumber.mpr (quiet_slot _ _ _ _)) fun pClk10m => ?_
  refine adds_quiet_bind (sends_adxRedisCommand.mpr (quiet_auto _ _ _ _)) fun e => ?_
  exact .ret _

/-- A price is added to each count of the costs. -/
theorem adds_countCost (price : ℚ) : Adds campaignid (countCost lib clk u price d)
    (if dspcounterKey d.campaignid = dspcounterKey campaignid ∧ price ≠ 0 then
      spread .cost (unsignedValue (priceCents price)) else 0) := by
  unfold countCost
  by_cases hprice : price ≠ 0
  · simp only [hprice, ne_eq, not_false_eq_true, if_true, and_true]
    rw [← add_ite_spread]
    refine .bind (adds_countNumber d.campaignid (.cost, .campaign) () _ _) fun cCost => ?_
    refine .bind (adds_countNumber d.campaignid (.cost, .policy) (unsignedValue d.policyid) _ _)
      fun pCost => ?_
    refine .bind (adds_countNumber d.campaignid (.cost, .day) (timeMonthDay lib (clk 7)) _ _)
      fun cCostDay => ?_
    refine .bind (adds_countNumber d.campaignid (.cost, .policyDay)
      (unsignedValue d.policyid, timeMonthDay lib (clk 8)) _ _) fun pCostDay => ?_
    refine adds_quiet_bind (sends_countNumber.mpr (quiet_slot _ _ _ _)) fun pCost10m => ?_
    refine adds_quiet_bind (sends_adxRedisCommand.mpr (quiet_auto _ _ _ _)) fun e => ?_
    exact .ret _
  · simp only [hprice, if_false, and_false]
    refine adds_quiet_bind (sends_countNumber.mpr (quiet_hget _ _)) fun cCost => ?_
    refine adds_quiet_bind (sends_countNumber.mpr (quiet_hget _ _)) fun pCost => ?_
    refine adds_quiet_bind (sends_countNumber.mpr (quiet_hget _ _)) fun cCostDay => ?_
    refine adds_quiet_bind (sends_countNumber.mpr (quiet_hget _ _)) fun pCostDay => ?_
    refine adds_quiet_bind (sends_countNumber.mpr (quiet_hget _ _)) fun pCost10m => ?_
    exact .ret _

/-- Lifetimes and frequencies are kept in other keys. -/
theorem quiet_countRest : (countRest lib clk u d).Sends (CounterQuiet campaignid) := by
  have hfc : ∀ t i id a p e,
      CounterQuiet campaignid (.adCounterMaster, .hincrby (didKey t i) (fcField id a p e) 1) :=
    fun t i _ _ _ _ _ _ _ hw => didKey_ne t i campaignid hw.1
  have hsadd : ∀ key m, CounterQuiet campaignid (.adCounterMaster, .sadd key m) :=
    fun _ _ _ _ _ hw => hw
  have hlifetimes : (countLifetimes lib clk d).Sends (CounterQuiet campaignid) := by
    refine .bind (sends_adxRedisCommand.mpr ?_) fun e => sends_adxRedisCommand.mpr ?_
    · intro _ x i hw
      exact absurd hw.2 (by norm_num)
    · intro _ x i hw
      exact autoCostBidKey_ne _ _ campaignid hw.1
  exact .bind hlifetimes fun e =>
    .bind (countFrequencyCampaign_sends hfc hsadd lib clk u _ _) fun r =>
      countFrequencyPolicy_sends hfc hsadd lib clk u _ _

/-- The amounts that are the same for every breakdown of a metric. -/
def uniform : AddSubmonoid (Metric × Breakdown → ℤ) where
  carrier := {δ | ∃ n : Metric → ℤ, δ = fun x => n x.1}
  zero_mem' := ⟨0, rfl⟩
  add_mem' := by
    rintro _ _ ⟨n, rfl⟩ ⟨k, rfl⟩
    exact ⟨n + k, rfl⟩

/-- Counting or not counting, all breakdowns get the same. -/
theorem ite_spread_mem_uniform (P : Prop) [Decidable P] (m : Metric) (n : ℤ) :
    (if P then spread m n else 0) ∈ uniform := by
  split_ifs
  · exact ⟨fun j => if j = m then n else 0, rfl⟩
  · exact uniform.zero_mem

/-- A call adds the same amount to every breakdown of a metric. -/
theorem adxDspControlCount_growsIn (dump : Dump) (price : ℚ) :
    (adxDspControlCount lib clk u dump price d).GrowsIn World.exec Reply.Failed
      (CountersFinite campaignid) (counterSums campaignid) uniform := by
  unfold adxDspControlCount
  refine .ite (fun _ => .ret _) fun _ => .bind ?_ fun d₁ => .bind ?_ fun d₂ => ?_
  · refine .ite (fun _ => ?_) fun _ => .ite (fun _ => ?_) fun _ => .ret _
    · exact .of_grows (adds_countShow lib clk u _) (ite_spread_mem_uniform _ _ _)
    · exact .of_grows (adds_countClick lib clk u _) (ite_spread_mem_uniform _ _ _)
  · exact .of_grows (adds_countCost lib clk u d₁ price) (ite_spread_mem_uniform _ _ _)
  · exact .of_grows (adds_of_quiet (quiet_countRest lib clk u d₂)) uniform.zero_mem

end

/-! ## Runs -/

/-- A call of `adx_dsp_control_count`: the readings of the clock, the notice, the dump, the price
and the counters it is called with. -/
structure CountCall where
  clk : ℕ → ℤ
  notice : UrlInfo
  dump : Dump
  price : ℚ
  counts : DspCount

/-- The program of a call. -/
def CountCall.prog (lib : CLib) (a : CountCall) : TrackerProg (ErrCode × DspCount) :=
  adxDspControlCount lib a.clk a.notice a.dump a.price a.counts

/-- Calls one after the other. -/
def countAll (lib : CLib) (w : TrackerWorld) (calls : List CountCall) : TrackerWorld :=
  calls.foldl (fun w a => ((a.prog lib).exec w).2) w

/-- One more counted notice. -/
theorem countAll_concat (lib : CLib) (w : TrackerWorld) (calls : List CountCall) (a : CountCall) :
    countAll lib w (calls ++ [a]) = ((a.prog lib).exec (countAll lib w calls)).2 := by
  rw [countAll, List.foldl_append]
  rfl

/-- No command of the calls fails. -/
def Succeeds (lib : CLib) (w : TrackerWorld) (calls : List CountCall) : Prop :=
  ∀ pre a, pre ++ [a] <+: calls →
    ∀ x ∈ (a.prog lib).transcript World.exec (countAll lib w pre), ¬x.2.Failed

/-- The counts of a metric agree: the count of the campaign is the sum over the policies, the sum
over the days, and the sum over the policies and the days, and these sums are finite. -/
structure Balanced (s : Store) (campaignid : ℤ) (m : Metric) : Prop where
  policies : s.number (dspcounterKey campaignid) (counterField (m, .campaign) ()) =
    ∑ᶠ v : ℤ, s.number (dspcounterKey campaignid) (counterField (m, .policy) v)
  days : s.number (dspcounterKey campaignid) (counterField (m, .campaign) ()) =
    ∑ᶠ day : Bytes, s.number (dspcounterKey campaignid) (counterField (m, .day) day)
  policyDays : s.number (dspcounterKey campaignid) (counterField (m, .campaign) ()) =
    ∑ᶠ x : ℤ × Bytes, s.number (dspcounterKey campaignid) (counterField (m, .policyDay) x)
  finite : ∀ k : Breakdown, (Function.support fun i : k.Index =>
    s.number (dspcounterKey campaignid) (counterField (m, k) i)).Finite

/-- The counts of all metrics agree if the sums are finite and the same for every breakdown. -/
theorem forall_balanced_iff {w : TrackerWorld} {campaignid : ℤ} :
    (∀ m, Balanced (w.store .adCounterMaster) campaignid m) ↔
      CountersFinite campaignid w ∧
        ∀ m k, counterSums campaignid w (m, k) = counterSums campaignid w (m, .campaign) := by
  have hcampaign : ∀ m, counterSums campaignid w (m, .campaign) =
      (w.store .adCounterMaster).number (dspcounterKey campaignid)
        (counterField (m, .campaign) ()) :=
    fun m => finsum_unique fun i : Unit =>
      (w.store .adCounterMaster).number (dspcounterKey campaignid) (counterField (m, .campaign) i)
  constructor
  · intro h
    refine ⟨fun x => (h x.1).finite x.2, ?_⟩
    intro m k
    rw [hcampaign]
    cases k with
    | campaign => exact hcampaign m
    | policy => exact (h m).policies.symm
    | day => exact (h m).days.symm
    | policyDay => exact (h m).policyDays.symm
  · rintro ⟨hfin, hsum⟩ m
    have hm : ∀ k, (w.store .adCounterMaster).number (dspcounterKey campaignid)
        (counterField (m, .campaign) ()) = counterSums campaignid w (m, k) := by
      intro k
      rw [hsum, hcampaign]
    exact ⟨hm .policy, hm .day, hm .policyDay, fun k => hfin (m, k)⟩

/-- The counts of a campaign without any counter agree. -/
theorem balanced_of_absent {s : Store} {campaignid : ℤ}
    (h : s.hashes (dspcounterKey campaignid) = []) (m : Metric) : Balanced s campaignid m := by
  have hzero : ∀ f, s.number (dspcounterKey campaignid) f = 0 := by
    intro f
    rw [Store.number, Store.field, h]
    rfl
  refine ⟨?_, ?_, ?_, fun k => ?_⟩
  · simp only [hzero, finsum_zero]
  · simp only [hzero, finsum_zero]
  · simp only [hzero, finsum_zero]
  · simp only [hzero, Function.support_fun_zero, Set.finite_empty]

/-- In every run of calls from counters that agree, in which no command fails, the counts of every
metric of every campaign agree after every call. -/
theorem counters_balanced (lib : CLib) {w : TrackerWorld} {calls : List CountCall}
    (hstart : ∀ campaignid m, Balanced (w.store .adCounterMaster) campaignid m)
    (hok : Succeeds lib w calls) :
    ∀ pre, pre <+: calls → ∀ campaignid m,
      Balanced ((countAll lib w pre).store .adCounterMaster) campaignid m := by
  intro pre hpre campaignid
  rw [forall_balanced_iff]
  induction pre using List.reverseRecOn with
  | nil => exact forall_balanced_iff.mp (hstart campaignid)
  | append_singleton pre a ih =>
    obtain ⟨hfin, hsum⟩ := ih ((List.prefix_append pre [a]).trans hpre)
    obtain ⟨hfin', δ, ⟨n, rfl⟩, hvalue⟩ :=
      adxDspControlCount_growsIn lib a.clk a.notice a.counts a.dump a.price _ hfin (hok pre a hpre)
    rw [countAll_concat]
    refine ⟨hfin', fun m k => ?_⟩
    show counterSums campaignid (((a.prog lib).exec (countAll lib w pre)).2) (m, k) =
      counterSums campaignid (((a.prog lib).exec (countAll lib w pre)).2) (m, .campaign)
    rw [CountCall.prog, TrackerProg.exec, hvalue, Pi.add_apply, Pi.add_apply, hsum]

/-- An impression of the sample bid at a price of 250, on servers without any key. -/
def sampleCall : CountCall :=
  ⟨fun _ => 0, sampleNotice mtypeImp, ⟨[(5, [])], [(6, [])], [(31, ⟨5, 6, 7⟩)]⟩, 250, .init [] []⟩

/-- The counts agree after the sample call. -/
theorem counters_balanced_sample :
    Balanced ((countAll sampleLib (.reliable fun _ => Store.empty) [sampleCall]).store
      .adCounterMaster) 5 .cost := by
  have hok : Succeeds sampleLib (.reliable fun _ => Store.empty) [sampleCall] := by
    intro pre a hpre
    obtain ⟨rfl, rfl⟩ : pre = [] ∧ a = sampleCall := by
      have hlen := hpre.length_le
      simp only [List.length_append, List.length_singleton] at hlen
      have hnil : pre = [] := List.eq_nil_of_length_eq_zero (by omega)
      subst hnil
      exact ⟨rfl, by simpa using hpre⟩
    decide +kernel
  exact counters_balanced sampleLib (fun campaignid m => balanced_of_absent rfl m) hok
    [sampleCall] (List.prefix_refl _) 5 .cost

end AdxDsp
