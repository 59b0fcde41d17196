import AdxDsp.Lib.Containers
import AdxDsp.Lib.Mailbox
import AdxDsp.Lib.Steps
import AdxDsp.Tracker.Control

/-!
# The completion times of policies

A tracker that finds the share of a policy used up writes the time that this has taken to the hash
`auto_cost_policy_complete`.  The program `adx_auto_cost` reads the hash in each of its cycles,
loads the policies in it with their times, deletes the hash, and loads all other policies with the
default time of 600 seconds.

* **The hash** (`hashes_hset`, `readMap_hgetall`): it is a box with one record a policy, and a
  reply to `HGETALL` brings the records of the box.
* **One step** (`inv_step`): what the records of the cycles, of the hash and of the deleted hashes
  have to do with each other.
* **Any run** (`delivered_run`): when every `DEL` that is executed finds only records of its own
  cycle, and every other one finds none of these, each record is returned at most once, and is
  returned before it is deleted.
* **Any other step** (`exists_not_delivered`): it can lead to a state in which this is wrong.
-/

namespace AdxDsp.AutoCost

open CText Redis

/-! ## The program -/

/-- The hash of the completion times. -/
def completeKey : Bytes := bytes "auto_cost_policy_complete"

/-- The command that a tracker sends for a policy and its completion time, two numbers of the type
`int`. -/
def sendQueue (policyid completeTime : Int32) : Cmd :=
  .hset completeKey (decimal policyid.toInt) (decimal completeTime.toInt)

/-- The first command puts the policy into the queue with the seconds that have passed. -/
theorem first_adxAutoCostSendQueue (lib : CLib) (clk : ℕ → ℤ) (policyid : ℤ)
    (hsec : (lib.localtime (clk 24)).sec < 2 ^ 30) :
    (adxAutoCostSendQueue lib clk policyid).first = some (.adSettingSlave,
      sendQueue (.ofInt policyid) (.ofInt (600 - getTimeSec10minEnd lib (clk 24)))) := by
  have htime : (Int32.ofInt (600 - getTimeSec10minEnd lib (clk 24))).toInt =
      600 - getTimeSec10minEnd lib (clk 24) := by
    apply toInt32_of_bounds
    · rw [getTimeSec10minEnd]
      omega
    · rw [getTimeSec10minEnd]
      omega
  rw [sendQueue, htime]
  rfl

/-- The strings of an array as keys and values in turn. -/
def keyValues : List Bytes → List (Bytes × Bytes)
  | key :: value :: rest => (cstr key, cstr value) :: keyValues rest
  | _ => []

/-- The order of `std::string`. -/
def stringLt (a b : Bytes) : Bool := decide (a < b)

/-- `adx_redis_command` with a map as its result; `none` stands for an error code, which an array
without elements gives too. -/
def readMap : Reply → Option (List (Bytes × Bytes))
  | .array elements =>
    if elements = [] then none
    else some ((keyValues elements).foldl (fun m p => CmpMap.assign stringLt p.1 p.2 m) [])
  | _ => none

/-- A call of `auto_cost_policy_info_load`. -/
structure Load where
  policyid : ℤ
  completeTime : ℤ
  deriving DecidableEq

/-- The loop of `auto_cost_policys_load`. -/
def policysLoad (policyids : List (Bytes × Bytes)) : List Load :=
  policyids.map fun p => ⟨atoi p.1, atoi p.2⟩

/-- `auto_cost_policys_load_all` for the members of `dsp_policyids`. -/
def policysLoadAll (completePolicyids : List (Bytes × Bytes)) (members : List Bytes) : List Load :=
  ((members.map cstr).filter fun id => (completePolicyids.lookup id).isNone).map
    fun id => ⟨atoi id, 600⟩

/-! ## The system -/

/-- A record of a policy and its completion time. -/
abbrev Record := Msg Int32 Int32

/-- Where `auto_cost_policys_load` is: between two cycles, after its `HGETALL`, or after its `DEL`.
The records are those that the `HGETALL` of the cycle has returned. -/
inductive Phase where
  | idle
  | loaded (policyids : List (Bytes × Bytes)) (returned : List Record)
  | deleted (policyids : List (Bytes × Bytes)) (returned : List Record)
  deriving DecidableEq

/-- The records of the cycle that is under way. -/
def Phase.returned : Phase → List Record
  | .idle => []
  | .loaded _ returned => returned
  | .deleted _ returned => returned

/-- A cycle that has come to its end. -/
structure Cycle where
  returned : List Record
  loads : List Load
  deriving DecidableEq

/-- The setting redis and the program.  The box and the cycles are no part of the program: they say
which record of the trackers is meant. -/
structure State where
  store : Store
  phase : Phase
  box : Mailbox Int32 Int32
  cycles : List Cycle

/-- A redis without the hash, before the first cycle. -/
def State.init (store : Store) : State := ⟨store.remove completeKey, .idle, .empty, []⟩

/-- What can happen: a command of a tracker is executed, or the program sends its next command.
`HGETALL` is answered or fails; `DEL` is executed or not, and its reply does not matter;
`SMEMBERS` gives the members or fails. -/
inductive Event where
  | hset (policyid completeTime : Int32)
  | hgetall (answered : Bool)
  | del (executed : Bool)
  | smembers (members : Option (List Bytes))
  deriving DecidableEq

/-- One step of the system. -/
def step (s : State) : Event → Option State
  | .hset policyid completeTime => some { s with
      store := (s.store.exec (sendQueue policyid completeTime)).1
      box := s.box.put policyid completeTime }
  | .hgetall answered =>
    match s.phase with
    | .idle =>
      if answered then some { s with
        phase := .loaded ((readMap (s.store.exec (.hgetall completeKey)).2).getD []) s.box.stored
        box := s.box.readAll }
      else some { s with phase := .loaded [] [] }
    | _ => none
  | .del executed =>
    match s.phase with
    | .loaded policyids returned =>
      if executed then some { s with
        store := (s.store.exec (.del completeKey)).1
        phase := .deleted policyids returned
        box := s.box.clear }
      else some { s with phase := .deleted policyids returned }
    | _ => none
  | .smembers members =>
    match s.phase with
    | .deleted policyids returned =>
      let loads := policysLoad policyids ++ policysLoadAll policyids (members.getD [])
      some { s with phase := .idle, cycles := s.cycles ++ [⟨returned, loads⟩] }
    | _ => none

/-- Reading the queue: with an answer the cycle has the policies. -/
theorem hgetall_cases {s s' : State} {answered : Bool}
    (h : step s (.hgetall answered) = some s') : s.phase = .idle ∧
      s' = if answered then { s with
          phase := .loaded ((readMap (s.store.exec (.hgetall completeKey)).2).getD []) s.box.stored
          box := s.box.readAll }
        else { s with phase := .loaded [] [] } := by
  rw [step] at h
  cases hphase : s.phase <;> simp only [hphase, reduceCtorEq] at h
  refine ⟨rfl, ?_⟩
  cases answered <;> exact (Option.some.inj h).symm

/-- Deleting the queue, which may fail. -/
theorem del_cases {s s' : State} {executed : Bool} (h : step s (.del executed) = some s') :
    ∃ policyids returned, s.phase = .loaded policyids returned ∧
      s' = if executed then { s with
          store := (s.store.exec (.del completeKey)).1
          phase := .deleted policyids returned
          box := s.box.clear }
        else { s with phase := .deleted policyids returned } := by
  rw [step] at h
  cases hphase : s.phase <;> simp only [hphase, reduceCtorEq] at h
  refine ⟨_, _, rfl, ?_⟩
  cases executed <;> exact (Option.some.inj h).symm

/-- Reading the members ends the cycle. -/
theorem smembers_cases {s s' : State} {members : Option (List Bytes)}
    (h : step s (.smembers members) = some s') :
    ∃ policyids returned, s.phase = .deleted policyids returned ∧ s' = { s with
      phase := .idle
      cycles := s.cycles ++
        [⟨returned, policysLoad policyids ++ policysLoadAll policyids (members.getD [])⟩] } := by
  rw [step] at h
  cases hphase : s.phase <;> simp only [hphase, reduceCtorEq] at h
  exact ⟨_, _, rfl, (Option.some.inj h).symm⟩

/-! ## What is wanted -/

/-- Every record reaches a cycle, once and with its own time. -/
structure Delivered (s : State) : Prop where
  /-- Each record is still in the hash, was replaced by a newer one of its policy, or has been
  deleted. -/
  accounted : ∀ r ∈ s.box.written, r ∈ s.box.stored ∨ r ∈ s.box.replaced ∨ r ∈ s.box.cleared
  newer : ∀ r ∈ s.box.replaced, ∃ r' ∈ s.box.written, r'.key = r.key ∧ r.serial < r'.serial
  /-- What has been deleted was returned before. -/
  returned : ∀ r ∈ s.box.cleared, r ∈ s.box.read
  /-- Each record belongs to at most one cycle, and is in it once. -/
  once : (s.cycles.flatMap Cycle.returned ++ s.phase.returned).Nodup
  /-- What was returned was returned in one of the cycles. -/
  cycles : s.box.read = s.cycles.flatMap Cycle.returned ++ s.phase.returned
  /-- In its cycle, the policy of a record is loaded once, with the time of the record. -/
  loads : ∀ c ∈ s.cycles, ∀ r ∈ c.returned,
    (c.loads.filter fun l => l.policyid = r.key.toInt) = [⟨r.key.toInt, r.val.toInt⟩]

/-- The condition on a step.  A `DEL` that is executed finds only records that the `HGETALL` of its
cycle has returned, and one that is not executed finds none of these; a member of `dsp_policyids`
that has the number of a returned policy is its decimal numeral. -/
def Ok (s : State) : Event → Prop
  | .hset _ _ => True
  | .hgetall _ => True
  | .del true => ∀ r ∈ s.box.stored, r ∈ s.phase.returned
  | .del false => ∀ r ∈ s.box.stored, r ∉ s.phase.returned
  | .smembers members => ∀ text ∈ members.getD [], ∀ r ∈ s.phase.returned,
      atoi (cstr text) = r.key.toInt → cstr text = decimal r.key.toInt

/-! ## The hash and the box -/

/-- The field and the value of a record. -/
def field (r : Record) : Bytes × Bytes := (decimal r.key.toInt, decimal r.val.toInt)

/-- The field of a record has its key. -/
theorem field_key_inj {r r' : Record} : (field r).1 = (field r').1 ↔ r.key = r'.key := by
  show decimal r.key.toInt = decimal r'.key.toInt ↔ _
  rw [decimal_injective.eq_iff, Int32.toInt_inj]

/-- A 32-bit number reads back. -/
theorem atoi_decimal_toInt (n : Int32) : atoi (decimal n.toInt) = n.toInt :=
  atoi_decimal n.le_toInt n.toInt_lt

/-- A tracker's command puts a record into the box. -/
theorem setField_place (m : Record) (l : List Record) :
    setField (field m).1 (field m).2 (l.map field) = (Mailbox.place m l).map field := by
  induction l with
  | nil => rfl
  | cons r l ih =>
    show (if (field r).1 = (field m).1 then _ else _) = _
    rw [Mailbox.place]
    by_cases hkey : r.key = m.key
    · rw [if_pos (field_key_inj.mpr hkey), if_pos hkey]
      rfl
    · rw [if_neg (mt field_key_inj.mp hkey), if_neg hkey, List.map_cons, ← ih]
      rfl

/-- Putting a record into the queue. -/
theorem hashes_hset {store : Store} {l : List Record}
    (h : store.hashes completeKey = l.map field) (m : Record) :
    (store.exec (sendQueue m.key m.val)).1.hashes completeKey = (Mailbox.place m l).map field := by
  rw [← setField_place, ← h]
  exact Store.hashes_setHash_self _ _ _

/-- The hash is gone after the command that deletes it. -/
theorem hashes_del (store : Store) :
    (store.exec (.del completeKey)).1.hashes completeKey = [] := by
  show Function.update store.hashes completeKey [] completeKey = []
  exact Function.update_self ..

/-- A decimal text has no zero byte. -/
theorem cstr_decimal (n : ℤ) : cstr (decimal n) = decimal n :=
  cstr_eq_self (notMem_decimal (by decide) (by decide) n)

/-- The answer of `HGETALL` is read as the fields. -/
theorem keyValues_fields (l : List Record) :
    keyValues ((l.map field).flatMap fun p => [p.1, p.2]) = l.map field := by
  induction l with
  | nil => rfl
  | cons r l ih =>
    show (cstr (decimal r.key.toInt), cstr (decimal r.val.toInt)) ::
      keyValues ((l.map field).flatMap fun p => [p.1, p.2]) = _
    rw [cstr_decimal, cstr_decimal, ih]
    rfl

/-- The order of the strings is a linear one. -/
theorem stringLt_trichotomous (a b : Bytes) (hab : stringLt a b = false)
    (hba : stringLt b a = false) : a = b := by
  rw [stringLt, decide_eq_false_iff_not] at hab hba
  exact List.le_antisymm (List.not_lt.mp hba) (List.not_lt.mp hab)

/-- The reply to `HGETALL` brings the records of the box. -/
theorem readMap_hgetall {store : Store} {l : List Record}
    (h : store.hashes completeKey = l.map field) (hkeys : (l.map Msg.key).Nodup) :
    ((readMap (store.exec (.hgetall completeKey)).2).getD []).Perm (l.map field) := by
  have hreply : (store.exec (.hgetall completeKey)).2 =
      .array ((l.map field).flatMap fun p => [p.1, p.2]) := by
    rw [← h]
    rfl
  -- the reply has the fields and values in turn, and no field twice
  rw [hreply, readMap]
  split_ifs with hnil
  · -- an empty hash, which counts as an error
    cases l with
    | nil => exact .refl _
    | cons r l => cases hnil
  · rw [keyValues_fields]
    have hfields : ((l.map field).map Prod.fst).Nodup := by
      rw [List.map_map]
      exact (List.nodup_map_iff_inj_on hkeys.of_map).mpr fun r hr r' hr' heq =>
        List.inj_on_of_nodup_map hkeys hr hr' (field_key_inj.mp heq)
    have hperm := CmpMap.foldl_assign_perm stringLt_trichotomous hfields (m := [])
      fun p hp => absurd hp List.not_mem_nil
    rw [List.append_nil] at hperm
    exact hperm

/-! ## The loads of a cycle -/

/-- A record of the queue is loaded once. -/
theorem filter_load_of_mem {l : List Record} (hkeys : (l.map Msg.key).Nodup) {r : Record}
    (hr : r ∈ l) :
    (policysLoad (l.map field)).filter (fun x => x.policyid = r.key.toInt) =
      [⟨r.key.toInt, r.val.toInt⟩] := by
  have hload : ∀ x : Record, (⟨atoi (field x).1, atoi (field x).2⟩ : Load) =
      ⟨x.key.toInt, x.val.toInt⟩ := by
    intro x
    show (⟨atoi (decimal x.key.toInt), atoi (decimal x.val.toInt)⟩ : Load) = _
    rw [atoi_decimal_toInt, atoi_decimal_toInt]
  induction l with
  | nil => cases hr
  | cons x l ih =>
    obtain ⟨hx, hkeys⟩ := List.nodup_cons.mp hkeys
    rw [policysLoad, List.map_map, List.map_cons, Function.comp_apply, hload, List.filter_cons]
    rcases List.mem_cons.mp hr with rfl | hr
    · -- no other record has its key
      rw [if_pos (by simp)]
      refine congrArg _ (List.filter_eq_nil_iff.mpr fun y hy => ?_)
      obtain ⟨z, hz, rfl⟩ := List.mem_map.mp hy
      rw [Function.comp_apply, hload, decide_eq_true_eq, Int32.toInt_inj]
      exact fun heq => hx (List.mem_map.mpr ⟨z, hz, heq⟩)
    · have hne : x.key ≠ r.key := fun heq => hx (List.mem_map.mpr ⟨r, hr, heq.symm⟩)
      rw [if_neg (by simpa [Int32.toInt_inj] using hne)]
      have := ih hkeys hr
      rwa [policysLoad, List.map_map] at this

/-- The loads from the map that was read have the record's time for its policy. -/
theorem filter_policysLoad {policyids : List (Bytes × Bytes)} {returned : List Record}
    (hperm : policyids.Perm (returned.map field)) (hkeys : (returned.map Msg.key).Nodup)
    {r : Record} (hr : r ∈ returned) :
    (policysLoad policyids).filter (fun x => x.policyid = r.key.toInt) =
      [⟨r.key.toInt, r.val.toInt⟩] := by
  rw [← List.perm_singleton, ← filter_load_of_mem hkeys hr]
  exact (hperm.map _).filter _

/-- In the cycle that has returned a record, its policy is loaded with the time of the record only,
if no member of `dsp_policyids` hides its number in another numeral. -/
theorem filter_loads {policyids : List (Bytes × Bytes)} {returned : List Record}
    {members : List Bytes} (hperm : policyids.Perm (returned.map field))
    (hkeys : (returned.map Msg.key).Nodup)
    (hok : ∀ text ∈ members, ∀ r ∈ returned,
      atoi (cstr text) = r.key.toInt → cstr text = decimal r.key.toInt)
    {r : Record} (hr : r ∈ returned) :
    (policysLoad policyids ++ policysLoadAll policyids members).filter
      (fun x => x.policyid = r.key.toInt) = [⟨r.key.toInt, r.val.toInt⟩] := by
  rw [List.filter_append, filter_policysLoad hperm hkeys hr]
  have hdefault : (policysLoadAll policyids members).filter
      (fun x => x.policyid = r.key.toInt) = [] := by
    refine List.filter_eq_nil_iff.mpr fun x hx => ?_
    obtain ⟨id, hid, rfl⟩ := List.mem_map.mp hx
    obtain ⟨hid, hnone⟩ := List.mem_filter.mp hid
    obtain ⟨text, htext, rfl⟩ := List.mem_map.mp hid
    rw [decide_eq_true_eq]
    intro hnum
    -- the member is a key of the map that was read
    have hmem : (decimal r.key.toInt, decimal r.val.toInt) ∈ policyids :=
      hperm.mem_iff.mpr (List.mem_map.mpr ⟨r, hr, rfl⟩)
    rw [hok text htext r hr hnum, Option.isNone_iff_eq_none, List.lookup_eq_none_iff] at hnone
    have := hnone _ hmem
    simp at this
  rw [hdefault]
  rfl

/-! ## One step -/

/-- What the phase says: the map was read from the records of the cycle, and except between
`HGETALL` and `DEL` none of the records in the hash was returned by the cycle. -/
def Phase.Holds (stored : List Record) : Phase → Prop
  | .idle => True
  | .loaded policyids returned =>
    policyids.Perm (returned.map field) ∧ (returned.map Msg.key).Nodup
  | .deleted policyids returned =>
    policyids.Perm (returned.map field) ∧ (returned.map Msg.key).Nodup ∧
      ∀ r ∈ stored, r ∉ returned

/-- What is true of every state of a run whose steps meet the condition. -/
structure Inv (s : State) : Prop where
  hash : s.store.hashes completeKey = s.box.stored.map field
  wf : s.box.WF
  cycles : s.box.read = s.cycles.flatMap Cycle.returned ++ s.phase.returned
  once : s.box.read.Nodup
  /-- What is in the hash has not been returned by an earlier cycle. -/
  fresh : ∀ r ∈ s.box.stored, r ∉ s.cycles.flatMap Cycle.returned
  phase : s.phase.Holds s.box.stored
  returned : ∀ r ∈ s.box.cleared, r ∈ s.box.read
  loads : ∀ c ∈ s.cycles, ∀ r ∈ c.returned,
    (c.loads.filter fun l => l.policyid = r.key.toInt) = [⟨r.key.toInt, r.val.toInt⟩]

/-- At the start the queue is empty. -/
theorem inv_init (store : Store) : Inv (.init store) where
  hash := hashes_del store
  wf := Mailbox.wf_empty
  cycles := rfl
  once := List.nodup_nil
  fresh r hr := by cases hr
  phase := trivial
  returned r hr := by cases hr
  loads c hc := by cases hc

/-- The invariant says that what has been read is delivered. -/
theorem Inv.delivered {s : State} (h : Inv s) : Delivered s where
  accounted := h.wf.accounted
  newer := h.wf.newer
  returned := h.returned
  once := h.cycles ▸ h.once
  cycles := h.cycles
  loads := h.loads

section

variable {s : State} (h : Inv s)

include h

/-- What a cycle has returned was read. -/
theorem Inv.cycles_read {r : Record} (hr : r ∈ s.cycles.flatMap Cycle.returned) :
    r ∈ s.box.read := by
  rw [h.cycles]
  exact List.mem_append_left _ hr

/-- What the present cycle returns was read. -/
theorem Inv.returned_read {r : Record} (hr : r ∈ s.phase.returned) : r ∈ s.box.read := by
  rw [h.cycles]
  exact List.mem_append_right _ hr

/-- A tracker writes a record, in any phase. -/
theorem inv_hset (policyid completeTime : Int32) :
    Inv { s with
      store := (s.store.exec (sendQueue policyid completeTime)).1
      box := s.box.put policyid completeTime } where
  hash := hashes_hset h.hash (s.box.next policyid completeTime)
  wf := h.wf.put policyid completeTime
  cycles := h.cycles
  once := h.once
  fresh := h.wf.put_fresh (fun r hr => h.wf.read r (h.cycles_read hr)) h.fresh _ _
  phase := by
    have hphase := h.phase
    have hread : ∀ r ∈ s.phase.returned, r ∈ s.box.written := fun r hr =>
      h.wf.read r (h.returned_read hr)
    cases hp : s.phase with
    | idle => trivial
    | loaded policyids returned =>
      -- what was read stays read; the record can still be deleted with the others
      rw [hp] at hphase
      exact hphase
    | deleted policyids returned =>
      rw [hp] at hphase hread
      obtain ⟨hperm, hkeys, hfresh⟩ := hphase
      exact ⟨hperm, hkeys, h.wf.put_fresh hread hfresh _ _⟩
  returned := h.returned
  loads := h.loads

/-- The next cycle reads the hash. -/
theorem inv_hgetall (hidle : s.phase = .idle) :
    Inv { s with
      phase := .loaded ((readMap (s.store.exec (.hgetall completeKey)).2).getD []) s.box.stored
      box := s.box.readAll } where
  hash := h.hash
  wf := h.wf.readAll
  cycles := by
    have hcycles := h.cycles
    rw [hidle] at hcycles
    show s.box.read ++ s.box.stored = _
    rw [hcycles, Phase.returned, List.append_nil]
    rfl
  once := by
    refine Mailbox.nodup_readAll h.wf h.once ?_
    rw [h.cycles, hidle, Phase.returned, List.append_nil]
    exact h.fresh
  fresh := h.fresh
  phase := ⟨readMap_hgetall h.hash h.wf.keys, h.wf.keys⟩
  returned r hr := List.mem_append_left _ (h.returned r hr)
  loads := h.loads

/-- The hash cannot be read. -/
theorem inv_hgetall_failed (hidle : s.phase = .idle) :
    Inv { s with phase := .loaded [] [] } where
  hash := h.hash
  wf := h.wf
  cycles := by
    have hcycles := h.cycles
    rw [hidle] at hcycles
    exact hcycles
  once := h.once
  fresh := h.fresh
  phase := ⟨.refl _, List.nodup_nil⟩
  returned := h.returned
  loads := h.loads

variable {policyids : List (Bytes × Bytes)} {returned : List Record}

/-- The hash is deleted, and with it only records that the cycle has returned. -/
theorem inv_del (hphase : s.phase = .loaded policyids returned)
    (hok : ∀ r ∈ s.box.stored, r ∈ s.phase.returned) :
    Inv { s with
      store := (s.store.exec (.del completeKey)).1
      phase := .deleted policyids returned
      box := s.box.clear } where
  hash := hashes_del s.store
  wf := h.wf.clear
  cycles := by
    have hcycles := h.cycles
    rw [hphase] at hcycles
    exact hcycles
  once := h.once
  fresh r hr := by cases hr
  phase := by
    have hholds := h.phase
    rw [hphase] at hholds
    exact ⟨hholds.1, hholds.2, fun r hr => by cases hr⟩
  returned r hr := by
    -- the condition is needed for the records that are deleted now
    rcases List.mem_append.mp hr with hr | hr
    · exact h.returned r hr
    · exact h.returned_read (hok r hr)
  loads := h.loads

/-- The hash is not deleted, and holds none of the records that the cycle has returned. -/
theorem inv_del_failed (hphase : s.phase = .loaded policyids returned)
    (hok : ∀ r ∈ s.box.stored, r ∉ s.phase.returned) :
    Inv { s with phase := .deleted policyids returned } where
  hash := h.hash
  wf := h.wf
  cycles := by
    have hcycles := h.cycles
    rw [hphase] at hcycles
    exact hcycles
  once := h.once
  fresh := h.fresh
  phase := by
    have hholds := h.phase
    rw [hphase] at hholds hok
    exact ⟨hholds.1, hholds.2, hok⟩
  returned := h.returned
  loads := h.loads

/-- The cycle ends with the policies that are loaded with the default time. -/
theorem inv_smembers (hphase : s.phase = .deleted policyids returned) {members : List Bytes}
    (hok : ∀ text ∈ members, ∀ r ∈ s.phase.returned,
      atoi (cstr text) = r.key.toInt → cstr text = decimal r.key.toInt) :
    Inv { s with
      phase := .idle
      cycles := s.cycles ++
        [⟨returned, policysLoad policyids ++ policysLoadAll policyids members⟩] } := by
  have hholds := h.phase
  have hcycles := h.cycles
  rw [hphase] at hholds hcycles hok
  obtain ⟨hperm, hkeys, hfresh⟩ := hholds
  -- the new cycle has returned what the last one has left in the box
  have hflat (loads : List Load) :
      (s.cycles ++ [(⟨returned, loads⟩ : Cycle)]).flatMap Cycle.returned =
        s.cycles.flatMap Cycle.returned ++ returned := by
    rw [List.flatMap_append, List.flatMap_singleton]
  refine ⟨h.hash, h.wf, ?_, h.once, ?_, trivial, h.returned, ?_⟩
  · show s.box.read = _ ++ []
    rw [hflat, List.append_nil]
    exact hcycles
  · show ∀ r ∈ s.box.stored, r ∉ _
    rw [hflat]
    intro r hr hmem
    rcases List.mem_append.mp hmem with hmem | hmem
    · exact h.fresh r hr hmem
    · exact hfresh r hr hmem
  -- the loads of the new cycle are those of the members
  · intro c hc r hr
    rcases List.mem_append.mp hc with hc | hc
    · exact h.loads c hc r hr
    · rw [List.mem_singleton.mp hc] at hr ⊢
      exact filter_loads hperm hkeys hok hr

end

/-- Each step keeps the invariant. -/
theorem inv_step {s s' : State} {e : Event} (h : Inv s) (hok : Ok s e)
    (hstep : step s e = some s') : Inv s' := by
  cases e with
  | hset policyid completeTime =>
    cases hstep
    exact inv_hset h policyid completeTime
  | hgetall answered =>
    obtain ⟨hphase, rfl⟩ := hgetall_cases hstep
    cases answered with
    | true => exact inv_hgetall h hphase
    | false => exact inv_hgetall_failed h hphase
  | del executed =>
    obtain ⟨policyids, returned, hphase, rfl⟩ := del_cases hstep
    cases executed with
    | true => exact inv_del h hphase hok
    | false => exact inv_del_failed h hphase hok
  | smembers members =>
    obtain ⟨policyids, returned, hphase, rfl⟩ := smembers_cases hstep
    exact inv_smembers h hphase hok

/-! ## Any run -/

/-- **Every record reaches a cycle**, once and with its own time, in every run in which the `DEL` of
each cycle deletes what its `HGETALL` has returned and nothing else, and the members of
`dsp_policyids` are plain numerals. -/
theorem delivered_run (store : Store) {events : List Event} {s : State}
    (hok : Steps.Along step Ok (.init store) events)
    (hrun : Steps.run step (.init store) events = some s) : Delivered s :=
  (Steps.run_keeps (fun h hok hstep => inv_step h hok hstep) (inv_init store) hok hrun).delivered

/-- After any other step the run can be continued to a state in which something is wrong. -/
theorem exists_not_delivered {s s' : State} {e : Event} (h : Inv s) (hok : ¬Ok s e)
    (hstep : step s e = some s') :
    ∃ events s'', Steps.run step s' events = some s'' ∧ ¬Delivered s'' := by
  cases e with
  | hset policyid completeTime => exact absurd trivial hok
  | hgetall answered => exact absurd trivial hok
  | del executed =>
    obtain ⟨policyids, returned, hphase, rfl⟩ := del_cases hstep
    cases executed with
    | true =>
      -- a record is deleted that no cycle has returned
      obtain ⟨r, hr, hnot⟩ : ∃ r ∈ s.box.stored, r ∉ s.phase.returned := by
        simpa [Ok] using hok
      refine ⟨[], _, rfl, fun hd => ?_⟩
      have hread : r ∈ s.box.read := hd.returned r (List.mem_append_right _ hr)
      rw [h.cycles] at hread
      exact (List.mem_append.mp hread).elim (h.fresh r hr) hnot
    | false =>
      -- the next cycle returns a record again
      obtain ⟨r, hr, hreturned⟩ : ∃ r ∈ s.box.stored, r ∈ s.phase.returned := by
        simpa [Ok] using hok
      refine ⟨[.smembers none, .hgetall true], _, rfl, fun hd => ?_⟩
      rw [hphase] at hreturned
      have hcycle : r ∈ (s.cycles ++ [(⟨returned, policysLoad policyids ++
          policysLoadAll policyids []⟩ : Cycle)]).flatMap Cycle.returned := by
        rw [List.flatMap_append, List.flatMap_singleton]
        exact List.mem_append_right _ hreturned
      exact (List.nodup_append'.mp hd.once).2.2 hcycle hr
  | smembers members =>
    obtain ⟨policyids, returned, hphase, rfl⟩ := smembers_cases hstep
    have hholds := h.phase
    rw [hphase] at hholds
    obtain ⟨text, htext, r, hr, hnum, hne⟩ : ∃ text ∈ members.getD [], ∃ r ∈ s.phase.returned,
        atoi (cstr text) = r.key.toInt ∧ cstr text ≠ decimal r.key.toInt := by
      simpa [Ok] using hok
    rw [hphase] at hr
    refine ⟨[], _, rfl, fun hd => ?_⟩
    have hloads := hd.loads _ (List.mem_append_right _ (List.mem_singleton_self _)) r hr
    -- the member is no key of the map, so that it is loaded with the default time
    have hdefault : (⟨r.key.toInt, 600⟩ : Load) ∈ policysLoadAll policyids (members.getD []) := by
      rw [← hnum]
      refine List.mem_map.mpr ⟨cstr text, List.mem_filter.mpr ⟨?_, ?_⟩, rfl⟩
      · exact List.mem_map_of_mem htext
      rw [Option.isNone_iff_eq_none, List.lookup_eq_none_iff]
      intro p hp
      obtain ⟨r', hr', rfl⟩ := List.mem_map.mp (hholds.1.mem_iff.mp hp)
      rw [bne_iff_ne]
      intro heq
      have hkey : r'.key.toInt = r.key.toInt := by
        rw [← hnum, heq]
        exact (atoi_decimal_toInt r'.key).symm
      exact hne (by rw [heq, ← hkey]; rfl)
    rw [List.filter_append, filter_policysLoad hholds.1 hholds.2.1 hr] at hloads
    have hnil := List.append_right_eq_self.mp hloads
    rw [List.filter_eq_nil_iff] at hnil
    exact hnil _ hdefault (decide_eq_true rfl)

/-- A record that is written before the cycle, which returns and deletes it. -/
def recordFirst : List Event :=
  [.hset 7 100, .hgetall true, .del true, .smembers (some [bytes "7"])]

/-- The steps of the sample meet the condition. -/
theorem along_recordFirst : Steps.Along step Ok (.init .empty) recordFirst := by
  refine ⟨trivial, fun s hs => ?_⟩
  cases hs
  refine ⟨trivial, fun s hs => ?_⟩
  cases hs
  refine ⟨fun r hr => hr, fun s hs => ?_⟩
  cases hs
  refine ⟨fun text htext r hr _ => ?_, fun _ _ => trivial⟩
  cases List.mem_singleton.mp htext
  cases List.mem_singleton.mp hr
  rfl

/-- In the sample every record is delivered. -/
theorem delivered_run_recordFirst :
    ∃ s, Steps.run step (.init .empty) recordFirst = some s ∧ Delivered s :=
  ⟨_, rfl, delivered_run .empty along_recordFirst rfl⟩

/-- A record that is written between the two commands: it is deleted unread, and its policy gets
the default time. -/
theorem record_deleted_unread :
    ∃ s, Steps.run step (.init .empty)
        [.hgetall true, .hset 7 100, .del true, .smembers (some [bytes "7"])] = some s ∧
      s.box.cleared = [⟨0, 7, 100⟩] ∧ s.cycles = [⟨[], [⟨7, 600⟩]⟩] ∧ ¬Delivered s := by
  refine ⟨_, rfl, rfl, by decide +kernel, fun h => ?_⟩
  exact absurd (h.returned ⟨0, 7, 100⟩ List.mem_cons_self) List.not_mem_nil

end AdxDsp.AutoCost
