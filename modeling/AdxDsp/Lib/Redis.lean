import AdxDsp.Lib.Bytes
import AdxDsp.Lib.Prog

/-!
# Redis stores and their commands

A store holds strings, hashes, sets and the lifetimes of keys.  `Store.exec` is the meaning of one
command; `World` puts several stores behind connections that may fail at any command.  A key holds
one kind of value only, so that the kinds are kept apart.

* **Frame**: a command leaves every string and every hash field alone that it does not write
  (`Store.string_exec`, `Store.field_exec`).
* **Number cells**: `HINCRBY` adds to the number a field holds (`Store.number_hincrby`), and counts
  how often it was sent (`Store.Tallies.hincrby`).
-/

namespace Redis

open CText

/-- The commands that the programs send. -/
inductive Cmd where
  | get (key : Bytes)
  | set (key val : Bytes)
  | setex (key : Bytes) (seconds : ℤ) (val : Bytes)
  | del (key : Bytes)
  | hget (key field : Bytes)
  | hset (key field val : Bytes)
  | hdel (key field : Bytes)
  | hincrby (key field : Bytes) (increment : ℤ)
  | hgetall (key : Bytes)
  | expire (key : Bytes) (seconds : ℤ)
  | sadd (key member : Bytes)
  | srem (key member : Bytes)
  | smembers (key : Bytes)
  deriving DecidableEq

/-- The replies of a server.  `null` is the missing reply of a broken connection and `down` stands
for a connection that cannot be opened again. -/
inductive Reply where
  | nil
  | ok
  | string (text : Bytes)
  | integer (n : ℤ)
  | array (elements : List Bytes)
  | error
  | null
  | down
  deriving DecidableEq

/-- The reply of a command that failed. -/
def Reply.Failed (r : Reply) : Prop := r = .error ∨ r = .null ∨ r = .down

instance (r : Reply) : Decidable r.Failed := inferInstanceAs (Decidable (_ ∨ _))

/-! ## Hashes as association lists -/

/-- Write a field of a hash. -/
def setField (f v : Bytes) : List (Bytes × Bytes) → List (Bytes × Bytes)
  | [] => [(f, v)]
  | (g, u) :: rest => if g = f then (f, v) :: rest else (g, u) :: setField f v rest

/-- A field that was set has its value. -/
@[simp] theorem lookup_setField_self (f v : Bytes) (l : List (Bytes × Bytes)) :
    (setField f v l).lookup f = some v := by
  induction l with
  | nil => simp [setField]
  | cons p rest ih =>
    obtain ⟨g, u⟩ := p
    rw [setField]
    split_ifs with h
    · simp
    · rw [List.lookup_cons, beq_eq_false_iff_ne.mpr (Ne.symm h)]
      exact ih

/-- Setting a field leaves the others alone. -/
theorem lookup_setField_of_ne {f g : Bytes} (h : g ≠ f) (v : Bytes) (l : List (Bytes × Bytes)) :
    (setField f v l).lookup g = l.lookup g := by
  induction l with
  | nil => simp [setField, List.lookup_cons, beq_eq_false_iff_ne.mpr h]
  | cons p rest ih =>
    obtain ⟨k, u⟩ := p
    rw [setField]
    split_ifs with hk
    · subst hk
      simp only [List.lookup_cons, beq_eq_false_iff_ne.mpr h]
    · simp only [List.lookup_cons, ih]

/-- Remove a field of a hash. -/
def removeField (f : Bytes) (l : List (Bytes × Bytes)) : List (Bytes × Bytes) :=
  l.filter fun p => p.1 ≠ f

/-- Removing a field leaves the others alone. -/
theorem lookup_removeField_of_ne {f g : Bytes} (h : g ≠ f) (l : List (Bytes × Bytes)) :
    (removeField f l).lookup g = l.lookup g := by
  induction l with
  | nil => rfl
  | cons p rest ih =>
    obtain ⟨k, u⟩ := p
    by_cases hk : k = f
    · subst hk
      simpa [removeField, List.lookup_cons, beq_eq_false_iff_ne.mpr h] using ih
    · have hcons : removeField f ((k, u) :: rest) = (k, u) :: removeField f rest := by
        simp [removeField, hk]
      rw [hcons, List.lookup_cons, List.lookup_cons, ih]

/-! ## One store -/

/-- The contents of one redis server. -/
structure Store where
  strings : Bytes → Option Bytes
  hashes : Bytes → List (Bytes × Bytes)
  sets : Bytes → List Bytes
  /-- The lifetime last given to a key, in seconds. -/
  lifetime : Bytes → Option ℤ

namespace Store

/-- A server without any key. -/
def empty : Store := ⟨fun _ => none, fun _ => [], fun _ => [], fun _ => none⟩

/-- `EXISTS`. -/
def hasKey (s : Store) (key : Bytes) : Bool :=
  (s.strings key).isSome || !(s.hashes key).isEmpty || !(s.sets key).isEmpty

/-- Remove a key with its value and its lifetime. -/
def remove (s : Store) (key : Bytes) : Store :=
  ⟨Function.update s.strings key none, Function.update s.hashes key [],
    Function.update s.sets key [], Function.update s.lifetime key none⟩

/-- Give a key a string value, with or without a lifetime. -/
def setString (s : Store) (key val : Bytes) (seconds : Option ℤ) : Store :=
  { s with
    strings := Function.update s.strings key (some val)
    lifetime := Function.update s.lifetime key seconds }

/-- Replace the fields of a hash. -/
def setHash (s : Store) (key : Bytes) (fields : List (Bytes × Bytes)) : Store :=
  { s with hashes := Function.update s.hashes key fields }

/-- Replace the members of a set. -/
def setMembers (s : Store) (key : Bytes) (members : List Bytes) : Store :=
  { s with sets := Function.update s.sets key members }

/-- The value of a hash field. -/
def field (s : Store) (key f : Bytes) : Option Bytes := (s.hashes key).lookup f

/-- The integer a hash field holds for `HINCRBY`: an absent field counts as zero, and a text that
is not the numeral of an integer is refused. -/
def counter? (s : Store) (key f : Bytes) : Option ℤ :=
  match s.field key f with
  | none => some 0
  | some t => if decimal (numeralValue t) = t then some (numeralValue t) else none

/-- The number in a hash field.  No counter comes near the end of the range of `long long`, beyond
which `HINCRBY` would be refused. -/
def number (s : Store) (key f : Bytes) : ℤ := ((s.field key f).map numeralValue).getD 0

/-- The meaning of one command. -/
def exec (s : Store) : Cmd → Store × Reply
  | .get key =>
    match s.strings key with
    | some t => (s, .string t)
    | none => (s, .nil)
  | .set key val => (s.setString key val none, .ok)
  | .setex key seconds val =>
    if 0 < seconds then (s.setString key val (some seconds), .ok) else (s, .error)
  | .del key => (s.remove key, .integer (if s.hasKey key then 1 else 0))
  | .hget key f =>
    match s.field key f with
    | some t => (s, .string t)
    | none => (s, .nil)
  | .hset key f val =>
    (s.setHash key (setField f val (s.hashes key)),
      .integer (if s.field key f = none then 1 else 0))
  | .hdel key f =>
    (s.setHash key (removeField f (s.hashes key)), .integer (if s.field key f = none then 0 else 1))
  | .hincrby key f increment =>
    if increment < 2 ^ 63 then
      match s.counter? key f with
      | some n =>
        (s.setHash key (setField f (decimal (n + increment)) (s.hashes key)),
          .integer (n + increment))
      | none => (s, .error)
    else (s, .error)
  | .hgetall key => (s, .array ((s.hashes key).flatMap fun p => [p.1, p.2]))
  | .expire key seconds =>
    if s.hasKey key then
      if 0 < seconds then
        ({ s with lifetime := Function.update s.lifetime key (some seconds) }, .integer 1)
      else (s.remove key, .integer 1)
    else (s, .integer 0)
  | .sadd key member =>
    if member ∈ s.sets key then (s, .integer 0)
    else (s.setMembers key (s.sets key ++ [member]), .integer 1)
  | .srem key member =>
    (s.setMembers key ((s.sets key).filter (· ≠ member)),
      .integer (if member ∈ s.sets key then 1 else 0))
  | .smembers key => (s, .array (s.sets key))

end Store

/-! ## What a command may write -/

/-- The command may change the string value of `key`. -/
def Cmd.writesString (key : Bytes) : Cmd → Prop
  | .set k _ => k = key
  | .setex k _ _ => k = key
  | .del k => k = key
  | .expire k seconds => k = key ∧ seconds ≤ 0
  | _ => False

/-- The command may change the value of field `f` of the hash `key`. -/
def Cmd.writesField (key f : Bytes) : Cmd → Prop
  | .del k => k = key
  | .hset k g _ => k = key ∧ g = f
  | .hdel k g => k = key ∧ g = f
  | .hincrby k g _ => k = key ∧ g = f
  | .expire k seconds => k = key ∧ seconds ≤ 0
  | _ => False

namespace Store

variable (s : Store)

@[simp] theorem strings_setHash (key : Bytes) (fs : List (Bytes × Bytes)) :
    (s.setHash key fs).strings = s.strings := rfl

@[simp] theorem strings_setMembers (key : Bytes) (ms : List Bytes) :
    (s.setMembers key ms).strings = s.strings := rfl

@[simp] theorem hashes_setMembers (key : Bytes) (ms : List Bytes) :
    (s.setMembers key ms).hashes = s.hashes := rfl

@[simp] theorem hashes_setString (key val : Bytes) (seconds : Option ℤ) :
    (s.setString key val seconds).hashes = s.hashes := rfl

/-- A key that was set has its value. -/
@[simp] theorem strings_setString_self (key val : Bytes) (seconds : Option ℤ) :
    (s.setString key val seconds).strings key = some val := by
  simp [setString]

/-- Setting a key leaves the others alone. -/
theorem strings_setString_of_ne {key k : Bytes} (h : k ≠ key) (val : Bytes)
    (seconds : Option ℤ) : (s.setString key val seconds).strings k = s.strings k := by
  simp [setString, h]

/-- Removing a key leaves the strings of the others alone. -/
theorem strings_remove_of_ne {key k : Bytes} (h : k ≠ key) :
    (s.remove key).strings k = s.strings k := by
  simp [remove, h]

/-- Removing a key leaves the hashes of the others alone. -/
theorem hashes_remove_of_ne {key k : Bytes} (h : k ≠ key) :
    (s.remove key).hashes k = s.hashes k := by
  simp [remove, h]

/-- A hash that was set has its fields. -/
@[simp] theorem hashes_setHash_self (key : Bytes) (fs : List (Bytes × Bytes)) :
    (s.setHash key fs).hashes key = fs := by
  simp [setHash]

/-- Setting a hash leaves the others alone. -/
theorem hashes_setHash_of_ne {key k : Bytes} (h : k ≠ key) (fs : List (Bytes × Bytes)) :
    (s.setHash key fs).hashes k = s.hashes k := by
  simp [setHash, h]

/-- Writing one field leaves the other fields alone, in this hash and in others. -/
theorem field_setHash_setField_of_ne {key k f g : Bytes} (h : ¬(k = key ∧ f = g)) (v : Bytes) :
    (s.setHash k (setField f v (s.hashes k))).field key g = s.field key g := by
  by_cases hk : k = key
  · subst hk
    have hne : g ≠ f := fun e => h ⟨rfl, e.symm⟩
    rw [field, hashes_setHash_self, lookup_setField_of_ne hne, field]
  · rw [field, hashes_setHash_of_ne s (Ne.symm hk), field]

/-- A command leaves every string alone that it does not write. -/
theorem string_exec {key : Bytes} {c : Cmd} (h : ¬c.writesString key) :
    (s.exec c).1.strings key = s.strings key := by
  cases c with
  | get k => rw [exec]; split <;> rfl
  | set k v => exact strings_setString_of_ne s (Ne.symm h) v none
  | setex k n v =>
    rw [exec]
    split_ifs
    · exact strings_setString_of_ne s (Ne.symm h) v _
    · rfl
  | del k => exact strings_remove_of_ne s (Ne.symm h)
  | hget k f => rw [exec]; split <;> rfl
  | hset k f v => rfl
  | hdel k f => rfl
  | hincrby k f n =>
    rw [exec]
    split_ifs
    · split <;> rfl
    · rfl
  | hgetall k => rfl
  | expire k n =>
    rw [exec]
    split_ifs with hk hn
    · rfl
    · exact strings_remove_of_ne s fun e => h ⟨e.symm, not_lt.mp hn⟩
    · rfl
  | sadd k m => rw [exec]; split_ifs <;> rfl
  | srem k m => rfl
  | smembers k => rfl

/-- A command leaves every hash field alone that it does not write. -/
theorem field_exec {key f : Bytes} {c : Cmd} (h : ¬c.writesField key f) :
    (s.exec c).1.field key f = s.field key f := by
  cases c with
  | get k => rw [exec]; split <;> rfl
  | set k v => rfl
  | setex k n v => rw [exec]; split_ifs <;> rfl
  | del k => rw [exec, field, hashes_remove_of_ne s (Ne.symm h), field]
  | hget k g => rw [exec]; split <;> rfl
  | hset k g v => exact field_setHash_setField_of_ne s h v
  | hdel k g =>
    rw [exec]
    by_cases hk : k = key
    · subst hk
      have hne : f ≠ g := fun e => h ⟨rfl, e.symm⟩
      rw [field, hashes_setHash_self, lookup_removeField_of_ne hne, field]
    · rw [field, hashes_setHash_of_ne s (Ne.symm hk), field]
  | hincrby k g n =>
    rw [exec]
    split_ifs
    · split
      · exact field_setHash_setField_of_ne s h _
      · rfl
    · rfl
  | hgetall k => rfl
  | expire k n =>
    rw [exec]
    split_ifs with hk hn
    · rfl
    · rw [field, hashes_remove_of_ne s fun e => h ⟨e.symm, not_lt.mp hn⟩, field]
    · rfl
  | sadd k m => rw [exec]; split_ifs <;> rfl
  | srem k m => rfl
  | smembers k => rfl

/-- A command leaves every number alone that it does not write. -/
theorem number_exec {key f : Bytes} {c : Cmd} (h : ¬c.writesField key f) :
    (s.exec c).1.number key f = s.number key f := by
  rw [number, field_exec s h, number]

variable {s}

/-- What `HINCRBY` counts on is what a reader finds. -/
theorem number_of_counter? {key f : Bytes} {n : ℤ} (h : s.counter? key f = some n) :
    s.number key f = n := by
  rw [counter?] at h
  rw [number]
  split at h
  · rename_i hf
    rw [hf]
    exact Option.some.inj h
  · rename_i t hf
    split_ifs at h
    rw [hf]
    exact Option.some.inj h

/-- `HINCRBY` on a number adds to it, and its reply is the sum. -/
theorem exec_hincrby {key f : Bytes} {n k : ℤ} (hn : s.counter? key f = some n) (hk : k < 2 ^ 63) :
    s.exec (.hincrby key f k) =
      (s.setHash key (setField f (decimal (n + k)) (s.hashes key)), .integer (n + k)) := by
  rw [exec, if_pos hk, hn]

/-- A counter reads back the number that was set. -/
theorem counter?_setField (key f : Bytes) (n : ℤ) :
    (s.setHash key (setField f (decimal n) (s.hashes key))).counter? key f = some n := by
  simp [counter?, field]

/-- A number reads back as it was set. -/
theorem number_setField (key f : Bytes) (n : ℤ) :
    (s.setHash key (setField f (decimal n) (s.hashes key))).number key f = n := by
  simp [number, field]

/-- `HINCRBY` on a field leaves its number or adds to it, whatever the field holds. -/
theorem number_hincrby (s : Store) (key f : Bytes) (k : ℤ) :
    (s.exec (.hincrby key f k)).1.number key f = s.number key f ∨
      (s.exec (.hincrby key f k)).1.number key f = s.number key f + k := by
  by_cases hk : k < 2 ^ 63
  · cases hn : s.counter? key f with
    | some n =>
      rw [exec_hincrby hn hk, number_setField, number_of_counter? hn]
      exact .inr rfl
    | none =>
      rw [exec, if_pos hk, hn]
      exact .inl rfl
  · rw [exec, if_neg hk]
    exact .inl rfl

/-! ### Cells that `HINCRBY` counts -/

/-- A command leaves what `HINCRBY` counts on alone in the fields it does not write. -/
theorem counter?_exec (s : Store) {key f : Bytes} {c : Cmd} (h : ¬c.writesField key f) :
    (s.exec c).1.counter? key f = s.counter? key f := by
  rw [counter?, field_exec s h, counter?]

/-- Each cell of `U` holds the number of its occurrences in `counted`. -/
def Tallies (U : Set (Bytes × Bytes)) (counted : List (Bytes × Bytes)) (s : Store) : Prop :=
  ∀ c ∈ U, s.counter? c.1 c.2 = some (counted.count c : ℤ)

/-- Cells that are absent have counted nothing. -/
theorem Tallies.of_absent {U : Set (Bytes × Bytes)} {s : Store}
    (h : ∀ c ∈ U, s.field c.1 c.2 = none) : s.Tallies U [] := by
  intro c hc
  rw [counter?, h c hc]
  rfl

/-- A command that writes none of the cells changes no count. -/
theorem Tallies.exec {U : Set (Bytes × Bytes)} {counted : List (Bytes × Bytes)} {s : Store}
    (h : s.Tallies U counted) {c : Cmd} (hc : ∀ p ∈ U, ¬c.writesField p.1 p.2) :
    (s.exec c).1.Tallies U counted := by
  intro p hp
  rw [counter?_exec s (hc p hp)]
  exact h p hp

/-- `HINCRBY` by one on a cell counts it, and its reply is the new count. -/
theorem Tallies.hincrby {U : Set (Bytes × Bytes)} {counted : List (Bytes × Bytes)} {s : Store}
    (h : s.Tallies U counted) {key f : Bytes} (hU : (key, f) ∈ U) :
    (s.exec (.hincrby key f 1)).1.Tallies U (counted ++ [(key, f)]) ∧
      (s.exec (.hincrby key f 1)).2 = .integer (counted.count (key, f) + 1) := by
  have hexec := exec_hincrby (h (key, f) hU) (k := 1) (by norm_num)
  refine ⟨fun c hc => ?_, by rw [hexec]⟩
  by_cases hkf : (key, f) = c
  · subst hkf
    rw [hexec, counter?_setField, List.count_append]
    simp
  · have hne : ¬(Cmd.hincrby key f 1).writesField c.1 c.2 := fun hw => hkf (Prod.ext hw.1 hw.2)
    rw [counter?_exec s hne, h c hc, List.count_append]
    simp [hkf]

/-- Remove several keys. -/
def removeKeys (s : Store) (keys : List Bytes) : Store := keys.foldl remove s

/-- Removing keys leaves a string or removes it. -/
theorem strings_removeKeys (s : Store) (keys : List Bytes) (key : Bytes) :
    (s.removeKeys keys).strings key = s.strings key ∨ (s.removeKeys keys).strings key = none := by
  induction keys generalizing s with
  | nil => exact .inl rfl
  | cons k ks ih =>
    rw [removeKeys, List.foldl_cons]
    rcases ih (s.remove k) with h | h
    · by_cases hk : key = k
      · subst hk
        right
        rw [removeKeys] at h
        rw [h]
        simp [remove]
      · left
        rw [removeKeys] at h
        rw [h, strings_remove_of_ne s hk]
    · exact .inr h

end Store

/-! ## Several stores behind connections that may fail -/

/-- What happens to a command on its way: it is executed, it is refused by the server, it is
executed but its reply is lost, it is lost itself, or there is no connection at all. -/
inductive Outcome where
  | ok
  | refused
  | replyLost
  | lost
  | down
  deriving DecidableEq

/-- Stores `V`, with the outcomes of all commands to come. -/
structure World (V : Type) where
  store : V → Store
  /-- The outcome of the `n`-th command sent. -/
  outcome : ℕ → Outcome
  /-- How many commands have been sent. -/
  sent : ℕ

namespace World

variable {V : Type} [DecidableEq V]

/-- A world whose connections never fail. -/
def reliable (store : V → Store) : World V := ⟨store, fun _ => .ok, 0⟩

/-- A command to the server `c.1`, with the outcome that is due. -/
def exec (w : World V) (c : V × Cmd) : World V × Reply :=
  match w.outcome w.sent with
  | .ok =>
    (⟨Function.update w.store c.1 ((w.store c.1).exec c.2).1, w.outcome, w.sent + 1⟩,
      ((w.store c.1).exec c.2).2)
  | .refused => (⟨w.store, w.outcome, w.sent + 1⟩, .error)
  | .replyLost =>
    (⟨Function.update w.store c.1 ((w.store c.1).exec c.2).1, w.outcome, w.sent + 1⟩, .null)
  | .lost => (⟨w.store, w.outcome, w.sent + 1⟩, .null)
  | .down => (⟨w.store, w.outcome, w.sent + 1⟩, .down)

/-- A command leaves the stores alone, or executes on the store it is sent to. -/
theorem exec_store (w : World V) (c : V × Cmd) :
    (w.exec c).1.store = w.store ∨
      (w.exec c).1.store = Function.update w.store c.1 ((w.store c.1).exec c.2).1 := by
  rw [exec]
  split <;> simp

/-- A property of one store that a command keeps is kept by the command in the world. -/
theorem exec_invariant {I : Store → Prop} {v : V} (w : World V) (c : V × Cmd)
    (hc : c.1 = v → ∀ s, I s → I (s.exec c.2).1) (hI : I (w.store v)) :
    I ((w.exec c).1.store v) := by
  rcases exec_store w c with h | h
  · rwa [h]
  · rw [h]
    by_cases hv : c.1 = v
    · subst hv
      rw [Function.update_self]
      exact hc rfl _ hI
    · rwa [Function.update_of_ne (Ne.symm hv)]

/-- A property of one store that all commands of a program keep is kept by the program. -/
theorem eval_invariant {I : Store → Prop} {v : V} {α : Type} {p : Prog (V × Cmd) Reply α}
    (hp : p.Sends fun c => c.1 = v → ∀ s, I s → I (s.exec c.2).1) {w : World V}
    (hI : I (w.store v)) : I ((p.eval exec w).2.store v) :=
  hp.eval_invariant (I := fun w' : World V => I (w'.store v))
    (fun w' c hc hw => exec_invariant w' c hc hw) hI

/-- A command does not change which commands fail. -/
@[simp] theorem outcome_exec (w : World V) (c : V × Cmd) : (w.exec c).1.outcome = w.outcome := by
  rw [exec]
  split <;> rfl

/-- Every command is counted. -/
@[simp] theorem sent_exec (w : World V) (c : V × Cmd) : (w.exec c).1.sent = w.sent + 1 := by
  rw [exec]
  split <;> rfl

/-- A program does not change the outcomes of the commands. -/
theorem eval_outcome {α : Type} (p : Prog (V × Cmd) Reply α) (w : World V) :
    (p.eval exec w).2.outcome = w.outcome := by
  induction p generalizing w with
  | ret a => rfl
  | send c k ih => rw [Prog.eval_send, ih, outcome_exec]

/-- A command that changes no store. -/
def Reads (c : V × Cmd) : Prop := ∀ s : Store, (s.exec c.2).1 = s

/-- Reading leaves all stores alone. -/
theorem store_exec_of_reads (w : World V) {c : V × Cmd} (hc : Reads c) :
    (w.exec c).1.store = w.store := by
  rcases exec_store w c with h | h
  · exact h
  · rw [h, hc, Function.update_eq_self]

/-- A reply that is no failure is what the store answers. -/
theorem exec_reply (w : World V) (c : V × Cmd) (h : ¬(w.exec c).2.Failed) :
    (w.exec c).2 = ((w.store c.1).exec c.2).2 := by
  rw [exec] at h ⊢
  split at h
  · rfl
  · exact absurd (.inl rfl) h
  · exact absurd (.inr (.inl rfl)) h
  · exact absurd (.inr (.inl rfl)) h
  · exact absurd (.inr (.inr rfl)) h

/-- In a run that only reads, every reply that is no failure is what the stores have answered from
the start. -/
theorem reply_of_mem_transcript {α : Type} {p : Prog (V × Cmd) Reply α} (hp : p.Sends Reads)
    {w : World V} {c : V × Cmd} {r : Reply} (hmem : (c, r) ∈ p.transcript exec w)
    (hr : ¬r.Failed) : r = ((w.store c.1).exec c.2).2 := by
  induction p generalizing w with
  | ret a => exact absurd hmem List.not_mem_nil
  | send d k ih =>
    rcases List.mem_cons.mp hmem with heq | hmem
    · obtain ⟨rfl, rfl⟩ := Prod.mk.inj heq
      exact exec_reply w c hr
    · rw [ih _ (hp.2 _) hmem, store_exec_of_reads w hp.1]

/-- The lifetimes of some keys of a server end. -/
def expire (w : World V) (v : V) (keys : List Bytes) : World V :=
  { w with store := Function.update w.store v ((w.store v).removeKeys keys) }

/-- The server itself loses the keys that expire. -/
@[simp] theorem store_expire (w : World V) (v : V) (keys : List Bytes) :
    (w.expire v keys).store v = (w.store v).removeKeys keys := by
  simp [expire]

/-- When no command fails, a command is executed and answered. -/
theorem exec_of_ok {w : World V} (h : ∀ n, w.outcome n = .ok) (c : V × Cmd) :
    w.exec c = (⟨Function.update w.store c.1 ((w.store c.1).exec c.2).1, w.outcome, w.sent + 1⟩,
      ((w.store c.1).exec c.2).2) := by
  rw [exec, h]

end World

end Redis
