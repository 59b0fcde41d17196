import Mathlib.Data.List.Nodup
import Mathlib.Tactic.Common

/-!
# A box with one message a key

Writers put messages into a box; a message takes the place of an older one with its key.  A reader
takes copies of all that is there, and clears the box in a step of its own.  Each message has a
number, so that it can be told from a later one with the same contents.

* **Bookkeeping** (`Mailbox.WF`): each message that was ever written is in the box, has been
  replaced by a newer one of its key, or has been cleared.
* **At most once** (`Mailbox.nodup_readAll`): reading returns no message twice, as long as what is
  in the box has not been read before.
-/

/-- A message with its number. -/
structure Msg (κ ν : Type*) where
  serial : ℕ
  key : κ
  val : ν
  deriving DecidableEq

/-- The messages of a box, by what has become of them. -/
structure Mailbox (κ ν : Type*) where
  /-- All messages, in the order of their numbers. -/
  written : List (Msg κ ν)
  stored : List (Msg κ ν)
  replaced : List (Msg κ ν)
  cleared : List (Msg κ ν)
  /-- What the reader has got, in its order. -/
  read : List (Msg κ ν)

namespace Mailbox

variable {κ ν : Type*}

/-- A box before the first message. -/
def empty : Mailbox κ ν := ⟨[], [], [], [], []⟩

/-- The next message. -/
def next (b : Mailbox κ ν) (k : κ) (v : ν) : Msg κ ν := ⟨b.written.length, k, v⟩

/-- Read all messages that are there. -/
def readAll (b : Mailbox κ ν) : Mailbox κ ν := { b with read := b.read ++ b.stored }

/-- Clear the box. -/
def clear (b : Mailbox κ ν) : Mailbox κ ν :=
  { b with stored := [], cleared := b.cleared ++ b.stored }

/-! ## Bookkeeping -/

/-- What is always true of a box. -/
structure WF (b : Mailbox κ ν) : Prop where
  serial : ∀ m ∈ b.written, m.serial < b.written.length
  stored : ∀ m ∈ b.stored, m ∈ b.written
  read : ∀ m ∈ b.read, m ∈ b.written
  keys : (b.stored.map Msg.key).Nodup
  /-- No message gets lost. -/
  accounted : ∀ m ∈ b.written, m ∈ b.stored ∨ m ∈ b.replaced ∨ m ∈ b.cleared
  /-- What has been replaced has a newer message with its key. -/
  newer : ∀ m ∈ b.replaced, ∃ m' ∈ b.written, m'.key = m.key ∧ m.serial < m'.serial

/-- A mailbox without messages is well formed. -/
theorem wf_empty : (empty : Mailbox κ ν).WF where
  serial m h := by cases h
  stored m h := by cases h
  read m h := by cases h
  keys := List.nodup_nil
  accounted m h := by cases h
  newer m h := by cases h

namespace WF

variable {b : Mailbox κ ν} (h : b.WF)

include h

/-- The next message has a number that was not written before. -/
theorem next_notMem (k : κ) (v : ν) : b.next k v ∉ b.written := fun hmem =>
  absurd (h.serial _ hmem) (Nat.lt_irrefl _)

/-- Reading all messages keeps the mailbox well formed. -/
theorem readAll : b.readAll.WF where
  serial := h.serial
  stored := h.stored
  read m hm := (List.mem_append.mp hm).elim (h.read m) (h.stored m)
  keys := h.keys
  accounted := h.accounted
  newer := h.newer

/-- Clearing keeps the mailbox well formed. -/
theorem clear : b.clear.WF where
  serial := h.serial
  stored m hm := by cases hm
  read := h.read
  keys := List.nodup_nil
  accounted m hm := by
    rcases h.accounted m hm with hstored | hreplaced | hcleared
    · exact .inr (.inr (List.mem_append_right _ hstored))
    · exact .inr (.inl hreplaced)
    · exact .inr (.inr (List.mem_append_left _ hcleared))
  newer := h.newer

end WF

/-- A box whose messages have not been read before is read without a message twice. -/
theorem nodup_readAll {b : Mailbox κ ν} (h : b.WF) (hread : b.read.Nodup)
    (hfresh : ∀ m ∈ b.stored, m ∉ b.read) : b.readAll.read.Nodup :=
  List.nodup_append'.mpr ⟨hread, h.keys.of_map, fun m hr hs => hfresh m hs hr⟩

/-! ## Writing -/

section

variable [DecidableEq κ]

/-- Put a message where the one with its key is, or at the end. -/
def place (m : Msg κ ν) : List (Msg κ ν) → List (Msg κ ν)
  | [] => [m]
  | m' :: rest => if m'.key = m.key then m :: rest else m' :: place m rest

/-- Write a message. -/
def put (b : Mailbox κ ν) (k : κ) (v : ν) : Mailbox κ ν :=
  { b with
    written := b.written ++ [b.next k v]
    stored := place (b.next k v) b.stored
    replaced := b.replaced ++ b.stored.filter fun m => m.key = k }

variable {m m' : Msg κ ν} {l : List (Msg κ ν)}

/-- The placed message is there. -/
theorem mem_place_self (m : Msg κ ν) (l : List (Msg κ ν)) : m ∈ place m l := by
  induction l with
  | nil => exact List.mem_singleton_self m
  | cons x l ih =>
    rw [place]
    split_ifs
    · exact List.mem_cons_self
    · exact List.mem_cons_of_mem x ih

/-- What is there after placing was there or is the placed message. -/
theorem mem_of_mem_place (h : m' ∈ place m l) : m' = m ∨ m' ∈ l := by
  induction l with
  | nil => exact .inl (List.mem_singleton.mp h)
  | cons x l ih =>
    rw [place] at h
    split_ifs at h
    · rcases List.mem_cons.mp h with rfl | h
      · exact .inl rfl
      · exact .inr (List.mem_cons_of_mem x h)
    · rcases List.mem_cons.mp h with rfl | h
      · exact .inr List.mem_cons_self
      · exact (ih h).imp id (List.mem_cons_of_mem x)

/-- A message with another key stays. -/
theorem mem_place_of_mem (h : m' ∈ l) (hkey : m'.key ≠ m.key) : m' ∈ place m l := by
  induction l with
  | nil => cases h
  | cons x l ih =>
    rw [place]
    rcases List.mem_cons.mp h with rfl | h
    · rw [if_neg hkey]
      exact List.mem_cons_self
    · split_ifs
      · exact List.mem_cons_of_mem m h
      · exact List.mem_cons_of_mem x (ih h)

/-- Placing keeps one message for a key. -/
theorem nodup_keys_place (h : (l.map Msg.key).Nodup) : ((place m l).map Msg.key).Nodup := by
  induction l with
  | nil => exact List.nodup_singleton _
  | cons x l ih =>
    rw [List.map_cons, List.nodup_cons] at h
    rw [place]
    split_ifs with hx
    · rw [List.map_cons, List.nodup_cons, ← hx]
      exact h
    · rw [List.map_cons, List.nodup_cons]
      refine ⟨fun hmem => ?_, ih h.2⟩
      obtain ⟨y, hy, hyx⟩ := List.mem_map.mp hmem
      rcases mem_of_mem_place hy with rfl | hy
      · exact hx hyx.symm
      · exact h.1 (List.mem_map.mpr ⟨y, hy, hyx⟩)

variable {b : Mailbox κ ν}

/-- A new message keeps the mailbox well formed. -/
theorem WF.put (h : b.WF) (k : κ) (v : ν) : (b.put k v).WF where
  serial m hm := by
    -- the number of the new message is the number of those before it
    show m.serial < (b.written ++ [b.next k v]).length
    rw [List.length_append, List.length_singleton]
    rcases List.mem_append.mp hm with hm | hm
    · exact Nat.lt_succ_of_lt (h.serial m hm)
    · rw [List.mem_singleton.mp hm]
      exact Nat.lt_succ_self _
  stored m hm := by
    rcases mem_of_mem_place hm with rfl | hm
    · exact List.mem_append_right _ (List.mem_singleton_self _)
    · exact List.mem_append_left _ (h.stored m hm)
  read m hm := List.mem_append_left _ (h.read m hm)
  keys := nodup_keys_place h.keys
  accounted m hm := by
    rcases List.mem_append.mp hm with hm | hm
    · rcases h.accounted m hm with hstored | hreplaced | hcleared
      · by_cases hkey : m.key = k
        · -- the new message takes its place
          refine .inr (.inl (List.mem_append_right _ (List.mem_filter.mpr ⟨hstored, ?_⟩)))
          exact decide_eq_true hkey
        · exact .inl (mem_place_of_mem hstored hkey)
      · exact .inr (.inl (List.mem_append_left _ hreplaced))
      · exact .inr (.inr hcleared)
    · rw [List.mem_singleton.mp hm]
      exact .inl (mem_place_self _ _)
  newer m hm := by
    rcases List.mem_append.mp hm with hm | hm
    · obtain ⟨m', hm', hnewer⟩ := h.newer m hm
      exact ⟨m', List.mem_append_left _ hm', hnewer⟩
    · obtain ⟨hstored, hkey⟩ := List.mem_filter.mp hm
      refine ⟨b.next k v, List.mem_append_right _ (List.mem_singleton_self _), ?_,
        h.serial m (h.stored m hstored)⟩
      exact (of_decide_eq_true hkey).symm

/-- A message that is new to the box is new to any part of what was read. -/
theorem WF.put_fresh (h : b.WF) {l : List (Msg κ ν)} (hl : ∀ m ∈ l, m ∈ b.written)
    (hfresh : ∀ m ∈ b.stored, m ∉ l) (k : κ) (v : ν) : ∀ m ∈ (b.put k v).stored, m ∉ l := by
  intro m hm hml
  rcases mem_of_mem_place hm with rfl | hm
  · exact h.next_notMem k v (hl _ hml)
  · exact hfresh m hm hml

end

end Mailbox
