import Mathlib.Data.List.Nodup
import Mathlib.Data.List.Range
import Mathlib.Tactic.Common

/-!
# A queue whose front is handed on

Producers add messages to the end of a queue.  A consumer hands the front on, perhaps several times
because the hand-over can fail, and removes it afterwards.  The queue remembers what was added, what
was removed and what was handed on; a message carries the number of its addition, so that equal
messages are told apart.

* **The invariant** (`Sound`): what was added is what was removed and what is queued, in order; what
  was handed on has been removed or is the front.
* **Nothing is lost** (`handed_all_iff`): if nothing in the queue has been handed on, then all that
  was added has been exactly if the queue is empty.
-/

/-- A queue of messages with its history.  `sent` are the messages handed on with success before
they were removed. -/
structure HandOff (M : Type*) where
  queue : List (ℕ × M)
  added : List (ℕ × M)
  removed : List (ℕ × M)
  handed : List (ℕ × M)
  sent : List (ℕ × M)

namespace HandOff

variable {M : Type*}

/-- No message yet. -/
def empty : HandOff M := ⟨[], [], [], [], []⟩

variable (c : HandOff M)

/-- A message is added, with the next number. -/
def add (m : M) : HandOff M :=
  { c with queue := c.queue ++ [(c.added.length, m)], added := c.added ++ [(c.added.length, m)] }

/-- A message is handed on; `ok` says with what success. -/
def hand (x : ℕ × M) (ok : Bool) : HandOff M :=
  { c with handed := c.handed ++ [x], sent := if ok then c.sent ++ [x] else c.sent }

/-- The front is removed. -/
def pop : HandOff M :=
  { c with queue := c.queue.tail, removed := c.removed ++ c.queue.head?.toList }

/-- The front is handed on once, whatever comes of it, and removed. -/
def flush : HandOff M :=
  match c.queue with
  | [] => c
  | x :: _ => { c.pop with handed := c.handed ++ [x] }

/-- What holds of the history of a queue. -/
structure Sound : Prop where
  split : c.added = c.removed ++ c.queue
  numbered : c.added.map Prod.fst = List.range c.added.length
  removed_handed : ∀ x ∈ c.removed, x ∈ c.handed
  only_front : ∀ x ∈ c.handed, x ∈ c.removed ∨ c.queue.head? = some x

/-- Nothing in the queue has been handed on. -/
def Fresh : Prop := ∀ x ∈ c.queue, x ∉ c.handed

/-- The empty hand-off keeps the order. -/
theorem empty_sound : (empty : HandOff M).Sound :=
  ⟨rfl, rfl, fun _ h => (List.not_mem_nil h).elim, fun _ h => (List.not_mem_nil h).elim⟩

variable {c} {x : ℕ × M} {ok : Bool}

/-- The numbers of the messages are below their count. -/
theorem Sound.number_lt (h : c.Sound) (hx : x ∈ c.added) : x.1 < c.added.length := by
  have : x.1 ∈ c.added.map Prod.fst := List.mem_map_of_mem hx
  rwa [h.numbered, List.mem_range] at this

/-- No message is added twice: the numbers differ. -/
theorem Sound.added_nodup (h : c.Sound) : c.added.Nodup := by
  apply List.Nodup.of_map Prod.fst
  rw [h.numbered]
  exact List.nodup_range

/-- Only messages that were added are handed on. -/
theorem Sound.handed_added (h : c.Sound) (hx : x ∈ c.handed) : x ∈ c.added := by
  rw [h.split, List.mem_append]
  rcases h.only_front x hx with hr | hf
  · exact .inl hr
  · exact .inr (List.mem_of_mem_head? hf)

/-- The head of a queue stays when messages are added behind it. -/
theorem head?_append_of_some {l : List (ℕ × M)} (r : List (ℕ × M)) (h : l.head? = some x) :
    (l ++ r).head? = some x := by
  cases l with
  | nil => cases h
  | cons y l => exact h

/-- Adding a message keeps the order. -/
theorem Sound.add (h : c.Sound) (m : M) : (c.add m).Sound := by
  refine ⟨?_, ?_, h.removed_handed, fun x hx => ?_⟩
  · show c.added ++ [_] = c.removed ++ (c.queue ++ [_])
    rw [← List.append_assoc, h.split]
  · show (c.added ++ [_]).map Prod.fst = List.range (c.added ++ [_]).length
    rw [List.map_append, h.numbered, List.length_append, List.length_singleton, List.range_succ]
    rfl
  · exact (h.only_front x hx).imp_right (head?_append_of_some _)

/-- The new message has not been handed on. -/
theorem Sound.fresh_add (h : c.Sound) (hf : c.Fresh) (m : M) : (c.add m).Fresh := by
  intro x hx hh
  have hx : x ∈ c.queue ++ [(c.added.length, m)] := hx
  rcases List.mem_append.mp hx with hx | hx
  · exact hf x hx hh
  · have hlt := h.number_lt (h.handed_added hh)
    rw [List.mem_singleton.mp hx] at hlt
    exact absurd hlt (lt_irrefl _)

/-- Handing on the head keeps the order. -/
theorem Sound.hand (h : c.Sound) (hx : c.queue.head? = some x) : (c.hand x ok).Sound := by
  refine ⟨h.split, h.numbered, fun y hy => List.mem_append_left _ (h.removed_handed y hy),
    fun y hy => ?_⟩
  have hy : y ∈ c.handed ++ [x] := hy
  rcases List.mem_append.mp hy with hy | hy
  · exact h.only_front y hy
  · rw [List.mem_singleton.mp hy]
    exact .inr hx

/-- Dropping a head that was handed on keeps the order. -/
theorem Sound.pop (h : c.Sound) (hx : c.queue.head? = some x) (hh : x ∈ c.handed) :
    c.pop.Sound := by
  obtain ⟨rest, hq⟩ : ∃ rest, c.queue = x :: rest := List.head?_eq_some_iff.mp hx
  refine ⟨?_, h.numbered, fun y hy => ?_, fun y hy => .inl ?_⟩
  · show c.added = (c.removed ++ c.queue.head?.toList) ++ c.queue.tail
    rw [h.split, hq, List.append_assoc]
    rfl
  · have hy : y ∈ c.removed ++ c.queue.head?.toList := hy
    rw [hx, Option.toList_some, List.mem_append, List.mem_singleton] at hy
    rcases hy with hy | rfl
    · exact h.removed_handed y hy
    · exact hh
  · show y ∈ c.removed ++ c.queue.head?.toList
    rw [hx, Option.toList_some, List.mem_append, List.mem_singleton]
    rcases h.only_front y hy with hr | hf
    · exact .inl hr
    · exact .inr (Option.some.inj (hf.symm.trans hx))

/-- Emptying the queue keeps the order. -/
theorem Sound.flush (h : c.Sound) : c.flush.Sound := by
  rw [HandOff.flush]
  split
  next => exact h
  next x rest hq =>
    have hx : c.queue.head? = some x := by rw [hq]; rfl
    have hhand : (c.hand x false).Sound := h.hand hx
    exact hhand.pop hx (List.mem_append_right _ (by simp))

/-- With an empty queue nothing is handed on twice. -/
theorem fresh_of_nil (h : c.queue = []) : c.Fresh := by
  intro x hx
  rw [h] at hx
  exact absurd hx List.not_mem_nil

/-- If nothing in the queue has been handed on, all that was added has been exactly if the queue is
empty. -/
theorem Sound.handed_all_iff (h : c.Sound) (hf : c.Fresh) :
    (∀ x ∈ c.added, x ∈ c.handed) ↔ c.queue = [] := by
  constructor
  · intro hall
    refine List.eq_nil_iff_forall_not_mem.mpr fun x hx => hf x hx (hall x ?_)
    rw [h.split]
    exact List.mem_append_right _ hx
  · intro hq x hx
    rw [h.split, hq, List.append_nil] at hx
    exact h.removed_handed x hx

end HandOff
