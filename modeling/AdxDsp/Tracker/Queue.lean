import AdxDsp.Lib.Bytes
import AdxDsp.Lib.LinkedLists
import AdxDsp.Lib.Mutex
import AdxDsp.Lib.OwnedCells

/-!
# The queue between threads

`adx_queue.c` on the lists of `adx_list.h`: copies of messages are put behind the last node of a
circular list, and taken from its front.  Every call is made under a mutex, by any number of threads,
and the accesses to the memory are made one by one.  A copy that gets no node is lost.

* **The functions**: `pushBody`, `popBody`, statement by statement.
* `runs_pushBody`, `runs_popBody`: what they do to the list in the memory.
* `Clients`: what the threads do between the calls.
* `whole_refines`: the calls are those of a queue of messages.
-/

namespace AdxDsp.Queue

open CText OwnedCells LinkedLists

/-! ## The functions -/

/-- `adx_queue_t`; the head of a queue is `adx_list_t` only. -/
structure Cell (ω : Type) where
  queue : Node ω
  str : Bytes

/-- The texts that `adx_strdup` has copied, the copies that have been left behind without a node, and
the messages that have been put into the queue and taken out of it, in order.  The program does not
read it. -/
structure History where
  copied : List Bytes
  lost : List Bytes
  pushed : List Bytes
  popped : List Bytes
  deriving DecidableEq

/-- Nothing has been copied yet. -/
def History.empty : History := ⟨[], [], [], []⟩

/-- A text is copied. -/
def History.copy (h : History) (str : Bytes) : History := { h with copied := h.copied ++ [str] }

/-- A copy is left behind. -/
def History.lose (h : History) (str : Bytes) : History := { h with lost := h.lost ++ [str] }

/-- A message is put into the queue. -/
def History.push (h : History) (str : Bytes) : History := { h with pushed := h.pushed ++ [str] }

/-- A message is taken out of the queue. -/
def History.pop (h : History) (str : Bytes) : History := { h with popped := h.popped ++ [str] }

/-- The nodes of the queue. -/
abbrev Memory (ω : Type) := OwnedCells.State History ω (Cell ω)

/-- What a thread has of its own: what it does between the calls, and the variables of a call. -/
structure Own (κ ω : Type) where
  client : κ
  node : Option ω
  prev : Option ω
  next : Option ω
  str : Bytes

section

variable {κ ω : Type} [DecidableEq ω]

/-- A statement of a call. -/
abbrev Stmt (κ ω : Type) := Mutex.Stmt (Own κ ω) (Memory ω)

/-- A statement that is left out if the node is `NULL`. -/
def ifNode (f : Own κ ω → ω → OwnedCells.Prog History ω (Cell ω) (Own κ ω)) : Stmt κ ω := fun l =>
  match l.node with
  | none => pure l
  | some a => f l a

/-- A pointer of a node is changed. -/
def setNext (p : Option ω) (c : Cell ω) : Cell ω := { c with queue := { c.queue with next := p } }

/-- The other pointer of a node is changed. -/
def setPrev (p : Option ω) (c : Cell ω) : Cell ω := { c with queue := { c.queue with prev := p } }

/-- What `malloc` returns in a call of `adx_queue_push_dup`: whether there is a block for the copy,
and the node. -/
structure Mallocs (ω : Type) where
  text : Bool
  node : Option (ω × Cell ω)

/-- `adx_queue_push_dup`, with `adx_strdup`, `adx_queue_push` and `adx_list_add`. -/
def pushBody (head : ω) (str : Bytes) (mallocs : Mallocs ω) (finish : κ → Bytes → κ) :
    List (Stmt κ ω) :=
  [fun l => if str = [] ∨ mallocs.text = false then pure { l with str := [] } else do
      let h ← vars
      assign (h.copy str)
      pure { l with str := str },
    fun l => if l.str = [] then pure { l with node := none } else
      match mallocs.node with
      | none => do
        -- nobody has the copy any more
        let h ← vars
        assign (h.lose l.str)
        pure { l with node := none }
      | some (a, c) => do
        alloc a c
        pure { l with node := some a },
    ifNode fun l a => do
      modify a fun c => { c with str := l.str }
      pure l,
    ifNode fun l _ => do
      let h ← deref head
      pure { l with prev := h.queue.prev, next := some head },
    ifNode fun l a => do
      let next ← nonNull l.next
      modify next (setPrev (some a))
      pure l,
    ifNode fun l a => do
      modify a (setNext l.next)
      pure l,
    ifNode fun l a => do
      modify a (setPrev l.prev)
      pure l,
    ifNode fun l a => do
      let prev ← nonNull l.prev
      modify prev (setNext (some a))
      let h ← vars
      assign (h.push l.str)
      pure l,
    fun l => pure { l with client := finish l.client [] }]

/-- `adx_queue_pop`, with `adx_queue` and `adx_list_del`. -/
def popBody (head : ω) (finish : κ → Bytes → κ) : List (Stmt κ ω) :=
  [fun l => do
      let h ← deref head
      pure { l with node := if h.queue.next = some head then none else h.queue.next, str := [] },
    ifNode fun l a => do
      let p ← deref a
      pure { l with prev := p.queue.prev, next := p.queue.next },
    ifNode fun l _ => do
      let next ← nonNull l.next
      modify next (setPrev l.prev)
      pure l,
    ifNode fun l _ => do
      let prev ← nonNull l.prev
      modify prev (setNext l.next)
      pure l,
    ifNode fun l a => do
      let p ← deref a
      pure { l with str := p.str },
    ifNode fun l a => do
      free a
      let h ← vars
      assign (h.pop l.str)
      pure l,
    fun l => pure { l with client := finish l.client l.str }]

/-! ## The list in the memory -/

/-- The cells of a queue with some nodes, and the text that each of them has. -/
def cells (head : ω) (l : List ω) (text : ω → Bytes) : Multiset (ω × Cell ω) :=
  (ring head l).map fun e => (e.1, ⟨e.2, text e.1⟩)

/-- The node of a new message. -/
def withText (text : ω → Bytes) (a : ω) (str : Bytes) : ω → Bytes := Function.update text a str

variable {head a b : ω} {l l' : List ω} {text : ω → Bytes} {str : Bytes} {h : History}
  {own : Own κ ω} {finish : κ → Bytes → κ} {c : Cell ω} {s : Memory ω} {α : Type}
  {S : Own κ ω → Memory ω → Prop}

omit [DecidableEq ω] in
/-- The addresses of the queue: the head and the nodes. -/
theorem fst_cells : (cells head l text).map Prod.fst = (head :: l : Multiset ω) := by
  rw [cells, Multiset.map_map, ← fst_linked (some (l.getLastD head)) head (some head) l]
  rfl

/-- A new node leaves the texts of the others alone. -/
theorem map_withText (ha : a ∉ l) : l.map (withText text a str) = l.map text := by
  refine List.map_congr_left fun b hb => ?_
  have hne : b ≠ a := fun heq => ha (heq ▸ hb)
  rw [withText, Function.update_of_ne hne]

/-! ## Putting in and taking out -/

/-- A node of the list, with the text that belongs to it. -/
def withLinks (text : ω → Bytes) (e : ω × Node ω) : ω × Cell ω := (e.1, ⟨e.2, text e.1⟩)

omit [DecidableEq ω] in
/-- The cells of the queue are those of the ring, with their texts. -/
theorem cells_eq_map : cells head l text = (ring head l).map (withLinks text) := rfl

/-- The cells that change when a node is put behind the last one. -/
theorem exists_cells_add (head b : ω) (l : List ω) (text : ω → Bytes) : ∃ n p R,
    cells head (l ++ [b]) text = {(head, ⟨⟨n, some b⟩, text head⟩)} +
      ({(b, ⟨⟨some head, p⟩, text b⟩)} + R) ∧
    ∀ a str, a ∉ head :: (l ++ [b]) → cells head (l ++ [b] ++ [a]) (withText text a str) =
      {(head, ⟨⟨n, some a⟩, text head⟩)} + ({(b, ⟨⟨some a, p⟩, text b⟩)} +
        ({(a, ⟨⟨some head, some b⟩, str⟩)} + R)) := by
  obtain ⟨n, p, R, hring, hadd⟩ := exists_ring_add head b l
  refine ⟨n, p, R.map (withLinks text), ?_, fun a str ha => ?_⟩
  · rw [cells_eq_map, hring]
    simp [withLinks]
  · have hR : R.map (withLinks (withText text a str)) = R.map (withLinks text) := by
      refine Multiset.map_congr rfl fun e he => ?_
      have hmem : e.1 ∈ (ring head (l ++ [b])).map Prod.fst :=
        Multiset.mem_map_of_mem _ (by rw [hring]; simp [he])
      rw [ring, fst_linked] at hmem
      have hne : e.1 ≠ a := fun heq => ha (heq ▸ Multiset.mem_coe.mp hmem)
      rw [withLinks, withLinks, withText, Function.update_of_ne hne]
    obtain ⟨hhead, hb⟩ : head ≠ a ∧ b ≠ a :=
      ⟨fun heq => ha (by simp [heq]), fun heq => ha (by simp [heq])⟩
    rw [cells_eq_map, hadd, Multiset.map_add, Multiset.map_add, Multiset.map_add, hR]
    simp [withLinks, withText, Function.update_of_ne hhead, Function.update_of_ne hb]

/-- A message is put into the queue. -/
theorem runs_pushBody (hstr : str ≠ []) (ha : a ∉ head :: l) :
    Runs (fun s => OwnsAll h (cells head l text) s ∧ s.cells a = none)
      (Mutex.runBody (pushBody head str ⟨true, some (a, c)⟩ finish) own) fun own' s =>
        own'.client = finish own.client [] ∧
        OwnsAll ((h.copy str).push str) (cells head (l ++ [a]) (withText text a str)) s := by
  have hcopied : ¬(str = [] ∨ true = false) := by simp [hstr]
  rw [Mutex.runBody, pushBody]
  simp only [List.foldlM_cons, List.foldlM_nil, if_neg hcopied, if_neg hstr, bind_assoc, pure_bind,
    ifNode, bind_pure]
  -- the copy is made, and gets its node
  refine Runs.vars_bind_fresh (Runs.assign_bind_fresh ?_)
  refine Runs.alloc_bind (Runs.modify_bind_all ?_)
  rcases List.eq_nil_or_concat l with rfl | ⟨l, b, rfl⟩
  · -- the first message: the head is the last node, too
    have hhead : head ≠ a := fun heq => ha (by simp [heq])
    have hempty : cells head [] text = {(head, ⟨⟨some head, some head⟩, text head⟩)} := rfl
    have hone : cells head [a] (withText text a str) =
        {(head, ⟨⟨some a, some a⟩, text head⟩)} + {(a, ⟨⟨some head, some head⟩, str⟩)} := by
      rw [cells_eq_map, ring_single]
      simp [withLinks, withText, Function.update_of_ne hhead]
    rw [hempty]
    refine Runs.pre_all (Runs.deref_bind_all ?_) (add_comm _ _)
    refine Runs.nonNull_bind (Runs.modify_bind_all ?_)
    refine Runs.pre_all (Runs.modify_bind_all (Runs.modify_bind_all ?_)) (add_comm _ _)
    refine Runs.nonNull_bind (Runs.pre_all (Runs.modify_bind_all ?_) (add_comm _ _))
    refine Runs.vars_bind_all (Runs.assign_bind_all (Runs.pure fun s hs => ⟨rfl, ?_⟩))
    rw [List.nil_append, hone]
    exact hs
  -- another message is the last one: three cells are changed
  · obtain ⟨n, p, R, hcells, hadd⟩ := exists_cells_add head b l text
    rw [List.concat_eq_append] at ha ⊢
    rw [hcells, hadd a str ha]
    refine Runs.pre_all (Runs.deref_bind_all (a := head) ?_) (add_left_comm _ _ _)
    refine Runs.nonNull_bind (Runs.modify_bind_all ?_)
    refine Runs.pre_all (Runs.modify_bind_all (a := a) (Runs.modify_bind_all ?_)) (add_left_comm _ _ _)
    refine Runs.nonNull_bind (Runs.pre_all (Runs.modify_bind_all (a := b) ?_)
      (N := {(b, ⟨⟨some head, p⟩, text b⟩)} + ({(a, ⟨⟨some head, some b⟩, str⟩)} +
        ({(head, ⟨⟨n, some a⟩, text head⟩)} + R))) ?_)
    · refine Runs.vars_bind_all (Runs.assign_bind_all (Runs.pure fun s hs => ⟨rfl, ?_⟩))
      convert hs using 1
      rw [setNext]
      abel
    · simp only [setNext, setPrev]
      abel

omit [DecidableEq ω] in
/-- The cells that change when the first of two nodes is taken out. -/
theorem exists_cells_del (head b c : ω) (l : List ω) (text : ω → Bytes) : ∃ n last R,
    cells head (b :: c :: l) text = {(head, ⟨⟨some b, last⟩, text head⟩)} +
      ({(b, ⟨⟨some c, some head⟩, text b⟩)} + ({(c, ⟨⟨n, some b⟩, text c⟩)} + R)) ∧
    cells head (c :: l) text = {(head, ⟨⟨some c, last⟩, text head⟩)} +
      ({(c, ⟨⟨n, some head⟩, text c⟩)} + R) := by
  obtain ⟨n, last, R, hring, hdel⟩ := exists_ring_del head b c l
  refine ⟨n, last, R.map (withLinks text), ?_, ?_⟩
  · rw [cells_eq_map, hring]
    simp [withLinks]
  · rw [cells_eq_map, hdel]
    simp [withLinks]

/-- Nothing is taken out of an empty queue. -/
theorem runs_popBody_nil (own : Own κ ω) (finish : κ → Bytes → κ) :
    Runs (OwnsAll h (cells head [] text)) (Mutex.runBody (popBody head finish) own) fun own' s =>
      own'.client = finish own.client [] ∧ OwnsAll h (cells head [] text) s := by
  have hempty : cells head [] text = {(head, ⟨⟨some head, some head⟩, text head⟩)} + 0 := rfl
  rw [Mutex.runBody, popBody, hempty]
  simp only [List.foldlM_cons, List.foldlM_nil, bind_assoc, pure_bind, bind_pure]
  refine Runs.deref_bind_all ?_
  simp only [if_pos, ifNode, pure_bind]
  exact Runs.pure fun s hs => ⟨rfl, hs⟩

/-- The first message is taken out. -/
theorem runs_popBody_cons (own : Own κ ω) (finish : κ → Bytes → κ)
    (hnodup : (head :: b :: l).Nodup) :
    Runs (OwnsAll h (cells head (b :: l) text)) (Mutex.runBody (popBody head finish) own)
      fun own' s => own'.client = finish own.client (text b) ∧
        OwnsAll (h.pop (text b)) (cells head l text) s := by
  have hne : some b ≠ some head := fun heq => by
    obtain rfl := Option.some.inj heq
    simp at hnodup
  rw [Mutex.runBody, popBody]
  simp only [List.foldlM_cons, List.foldlM_nil, bind_assoc, pure_bind, bind_pure]
  cases l with
  -- the only message: the head points at itself again
  | nil =>
    have hone : cells head [b] text =
        {(head, ⟨⟨some b, some b⟩, text head⟩)} + {(b, ⟨⟨some head, some head⟩, text b⟩)} := by
      rw [cells_eq_map, ring_single]
      simp [withLinks]
    rw [hone]
    refine Runs.deref_bind_all ?_
    simp only [if_neg hne, ifNode, pure_bind, bind_assoc]
    refine Runs.pre_all (Runs.deref_bind_all ?_) (add_comm _ _)
    refine Runs.pre_all (Runs.nonNull_bind (Runs.modify_bind_all ?_)) (add_comm _ _)
    refine Runs.nonNull_bind (Runs.modify_bind_all ?_)
    refine Runs.pre_all (Runs.deref_bind_all (Runs.free_bind ?_)) (add_comm _ _)
    exact Runs.vars_bind_all (Runs.assign_bind_all (Runs.pure fun s hs => ⟨rfl, hs⟩))
  | cons c l =>
    -- the head and the second node become neighbours
    obtain ⟨n, last, R, hcells, hdel⟩ := exists_cells_del head b c l text
    rw [hcells, hdel]
    refine Runs.deref_bind_all ?_
    simp only [if_neg hne, ifNode, pure_bind, bind_assoc]
    refine Runs.pre_all (Runs.deref_bind_all (a := b) ?_) (add_left_comm _ _ _)
    refine Runs.nonNull_bind (Runs.pre_all (Runs.modify_bind_all (a := c) ?_)
      (N := {(c, ⟨⟨n, some b⟩, text c⟩)} + ({(head, ⟨⟨some b, last⟩, text head⟩)} +
        ({(b, ⟨⟨some c, some head⟩, text b⟩)} + R))) (by abel))
    refine Runs.nonNull_bind (Runs.pre_all (Runs.modify_bind_all (a := head) ?_)
      (add_left_comm _ _ _))
    refine Runs.pre_all (Runs.deref_bind_all (a := b) (Runs.free_bind ?_))
      (N := {(b, ⟨⟨some c, some head⟩, text b⟩)} + ({(head, ⟨⟨some c, last⟩, text head⟩)} +
        ({(c, ⟨⟨n, some head⟩, text c⟩)} + R))) ?_
    · exact Runs.vars_bind_all (Runs.assign_bind_all (Runs.pure fun s hs => ⟨rfl, hs⟩))
    · simp only [setNext, setPrev]
      abel

/-- No message is put into the queue that is empty, or that cannot be copied. -/
theorem runs_pushBody_refused {mallocs : Mallocs ω} (hnone : str = [] ∨ mallocs.text = false) :
    Runs (OwnsAll h (cells head l text)) (Mutex.runBody (pushBody head str mallocs finish) own)
      fun own' s => own'.client = finish own.client [] ∧ OwnsAll h (cells head l text) s := by
  rw [Mutex.runBody, pushBody]
  simp only [List.foldlM_cons, List.foldlM_nil, if_pos hnone, if_true, pure_bind, ifNode]
  exact Runs.pure fun s hs => ⟨rfl, hs⟩

/-- A copy for which there is no node is left behind. -/
theorem runs_pushBody_lost (hstr : str ≠ []) :
    Runs (OwnsAll h (cells head l text)) (Mutex.runBody (pushBody head str ⟨true, none⟩ finish) own)
      fun own' s => own'.client = finish own.client [] ∧
        OwnsAll ((h.copy str).lose str) (cells head l text) s := by
  have hcopied : ¬(str = [] ∨ true = false) := by simp [hstr]
  rw [Mutex.runBody, pushBody]
  simp only [List.foldlM_cons, List.foldlM_nil, if_neg hcopied, if_neg hstr, bind_assoc, pure_bind,
    ifNode]
  refine Runs.vars_bind_all (Runs.assign_bind_all (Runs.vars_bind_all (Runs.assign_bind_all ?_)))
  exact Runs.pure fun s hs => ⟨rfl, hs⟩

end

/-! ## Threads and the queue -/

/-- What a thread asks of the queue. -/
inductive Call where
  | push (str : Bytes)
  | pop

/-- The threads of a program: their steps outside of the calls, the call that a thread makes next,
and what it does with the result. -/
structure Clients (τ κ ν ε : Type) where
  outside : τ → ε → κ → ν → Option (κ × ν)
  call : τ → κ → Option Call
  finish : τ → κ → Bytes → κ

/-- Threads with a queue of messages, which are put in and taken out at once. -/
structure Fifo (τ κ ν : Type) where
  client : τ → κ
  queue : List Bytes
  history : History
  shared : ν

/-- What becomes of a message: it is not copied, its copy gets lost, or the copy is in the queue. -/
inductive Outcome where
  | refused
  | lost
  | stored
  deriving DecidableEq

/-- What happens next. -/
inductive FifoEvent (τ ε : Type) where
  | outside (t : τ) (e : ε)
  | push (t : τ) (outcome : Outcome)
  | pop (t : τ)

section

variable {τ κ ν ε ω : Type} [DecidableEq τ] [DecidableEq ω]

/-- The threads, with the queue in a memory that they share. -/
def Clients.system (C : Clients τ κ ν ε) (head : ω) :
    Mutex.System τ (Own κ ω) (Memory ω) ν ε (Mallocs ω) where
  outside t e l shared := (C.outside t e l.client shared).map fun r => ({ l with client := r.1 }, r.2)
  enter t mallocs l m :=
    match C.call t l.client with
    | none => none
    | some (.push str) =>
      -- `malloc` does not return what is in use
      if mallocs.node.all fun n => (m.cells n.1).isNone then
        some (pushBody head str mallocs (C.finish t))
      else none
    | some .pop => some (popBody head (C.finish t))

/-- What becomes of a message with these answers of `malloc`. -/
def Mallocs.outcome (mallocs : Mallocs ω) : Outcome :=
  if mallocs.text = false then .refused else if mallocs.node.isNone then .lost else .stored

/-- The queue behind a call. -/
def queueAfter (queue : List Bytes) (str : Bytes) (outcome : Outcome) : List Bytes :=
  if str ≠ [] ∧ outcome = .stored then queue ++ [str] else queue

/-- The history behind a call. -/
def History.after (h : History) (str : Bytes) (outcome : Outcome) : History :=
  if str = [] then h
  else
    match outcome with
    | .refused => h
    | .lost => (h.copy str).lose str
    | .stored => (h.copy str).push str

/-- A message is to be put at the end of the queue. -/
def Fifo.put (s : Fifo τ κ ν) (str : Bytes) (outcome : Outcome) : Fifo τ κ ν :=
  { s with
    queue := queueAfter s.queue str outcome
    history := s.history.after str outcome }

/-- The first message is taken. -/
def Fifo.take (s : Fifo τ κ ν) (str : Bytes) (rest : List Bytes) : Fifo τ κ ν :=
  { s with queue := rest, history := s.history.pop str }

/-- A thread goes on. -/
def Fifo.goOn (s : Fifo τ κ ν) (t : τ) (k : κ) : Fifo τ κ ν :=
  { s with client := Function.update s.client t k }

/-- What the threads share changes. -/
def Fifo.share (s : Fifo τ κ ν) (shared : ν) : Fifo τ κ ν := { s with shared := shared }

section

variable (s : Fifo τ κ ν) (t u : τ) (k : κ) (shared : ν) (str : Bytes) (rest : List Bytes)
  (outcome : Outcome)

/-- The client has moved on. -/
@[simp] theorem goOn_self : (s.goOn t k).client t = k := by simp [Fifo.goOn]

/-- The other clients have not moved. -/
theorem goOn_of_ne {t u : τ} (h : u ≠ t) : (s.goOn t k).client u = s.client u := by
  simp [Fifo.goOn, Function.update_of_ne h]

@[simp] theorem goOn_queue : (s.goOn t k).queue = s.queue := rfl

@[simp] theorem goOn_history : (s.goOn t k).history = s.history := rfl

@[simp] theorem goOn_shared : (s.goOn t k).shared = s.shared := rfl

omit [DecidableEq τ]

@[simp] theorem share_client : (s.share shared).client = s.client := rfl

@[simp] theorem share_queue : (s.share shared).queue = s.queue := rfl

@[simp] theorem share_history : (s.share shared).history = s.history := rfl

@[simp] theorem share_shared : (s.share shared).shared = shared := rfl

@[simp] theorem put_client : (s.put str outcome).client = s.client := rfl

@[simp] theorem put_queue :
    (s.put str outcome).queue = queueAfter s.queue str outcome := rfl

@[simp] theorem put_history : (s.put str outcome).history = s.history.after str outcome := rfl

@[simp] theorem put_shared : (s.put str outcome).shared = s.shared := rfl

/-- Whether a message is stored or not, none is taken out. -/
@[simp] theorem popped_after (h : History) : (h.after str outcome).popped = h.popped := by
  unfold History.after
  split_ifs
  · rfl
  · cases outcome <;> rfl

@[simp] theorem take_client : (s.take str rest).client = s.client := rfl

@[simp] theorem take_queue : (s.take str rest).queue = rest := rfl

@[simp] theorem take_history : (s.take str rest).history = s.history.pop str := rfl

@[simp] theorem take_shared : (s.take str rest).shared = s.shared := rfl

end

/-- The threads, with a queue of messages. -/
def Clients.fifoStep (C : Clients τ κ ν ε) (s : Fifo τ κ ν) : FifoEvent τ ε → Option (Fifo τ κ ν)
  | .outside t e => (C.outside t e (s.client t) s.shared).map fun r =>
      (s.goOn t r.1).share r.2
  | .push t outcome =>
    match C.call t (s.client t) with
    | some (.push str) => some ((s.goOn t (C.finish t (s.client t) [])).put str outcome)
    | _ => none
  | .pop t =>
    match C.call t (s.client t), s.queue with
    | some .pop, [] => some (s.goOn t (C.finish t (s.client t) []))
    | some .pop, str :: rest => some ((s.goOn t (C.finish t (s.client t) str)).take str rest)
    | _, _ => none

/-- The memory has the queue with these messages, and nothing else. -/
def Stores (head : ω) (msgs : List Bytes) (h : History) (m : Memory ω) : Prop :=
  ∃ l text, (head :: l).Nodup ∧ l.map text = msgs ∧ OwnsAll h (cells head l text) m

/-- The threads with the queue in the memory are threads with a queue of messages. -/
structure Represents (head : ω) (w : Mutex.Whole τ (Own κ ω) (Memory ω) ν) (f : Fifo τ κ ν) :
    Prop where
  client : ∀ t, f.client t = (w.own t).client
  shared : f.shared = w.shared
  stores : Stores head f.queue f.history w.mem

variable {C : Clients τ κ ν ε} {head : ω} {msgs rest : List Bytes} {str : Bytes} {h : History}
  {m : Memory ω} {own : Own κ ω} {finish : κ → Bytes → κ} {mallocs : Mallocs ω}
  {w w' : Mutex.Whole τ (Own κ ω) (Memory ω) ν} {f : Fifo τ κ ν} {t : τ}

omit [DecidableEq τ] [DecidableEq ω] in
/-- An address that has no cell is not one of the queue. -/
theorem not_mem_of_fresh {l : List ω} {text : ω → Bytes} {a : ω}
    (hm : OwnsAll h (cells head l text) m) (ha : m.cells a = none) : a ∉ head :: l := by
  intro hmem
  have hfst : a ∈ (cells head l text).map Prod.fst := by
    rw [fst_cells]
    exact Multiset.mem_coe.mpr hmem
  obtain ⟨e, he, rfl⟩ := Multiset.mem_map.mp hfst
  rw [hm.cells e he] at ha
  cases ha

/-- A whole call of `adx_queue_push_dup`. -/
theorem exists_push (finish : κ → Bytes → κ) (hm : Stores head msgs h m)
    (hfresh : (mallocs.node.all fun n => (m.cells n.1).isNone) = true) :
    ∃ own' m', Mutex.runBody (pushBody head str mallocs finish) own m = some (own', m') ∧
      own'.client = finish own.client [] ∧
      Stores head (queueAfter msgs str mallocs.outcome) (h.after str mallocs.outcome) m' := by
  obtain ⟨l, list, hnodup, rfl, hcells⟩ := hm
  -- nothing is put into the queue if there is no copy
  by_cases hrefused : str = [] ∨ mallocs.text = false
  · obtain ⟨own', m', hrun, hclient, hm'⟩ := runs_pushBody_refused hrefused m hcells
    refine ⟨own', m', hrun, hclient, l, list, hnodup, ?_, ?_⟩
    · rcases hrefused with rfl | htext
      · simp [queueAfter]
      · simp [queueAfter, Mallocs.outcome, htext]
    · rcases hrefused with rfl | htext
      · simpa [History.after] using hm'
      · simpa [History.after, Mallocs.outcome, htext] using hm'
  obtain ⟨text, node⟩ := mallocs
  obtain ⟨hstr, htext⟩ := not_or.mp hrefused
  obtain rfl : text = true := by simpa using htext
  cases node with
  | none =>
    obtain ⟨own', m', hrun, hclient, hm'⟩ := runs_pushBody_lost hstr m hcells
    refine ⟨own', m', hrun, hclient, l, list, hnodup, ?_, ?_⟩
    · simp [queueAfter, Mallocs.outcome]
    · simpa [History.after, Mallocs.outcome, hstr] using hm'
  | some n =>
    obtain ⟨a, c⟩ := n
    have ha : m.cells a = none := by simpa using hfresh
    -- the new node is none of those that are there
    have hnot := not_mem_of_fresh hcells ha
    obtain ⟨own', m', hrun, hclient, hm'⟩ := runs_pushBody hstr hnot m ⟨hcells, ha⟩
    refine ⟨own', m', hrun, hclient, l ++ [a], withText list a str, ?_, ?_, ?_⟩
    · rw [← List.cons_append, List.nodup_append]
      refine ⟨hnodup, List.nodup_singleton a, ?_⟩
      intro b hb b' hb' heq
      rw [heq, List.mem_singleton.mp hb'] at hb
      exact hnot hb
    · rw [List.map_append, map_withText fun hl => hnot (List.mem_cons_of_mem _ hl)]
      simp [queueAfter, Mallocs.outcome, hstr, withText]
    · simpa [History.after, Mallocs.outcome, hstr] using hm'

/-- A whole call of `adx_queue_pop` on an empty queue. -/
theorem exists_pop_nil (finish : κ → Bytes → κ) (hm : Stores head [] h m) :
    ∃ own' m', Mutex.runBody (popBody head finish) own m = some (own', m') ∧
      own'.client = finish own.client [] ∧ Stores head [] h m' := by
  obtain ⟨l, text, hnodup, hl, hcells⟩ := hm
  obtain rfl := List.map_eq_nil_iff.mp hl
  obtain ⟨own', m', hrun, hclient, hm'⟩ := runs_popBody_nil own finish m hcells
  exact ⟨own', m', hrun, hclient, [], text, hnodup, rfl, hm'⟩

/-- A whole call of `adx_queue_pop`. -/
theorem exists_pop_cons (finish : κ → Bytes → κ) (hm : Stores head (str :: rest) h m) :
    ∃ own' m', Mutex.runBody (popBody head finish) own m = some (own', m') ∧
      own'.client = finish own.client str ∧ Stores head rest (h.pop str) m' := by
  obtain ⟨l, text, hnodup, hl, hcells⟩ := hm
  obtain ⟨b, l, rfl, rfl, rfl⟩ := List.map_eq_cons_iff.mp hl
  obtain ⟨own', m', hrun, hclient, hm'⟩ := runs_popBody_cons own finish hnodup m hcells
  refine ⟨own', m', hrun, hclient, l, text, ?_, rfl, hm'⟩
  simp only [List.nodup_cons, List.mem_cons, not_or] at hnodup ⊢
  exact ⟨hnodup.1.2, hnodup.2.2⟩

omit [DecidableEq ω] in
/-- Putting a text into the queue. -/
theorem fifoStep_push (hcall : C.call t (f.client t) = some (.push str)) (outcome : Outcome) :
    C.fifoStep f (.push t outcome) =
      some ((f.goOn t (C.finish t (f.client t) [])).put str outcome) := by
  rw [Clients.fifoStep, hcall]

omit [DecidableEq ω] in
/-- Taking from an empty queue yields the empty text. -/
theorem fifoStep_pop_nil (hcall : C.call t (f.client t) = some .pop) (hf : f.queue = []) :
    C.fifoStep f (.pop t) = some (f.goOn t (C.finish t (f.client t) [])) := by
  rw [Clients.fifoStep, hcall, hf]

omit [DecidableEq ω] in
/-- Taking the first text. -/
theorem fifoStep_pop_cons (hcall : C.call t (f.client t) = some .pop) (hf : f.queue = str :: rest) :
    C.fifoStep f (.pop t) = some ((f.goOn t (C.finish t (f.client t) str)).take str rest) := by
  rw [Clients.fifoStep, hcall, hf]

omit [DecidableEq ω] in
/-- Behind a call, the thread that has made it goes on. -/
theorem Represents.client_update (hw : Represents head w f) {own' : Own κ ω} {k : κ}
    (hown : own'.client = k) (u : τ) :
    Function.update f.client t k u = (Function.update w.own t own' u).client := by
  by_cases hu : u = t
  · subst hu
    simp [hown]
  · simp [Function.update_of_ne hu, hw.client]

/-- What a call of `adx_queue_push_dup` does to the list in the memory it does to the queue. -/
theorem exists_call_push (hw : Represents head w f) (hcall : C.call t (f.client t) = some (.push str))
    (hfresh : (mallocs.node.all fun n => (w.mem.cells n.1).isNone) = true) :
    ∃ own' m' f', Mutex.runBody (pushBody head str mallocs (C.finish t)) (w.own t) w.mem =
        some (own', m') ∧
      C.fifoStep f (.push t mallocs.outcome) = some f' ∧
      Represents head { w with own := Function.update w.own t own', mem := m' } f' := by
  obtain ⟨own', m', hrun, hclient, hm'⟩ := exists_push (C.finish t) hw.stores hfresh
  rw [← hw.client] at hclient
  exact ⟨own', m', _, hrun, fifoStep_push hcall _, hw.client_update hclient, hw.shared, hm'⟩

/-- What a call of `adx_queue_pop` does to the list in the memory it does to the queue. -/
theorem exists_call_pop (hw : Represents head w f) (hcall : C.call t (f.client t) = some .pop) :
    ∃ own' m' f', Mutex.runBody (popBody head (C.finish t)) (w.own t) w.mem = some (own', m') ∧
      C.fifoStep f (.pop t) = some f' ∧
      Represents head { w with own := Function.update w.own t own', mem := m' } f' := by
  have hstores := hw.stores
  cases hqueue : f.queue with
  | nil =>
    rw [hqueue] at hstores
    obtain ⟨own', m', hrun, hclient, hm'⟩ := exists_pop_nil (C.finish t) hstores
    rw [← hw.client] at hclient
    rw [← hqueue] at hm'
    exact ⟨own', m', _, hrun, fifoStep_pop_nil hcall hqueue, hw.client_update hclient, hw.shared, hm'⟩
  | cons str rest =>
    rw [hqueue] at hstores
    obtain ⟨own', m', hrun, hclient, hm'⟩ := exists_pop_cons (C.finish t) hstores
    rw [← hw.client] at hclient
    exact ⟨own', m', _, hrun, fifoStep_pop_cons hcall hqueue, hw.client_update hclient, hw.shared,
      hm'⟩

/-- A call never fails, and is one of a queue of messages. -/
theorem exists_call (hw : Represents head w f)
    {body : List (Stmt κ ω)} (henter : (C.system head).enter t mallocs (w.own t) w.mem = some body) :
    ∃ own' m', Mutex.runBody body (w.own t) w.mem = some (own', m') ∧ ∃ d f',
      C.fifoStep f d = some f' ∧
      Represents head { w with own := Function.update w.own t own', mem := m' } f' := by
  simp only [Clients.system] at henter
  split at henter
  · cases henter
  · rename_i str hpush
    split_ifs at henter with hfresh
    obtain rfl := Option.some.inj henter
    rw [← hw.client] at hpush
    obtain ⟨own', m', f', hrun, hstep, hf'⟩ := exists_call_push hw hpush hfresh
    exact ⟨own', m', hrun, _, f', hstep, hf'⟩
  · rename_i hpop
    obtain rfl := Option.some.inj henter
    rw [← hw.client] at hpop
    obtain ⟨own', m', f', hrun, hstep, hf'⟩ := exists_call_pop hw hpop
    exact ⟨own', m', hrun, _, f', hstep, hf'⟩

/-- Each step of the threads with whole calls is one of the threads with a queue of messages. -/
theorem whole_refines (hw : Represents head w f) {e : Mutex.WholeEvent τ ε (Mallocs ω)}
    (hstep : Mutex.wholeStep (C.system head) w e = some w') :
    ∃ d f', C.fifoStep f d = some f' ∧ Represents head w' f' := by
  cases e with
  | outside t e =>
    simp only [Mutex.wholeStep, Clients.system, Option.map_map, Option.map_eq_some_iff] at hstep
    obtain ⟨⟨k, shared⟩, hout, rfl⟩ := hstep
    rw [← hw.client, ← hw.shared] at hout
    refine ⟨.outside t e, (f.goOn t k).share shared, ?_, ?_⟩
    · rw [Clients.fifoStep, hout]
      rfl
    · exact ⟨hw.client_update rfl, rfl, hw.stores⟩
  | whole t mallocs =>
    simp only [Mutex.wholeStep, Option.bind_eq_some_iff, Option.map_eq_some_iff] at hstep
    obtain ⟨body, henter, ⟨own', m'⟩, hrun, rfl⟩ := hstep
    obtain ⟨own'', m'', hrun', d, f', hd, hf'⟩ := exists_call hw henter
    cases hrun.symm.trans hrun'
    exact ⟨d, f', hd, hf'⟩

/-! ## Runs -/

/-- The threads before the first call, with the empty queue that `adx_queue_init` makes. -/
def start (head : ω) (client : τ → κ) (shared : ν) : Mutex.Whole τ (Own κ ω) (Memory ω) ν where
  own t := ⟨client t, none, none, none, []⟩
  mem := ⟨.empty, Function.update (fun _ => none) head (some ⟨⟨some head, some head⟩, []⟩)⟩
  shared := shared

/-- The threads before the first call, with no messages. -/
def Fifo.start (client : τ → κ) (shared : ν) : Fifo τ κ ν := ⟨client, [], .empty, shared⟩

/-- What the queue of messages says of the threads, the memory and the lock: a thread with the lock
has not made its call, and the memory is described while the lock is free. -/
structure Shows (head : ω) (s : Mutex.State τ (Own κ ω) (Memory ω) ν) (f : Fifo τ κ ν) : Prop where
  client : ∀ t, s.lock.map Prod.fst ≠ some t → f.client t = (s.own t).client
  shared : f.shared = s.shared
  stores : s.lock = none → Stores head f.queue f.history s.mem

/-- Messages are taken out in the order in which they have been put in, and all of them; and a copy
has been put into the queue, or it is lost. -/
structure Fifo.Ordered (f : Fifo τ κ ν) : Prop where
  pushed : f.history.pushed = f.history.popped ++ f.queue
  copied : f.history.copied.Perm (f.history.pushed ++ f.history.lost)

omit [DecidableEq τ] [DecidableEq ω] in
/-- A call of `adx_queue_push_dup` keeps the order and the copies. -/
theorem ordered_put (hf : f.Ordered) (str : Bytes) (outcome : Outcome) :
    (f.put str outcome).Ordered := by
  obtain ⟨hpushed, hcopied⟩ := hf
  by_cases hstr : str = []
  · refine ⟨?_, ?_⟩
    · simpa [queueAfter, History.after, hstr] using hpushed
    · simpa [History.after, hstr] using hcopied
  cases outcome with
  | refused =>
    refine ⟨?_, ?_⟩
    · simpa [queueAfter, History.after, hstr] using hpushed
    · simpa [History.after, hstr] using hcopied
  | lost =>
    refine ⟨?_, ?_⟩
    · simpa [queueAfter, History.after, hstr, History.copy, History.lose] using hpushed
    · simpa [History.after, hstr, History.copy, History.lose, ← List.append_assoc] using
        hcopied.append_right [str]
  | stored =>
    refine ⟨?_, ?_⟩
    · simp [queueAfter, History.after, hstr, History.copy, History.push, hpushed]
    · have hbehind : (f.history.lost ++ [str]).Perm ([str] ++ f.history.lost) :=
        List.perm_append_comm
      have hall := (hcopied.append_right [str]).trans
        (List.append_assoc _ _ _ ▸ hbehind.append_left f.history.pushed)
      simpa [History.after, hstr, History.copy, History.push] using hall

omit [DecidableEq ω] in
/-- Every step keeps the order. -/
theorem ordered_step {d : FifoEvent τ ε} {f' : Fifo τ κ ν} (hf : f.Ordered)
    (hstep : C.fifoStep f d = some f') : f'.Ordered := by
  cases d with
  | outside t e =>
    obtain ⟨r, -, rfl⟩ := Option.map_eq_some_iff.mp hstep
    exact ⟨hf.pushed, hf.copied⟩
  | push t outcome =>
    rw [Clients.fifoStep] at hstep
    split at hstep
    · obtain rfl := Option.some.inj hstep
      have hgo : (f.goOn t (C.finish t (f.client t) [])).Ordered := ⟨hf.pushed, hf.copied⟩
      exact ordered_put hgo _ _
    · cases hstep
  | pop t =>
    rw [Clients.fifoStep] at hstep
    split at hstep
    · obtain rfl := Option.some.inj hstep
      exact ⟨hf.pushed, hf.copied⟩
    · rename_i str rest _ hqueue
      obtain rfl := Option.some.inj hstep
      refine ⟨?_, hf.copied⟩
      simp [History.pop, hf.pushed, hqueue]
    · cases hstep

omit [DecidableEq ω] in
/-- The order is kept in every run. -/
theorem ordered_run {client : τ → κ} {shared : ν} {ds : List (FifoEvent τ ε)}
    (h : Steps.run C.fifoStep (Fifo.start client shared) ds = some f) : f.Ordered := by
  have hstart : (Fifo.start client shared).Ordered := ⟨rfl, .refl _⟩
  exact Steps.run_invariant (P := Fifo.Ordered) ordered_step hstart h

variable {client : τ → κ} {shared : ν} {s : Mutex.State τ (Own κ ω) (Memory ω) ν}
  {es : List (Mutex.Event τ ε (Mallocs ω))}

omit [DecidableEq τ] in
/-- At the start the memory is the head alone. -/
theorem represents_start :
    Represents head (start head client shared) (Fifo.start client shared) := by
  refine ⟨fun _ => rfl, rfl, [], fun _ => [], List.nodup_singleton head, rfl, ?_⟩
  have hempty : cells head [] (fun _ => []) = {(head, (⟨⟨some head, some head⟩, []⟩ : Cell ω))} + 0 :=
    rfl
  have hnone : OwnsAll History.empty 0 (⟨.empty, fun _ => none⟩ : Memory ω) :=
    ⟨⟨rfl, Multiset.nodup_zero, nofun⟩, nofun⟩
  rw [hempty]
  exact hnone.alloc rfl _

/-- Every run of the threads, one access to the memory at a time, is one with a queue of messages. -/
theorem run_shows (h : Steps.run (Mutex.step (C.system head)) (start head client shared).start es =
    some s) :
    ∃ ds f, Steps.run C.fifoStep (Fifo.start client shared) ds = some f ∧ Shows head s f := by
  obtain ⟨ds, w, hds, hshared, hlock⟩ := Mutex.run_refines h
  -- whole calls are followed one by one
  have hfifo : ∃ ds f, Steps.run C.fifoStep (Fifo.start client shared) ds = some f ∧
      Represents head w f := by
    refine Steps.run_invariant (P := fun w => ∃ ds f,
      Steps.run C.fifoStep (Fifo.start client shared) ds = some f ∧ Represents head w f) ?_
      ⟨[], _, rfl, represents_start⟩ hds
    rintro w e w' ⟨ds, f, hds, hf⟩ hstep
    obtain ⟨d, f', hd, hf'⟩ := whole_refines hf hstep
    exact ⟨ds ++ [d], f', Steps.run_concat.mpr ⟨f, hds, hd⟩, hf'⟩
  obtain ⟨ds, f, hds, hf⟩ := hfifo
  refine ⟨ds, f, hds, fun t ht => ?_, hf.shared.trans hshared, fun hfree => ?_⟩
  · rw [hf.client]
    cases hs : s.lock with
    | none =>
      rw [hs] at hlock
      rw [hlock.1]
    | some holder =>
      rw [hs] at hlock ht
      rw [hlock.1 t fun heq => ht (by rw [heq]; rfl)]
  · rw [hfree] at hlock
    rw [← hlock.2]
    exact hf.stores

/-- The steps that put nothing into the queue. -/
def Clients.quietStep (C : Clients τ κ ν ε) (f : Fifo τ κ ν) : FifoEvent τ ε → Option (Fifo τ κ ν)
  | .push _ _ => none
  | d => C.fifoStep f d

omit [DecidableEq ω] in
/-- A quiet step is a step. -/
theorem fifoStep_of_quiet {d : FifoEvent τ ε} {f' : Fifo τ κ ν} (h : C.quietStep f d = some f') :
    C.fifoStep f d = some f' := by
  cases d with
  | outside t e => exact h
  | push t outcome => cases h
  | pop t => exact h

/-- A step that puts nothing into the queue can be made with the list in the memory. -/
theorem exists_whole (hw : Represents head w f) {d : FifoEvent τ ε} {f' : Fifo τ κ ν}
    (hstep : C.quietStep f d = some f') :
    ∃ e w', Mutex.wholeStep (C.system head) w e = some w' ∧ Represents head w' f' := by
  cases d with
  | outside t e =>
    obtain ⟨⟨k, shared⟩, hout, rfl⟩ := Option.map_eq_some_iff.mp hstep
    rw [hw.client, hw.shared] at hout
    have hown : (C.system head).outside t e (w.own t) w.shared =
        some ({ w.own t with client := k }, shared) :=
      Option.map_eq_some_iff.mpr ⟨_, hout, rfl⟩
    exact ⟨.outside t e, _, Mutex.wholeStep_outside hown, hw.client_update rfl, rfl, hw.stores⟩
  | push t outcome => cases hstep
  | pop t =>
    have hcall : C.call t (f.client t) = some .pop := by
      rw [Clients.quietStep, Clients.fifoStep] at hstep
      · split at hstep
        · assumption
        · assumption
        · cases hstep
      · simp
    obtain ⟨own', m', f'', hrun, hstep', hf'⟩ := exists_call_pop hw hcall
    obtain rfl := Option.some.inj (hstep.symm.trans hstep')
    have henter : (C.system head).enter t ⟨false, none⟩ (w.own t) w.mem =
        some (popBody head (C.finish t)) := by
      rw [hw.client] at hcall
      simp [Clients.system, hcall]
    exact ⟨.whole t ⟨false, none⟩, _, Mutex.wholeStep_whole henter hrun, hf'⟩

/-- A run that puts nothing into the queue can be made with the list in the memory. -/
theorem exists_run_whole (hw : Represents head w f) {ds : List (FifoEvent τ ε)} {f' : Fifo τ κ ν}
    (h : Steps.run C.quietStep f ds = some f') :
    ∃ es w', Steps.run (Mutex.wholeStep (C.system head)) w es = some w' ∧ Represents head w' f' := by
  refine Steps.run_invariant (P := fun f' => ∃ es w',
    Steps.run (Mutex.wholeStep (C.system head)) w es = some w' ∧ Represents head w' f') ?_
    ⟨[], w, rfl, hw⟩ h
  rintro f d f' ⟨es, w, hes, hw⟩ hstep
  obtain ⟨e, w', he, hw'⟩ := exists_whole hw hstep
  exact ⟨es ++ [e], w', Steps.run_concat.mpr ⟨w, hes, he⟩, hw'⟩

/-- No access to the memory fails. -/
theorem run_exec (h : Steps.run (Mutex.step (C.system head)) (start head client shared).start es =
    some s) {stmt : Stmt κ ω} {rest : List (Stmt κ ω)} (hlock : s.lock = some (t, stmt :: rest)) :
    ∃ s', Mutex.step (C.system head) s .exec = some s' := by
  refine Mutex.exec_of_whole (P := fun w => ∃ f, Represents head w f) ⟨_, represents_start⟩ ?_ ?_ h
    hlock
  · rintro w e w' ⟨f, hf⟩ hstep
    obtain ⟨d, f', -, hf'⟩ := whole_refines hf hstep
    exact ⟨f', hf'⟩
  · rintro w t mallocs body ⟨f, hf⟩ henter
    obtain ⟨own', m', hrun, -⟩ := exists_call hf henter
    exact ⟨_, hrun⟩

end

end AdxDsp.Queue
