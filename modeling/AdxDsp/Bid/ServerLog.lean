import Mathlib.Logic.Function.Basic
import AdxDsp.Lib.HandOff
import AdxDsp.Lib.Steps

/-!
# The log of the server

The workers add messages to two queues of `ServerLog`, each with a mutex of its own.  One thread
sends them: while the run flag is set, the front of each queue in turn, which it removes when the
sending succeeds; afterwards everything once, until it finds both queues empty.

* **The thread and the workers** (`step`, `Inv`, `inv_run`).
* **What is sent** (`log_handed_iff`): in every run the successful sends are made in the order of
  the additions, each message once; and every message has been handed to `SendLog` when the process
  ends exactly if none was added behind the thread's last look at its queue.
-/

open Function (update update_self update_of_ne)

namespace AdxDsp.ServerLog

variable {M : Type*}

/-- The two queues. -/
inductive Kind where
  | bid
  | detail
  deriving DecidableEq

/-- Where the sending thread is in `run`. -/
inductive Consumer (M : Type*) where
  /-- About to test the run flag. -/
  | testing
  /-- In the loop, about to look at a queue. -/
  | look (k : Kind)
  /-- With a reference to the front of a queue, and no mutex. -/
  | sending (k : Kind) (x : ℕ × M)
  /-- The sending has succeeded, the front is not removed yet. -/
  | popping (k : Kind)
  /-- Behind the loop, about to take the mutex of a queue; `doSend` as in the source. -/
  | drain (k : Kind) (doSend : Bool)
  /-- `run` has returned. -/
  | exited

/-- The thread is in the loop that looks at the run flag. -/
def Consumer.inLoop : Consumer M → Bool
  | .testing | .look _ | .sending _ _ | .popping _ => true
  | .drain _ _ | .exited => false

/-- The place in the loop behind the treatment of a queue. -/
def next : Kind → Consumer M
  | .bid => .look .detail
  | .detail => .testing

/-- The place behind the critical section of a queue in the last turns. -/
def drained (k : Kind) (doSend : Bool) : Consumer M :=
  match k with
  | .bid => .drain .detail doSend
  | .detail => if doSend then .drain .bid false else .exited

/-- The members of `ServerLog`; `joined` once the workers have been joined, `ended` once the
process ends. -/
structure State (M : Type*) where
  runFlag : Bool
  joined : Bool
  ended : Bool
  msg : Kind → HandOff M
  consumer : Consumer M

/-- The server has been started. -/
def init : State M := ⟨true, false, false, fun _ => .empty, .testing⟩

/-- What the threads do. -/
inductive Event (M : Type*) where
  /-- `AddLog`, called by a worker. -/
  | addLog (k : Kind) (m : M)
  /-- The run flag is cleared. -/
  | stop
  /-- The last worker has been joined. -/
  | join
  /-- The thread has been joined as well, and the process ends. -/
  | finish
  /-- The thread reads the run flag. -/
  | test
  /-- It looks at a queue. -/
  | look
  /-- `SendLog`, with its result. -/
  | send (ok : Bool)
  | pop
  /-- The critical section of one queue behind the loop. -/
  | drain

/-- One step; `none` where the event cannot happen. -/
def step (s : State M) : Event M → Option (State M)
  | .addLog k m =>
    if s.joined then none else some { s with msg := update s.msg k ((s.msg k).add m) }
  | .stop => some { s with runFlag := false }
  | .join => if s.runFlag then none else some { s with joined := true }
  | .finish =>
    match s.consumer, s.joined with
    | .exited, true => some { s with ended := true }
    | _, _ => none
  | .test =>
    match s.consumer with
    | .testing => some { s with consumer := if s.runFlag then .look .bid else .drain .bid false }
    | _ => none
  | .look =>
    match s.consumer with
    | .look k =>
      match (s.msg k).queue with
      | [] => some { s with consumer := next k }
      | x :: _ => some { s with consumer := .sending k x }
    | _ => none
  | .send ok =>
    match s.consumer with
    | .sending k x =>
      some { s with
        msg := update s.msg k ((s.msg k).hand x ok)
        consumer := if ok then .popping k else next k }
    | _ => none
  | .pop =>
    match s.consumer with
    | .popping k => some { s with msg := update s.msg k (s.msg k).pop, consumer := next k }
    | _ => none
  | .drain =>
    match s.consumer with
    | .drain k doSend =>
      let doSend := doSend || !(s.msg k).queue.isEmpty
      some { s with msg := update s.msg k (s.msg k).flush, consumer := drained k doSend }
    | _ => none

/-! ## Which steps can be made -/

section

variable {s s' : State M}

/-- A worker adds a message. -/
theorem addLog_cases {k : Kind} {m : M} (h : step s (.addLog k m) = some s') :
    s' = { s with msg := update s.msg k ((s.msg k).add m) } := by
  obtain ⟨-, h⟩ := Option.ite_none_left_eq_some.mp h
  exact (Option.some.inj h).symm

/-- The thread is joined. -/
theorem join_cases (h : step s .join = some s') : s' = { s with joined := true } := by
  obtain ⟨-, h⟩ := Option.ite_none_left_eq_some.mp h
  exact (Option.some.inj h).symm

/-- The program ends when the thread has left. -/
theorem finish_cases (h : step s .finish = some s') :
    s.consumer = .exited ∧ s' = { s with ended := true } := by
  simp only [step] at h
  split at h
  next hc _ => exact ⟨hc, (Option.some.inj h).symm⟩
  next => cases h

/-- The thread tests the flag. -/
theorem test_cases (h : step s .test = some s') : s.consumer = .testing ∧
    s' = { s with consumer := if s.runFlag then .look .bid else .drain .bid false } := by
  cases hc : s.consumer <;> simp only [step, hc, Option.some.injEq, reduceCtorEq] at h
  exact ⟨rfl, h.symm⟩

/-- The thread looks into a queue. -/
theorem look_cases (h : step s .look = some s') : ∃ k, s.consumer = .look k ∧
    ((s.msg k).queue = [] ∧ s' = { s with consumer := next k } ∨
      ∃ x rest, (s.msg k).queue = x :: rest ∧ s' = { s with consumer := .sending k x }) := by
  cases hc : s.consumer <;> simp only [step, hc, reduceCtorEq] at h
  split at h
  next hq => exact ⟨_, rfl, .inl ⟨hq, (Option.some.inj h).symm⟩⟩
  next x rest hq => exact ⟨_, rfl, .inr ⟨x, rest, hq, (Option.some.inj h).symm⟩⟩

/-- The thread sends the head of a queue. -/
theorem send_cases {ok : Bool} (h : step s (.send ok) = some s') : ∃ k x,
    s.consumer = .sending k x ∧ s' = { s with
      msg := update s.msg k ((s.msg k).hand x ok)
      consumer := if ok then .popping k else next k } := by
  cases hc : s.consumer <;> simp only [step, hc, Option.some.injEq, reduceCtorEq] at h
  exact ⟨_, _, rfl, h.symm⟩

/-- The thread drops what it has sent. -/
theorem pop_cases (h : step s .pop = some s') : ∃ k, s.consumer = .popping k ∧
    s' = { s with msg := update s.msg k (s.msg k).pop, consumer := next k } := by
  cases hc : s.consumer <;> simp only [step, hc, Option.some.injEq, reduceCtorEq] at h
  exact ⟨_, rfl, h.symm⟩

/-- The thread empties a queue before it leaves. -/
theorem drain_cases (h : step s .drain = some s') : ∃ k doSend, s.consumer = .drain k doSend ∧
    s' = { s with
      msg := update s.msg k (s.msg k).flush
      consumer := drained k (doSend || !(s.msg k).queue.isEmpty) } := by
  cases hc : s.consumer <;> simp only [step, hc, Option.some.injEq, reduceCtorEq] at h
  exact ⟨_, _, rfl, h.symm⟩

end

/-! ## The invariant -/

/-- What holds of one queue while the thread is at some place. -/
structure QueueInv (consumer : Consumer M) (k : Kind) (c : HandOff M) : Prop where
  sound : c.Sound
  /-- The reference of the thread is to the front. -/
  front : ∀ x, consumer = .sending k x → c.queue.head? = some x
  popping : consumer = .popping k →
    ∃ x, c.queue.head? = some x ∧ x ∈ c.handed ∧ c.sent = c.removed ++ [x]
  sent : consumer.inLoop = true → consumer ≠ .popping k → c.sent = c.removed
  sentBefore : consumer.inLoop = false → c.sent <+: c.removed
  /-- A queue that was found empty in the last turn only holds what was added since. -/
  fresh : consumer = .exited ∨ (k = .bid ∧ consumer = .drain .detail false) → c.Fresh

/-- The invariant of the runs. -/
def Inv (s : State M) : Prop := ∀ k, QueueInv s.consumer k (s.msg k)

variable {consumer consumer' : Consumer M} {k : Kind} {c : HandOff M} {s s' : State M}

/-- The invariant holds at the start. -/
theorem init_inv : Inv (init : State M) := fun _ =>
  { sound := HandOff.empty_sound
    front := fun _ h => by cases h
    popping := fun h => by cases h
    sent := fun _ _ => rfl
    sentBefore := fun h => by cases h
    fresh := fun h => by rcases h with h | ⟨-, h⟩ <;> cases h }

/-- A queue in the loop that is neither sent from nor removed from next. -/
theorem queueInv_of_loop (hs : c.Sound) (hsent : c.sent = c.removed)
    (hloop : consumer.inLoop = true) (hfront : ∀ x, consumer ≠ .sending k x)
    (hpop : consumer ≠ .popping k) : QueueInv consumer k c where
  sound := hs
  front x h := absurd h (hfront x)
  popping h := absurd h hpop
  sent _ _ := hsent
  sentBefore h := by rw [hloop] at h; cases h
  fresh h := by rcases h with rfl | ⟨-, rfl⟩ <;> cases hloop

/-- The thread goes on in the loop, at another queue than this one. -/
theorem QueueInv.move (h : QueueInv consumer k c) (hloop : consumer.inLoop = true)
    (hpop : consumer ≠ .popping k) (hloop' : consumer'.inLoop = true)
    (hfront' : ∀ x, consumer' ≠ .sending k x) (hpop' : consumer' ≠ .popping k) :
    QueueInv consumer' k c :=
  queueInv_of_loop h.sound (h.sent hloop hpop) hloop' hfront' hpop'

/-- After a queue the thread is still in its loop. -/
@[simp] theorem next_inLoop (k : Kind) : (next k : Consumer M).inLoop = true := by
  cases k <;> rfl

/-- After a queue the thread sends nothing. -/
@[simp] theorem next_ne_sending (k l : Kind) (x : ℕ × M) :
    (next k : Consumer M) ≠ .sending l x := by
  cases k <;> simp [next]

/-- After a queue the thread drops nothing. -/
@[simp] theorem next_ne_popping (k l : Kind) : (next k : Consumer M) ≠ .popping l := by
  cases k <;> simp [next]

/-- The queue that is changed and the other one keep the invariant. -/
theorem inv_update (hk : QueueInv consumer k c)
    (hother : ∀ l, l ≠ k → QueueInv consumer l (s.msg l)) :
    Inv { s with msg := update s.msg k c, consumer := consumer } := by
  intro l
  show QueueInv consumer l (update s.msg k c l)
  by_cases hl : l = k
  · subst hl
    rwa [update_self]
  · rw [update_of_ne hl]
    exact hother l hl

/-- Adding a message keeps the invariant. -/
theorem addLog_inv (hs : Inv s) (k : Kind) (m : M) :
    Inv { s with msg := update s.msg k ((s.msg k).add m) } := by
  refine inv_update ?_ fun l _ => hs l
  obtain ⟨hsound, hfront, hpop, hsent, hbefore, hfresh⟩ := hs k
  refine ⟨hsound.add m, fun x hx => HandOff.head?_append_of_some _ (hfront x hx), fun h => ?_,
    hsent, hbefore, fun h => hsound.fresh_add (hfresh h) m⟩
  obtain ⟨x, hx, hh, hx'⟩ := hpop h
  exact ⟨x, HandOff.head?_append_of_some _ hx, hh, hx'⟩

/-- Testing the flag keeps the invariant. -/
theorem test_inv (hs : Inv s) (hc : s.consumer = .testing) :
    Inv { s with consumer := if s.runFlag then .look .bid else .drain .bid false } := by
  intro l
  have hl := hs l
  rw [hc] at hl
  cases hflag : s.runFlag with
  | true => exact hl.move rfl (by simp) rfl (by simp) (by simp)
  | false =>
    have hsent := hl.sent rfl (by simp)
    exact ⟨hl.sound, by simp, by simp, by simp [Consumer.inLoop],
      fun _ => hsent ▸ List.prefix_refl _, by simp⟩

/-- Looking keeps the invariant. -/
theorem look_inv {x : ℕ × M} {rest : List (ℕ × M)} (hs : Inv s) (hc : s.consumer = .look k)
    (hq : (s.msg k).queue = x :: rest) : Inv { s with consumer := .sending k x } := by
  intro l
  have hl := hs l
  rw [hc] at hl
  refine ⟨hl.sound, fun y hy => ?_, by simp, fun _ _ => hl.sent rfl (by simp),
    by simp [Consumer.inLoop], by simp⟩
  cases hy
  show (s.msg k).queue.head? = some x
  rw [hq]
  rfl

/-- Sending keeps the invariant. -/
theorem send_inv {x : ℕ × M} (hs : Inv s) (hc : s.consumer = .sending k x) (ok : Bool) :
    Inv { s with
      msg := update s.msg k ((s.msg k).hand x ok)
      consumer := if ok then .popping k else next k } := by
  have hk := hs k
  have hhead := hk.front x hc
  rw [hc] at hk
  have hsent := hk.sent rfl (by simp)
  have hsound : ((s.msg k).hand x ok).Sound := hk.sound.hand hhead
  cases ok with
  | true =>
    refine inv_update ?_ fun l hl => ?_
    · refine ⟨hsound, by simp, fun _ => ⟨x, hhead, List.mem_append_right _ (by simp), ?_⟩,
        fun _ hne => absurd rfl hne, by simp [Consumer.inLoop], by simp⟩
      show (s.msg k).sent ++ [x] = (s.msg k).removed ++ [x]
      rw [hsent]
    · have hother := hs l
      rw [hc] at hother
      exact hother.move rfl (by simp) rfl (by simp) (by simpa using Ne.symm hl)
  | false =>
    refine inv_update ?_ fun l _ => ?_
    · exact queueInv_of_loop hsound hsent (by simp) (by simp) (by simp)
    · have hother := hs l
      rw [hc] at hother
      exact hother.move rfl (by simp) (by simp) (by simp) (by simp)

/-- Dropping keeps the invariant. -/
theorem pop_inv (hs : Inv s) (hc : s.consumer = .popping k) :
    Inv { s with msg := update s.msg k (s.msg k).pop, consumer := next k } := by
  obtain ⟨x, hhead, hh, hsent⟩ := (hs k).popping hc
  refine inv_update ?_ fun l hl => ?_
  · refine queueInv_of_loop ((hs k).sound.pop hhead hh) ?_ (by simp) (by simp) (by simp)
    show (s.msg k).sent = (s.msg k).removed ++ (s.msg k).queue.head?.toList
    rw [hsent, hhead]
    rfl
  · have hother := hs l
    rw [hc] at hother
    exact hother.move rfl (by simpa using Ne.symm hl) (by simp) (by simp) (by simp)

/-- Behind the drain the thread is out of its loop. -/
@[simp] theorem drained_inLoop (k : Kind) (doSend : Bool) :
    (drained k doSend : Consumer M).inLoop = false := by
  cases k <;> cases doSend <;> rfl

/-- In the last turns nothing is sent that counts, and what matters is which queue is fresh. -/
theorem queueInv_of_drained {doSend : Bool} (hs : c.Sound) (hsent : c.sent <+: c.removed)
    {l : Kind} (hfresh : (drained l doSend : Consumer M) = .exited ∨
      (k = .bid ∧ (drained l doSend : Consumer M) = .drain .detail false) → c.Fresh) :
    QueueInv (drained l doSend) k c where
  sound := hs
  front x h := by have := drained_inLoop (M := M) l doSend; rw [h] at this; cases this
  popping h := by have := drained_inLoop (M := M) l doSend; rw [h] at this; cases this
  sent h := by rw [drained_inLoop] at h; cases h
  sentBefore _ := hsent
  fresh := hfresh

/-- Draining keeps the invariant. -/
theorem drain_inv {doSend : Bool} (hs : Inv s) (hc : s.consumer = .drain k doSend) :
    Inv { s with
      msg := update s.msg k (s.msg k).flush
      consumer := drained k (doSend || !(s.msg k).queue.isEmpty) } := by
  have hbefore : ∀ l, (s.msg l).sent <+: (s.msg l).removed :=
    fun l => (hs l).sentBefore (by rw [hc]; rfl)
  refine inv_update ?_ fun l hl => ?_
  · refine queueInv_of_drained (hs k).sound.flush ?_ fun hfresh => ?_
    · rw [HandOff.flush]
      split
      · exact hbefore k
      · exact (hbefore k).trans (List.prefix_append _ _)
    · -- the queue was found empty
      have hempty : (s.msg k).queue = [] := by
        cases hq : (s.msg k).queue with
        | nil => rfl
        | cons x rest =>
          rw [hq] at hfresh
          cases k <;> simp [drained] at hfresh
      rw [HandOff.flush, hempty]
      exact HandOff.fresh_of_nil hempty
  · refine queueInv_of_drained (hs l).sound (hbefore l) fun hfresh => ?_
    -- only the queue of the bids was looked at before the other one
    cases k with
    | bid =>
      rcases hfresh with hfresh | ⟨rfl, -⟩
      · simp [drained] at hfresh
      · exact absurd rfl hl
    | detail =>
      cases l with
      | detail => exact absurd rfl hl
      | bid =>
        refine (hs .bid).fresh (.inr ⟨rfl, ?_⟩)
        cases doSend with
        | true => simp [drained] at hfresh
        | false => exact hc

/-- Every step keeps the invariant. -/
theorem step_inv {e : Event M} (hs : Inv s) (h : step s e = some s') : Inv s' := by
  -- the steps that change a queue or what the consumer does each have their lemma
  cases e with
  | addLog k m =>
    obtain rfl := addLog_cases h
    exact addLog_inv hs k m
  | stop =>
    cases h
    exact hs
  | join =>
    obtain rfl := join_cases h
    exact hs
  | finish =>
    obtain ⟨-, rfl⟩ := finish_cases h
    exact hs
  | test =>
    obtain ⟨hc, rfl⟩ := test_cases h
    exact test_inv hs hc
  | look =>
    obtain ⟨k, hc, ⟨-, rfl⟩ | ⟨x, rest, hq, rfl⟩⟩ := look_cases h
    · -- there is nothing to send, and the thread goes on
      intro l
      have hl := hs l
      rw [hc] at hl
      exact hl.move rfl (by simp) (by simp) (by simp) (by simp)
    · exact look_inv hs hc hq
  | send ok =>
    obtain ⟨k, x, hc, rfl⟩ := send_cases h
    exact send_inv hs hc ok
  | pop =>
    obtain ⟨k, hc, rfl⟩ := pop_cases h
    exact pop_inv hs hc
  | drain =>
    obtain ⟨k, doSend, hc, rfl⟩ := drain_cases h
    exact drain_inv hs hc

/-! ## What is sent -/

/-- Every message that was added has been handed to `SendLog`. -/
def AllHanded (s : State M) : Prop := ∀ k, ∀ x ∈ (s.msg k).added, x ∈ (s.msg k).handed

/-- No message is added behind the thread's last look at its queue: none after the thread has
returned, and none to the queue of the bids between the last two critical sections. -/
def InTime (s : State M) : Event M → Prop
  | .addLog _ _ => s.consumer ≠ .exited
  | .drain => s.consumer = .drain .detail false → (s.msg .detail).queue = [] →
      (s.msg .bid).queue = []
  | _ => True

/-- What was sent is the first part of what was added. -/
theorem QueueInv.sent_initial (h : QueueInv consumer k c) : c.sent <+: c.added := by
  have hremoved : c.removed <+: c.added := h.sound.split ▸ List.prefix_append _ _
  cases hloop : consumer.inLoop with
  | false => exact (h.sentBefore hloop).trans hremoved
  | true =>
    by_cases hpop : consumer = .popping k
    · obtain ⟨x, hx, -, hsent⟩ := h.popping hpop
      obtain ⟨rest, hq⟩ := List.head?_eq_some_iff.mp hx
      rw [hsent, h.sound.split, hq]
      exact ⟨rest, by simp⟩
    · rw [h.sent hloop hpop]
      exact hremoved

/-- The thread returns in the critical section of the details, when it has found nothing to send
in the turn. -/
theorem exits_iff {e : Event M} (h : step s e = some s') (hne : s.consumer ≠ .exited) :
    s'.consumer = .exited ↔
      e = .drain ∧ s.consumer = .drain .detail false ∧ (s.msg .detail).queue = [] := by
  have hloop : ∀ {c : Consumer M}, c.inLoop = true → c ≠ .exited := by
    rintro c hc rfl
    cases hc
  cases e with
  | addLog k m =>
    obtain rfl := addLog_cases h
    simpa using hne
  | stop =>
    cases h
    simpa using hne
  | join =>
    obtain rfl := join_cases h
    simpa using hne
  | finish => exact absurd (finish_cases h).1 hne
  | test =>
    obtain ⟨hc, rfl⟩ := test_cases h
    cases s.runFlag <;> simp
  | look =>
    obtain ⟨k, hc, ⟨-, rfl⟩ | ⟨x, rest, hq, rfl⟩⟩ := look_cases h
    · simpa using hloop (next_inLoop _)
    · simp
  | send ok =>
    obtain ⟨k, x, hc, rfl⟩ := send_cases h
    cases ok with
    | true => simp
    | false => simpa using hloop (next_inLoop _)
  | pop =>
    obtain ⟨k, hc, rfl⟩ := pop_cases h
    simpa using hloop (next_inLoop _)
  | drain =>
    -- the only place that the thread returns from
    obtain ⟨k, doSend, hc, rfl⟩ := drain_cases h
    show drained k _ = Consumer.exited ↔ _
    rw [hc]
    cases k with
    | bid => simp [drained]
    | detail => cases doSend <;> simp [drained]

/-- What happens after the thread has returned. -/
theorem after_exit {e : Event M} (h : step s e = some s') (hc : s.consumer = .exited) :
    s'.consumer = .exited ∧ ((∀ k, (s'.msg k).queue = []) ↔
      (∀ k, (s.msg k).queue = []) ∧ InTime s e) := by
  cases e with
  | addLog k m =>
    obtain rfl := addLog_cases h
    -- a message that nobody will send any more
    refine ⟨hc, iff_of_false (fun hall => ?_) fun hin => hin.2 hc⟩
    have hadded : (update s.msg k ((s.msg k).add m) k).queue = [] := hall k
    rw [update_self] at hadded
    exact absurd hadded (List.append_ne_nil_of_right_ne_nil _ (by simp))
  | stop =>
    cases h
    exact ⟨hc, by simp [InTime]⟩
  | join =>
    obtain rfl := join_cases h
    exact ⟨hc, by simp [InTime]⟩
  | finish =>
    obtain ⟨-, rfl⟩ := finish_cases h
    exact ⟨hc, by simp [InTime]⟩
  | test => simp [step, hc] at h
  | look => simp [step, hc] at h
  | send ok => simp [step, hc] at h
  | pop => simp [step, hc] at h
  | drain => simp [step, hc] at h

/-- The program ends only after the thread has left. -/
theorem ended_of_step {e : Event M} (h : step s e = some s') (hend : s'.ended = true) :
    s.ended = true ∨ s.consumer = .exited := by
  cases e with
  | addLog k m =>
    obtain rfl := addLog_cases h
    exact .inl hend
  | stop =>
    cases h
    exact .inl hend
  | join =>
    obtain rfl := join_cases h
    exact .inl hend
  | finish => exact .inr (finish_cases h).1
  | test =>
    obtain ⟨-, rfl⟩ := test_cases h
    exact .inl hend
  | look =>
    obtain ⟨k, -, ⟨-, rfl⟩ | ⟨x, rest, -, rfl⟩⟩ := look_cases h <;> exact .inl hend
  | send ok =>
    obtain ⟨k, x, -, rfl⟩ := send_cases h
    exact .inl hend
  | pop =>
    obtain ⟨k, -, rfl⟩ := pop_cases h
    exact .inl hend
  | drain =>
    obtain ⟨k, doSend, -, rfl⟩ := drain_cases h
    exact .inl hend

/-- What the runs keep: when the thread has returned, the messages were all in time exactly if the
queues are empty. -/
structure RunInv (es : List (Event M)) (s : State M) : Prop where
  run : Steps.run step init es = some s
  inv : Inv s
  ended : s.ended = true → s.consumer = .exited
  before : s.consumer ≠ .exited → Steps.Along step InTime init es
  after : s.consumer = .exited →
    (Steps.Along step InTime init es ↔ ∀ k, (s.msg k).queue = [])

/-- One more step keeps the invariant of the run. -/
theorem RunInv.step {es : List (Event M)} {e : Event M} (hs : RunInv es s)
    (h : step s e = some s') : RunInv (es ++ [e]) s' := by
  -- the condition on a run is one on its steps
  have halong : Steps.Along ServerLog.step InTime init (es ++ [e]) ↔
      Steps.Along ServerLog.step InTime init es ∧ InTime s e := by
    rw [Steps.along_concat, hs.run]
    simp
  have hrun := Steps.run_concat.mpr ⟨s, hs.run, h⟩
  have hinv := step_inv hs.inv h
  -- the consumer was gone before, or this step may be its last look
  by_cases hc : s.consumer = .exited
  · obtain ⟨hc', hqueues⟩ := after_exit h hc
    refine ⟨hrun, hinv, fun _ => hc', fun hne => absurd hc' hne, fun _ => ?_⟩
    rw [halong, hs.after hc, hqueues]
  · have hexits := exits_iff h hc
    refine ⟨hrun, hinv, fun hend => ?_, fun hne => halong.mpr ⟨hs.before hc, ?_⟩, fun hc' => ?_⟩
    · exact absurd ((ended_of_step h hend).elim hs.ended id) hc
    · -- a critical section in which the thread does not return
      cases e with
      | addLog k m => exact hc
      | drain => exact fun hd hq => absurd (hexits.mpr ⟨rfl, hd, hq⟩) hne
      | _ => trivial
    · obtain ⟨rfl, hd, hq⟩ := hexits.mp hc'
      have hmsg : s'.msg = update s.msg .detail (s.msg .detail).flush := by
        obtain ⟨k, doSend, hd', rfl⟩ := drain_cases h
        cases hd.symm.trans hd'
        rfl
      have hflush : (s.msg .detail).flush = s.msg .detail := by rw [HandOff.flush, hq]
      rw [halong, hmsg, hflush, Function.update_eq_self]
      constructor
      · rintro ⟨-, hin⟩ k
        cases k with
        | bid => exact hin hd hq
        | detail => exact hq
      · exact fun hall => ⟨hs.before hc, fun _ _ => hall .bid⟩

/-- The invariant holds of every run. -/
theorem runInv_run {es : List (Event M)} (h : Steps.run step init es = some s) : RunInv es s :=
  Steps.run_induction (P := RunInv)
    { run := rfl
      inv := init_inv
      ended := fun hend => by cases hend
      before := fun _ => trivial
      after := fun hc => by cases hc }
    (fun hs hstep => hs.step hstep) h

/-- **What is sent.**  In every run the messages sent with success in the loop are, for each
queue, the first ones added, in their order and each of them once; and when the process has ended,
every message has been handed to `SendLog` exactly if each was added before the thread's last look
at its queue. -/
theorem log_handed_iff (es : List (Event M)) (s : State M)
    (h : Steps.run step init es = some s) :
    (∀ k, (s.msg k).sent <+: (s.msg k).added ∧ (s.msg k).added.Nodup) ∧
      (s.ended = true → (AllHanded s ↔ Steps.Along step InTime init es)) := by
  have hs := runInv_run h
  refine ⟨fun k => ⟨(hs.inv k).sent_initial, (hs.inv k).sound.added_nodup⟩, fun hend => ?_⟩
  have hc := hs.ended hend
  rw [hs.after hc]
  exact forall_congr' fun k => (hs.inv k).sound.handed_all_iff ((hs.inv k).fresh (.inl hc))

/-- A worker answers its last request when the thread has already returned. -/
def lateWorker : List (Event ℕ) :=
  [.stop, .test, .drain, .drain, .addLog .bid 7, .join, .finish]

/-- The run in which a worker is late. -/
theorem log_handed_iff_lateWorker : ∃ s, Steps.run step init lateWorker = some s ∧
    (AllHanded s ↔ Steps.Along step InTime init lateWorker) := by
  refine ⟨_, rfl, ?_⟩
  exact (log_handed_iff lateWorker _ rfl).2 rfl

/-- Its message is still in the queue when the process ends. -/
theorem late_message_lost : ∃ s, Steps.run step init lateWorker = some s ∧ s.ended = true ∧
    (s.msg .bid).queue = [(0, 7)] ∧ (s.msg .bid).handed = [] ∧ ¬ AllHanded s := by
  refine ⟨_, rfl, rfl, rfl, rfl, fun h => ?_⟩
  exact List.not_mem_nil (h .bid (0, 7) (List.mem_singleton.mpr rfl))

end AdxDsp.ServerLog
