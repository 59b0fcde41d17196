import Mathlib

/-!
# Programs that send commands to a server

`Prog C R α` is a program that sends commands of type `C`, receives replies of type `R` and ends
with a value of type `α`.  One description of a program serves two semantics:

* **Alone** (`Prog.eval`): the program runs to its end against a server.
* **Interleaved** (`System.run`): any number of programs share a server, and a schedule says whose
  next command is executed; a single command is atomic, a program is not.

`Prog.Sends` bounds the commands a program can send, whatever the replies are, and carries every
invariant of these commands through a whole run (`Prog.Sends.eval_invariant`).
-/

/-- A program that sends commands of type `C` and receives replies of type `R`. -/
inductive Prog (C R α : Type) where
  /-- The program has ended. -/
  | ret (a : α)
  /-- The program sends a command and continues with the reply. -/
  | send (c : C) (k : R → Prog C R α)

namespace Prog

variable {C R S α β : Type}

/-- Sequencing. -/
def bind : Prog C R α → (α → Prog C R β) → Prog C R β
  | ret a, f => f a
  | send c k, f => send c fun r => (k r).bind f

instance : Monad (Prog C R) where
  pure := ret
  bind := bind

/-- Send one command and return its reply. -/
def call (c : C) : Prog C R R := send c ret

@[simp] theorem pure_eq_ret (a : α) : (pure a : Prog C R α) = ret a := rfl

@[simp] theorem ret_bind (a : α) (f : α → Prog C R β) : (ret a >>= f) = f a := rfl

@[simp] theorem send_bind (c : C) (k : R → Prog C R α) (f : α → Prog C R β) :
    (send c k >>= f) = send c fun r => k r >>= f := rfl

/-- A command, and what follows with its answer. -/
theorem call_bind (c : C) (f : R → Prog C R α) : (call c >>= f) = send c f := rfl

/-- Returning the result of a program changes nothing. -/
theorem bind_ret (p : Prog C R α) : p.bind ret = p := by
  induction p with
  | ret a => rfl
  | send c k ih => simp only [bind, ih]

/-- Programs in a row are associative. -/
theorem bind_assoc (p : Prog C R α) (f : α → Prog C R β) {γ : Type} (g : β → Prog C R γ) :
    (p.bind f).bind g = p.bind fun a => (f a).bind g := by
  induction p with
  | ret a => rfl
  | send c k ih => simp only [bind, ih]

instance : LawfulMonad (Prog C R) :=
  LawfulMonad.mk' (Prog C R) (fun p => bind_ret p) (fun _ _ => rfl) (fun p f g => bind_assoc p f g)

/-- The first command of a program. -/
def first : Prog C R α → Option C
  | ret _ => none
  | send c _ => some c

/-! ## A program alone -/

variable (exec : S → C → S × R)

/-- Run a program to its end against a server. -/
def eval : Prog C R α → S → α × S
  | ret a, s => (a, s)
  | send c k, s => eval (k (exec s c).2) (exec s c).1

@[simp] theorem eval_ret (a : α) (s : S) : (ret a : Prog C R α).eval exec s = (a, s) := rfl

@[simp] theorem eval_send (c : C) (k : R → Prog C R α) (s : S) :
    (send c k).eval exec s = (k (exec s c).2).eval exec (exec s c).1 := rfl

@[simp] theorem eval_call (c : C) (s : S) :
    (call c : Prog C R R).eval exec s = ((exec s c).2, (exec s c).1) := rfl

/-- A sequence runs its parts one after the other. -/
@[simp] theorem eval_bind (p : Prog C R α) (f : α → Prog C R β) (s : S) :
    (p >>= f).eval exec s = (f (p.eval exec s).1).eval exec (p.eval exec s).2 := by
  induction p generalizing s with
  | ret a => rfl
  | send c k ih => exact ih _ _

/-- The commands a run sends, in their order. -/
def sent : Prog C R α → S → List C
  | ret _, _ => []
  | send c k, s => c :: sent (k (exec s c).2) (exec s c).1

@[simp] theorem sent_ret (a : α) (s : S) : (ret a : Prog C R α).sent exec s = [] := rfl

@[simp] theorem sent_send (c : C) (k : R → Prog C R α) (s : S) :
    (send c k).sent exec s = c :: (k (exec s c).2).sent exec (exec s c).1 := rfl

@[simp] theorem sent_call (c : C) (s : S) : (call c : Prog C R R).sent exec s = [c] := rfl

/-- A sequence sends the commands of its parts one after the other. -/
@[simp] theorem sent_bind (p : Prog C R α) (f : α → Prog C R β) (s : S) :
    (p >>= f).sent exec s =
      p.sent exec s ++ (f (p.eval exec s).1).sent exec (p.eval exec s).2 := by
  induction p generalizing s with
  | ret a => rfl
  | send c k ih =>
    rw [send_bind, sent_send, ih]
    rfl

/-- The commands a run sends, with their replies. -/
def transcript : Prog C R α → S → List (C × R)
  | ret _, _ => []
  | send c k, s => (c, (exec s c).2) :: transcript (k (exec s c).2) (exec s c).1

@[simp] theorem transcript_ret (a : α) (s : S) :
    (ret a : Prog C R α).transcript exec s = [] := rfl

@[simp] theorem transcript_send (c : C) (k : R → Prog C R α) (s : S) :
    (send c k).transcript exec s =
      (c, (exec s c).2) :: (k (exec s c).2).transcript exec (exec s c).1 := rfl

/-- The transcript of a sequence is the transcripts of its parts, one after the other. -/
@[simp] theorem transcript_bind (p : Prog C R α) (f : α → Prog C R β) (s : S) :
    (p >>= f).transcript exec s = p.transcript exec s ++
      (f (p.eval exec s).1).transcript exec (p.eval exec s).2 := by
  induction p generalizing s with
  | ret a => rfl
  | send c k ih =>
    rw [send_bind, transcript_send, ih]
    rfl

/-! ## The commands of a program -/

/-- Every command the program can send satisfies `P`, whatever the replies. -/
def Sends (P : C → Prop) : Prog C R α → Prop
  | ret _ => True
  | send c k => P c ∧ ∀ r, (k r).Sends P

namespace Sends

variable {P Q : C → Prop}

/-- A program without a command sends nothing. -/
@[simp] theorem ret (a : α) : (Prog.ret a : Prog C R α).Sends P := trivial

@[simp] theorem send_iff {c : C} {k : R → Prog C R α} :
    (Prog.send c k).Sends P ↔ P c ∧ ∀ r, (k r).Sends P := Iff.rfl

/-- A command alone. -/
@[simp] theorem call_iff {c : C} : (call c : Prog C R R).Sends P ↔ P c :=
  ⟨fun h => h.1, fun h => ⟨h, fun _ => trivial⟩⟩

/-- Two programs in a row. -/
theorem bind {p : Prog C R α} {f : α → Prog C R β} (hp : p.Sends P)
    (hf : ∀ a, (f a).Sends P) : (p >>= f).Sends P := by
  induction p with
  | ret a => exact hf a
  | send c k ih => exact ⟨hp.1, fun r => ih r (hp.2 r)⟩

/-- A choice sends what its branches send. -/
theorem ite {c : Prop} [Decidable c] {p q : Prog C R α} (hp : c → p.Sends P)
    (hq : ¬c → q.Sends P) : (if c then p else q).Sends P := by
  split_ifs with h
  · exact hp h
  · exact hq h

/-- A loop sends what its body sends. -/
theorem forM {f : β → Prog C R PUnit} {l : List β} (h : ∀ x ∈ l, (f x).Sends P) :
    (l.forM f).Sends P := by
  induction l with
  | nil => trivial
  | cons x l ih =>
    obtain ⟨hx, hl⟩ := List.forall_mem_cons.mp h
    exact hx.bind fun _ => ih hl

/-- A larger set of commands. -/
theorem mono {p : Prog C R α} (hp : p.Sends P) (h : ∀ c, P c → Q c) : p.Sends Q := by
  induction p with
  | ret a => trivial
  | send c k ih => exact ⟨h c hp.1, fun r => ih r (hp.2 r)⟩

/-- A run sends nothing but what the program can send. -/
theorem of_mem_sent {exec : S → C → S × R} {p : Prog C R α} (hp : p.Sends P) {s : S} {c : C}
    (hc : c ∈ p.sent exec s) : P c := by
  induction p generalizing s with
  | ret a => exact absurd hc List.not_mem_nil
  | send d k ih =>
    rcases List.mem_cons.mp hc with rfl | hc
    · exact hp.1
    · exact ih _ (hp.2 _) hc

/-- An invariant of the commands is an invariant of the program. -/
theorem eval_invariant {exec : S → C → S × R} {I : S → Prop} {p : Prog C R α} (hp : p.Sends P)
    (hI : ∀ s c, P c → I s → I (exec s c).1) {s : S} (hs : I s) : I (p.eval exec s).2 := by
  induction p generalizing s with
  | ret a => exact hs
  | send c k ih => exact ih _ (hp.2 _) (hI s c hp.1 hs)

end Sends

/-- On every path at most one of the commands satisfies `P`. -/
def SendsOnce (P : C → Prop) : Prog C R α → Prop
  | ret _ => True
  | send c k => (P c → ∀ r, (k r).Sends (¬P ·)) ∧ ∀ r, (k r).SendsOnce P

namespace SendsOnce

variable {P : C → Prop}

/-- A program without a command sends no such command. -/
@[simp] theorem ret (a : α) : (Prog.ret a : Prog C R α).SendsOnce P := trivial

/-- What is never sent is sent at most once. -/
theorem of_sends_not {p : Prog C R α} (hp : p.Sends (¬P ·)) : p.SendsOnce P := by
  induction p with
  | ret a => trivial
  | send c k ih => exact ⟨fun hc => absurd hc hp.1, fun r => ih r (hp.2 r)⟩

/-- Both branches of a choice. -/
theorem ite {c : Prop} [Decidable c] {p q : Prog C R α} (hp : c → p.SendsOnce P)
    (hq : ¬c → q.SendsOnce P) : (if c then p else q).SendsOnce P := by
  split_ifs with h
  · exact hp h
  · exact hq h

/-- If the first program sends it at most once, the second must not send it. -/
theorem bind_left {p : Prog C R α} {f : α → Prog C R β} (hp : p.SendsOnce P)
    (hf : ∀ a, (f a).Sends (¬P ·)) : (p >>= f).SendsOnce P := by
  induction p with
  | ret a => exact of_sends_not (hf a)
  | send c k ih => exact ⟨fun hc r => (hp.1 hc r).bind hf, fun r => ih r (hp.2 r)⟩

/-- If the first program never sends it, the second one counts. -/
theorem bind_right {p : Prog C R α} {f : α → Prog C R β} (hp : p.Sends (¬P ·))
    (hf : ∀ a, (f a).SendsOnce P) : (p >>= f).SendsOnce P := by
  induction p with
  | ret a => exact hf a
  | send c k ih => exact ⟨fun hc => absurd hc hp.1, fun r => ih r (hp.2 r)⟩

/-- A value that only the commands in `P` change, each in a way that `Q` allows, is the old one at
the end of a run or has changed once. -/
theorem eval_changed {exec : S → C → S × R} {V : Type} {value : S → V} {Q : V → V → Prop}
    {A : C → Prop} {p : Prog C R α} (hp : p.SendsOnce P) (hA : p.Sends A)
    (hkeep : ∀ s c, ¬P c → value (exec s c).1 = value s)
    (hchange : ∀ s c, A c → P c →
      value (exec s c).1 = value s ∨ Q (value s) (value (exec s c).1)) (s : S) :
    value (p.eval exec s).2 = value s ∨ Q (value s) (value (p.eval exec s).2) := by
  induction p generalizing s with
  | ret a => exact .inl rfl
  | send c k ih =>
    rw [eval_send]
    by_cases hc : P c
    · -- after its only change, the value stays
      have hrest : value ((k (exec s c).2).eval exec (exec s c).1).2 = value (exec s c).1 :=
        (hp.1 hc _).eval_invariant (I := fun t => value t = value (exec s c).1)
          (fun t d hd ht => (hkeep t d hd).trans ht) rfl
      rw [hrest]
      exact hchange s c hA.1 hc
    · rw [← hkeep s c hc]
      exact ih _ (hp.2 _) (hA.2 _) _

end SendsOnce

end Prog

/-! ## Interleaved programs -/

/-- A server shared by threads, each given by the rest of its program. -/
structure System (ι C R S α : Type) where
  server : S
  thread : ι → Prog C R α

namespace System

variable {ι C R S α : Type} [DecidableEq ι] (exec : S → C → S × R)

/-- The next command of thread `i` is executed; a thread that has ended does nothing. -/
def step (s : System ι C R S α) (i : ι) : System ι C R S α :=
  match s.thread i with
  | .ret _ => s
  | .send c k => ⟨(exec s.server c).1, Function.update s.thread i (k (exec s.server c).2)⟩

/-- The commands are executed in the order of the schedule. -/
def run (s : System ι C R S α) (schedule : List ι) : System ι C R S α :=
  schedule.foldl (step exec) s

@[simp] theorem run_nil (s : System ι C R S α) : s.run exec [] = s := rfl

@[simp] theorem run_cons (s : System ι C R S α) (i : ι) (is : List ι) :
    s.run exec (i :: is) = (s.step exec i).run exec is := rfl

/-- A run in two parts. -/
theorem run_append (s : System ι C R S α) (is js : List ι) :
    s.run exec (is ++ js) = (s.run exec is).run exec js := List.foldl_append

/-- A run with one more step. -/
theorem run_concat (s : System ι C R S α) (is : List ι) (i : ι) :
    s.run exec (is ++ [i]) = (s.run exec is).step exec i := by
  rw [run_append]
  rfl

variable {exec}

/-- A step of a thread that has ended changes nothing. -/
theorem step_of_ret {s : System ι C R S α} {i : ι} {a : α} (h : s.thread i = .ret a) :
    s.step exec i = s := by
  rw [step, h]

/-- A thread with a command sends it and gets the answer. -/
theorem step_of_send {s : System ι C R S α} {i : ι} {c : C} {k : R → Prog C R α}
    (h : s.thread i = .send c k) :
    s.step exec i =
      ⟨(exec s.server c).1, Function.update s.thread i (k (exec s.server c).2)⟩ := by
  rw [step, h]

end System
