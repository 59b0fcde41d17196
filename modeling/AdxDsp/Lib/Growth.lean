import AdxDsp.Lib.Redis

/-!
# Values that grow while a program runs

A value of the server that every command changes by a known amount grows by the sum of these
amounts, in every run whose commands succeed.  The values here are the sums of the numbers in
families of hash fields: `HINCRBY` on one field of a family adds to the sum of the family.

* **`Prog.Grows`**: a program adds a fixed amount, with one rule for each way to build a program.
* **`Prog.GrowsIn`**: a program adds an amount of a submonoid.
* **`Redis.Store.familySum_hincrby`**: the sums after one `HINCRBY`.
-/

namespace Prog

variable {C R S α β M : Type} [AddMonoid M]

/-- Every run of the program from a state in `I`, in which no reply is bad, ends in `I` and adds `δ`
to the value. -/
def Grows (exec : S → C → S × R) (bad : R → Prop) (I : S → Prop) (value : S → M) (p : Prog C R α)
    (δ : M) : Prop :=
  ∀ s, I s → (∀ x ∈ p.transcript exec s, ¬bad x.2) →
    I (p.eval exec s).2 ∧ value (p.eval exec s).2 = value s + δ

namespace Grows

variable {exec : S → C → S × R} {bad : R → Prop} {I : S → Prop} {value : S → M}

/-- A program without a command adds nothing. -/
theorem ret (a : α) : (Prog.ret a : Prog C R α).Grows exec bad I value 0 := by
  intro s hs _
  exact ⟨hs, (add_zero _).symm⟩

/-- A command that adds `δ`, and then programs that add `ε`. -/
theorem send {c : C} {k : R → Prog C R α} {δ ε : M}
    (hc : ∀ s, I s → ¬bad (exec s c).2 → I (exec s c).1 ∧ value (exec s c).1 = value s + δ)
    (hk : ∀ r, (k r).Grows exec bad I value ε) :
    (Prog.send c k).Grows exec bad I value (δ + ε) := by
  intro s hs hok
  rw [transcript_send, List.forall_mem_cons] at hok
  obtain ⟨hI, hvalue⟩ := hc s hs hok.1
  obtain ⟨hI', hvalue'⟩ := hk _ _ hI hok.2
  refine ⟨hI', ?_⟩
  rw [eval_send, hvalue', hvalue, add_assoc]

/-- A command that adds `δ`. -/
theorem call {c : C} {δ : M}
    (hc : ∀ s, I s → ¬bad (exec s c).2 → I (exec s c).1 ∧ value (exec s c).1 = value s + δ) :
    (Prog.call c : Prog C R R).Grows exec bad I value δ := by
  have h : (Prog.call c : Prog C R R).Grows exec bad I value (δ + 0) := send hc ret
  rwa [add_zero] at h

/-- Two programs in a row add both amounts. -/
theorem bind {p : Prog C R α} {f : α → Prog C R β} {δ ε : M}
    (hp : p.Grows exec bad I value δ) (hf : ∀ a, (f a).Grows exec bad I value ε) :
    (p >>= f).Grows exec bad I value (δ + ε) := by
  intro s hs hok
  rw [transcript_bind, List.forall_mem_append] at hok
  obtain ⟨hI, hvalue⟩ := hp s hs hok.1
  obtain ⟨hI', hvalue'⟩ := hf _ _ hI hok.2
  rw [eval_bind]
  refine ⟨hI', ?_⟩
  rw [hvalue', hvalue, add_assoc]

/-- A program whose commands add nothing adds nothing. -/
theorem of_sends {P : C → Prop} {p : Prog C R α} (hp : p.Sends P)
    (hP : ∀ c, P c → ∀ s, I s → I (exec s c).1 ∧ value (exec s c).1 = value s) :
    p.Grows exec bad I value 0 := by
  induction p with
  | ret a => exact ret a
  | send c k ih =>
    have hsend : (Prog.send c k).Grows exec bad I value (0 + 0) := by
      refine send ?_ fun r => ih r (hp.2 r)
      intro s hs _
      rw [add_zero]
      exact hP c hp.1 s hs
    rwa [add_zero] at hsend

/-- The amount may be written otherwise. -/
theorem congr {p : Prog C R α} {δ ε : M} (hp : p.Grows exec bad I value δ) (h : δ = ε) :
    p.Grows exec bad I value ε := h ▸ hp

end Grows

/-- Every run of the program from a state in `I`, in which no reply is bad, ends in `I` and adds an
amount in `D` to the value. -/
def GrowsIn (exec : S → C → S × R) (bad : R → Prop) (I : S → Prop) (value : S → M)
    (p : Prog C R α) (D : AddSubmonoid M) : Prop :=
  ∀ s, I s → (∀ x ∈ p.transcript exec s, ¬bad x.2) →
    I (p.eval exec s).2 ∧ ∃ δ ∈ D, value (p.eval exec s).2 = value s + δ

namespace GrowsIn

variable {exec : S → C → S × R} {bad : R → Prop} {I : S → Prop} {value : S → M} {D : AddSubmonoid M}

/-- A fixed amount is one of a set of amounts. -/
theorem of_grows {p : Prog C R α} {δ : M} (hp : p.Grows exec bad I value δ) (hδ : δ ∈ D) :
    p.GrowsIn exec bad I value D := by
  intro s hs hok
  obtain ⟨hI, hvalue⟩ := hp s hs hok
  exact ⟨hI, δ, hδ, hvalue⟩

/-- A program without a command stays in a set of amounts with zero. -/
theorem ret (a : α) : (Prog.ret a : Prog C R α).GrowsIn exec bad I value D :=
  of_grows (Grows.ret a) D.zero_mem

/-- A set that is closed under addition bounds two programs in a row. -/
theorem bind {p : Prog C R α} {f : α → Prog C R β} (hp : p.GrowsIn exec bad I value D)
    (hf : ∀ a, (f a).GrowsIn exec bad I value D) : (p >>= f).GrowsIn exec bad I value D := by
  intro s hs hok
  rw [transcript_bind, List.forall_mem_append] at hok
  obtain ⟨hI, δ, hδ, hvalue⟩ := hp s hs hok.1
  obtain ⟨hI', ε, hε, hvalue'⟩ := hf _ _ hI hok.2
  rw [eval_bind]
  refine ⟨hI', δ + ε, D.add_mem hδ hε, ?_⟩
  rw [hvalue', hvalue, add_assoc]

/-- Both branches bound a choice. -/
theorem ite {c : Prop} [Decidable c] {p q : Prog C R α} (hp : c → p.GrowsIn exec bad I value D)
    (hq : ¬c → q.GrowsIn exec bad I value D) :
    (if c then p else q).GrowsIn exec bad I value D := by
  split_ifs with h
  · exact hp h
  · exact hq h

end GrowsIn

end Prog

namespace Redis

open CText

/-! ## Sums over families of fields -/

/-- Adding to one value of a function adds to its sum. -/
theorem finsum_add_at {ι : Type} [DecidableEq ι] {f g : ι → ℤ} (hf : (Function.support f).Finite)
    (i : ι) (n : ℤ) (hg : ∀ j, g j = f j + if j = i then n else 0) :
    (Function.support g).Finite ∧ ∑ᶠ j, g j = ∑ᶠ j, f j + n := by
  have hsingle : (Function.support fun j => if j = i then n else 0).Finite := by
    apply (Set.finite_singleton i).subset
    intro j hj
    by_contra hne
    exact hj (if_neg hne)
  have hsum : g = fun j => f j + if j = i then n else 0 := funext hg
  rw [hsum]
  refine ⟨(hf.union hsingle).subset (Function.support_add _ _), ?_⟩
  rw [finsum_add_distrib hf hsingle,
    finsum_eq_single (fun j => if j = i then n else 0) i fun j hj => if_neg hj, if_pos rfl]

namespace Store

variable {κ : Type} {ι : κ → Type} (key : Bytes) (field : ∀ k, ι k → Bytes)

/-- The sum of the numbers in a family of fields of a hash. -/
noncomputable def familySum (s : Store) (k : κ) : ℤ := ∑ᶠ i, s.number key (field k i)

/-- In each family only finitely many fields hold a number that is not zero. -/
def FiniteFamilies (s : Store) : Prop :=
  ∀ k, (Function.support fun i => s.number key (field k i)).Finite

variable {key field}

/-- `HINCRBY` that succeeds adds to the number of its field and leaves the other numbers. -/
theorem number_hincrby_ok {s : Store} {f : Bytes} {n : ℤ}
    (h : ¬(s.exec (.hincrby key f n)).2.Failed) (g : Bytes) :
    (s.exec (.hincrby key f n)).1.number key g = s.number key g + if g = f then n else 0 := by
  by_cases hg : g = f
  · subst hg
    rw [if_pos rfl]
    by_cases hn : n < 2 ^ 63
    · cases hold : s.counter? key g with
      | some old => rw [exec_hincrby hold hn, number_setField, number_of_counter? hold]
      | none =>
        rw [exec, if_pos hn, hold] at h
        exact absurd (.inl rfl) h
    · rw [exec, if_neg hn] at h
      exact absurd (.inl rfl) h
  · have hw : ¬(Cmd.hincrby key f n).writesField key g := fun hw => hg hw.2.symm
    rw [if_neg hg, add_zero, number_exec s hw]

/-- `HINCRBY` on a field of a family adds to the sum of this family only. -/
theorem familySum_hincrby [DecidableEq κ]
    (hinj : Function.Injective fun x : Sigma ι => field x.1 x.2) {s : Store} {k : κ} {i : ι k}
    {n : ℤ} (h : ¬(s.exec (.hincrby key (field k i) n)).2.Failed)
    (hfin : s.FiniteFamilies key field) :
    (s.exec (.hincrby key (field k i) n)).1.FiniteFamilies key field ∧
      (s.exec (.hincrby key (field k i) n)).1.familySum key field =
        s.familySum key field + Pi.single k n := by
  classical
  -- the numbers of all other fields stay
  have hnumber : ∀ (l : κ) (j : ι l),
      (s.exec (.hincrby key (field k i) n)).1.number key (field l j) =
      s.number key (field l j) + if (⟨l, j⟩ : Sigma ι) = ⟨k, i⟩ then n else 0 := by
    intro l j
    have hiff : field l j = field k i ↔ (⟨l, j⟩ : Sigma ι) = ⟨k, i⟩ :=
      ⟨fun he => hinj he, fun he => congrArg (fun x : Sigma ι => field x.1 x.2) he⟩
    rw [number_hincrby_ok h]
    simp only [hiff]
  have hfamily : ∀ l, (Function.support fun j =>
      (s.exec (.hincrby key (field k i) n)).1.number key (field l j)).Finite ∧
        (s.exec (.hincrby key (field k i) n)).1.familySum key field l =
          s.familySum key field l + (Pi.single k n : κ → ℤ) l := by
    intro l
    by_cases hl : l = k
    · -- one summand of this family grows
      subst hl
      rw [Pi.single_eq_same]
      apply finsum_add_at (hfin l) i n
      intro j
      rw [hnumber]
      simp only [Sigma.mk.injEq, heq_eq_eq, true_and]
    · -- the field is in no other family
      have hkeep : (fun j => (s.exec (.hincrby key (field k i) n)).1.number key (field l j)) =
          fun j => s.number key (field l j) := by
        funext j
        rw [hnumber, if_neg fun he => hl (congrArg Sigma.fst he), add_zero]
      rw [familySum, hkeep, Pi.single_eq_of_ne hl, add_zero]
      exact ⟨hfin l, rfl⟩
  exact ⟨fun l => (hfamily l).1, funext fun l => (hfamily l).2⟩

/-- A command that writes no field of the families changes no sum. -/
theorem familySum_exec {s : Store} {c : Cmd} (h : ∀ k i, ¬c.writesField key (field k i))
    (hfin : s.FiniteFamilies key field) :
    (s.exec c).1.FiniteFamilies key field ∧
      (s.exec c).1.familySum key field = s.familySum key field := by
  have hkeep : ∀ k, (fun i => (s.exec c).1.number key (field k i)) =
      fun i => s.number key (field k i) :=
    fun k => funext fun i => number_exec s (h k i)
  refine ⟨fun k => ?_, funext fun k => ?_⟩
  · rw [hkeep]
    exact hfin k
  · rw [familySum, hkeep, familySum]

end Store

/-- A command whose reply is no failure has been executed on its store. -/
theorem World.store_exec_of_not_failed {V : Type} [DecidableEq V] {w : World V} {c : V × Cmd}
    (h : ¬(w.exec c).2.Failed) :
    (w.exec c).1.store = Function.update w.store c.1 ((w.store c.1).exec c.2).1 ∧
      ¬((w.store c.1).exec c.2).2.Failed := by
  rw [World.exec] at h ⊢
  split at h
  · exact ⟨rfl, h⟩
  · exact absurd (.inl rfl) h
  · exact absurd (.inr (.inl rfl)) h
  · exact absurd (.inr (.inl rfl)) h
  · exact absurd (.inr (.inr rfl)) h

end Redis
