import Mathlib.Data.List.Sort

/-!
# Merge sort with a counter of runs

The elements are put one after another on a list of sorted runs.  An element is a run on level 0,
two runs of one level are merged into one of the next level, and from some level on the last run
only grows.  At the end the runs are merged.

* **The algorithm**: `RunSort.carry`, `RunSort.sort`.
* `RunSort.sort_perm`, `RunSort.pairwise_sort`: it sorts.
* `RunSort.filter_sort`: it is stable.
* `RunSort.getLast?_carry`: the last run of the counter has elements.
-/

namespace RunSort

variable {α : Type*} (le : α → α → Bool)

/-- Put a run on the list of runs; an empty run stands for none, and `top` levels may still be
added to the first one. -/
def carry : ℕ → List α → List (List α) → List (List α)
  | _, run, [] => [run]
  | _, run, [] :: parts => run :: parts
  | 0, run, [a :: part] => [(a :: part).merge run le]
  | _ + 1, run, [a :: part] => [[], (a :: part).merge run le]
  | top, run, (a :: part) :: next :: parts =>
    [] :: carry (top - 1) ((a :: part).merge run le) (next :: parts)

/-- The list in order. -/
def sort (top : ℕ) (l : List α) : List α :=
  (l.foldl (fun parts a => carry le top [a] parts) [[]]).foldl (fun list part => part.merge list le)
    []

variable {le} {top : ℕ} {run list l : List α} {parts : List (List α)}

/-- The run takes an empty place. -/
@[simp] theorem carry_nil : carry le top run ([] :: parts) = run :: parts := by
  cases top <;> rfl

/-- A run that is carried past the last level gets a new one, if there may be one. -/
theorem carry_singleton {a : α} {part : List α} : carry le top run [a :: part] =
    if top = 0 then [(a :: part).merge run le] else [[], (a :: part).merge run le] := by
  cases top <;> rfl

/-- Carrying a run loses no element. -/
theorem flatten_carry_perm : (carry le top run parts).flatten.Perm (run ++ parts.flatten) := by
  induction parts generalizing top run with
  | nil => cases top <;> simp [carry]
  | cons part parts ih =>
    cases part with
    | nil =>
      cases top <;> simp [carry]
    | cons a part =>
      have hmerge : ((a :: part).merge run le ++ parts.flatten).Perm
          (run ++ ((a :: part) :: parts).flatten) := by
        rw [List.flatten_cons, ← List.append_assoc]
        exact ((List.merge_perm_append le).trans List.perm_append_comm).append_right _
      cases parts with
      | nil =>
        refine List.Perm.trans ?_ hmerge
        cases top <;> simp [carry]
      | cons next parts =>
        rw [carry, List.flatten_cons, List.nil_append]
        exact ih.trans hmerge

variable (le top) in
/-- Carrying all elements loses none. -/
theorem foldl_carry_perm (l : List α) (parts : List (List α)) :
    (l.foldl (fun parts a => carry le top [a] parts) parts).flatten.Perm (l ++ parts.flatten) := by
  induction l generalizing parts with
  | nil => exact .refl _
  | cons a l ih =>
    refine (ih _).trans ?_
    refine (flatten_carry_perm.append_left l).trans ?_
    exact List.perm_middle

variable (le) in
/-- Merging the parts loses no element. -/
theorem foldl_merge_perm (parts : List (List α)) (list : List α) :
    (parts.foldl (fun list part => part.merge list le) list).Perm (list ++ parts.flatten) := by
  induction parts generalizing list with
  | nil => simp
  | cons part parts ih =>
    refine (ih _).trans ?_
    rw [List.flatten_cons, ← List.append_assoc]
    exact ((List.merge_perm_append le).trans List.perm_append_comm).append_right _

/-- The elements stay the same. -/
theorem sort_perm (l : List α) : (sort le top l).Perm l := by
  have hruns := foldl_carry_perm le top l [[]]
  have hmerge := foldl_merge_perm le
    (l.foldl (fun parts a => carry le top [a] parts) [[]]) []
  rw [List.nil_append] at hmerge
  exact hmerge.trans (by simpa using hruns)

section

variable (htrans : ∀ a b c, le a b → le b c → le a c) (htotal : ∀ a b, le a b || le b a)
include htrans htotal

/-- The parts stay sorted when a run is carried. -/
theorem pairwise_carry (hrun : run.Pairwise fun a b => le a b)
    (hparts : ∀ part ∈ parts, part.Pairwise fun a b => le a b) :
    ∀ part ∈ carry le top run parts, part.Pairwise fun a b => le a b := by
  induction parts generalizing top run with
  | nil => simpa [carry] using hrun
  | cons part parts ih =>
    obtain ⟨hpart, hrest⟩ := List.forall_mem_cons.mp hparts
    cases part with
    | nil =>
      rw [carry_nil]
      exact List.forall_mem_cons.mpr ⟨hrun, hrest⟩
    | cons a part =>
      have hmerge := List.pairwise_merge htrans htotal (a :: part) run hpart hrun
      cases parts with
      | nil =>
        cases top with
        | zero => exact List.forall_mem_singleton.mpr hmerge
        | succ top =>
          exact List.forall_mem_cons.mpr ⟨.nil, List.forall_mem_singleton.mpr hmerge⟩
      | cons next parts =>
        rw [carry]
        exact List.forall_mem_cons.mpr ⟨.nil, ih hmerge hrest⟩

/-- The result is in order. -/
theorem pairwise_sort (l : List α) : (sort le top l).Pairwise fun a b => le a b := by
  have hruns : ∀ (l : List α) (parts : List (List α)),
      (∀ part ∈ parts, part.Pairwise fun a b => le a b) →
      ∀ part ∈ l.foldl (fun parts a => carry le top [a] parts) parts,
        part.Pairwise fun a b => le a b := by
    intro l
    induction l with
    | nil => exact fun parts hparts => hparts
    | cons a l ih =>
      intro parts hparts
      exact ih _ (pairwise_carry htrans htotal (List.pairwise_singleton _ a) hparts)
  have hmerge : ∀ (parts : List (List α)) (list : List α),
      (∀ part ∈ parts, part.Pairwise fun a b => le a b) → (list.Pairwise fun a b => le a b) →
      (parts.foldl (fun list part => part.merge list le) list).Pairwise fun a b => le a b := by
    intro parts
    induction parts with
    | nil => exact fun list _ hlist => hlist
    | cons part parts ih =>
      intro list hparts hlist
      obtain ⟨hpart, hrest⟩ := List.forall_mem_cons.mp hparts
      exact ih _ hrest (List.pairwise_merge htrans htotal part list hpart hlist)
  exact hmerge _ [] (hruns l [[]] (List.forall_mem_singleton.mpr .nil)) .nil

/-- In a merge of sorted lists, the elements that are equal to one of them stay in order: those of
the first list come before those of the second. -/
theorem filter_merge {xs ys : List α} (hxs : xs.Pairwise fun a b => le a b)
    (hys : ys.Pairwise fun a b => le a b) (x : α) :
    (xs.merge ys le).filter (fun a => le x a && le a x) =
      (xs ++ ys).filter fun a => le x a && le a x := by
  induction xs generalizing ys with
  | nil => simp
  | cons a xs ihx =>
    induction ys with
    | nil => simp
    | cons b ys ihy =>
      rw [List.cons_merge_cons]
      split_ifs with hab
      · rw [List.cons_append, List.filter_cons, List.filter_cons, ihx hxs.tail hys]
      · rw [List.filter_cons, ihy hys.tail, List.filter_append, List.filter_append]
        by_cases hb : (le x b && le b x) = true
        · -- `b` is below all elements of the first list, so that none of them is equal to it
          have hnone : (a :: xs).filter (fun a => le x a && le a x) = [] := by
            rw [List.filter_eq_nil_iff]
            intro c hc heq
            rw [Bool.and_eq_true] at hb heq
            have hac : le a c := by
              rcases List.mem_cons.mp hc with rfl | hc
              · simpa using htotal c c
              · exact List.rel_of_pairwise_cons hxs hc
            exact hab (htrans _ _ _ hac (htrans _ _ _ heq.2 hb.1))
          rw [if_pos hb, hnone, List.nil_append, List.nil_append, List.filter_cons, if_pos hb]
        · rw [if_neg hb, List.filter_cons (x := b), if_neg hb]

/-- Behind a carry, the elements that are equal to one of them stay in order, from the last run to
the first. -/
theorem filter_carry (hrun : run.Pairwise fun a b => le a b)
    (hparts : ∀ part ∈ parts, part.Pairwise fun a b => le a b) (x : α) :
    (carry le top run parts).reverse.flatten.filter (fun a => le x a && le a x) =
      (parts.reverse.flatten ++ run).filter fun a => le x a && le a x := by
  induction parts generalizing top run with
  | nil => simp [carry]
  | cons part parts ih =>
    obtain ⟨hpart, hrest⟩ := List.forall_mem_cons.mp hparts
    cases part with
    | nil => simp
    | cons a part =>
      have hmerge := List.pairwise_merge htrans htotal (a :: part) run hpart hrun
      have hfilter := filter_merge htrans htotal hpart hrun x
      cases parts with
      | nil => cases top <;> simp [carry, hfilter]
      | cons next parts =>
        rw [carry, List.reverse_cons, List.flatten_append, List.filter_append, ih hmerge hrest,
          List.filter_append, hfilter, ← List.filter_append, ← List.filter_append]
        simp

/-- Elements that are equal stay in their order. -/
theorem filter_sort (l : List α) (x : α) :
    (sort le top l).filter (fun a => le x a && le a x) =
      l.filter fun a => le x a && le a x := by
  -- the elements are carried into the runs one by one
  have hruns : ∀ (l : List α) (parts : List (List α)),
      (∀ part ∈ parts, part.Pairwise fun a b => le a b) →
      (∀ part ∈ l.foldl (fun parts a => carry le top [a] parts) parts,
        part.Pairwise fun a b => le a b) ∧
      (l.foldl (fun parts a => carry le top [a] parts) parts).reverse.flatten.filter
          (fun a => le x a && le a x) =
        (parts.reverse.flatten ++ l).filter fun a => le x a && le a x := by
    intro l
    induction l with
    | nil => exact fun parts hparts => ⟨hparts, by simp⟩
    | cons a l ih =>
      intro parts hparts
      have hrun := List.pairwise_singleton (fun a b => (le a b : Prop)) a
      obtain ⟨hsorted, hfilter⟩ := ih (carry le top [a] parts)
        (pairwise_carry htrans htotal hrun hparts)
      refine ⟨hsorted, hfilter.trans ?_⟩
      rw [List.filter_append, filter_carry htrans htotal hrun hparts, ← List.filter_append]
      simp
  -- the runs are merged from the shortest to the longest
  have hmerge : ∀ (parts : List (List α)) (list : List α),
      (∀ part ∈ parts, part.Pairwise fun a b => le a b) → (list.Pairwise fun a b => le a b) →
      (parts.foldl (fun list part => part.merge list le) list).filter
          (fun a => le x a && le a x) =
        (parts.reverse.flatten ++ list).filter fun a => le x a && le a x := by
    intro parts
    induction parts with
    | nil => simp
    | cons part parts ih =>
      intro list hparts hlist
      obtain ⟨hpart, hrest⟩ := List.forall_mem_cons.mp hparts
      refine (ih _ hrest (List.pairwise_merge htrans htotal part list hpart hlist)).trans ?_
      rw [List.filter_append, filter_merge htrans htotal hpart hlist, ← List.filter_append]
      simp
  obtain ⟨hsorted, hfilter⟩ := hruns l [[]] (List.forall_mem_singleton.mpr .nil)
  refine (hmerge _ [] hsorted .nil).trans ?_
  simpa using hfilter

end

/-! ## The counter -/

/-- A carry takes no level away. -/
theorem length_le_length_carry : parts.length ≤ (carry le top run parts).length := by
  induction parts generalizing top run with
  | nil => simp
  | cons part parts ih =>
    cases part with
    | nil => rw [carry_nil, List.length_cons, List.length_cons]
    | cons a part =>
      cases parts with
      | nil => cases top <;> simp [carry]
      | cons next parts =>
        rw [carry, List.length_cons, List.length_cons (a := [])]
        exact Nat.succ_le_succ ih

/-- A carry adds at most one level. -/
theorem length_carry_le : (carry le top run parts).length ≤ parts.length + 1 := by
  induction parts generalizing top run with
  | nil => simp [carry]
  | cons part parts ih =>
    cases part with
    | nil => simp
    | cons a part =>
      cases parts with
      | nil => cases top <;> simp [carry]
      | cons next parts =>
        rw [carry, List.length_cons, List.length_cons (a := a :: part)]
        exact Nat.succ_le_succ ih

/-- The last run has elements, from the first carry on. -/
theorem getLast?_carry (hrun : run ≠ [])
    (hparts : ∀ part ∈ parts.getLast?, part ≠ [] ∨ parts = [[]]) :
    ∀ part ∈ (carry le top run parts).getLast?, part ≠ [] := by
  induction parts generalizing top run with
  | nil => simpa [carry] using hrun
  | cons part parts ih =>
    cases part with
    | nil =>
      rw [carry_nil]
      cases parts with
      | nil => simpa using hrun
      | cons next parts =>
        intro last hlast
        exact (hparts last (by simpa using hlast)).resolve_right (by simp)
    | cons a part =>
      have hmerge : (a :: part).merge run le ≠ [] := by
        intro h
        have hperm : ((a :: part).merge run le).Perm (a :: part ++ run) :=
          List.merge_perm_append le
        rw [h] at hperm
        simpa using hperm.length_eq
      cases parts with
      | nil => cases top <;> simpa [carry] using hmerge
      | cons next parts =>
        have hlast : ∀ last ∈ (next :: parts).getLast?, last ≠ [] ∨ next :: parts = [[]] := by
          intro last hlast
          exact .inl ((hparts last (by simpa using hlast)).resolve_right (by simp))
        -- the level that is emptied is not the last one
        have hne : carry le (top - 1) ((a :: part).merge run le) (next :: parts) ≠ [] := by
          intro h
          have hlength : (next :: parts).length ≤
              (carry le (top - 1) ((a :: part).merge run le) (next :: parts)).length :=
            length_le_length_carry
          rw [h] at hlength
          simp at hlength
        intro last hmem
        rw [carry, List.getLast?_cons_of_ne_nil hne] at hmem
        exact ih hmerge hlast last hmem

/-- Once there is an element, the last run has elements. -/
theorem getLast?_foldl_carry (hl : l ≠ [])
    (hparts : ∀ part ∈ parts.getLast?, part ≠ [] ∨ parts = [[]]) :
    ∀ part ∈ (l.foldl (fun parts a => carry le top [a] parts) parts).getLast?, part ≠ [] := by
  induction l generalizing parts with
  | nil => exact absurd rfl hl
  | cons a l ih =>
    have hcarry : ∀ part ∈ (carry le top [a] parts).getLast?, part ≠ [] :=
      getLast?_carry (List.cons_ne_nil a []) hparts
    cases l with
    | nil => exact hcarry
    | cons b l => exact ih (List.cons_ne_nil b l) fun part hpart => .inl (hcarry part hpart)

/-- The last run, and those below it. -/
theorem exists_last_run (hl : l ≠ [])
    (hparts : l.foldl (fun parts a => carry le top [a] parts) [[]] = parts) :
    ∃ init last, parts = init ++ [last] ∧ last ≠ [] ∧
      init.flatten.length + last.length = l.length := by
  have hperm := foldl_carry_perm le top l [[]]
  have hlast := @getLast?_foldl_carry α le top l [[]] hl (by simp)
  rw [hparts] at hperm hlast
  obtain ⟨init, last, rfl⟩ : ∃ init last, parts = init ++ [last] := by
    refine ⟨_, _, (List.dropLast_append_getLast (l := parts) ?_).symm⟩
    rintro rfl
    exact hl (by simpa using hperm.symm)
  exact ⟨init, last, rfl, hlast last (by simp),
    by simpa [List.flatten_append] using hperm.length_eq⟩

end RunSort
