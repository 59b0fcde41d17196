import AdxDsp.Lib.LinkedLists
import AdxDsp.Lib.OwnedCells
import AdxDsp.Lib.RunSort

/-!
# Sorting a list of the tracker

`adx_list_sort` sorts a circular list in place (`adx_list.c`).  It cuts the list into sorted runs,
which are linked forwards only and wait in an array, and the last merge restores the links back.

* **The functions**: `adxListMerge`, `adxListMergeAndRestoreBackLinks`, `adxListSort`.
* `runs_mergeLoop`, `runs_takeLoop`, `runs_backLoop`: what the loops over the links do.
* `runs_place`: putting a run into the array is a carry of `RunSort`.
* `list_sort_sorts`: the list is a circular list again, sorted and stable.
-/

namespace AdxDsp

namespace ListSort

open OwnedCells LinkedLists

variable {ω β : Type} [DecidableEq ω]

/-! ## The functions -/

/-- A program on the nodes, `adx_list_t`, of the memory. -/
abbrev ListProg (ω : Type) := OwnedCells.Prog Unit ω (Node ω)

/-- `tail->next = p` in `adx_list_merge`, where `tail` may still be the local variable `head`, with
what `head.next` then is. -/
def setNext (tail : Option ω) (first p : Option ω) : ListProg ω (Option ω) :=
  match tail with
  | none => pure p
  | some tail => do
    modify tail fun node => { node with next := p }
    pure first

/-- The loop of `adx_list_merge`; the result is `head.next`. -/
def mergeLoop (cmp : ω → ω → ℤ) :
    ℕ → (tail first a b : Option ω) → ListProg ω (Option ω)
  | 0, _, _, _, _ => fail
  | fuel + 1, tail, first, some a, some b =>
    -- if equal, take `a`
    if cmp a b ≤ 0 then do
      let first ← setNext tail first (some a)
      let node ← deref a
      mergeLoop cmp fuel (some a) first node.next (some b)
    else do
      let first ← setNext tail first (some b)
      let node ← deref b
      mergeLoop cmp fuel (some b) first (some a) node.next
  | _ + 1, tail, first, a, b => setNext tail first (a.or b)

/-- `adx_list_merge` -/
def adxListMerge (cmp : ω → ω → ℤ) (fuel : ℕ) (a b : Option ω) : ListProg ω (Option ω) :=
  mergeLoop cmp fuel none none a b

/-- The first loop of `adx_list_merge_and_restore_back_links`, with the assignment behind it; the
result is `tail`. -/
def takeLoop (cmp : ω → ω → ℤ) : ℕ → (tail : ω) → (a b : Option ω) → ListProg ω ω
  | 0, _, _, _ => fail
  | fuel + 1, tail, some a, some b =>
    -- if equal, take `a`
    if cmp a b ≤ 0 then do
      modify tail fun node => { node with next := some a }
      modify a fun node => { node with prev := some tail }
      let node ← deref a
      takeLoop cmp fuel a node.next (some b)
    else do
      modify tail fun node => { node with next := some b }
      modify b fun node => { node with prev := some tail }
      let node ← deref b
      takeLoop cmp fuel b (some a) node.next
  | _ + 1, tail, a, b => do
    modify tail fun node => { node with next := a.or b }
    pure tail

/-- The second loop, in which `cmp` is called as well, but its result is not used; the result is
`tail`. -/
def backLoop : ℕ → (tail : ω) → ListProg ω ω
  | 0, _ => fail
  | fuel + 1, tail => do
    let node ← deref tail
    let next ← nonNull node.next
    modify next fun node => { node with prev := some tail }
    let node ← deref next
    if node.next.isSome then backLoop fuel next
    else pure next

/-- `adx_list_merge_and_restore_back_links` -/
def adxListMergeAndRestoreBackLinks (cmp : ω → ω → ℤ) (fuel : ℕ) (head : ω) (a b : Option ω) :
    ListProg ω Unit := do
  let tail ← takeLoop cmp fuel head a b
  let tail ← backLoop fuel tail
  modify tail fun node => { node with next := some head }
  modify head fun node => { node with prev := some tail }

/-- `adx_list_empty` -/
def adxListEmpty (head : ω) : ListProg ω Bool := do
  let node ← deref head
  pure (node.next = some head ∧ node.next = node.prev)

/-- `part[lev]`; there is no result for an index that is not in the array. -/
def partAt (part : List (Option ω)) (lev : ℕ) : ListProg ω (Option ω) := fun s =>
  part[lev]?.map fun p => (p, s)

/-- `part[lev] = p` -/
def setPart (part : List (Option ω)) (lev : ℕ) (p : Option ω) : ListProg ω (List (Option ω)) :=
  if lev < part.length then pure (part.set lev p) else fail

/-- The loop over the array, with `fuel` for its turns and for the merges; the results are `part`,
`lev` and `cur`. -/
def carryLoop (cmp : ω → ω → ℤ) (fuel : ℕ) :
    ℕ → List (Option ω) → ℕ → Option ω → ListProg ω (List (Option ω) × ℕ × Option ω)
  | 0, _, _, _ => fail
  | turns + 1, part, lev, cur => do
    let run ← partAt part lev
    if run.isSome then
      let cur ← adxListMerge cmp fuel run cur
      let part ← setPart part lev none
      carryLoop cmp fuel turns part (lev + 1) cur
    else pure (part, lev, cur)

/-- `part` and `max_lev` -/
structure Parts (ω : Type) where
  part : List (Option ω)
  maxLev : ℕ

/-- The level on which a run is left, and the greatest level then. -/
def adjust (size lev maxLev : ℕ) : ℕ × ℕ :=
  if maxLev < lev then
    let lev := if size - 1 ≤ lev then lev - 1 else lev
    (lev, lev)
  else (lev, maxLev)

/-- A run is left in the array. -/
def leave (maxLev : ℕ) : List (Option ω) × ℕ × Option ω → ListProg ω (Parts ω)
  | (part, lev, cur) => do
    let part' ← setPart part (adjust part.length lev maxLev).1 cur
    pure ⟨part', (adjust part.length lev maxLev).2⟩

/-- What is done with one element. -/
def place (cmp : ω → ω → ℤ) (fuel : ℕ) (parts : Parts ω) (cur : Option ω) :
    ListProg ω (Parts ω) :=
  carryLoop cmp fuel fuel parts.part 0 cur >>= leave parts.maxLev

/-- The loop over the list. -/
def elementLoop (cmp : ω → ω → ℤ) (fuel : ℕ) :
    ℕ → Option ω → Parts ω → ListProg ω (Parts ω)
  | 0, _, _ => fail
  | _ + 1, none, parts => pure parts
  | turns + 1, some cur, parts => do
    let node ← deref cur
    modify cur fun node => { node with next := none }
    let parts ← place cmp fuel parts (some cur)
    elementLoop cmp fuel turns node.next parts

/-- The loop from `lev` up to `max_lev`, over the given number of levels; the result is `list`. -/
def joinLoop (cmp : ω → ω → ℤ) (fuel : ℕ) (part : List (Option ω)) :
    (levels lev : ℕ) → Option ω → ListProg ω (Option ω)
  | 0, _, list => pure list
  | levels + 1, lev, list => do
    let run ← partAt part lev
    let list ← if run.isSome then adxListMerge cmp fuel run list else pure list
    joinLoop cmp fuel part levels (lev + 1) list

/-- `adx_list_sort` -/
def adxListSort (cmp : ω → ω → ℤ) (fuel : ℕ) (head : ω) (size : ℕ) : ListProg ω Unit := do
  let empty ← adxListEmpty head
  if empty then pure ()
  else
    let node ← deref head
    let tail ← nonNull node.prev
    modify tail fun node => { node with next := none }
    let node ← deref head
    let parts ← elementLoop cmp fuel fuel node.next ⟨List.replicate size none, 0⟩
    let list ← joinLoop cmp fuel parts.part parts.maxLev 0 none
    let run ← partAt parts.part parts.maxLev
    adxListMergeAndRestoreBackLinks cmp fuel head run list

/-! ## Merging -/

section

variable {cmp : ω → ω → ℤ} {prev : ω → Option ω} {xs ys : List ω} {fuel : ℕ}
  {R : Multiset (ω × Node ω)} {first x p : Option ω} {t : ω}

/-- What `cmp` says of two nodes. -/
abbrev le (cmp : ω → ω → ℤ) (a b : ω) : Bool := cmp a b ≤ 0

/-- A node of one of the chains becomes the last one that has been taken. -/
theorem runs_link {f : Node ω → ListProg ω β} {Q : β → State Unit ω (Node ω) → Prop} {c : Node ω}
    {N : Multiset (ω × Node ω)} {a : ω}
    (h : Runs (Owns () ({(a, c)} + ({(t, ⟨some a, p⟩)} + N))) (f c) Q) :
    Runs (Owns () ({(t, ⟨x, p⟩)} + ({(a, c)} + N)))
      (modify t (fun node => { node with next := some a }) >>= fun _ => deref a >>= f) Q := by
  refine Runs.modify_bind (Runs.pre (Runs.deref_bind h) ?_)
  abel

/-- Behind a node, the two chains become one. -/
theorem runs_mergeLoop (hfuel : xs.length + ys.length < fuel) :
    Runs (Owns () ({(t, ⟨x, p⟩)} + (chain prev xs + chain prev ys + R)))
      (mergeLoop cmp fuel (some t) first xs.head? ys.head?)
      fun r s => r = first ∧
        Owns () ({(t, ⟨(xs.merge ys (le cmp)).head?, p⟩)} +
          (chain prev (xs.merge ys (le cmp)) + R)) s := by
  induction fuel generalizing xs ys t x p R with
  | zero => omega
  | succ fuel ih =>
    cases xs with
    | nil =>
      refine Runs.modify_bind (Runs.pure fun s hs => ⟨rfl, ?_⟩)
      simpa using hs
    | cons a xs =>
      cases ys with
      | nil =>
        refine Runs.modify_bind (Runs.pure fun s hs => ⟨rfl, ?_⟩)
        simpa using hs
      | cons b ys =>
        rw [List.length_cons, List.length_cons] at hfuel
        rw [List.head?_cons, List.head?_cons, mergeLoop, List.cons_merge_cons]
        simp only [setNext, bind_assoc, pure_bind]
        by_cases hab : cmp a b ≤ 0
        · rw [if_pos hab, if_pos (decide_eq_true hab)]
          refine (runs_link (c := ⟨xs.head?, prev a⟩) (N := chain prev xs +
            chain prev (b :: ys) + R) ?_).pre (by simp only [chain_cons]; abel)
          -- the node that has been taken is the end of the list from now on
          have hrest := @ih xs (b :: ys) ({(t, ⟨some a, p⟩)} + R) xs.head? (prev a) a
            (by rw [List.length_cons]; omega)
          refine (hrest.pre (by abel)).mono (fun _ h => h) ?_
          rintro r s ⟨hr, hs⟩
          refine ⟨hr, ?_⟩
          convert hs using 1
          simp only [chain_cons, List.head?_cons]
          abel
        · rw [if_neg hab, if_neg (by simpa using hab)]
          refine (runs_link (c := ⟨ys.head?, prev b⟩) (N := chain prev (a :: xs) +
            chain prev ys + R) ?_).pre (by simp only [chain_cons]; abel)
          have hrest := @ih (a :: xs) ys ({(t, ⟨some b, p⟩)} + R) ys.head? (prev b) b
            (by rw [List.length_cons]; omega)
          refine (hrest.pre (by abel)).mono (fun _ h => h) ?_
          rintro r s ⟨hr, hs⟩
          refine ⟨hr, ?_⟩
          convert hs using 1
          simp only [chain_cons, List.head?_cons]
          abel

/-- Two chains become one. -/
theorem runs_adxListMerge (hfuel : xs.length + ys.length < fuel) :
    Runs (Owns () (chain prev xs + chain prev ys + R)) (adxListMerge cmp fuel xs.head? ys.head?)
      fun r => fun s => r = (xs.merge ys (le cmp)).head? ∧
        Owns () (chain prev (xs.merge ys (le cmp)) + R) s := by
  obtain ⟨fuel, rfl⟩ : ∃ n, fuel = n + 1 := ⟨fuel - 1, by omega⟩
  cases xs with
  | nil => exact Runs.pure fun s hs => ⟨by simp, by simpa using hs⟩
  | cons a xs =>
    cases ys with
    | nil => exact Runs.pure fun s hs => ⟨by simp, by simpa using hs⟩
    | cons b ys =>
      rw [List.length_cons, List.length_cons] at hfuel
      rw [List.head?_cons, List.head?_cons, adxListMerge, mergeLoop, List.cons_merge_cons]
      simp only [setNext, pure_bind]
      -- the first node is that of `head.next`, and behind it there are nodes only
      by_cases hab : cmp a b ≤ 0
      · rw [if_pos hab, if_pos (decide_eq_true hab)]
        have hrest := @runs_mergeLoop ω _ cmp prev xs (b :: ys) fuel R (some a) xs.head? (prev a) a
          (by rw [List.length_cons]; omega)
        refine (Runs.deref_bind (c := ⟨xs.head?, prev a⟩) (N := chain prev xs +
          chain prev (b :: ys) + R) ?_).pre (by simp only [chain_cons]; abel)
        refine hrest.mono (fun _ h => h) ?_
        rintro r s ⟨rfl, hs⟩
        exact ⟨rfl, by rwa [chain_cons, add_assoc]⟩
      · rw [if_neg hab, if_neg (by simpa using hab)]
        have hrest := @runs_mergeLoop ω _ cmp prev (a :: xs) ys fuel R (some b) ys.head? (prev b) b
          (by rw [List.length_cons]; omega)
        refine (Runs.deref_bind (c := ⟨ys.head?, prev b⟩) (N := chain prev (a :: xs) +
          chain prev ys + R) ?_).pre (by simp only [chain_cons]; abel)
        refine hrest.mono (fun _ h => h) ?_
        rintro r s ⟨rfl, hs⟩
        exact ⟨rfl, by rwa [chain_cons, add_assoc]⟩

end

/-! ## Restoring the links back -/

section

variable {cmp : ω → ω → ℤ} {prev : ω → Option ω} {l xs ys out rest : List ω} {fuel : ℕ}
  {R : Multiset (ω × Node ω)} {first x : Option ω} {head a : ω}

/-- A node of a chain comes behind the last one of a list, and is linked with it. -/
theorem runs_append {f : Node ω → ListProg ω β} {Q : β → State Unit ω (Node ω) → Prop}
    (h : Runs (Owns () (linked first head l.head? (out ++ [a]) + (chain prev l + R)))
      (f ⟨l.head?, some (out.getLastD head)⟩) Q) :
    Runs (Owns () (linked first head x out + (chain prev (a :: l) + R)))
      (modify (out.getLastD head) (fun node => { node with next := some a }) >>= fun _ =>
        modify a (fun node => { node with prev := some (out.getLastD head) }) >>= fun _ =>
          deref a >>= f) Q := by
  obtain ⟨p, S, hS⟩ := exists_linked_last first head out
  refine (Runs.modify_bind (c := ⟨x, p⟩) (N := {(a, ⟨l.head?, prev a⟩)} +
    (S + chain prev l + R)) ?_).pre (by rw [hS, chain_cons]; abel)
  refine Runs.pre (Runs.modify_bind (c := ⟨l.head?, prev a⟩) (N := {(out.getLastD head,
    ⟨some a, p⟩)} + (S + chain prev l + R)) ?_) (by abel)
  refine Runs.deref_bind (h.pre ?_)
  rw [linked_concat, hS]
  abel

/-- The first loop: the nodes that it takes are linked, and what is left of the chains is one of
them. -/
theorem runs_takeLoop (hfuel : xs.length + ys.length < fuel) :
    Runs (Owns () (linked first head x out + (chain prev xs + chain prev ys + R)))
      (takeLoop cmp fuel (out.getLastD head) xs.head? ys.head?)
      fun tail s => ∃ out' rest, tail = out'.getLastD head ∧
        out' ++ rest = out ++ xs.merge ys (le cmp) ∧ (xs ++ ys ≠ [] → rest ≠ []) ∧
        Owns () (linked first head rest.head? out' + (chain prev rest + R)) s := by
  induction fuel generalizing xs ys x out with
  | zero => omega
  | succ fuel ih =>
    obtain ⟨p, S, hS⟩ := exists_linked_last first head out
    cases xs with
    | nil =>
      -- the other chain is linked as a whole
      refine (Runs.modify_bind (c := ⟨x, p⟩) (N := S + (chain prev ys + R)) ?_).pre
        (by rw [hS, chain_nil]; abel)
      refine Runs.pure fun s hs => ⟨out, ys, rfl, by simp, by simp, ?_⟩
      rw [hS, add_assoc]
      exact hs
    | cons a xs =>
      cases ys with
      | nil =>
        refine (Runs.modify_bind (c := ⟨x, p⟩) (N := S + (chain prev (a :: xs) + R)) ?_).pre
          (by rw [hS, chain_nil]; abel)
        refine Runs.pure fun s hs => ⟨out, a :: xs, rfl, by simp, by simp, ?_⟩
        rw [hS, add_assoc]
        exact hs
      | cons b ys =>
        rw [List.length_cons, List.length_cons] at hfuel
        rw [List.head?_cons, List.head?_cons, takeLoop, List.cons_merge_cons]
        by_cases hab : cmp a b ≤ 0
        · rw [if_pos hab, if_pos (decide_eq_true hab)]
          have hrest := @ih xs (b :: ys) (out ++ [a]) xs.head? (by rw [List.length_cons]; omega)
          rw [List.getLastD_concat] at hrest
          refine (runs_append (l := xs) (R := chain prev (b :: ys) + R) ?_).pre (by abel)
          refine (hrest.pre (by abel)).mono (fun _ h => h) ?_
          rintro tail s ⟨out', rest, htail, hout, hne, hs⟩
          exact ⟨out', rest, htail, by simpa using hout, fun _ => hne (by simp), hs⟩
        · rw [if_neg hab, if_neg (by simpa using hab)]
          have hrest := @ih (a :: xs) ys (out ++ [b]) ys.head? (by rw [List.length_cons]; omega)
          rw [List.getLastD_concat] at hrest
          refine (runs_append (l := ys) (R := chain prev (a :: xs) + R) ?_).pre (by abel)
          refine (hrest.pre (by abel)).mono (fun _ h => h) ?_
          rintro tail s ⟨out', rest, htail, hout, hne, hs⟩
          exact ⟨out', rest, htail, by simpa using hout, fun _ => hne (by simp), hs⟩

/-- The second loop: the rest is linked as well, and ends with `NULL`. -/
theorem runs_backLoop (hrest : rest ≠ []) (hfuel : rest.length ≤ fuel) :
    Runs (Owns () (linked first head rest.head? out + (chain prev rest + R)))
      (backLoop fuel (out.getLastD head))
      fun tail s => tail = (out ++ rest).getLastD head ∧
        Owns () (linked first head none (out ++ rest) + R) s := by
  induction fuel generalizing rest out with
  | zero => exact absurd (List.length_eq_zero_iff.mp (Nat.le_zero.mp hfuel)) hrest
  | succ fuel ih =>
    obtain ⟨a, rest, rfl⟩ := List.exists_cons_of_ne_nil hrest
    obtain ⟨p, S, hS⟩ := exists_linked_last first head out
    rw [backLoop]
    refine (Runs.deref_bind (c := ⟨some a, p⟩) (N := S + (chain prev (a :: rest) + R)) ?_).pre
      (by rw [hS]; simp only [List.head?_cons]; abel)
    refine Runs.nonNull_bind (Runs.pre (Runs.modify_bind (c := ⟨rest.head?, prev a⟩)
      (N := {(out.getLastD head, ⟨some a, p⟩)} + (S + chain prev rest + R)) ?_)
      (by rw [chain_cons]; abel))
    refine Runs.deref_bind (Runs.pre (N := linked first head rest.head? (out ++ [a]) +
      (chain prev rest + R)) ?_ (by rw [linked_concat, hS]; abel))
    cases rest with
    | nil =>
      -- this was the last node
      refine Runs.pure fun s hs => ⟨by simp, ?_⟩
      simpa using hs
    | cons b rest =>
      have hnext := @ih (out ++ [a]) (b :: rest) (by simp) (by simpa using hfuel)
      rw [List.getLastD_concat, List.append_assoc] at hnext
      exact hnext

/-- The two chains become the circular list of `head`. -/
theorem runs_adxListMergeAndRestoreBackLinks (hne : xs ++ ys ≠ [])
    (hfuel : xs.length + ys.length < fuel) :
    Runs (Owns () ({(head, ⟨x, first⟩)} + (chain prev xs + chain prev ys + R)))
      (adxListMergeAndRestoreBackLinks cmp fuel head xs.head? ys.head?)
      fun _ => Owns () (ring head (xs.merge ys (le cmp)) + R) := by
  -- the lists are merged first, then the back links are restored
  have htake := @runs_takeLoop ω _ cmp prev xs ys [] fuel R first x head hfuel
  refine htake.bind fun tail s hs => ?_
  obtain ⟨out, rest, rfl, hout, hrest, hs⟩ := hs
  rw [List.nil_append] at hout
  have hlength : rest.length ≤ fuel := by
    have hperm := (List.merge_perm_append (le cmp) : (xs.merge ys (le cmp)).Perm (xs ++ ys))
    have := hperm.length_eq
    rw [← hout, List.length_append, List.length_append] at this
    omega
  refine ((runs_backLoop (hrest hne) hlength).bind fun tail => ?_) s hs
  rw [hout]
  generalize xs.merge ys (le cmp) = l
  refine Runs.of_fact ?_
  rintro rfl
  -- the head and the last node are closed to a ring
  obtain ⟨p, S, hS⟩ := exists_linked_last first head l
  refine (Runs.modify_bind (c := ⟨none, p⟩) (N := S + R) ?_).pre (by rw [hS]; abel)
  obtain ⟨S', hS'⟩ := exists_linked_first head (some head) l
  refine (Runs.modify (c := ⟨l.head?.or (some head), first⟩) (N := S' + R)).pre ?_ |>.mono
    (fun _ h => h) ?_
  · rw [← add_assoc, ← hS, hS', add_assoc]
  · intro _ s hs
    rw [ring, hS', add_assoc]
    exact hs

end

/-! ## The array of runs -/

section

variable {cmp : ω → ω → ℤ} {prev : ω → Option ω} {run l : List ω} {runs : List (List ω)}
  {front part : List (Option ω)} {cur q : Option ω} {fuel turns size maxLev top k : ℕ}
  {R : Multiset (ω × Node ω)} {a : ω}

omit [DecidableEq ω] in
/-- The run behind as many others. -/
theorem partAt_front : partAt (front ++ q :: part) front.length = pure q := by
  funext s
  simp [partAt]
  rfl

omit [DecidableEq ω] in
/-- Setting the run behind as many others. -/
theorem setPart_front :
    setPart (front ++ q :: part) front.length cur = pure (front ++ cur :: part) := by
  simp [setPart]

/-- The loop ends on a level without a run. -/
theorem carryLoop_none : carryLoop cmp fuel (turns + 1) (front ++ none :: part) front.length cur =
    pure (front ++ none :: part, front.length, cur) := by
  simp [carryLoop, partAt_front]

/-- On a level with a run, the runs are merged and go on to the next level. -/
theorem carryLoop_some :
    carryLoop cmp fuel (turns + 1) (front ++ some a :: part) front.length cur =
      adxListMerge cmp fuel (some a) cur >>= fun cur =>
        carryLoop cmp fuel turns ((front ++ [none]) ++ part) (front ++ [none]).length cur := by
  simp [carryLoop, partAt_front, setPart_front]

omit [DecidableEq ω] in
/-- On a level that has been in use, the run is left. -/
theorem leave_le (h : front.length ≤ maxLev) :
    leave maxLev (front ++ q :: part, front.length, cur) =
      pure ⟨front ++ cur :: part, maxLev⟩ := by
  have hadjust : ∀ size, adjust size front.length maxLev = (front.length, maxLev) :=
    fun size => if_neg (not_lt.mpr h)
  simp [leave, hadjust, setPart_front]

omit [DecidableEq ω] in
/-- The last place of the array is not used: the run stays on the level below. -/
theorem leave_last : leave front.length (front ++ [none, none], front.length + 1, cur) =
    pure ⟨front ++ [cur, none], front.length⟩ := by
  simp [leave, adjust, setPart]

omit [DecidableEq ω] in
/-- A run on a new level. -/
theorem leave_new : leave front.length
      (front ++ none :: none :: List.replicate (k + 1) none, front.length + 1, cur) =
    pure ⟨front ++ none :: cur :: List.replicate (k + 1) none, front.length + 1⟩ := by
  have hadjust : adjust (front.length + (k + 1 + 1 + 1)) (front.length + 1) front.length =
      (front.length + 1, front.length + 1) := by
    rw [adjust, if_pos (by omega), if_neg (by omega)]
  simp [leave, hadjust, setPart]

/-- The array for some runs: an empty run is `NULL`, and behind the runs there are levels without
one. -/
def slots (runs : List (List ω)) (k : ℕ) : List (Option ω) :=
  runs.map List.head? ++ List.replicate k none

/-- A run that has been carried past the greatest level gets a new level, or stays below the last
place of the array. -/
theorem runs_carryLoop_top (hk : 0 < k) :
    Runs (Owns () (chain prev run + R))
      (carryLoop cmp fuel (turns + 1) ((front ++ [none]) ++ slots [] k) (front ++ [none]).length
        run.head? >>= leave front.length)
      fun parts s => ∃ k', 0 < k' ∧ (if k = 1 then [run] else [[], run]).length + k' = k + 1 ∧
        parts.part = front ++ slots (if k = 1 then [run] else [[], run]) k' ∧
        parts.maxLev + 1 = front.length + (if k = 1 then [run] else [[], run]).length ∧
        Owns () (chains prev (if k = 1 then [run] else [[], run]) + R) s := by
  obtain ⟨k, rfl⟩ : ∃ n, k = n + 1 := ⟨k - 1, by omega⟩
  have hslots : slots ([] : List (List ω)) (k + 1) = none :: List.replicate k none := rfl
  rw [hslots, carryLoop_none, pure_bind, List.append_assoc, List.length_append]
  cases k with
  | zero =>
    refine Runs.congr (Runs.pure fun s hs => ?_) leave_last
    exact ⟨1, Nat.one_pos, rfl, rfl, rfl, by simpa using hs⟩
  | succ k =>
    refine Runs.congr (Runs.pure fun s hs => ?_) leave_new
    rw [if_neg (Nat.succ_ne_zero k ∘ Nat.succ.inj)]
    exact ⟨k + 1, Nat.succ_pos k, by simp; omega, rfl, rfl, by simpa using hs⟩

/-- From a level on, a run is carried to the first level without a run; `k` levels are not used
yet. -/
theorem runs_carryLoop (hrun : run ≠ []) (hruns : runs ≠ []) (hk : 0 < k)
    (hturns : runs.length < turns) (hfuel : runs.flatten.length + run.length < fuel)
    (hmax : maxLev + 1 = front.length + runs.length) (htop : top = runs.length + k - 2) :
    Runs (Owns () (chains prev runs + chain prev run + R))
      (carryLoop cmp fuel turns (front ++ slots runs k) front.length run.head? >>= leave maxLev)
      fun parts s => ∃ k', 0 < k' ∧
        (RunSort.carry (le cmp) top run runs).length + k' = runs.length + k ∧
        parts.part = front ++ slots (RunSort.carry (le cmp) top run runs) k' ∧
        parts.maxLev + 1 = front.length + (RunSort.carry (le cmp) top run runs).length ∧
        Owns () (chains prev (RunSort.carry (le cmp) top run runs) + R) s := by
  induction runs generalizing front turns top run with
  | nil => exact absurd rfl hruns
  | cons part runs ih =>
    obtain ⟨turns, rfl⟩ : ∃ n, turns = n + 1 := ⟨turns - 1, by omega⟩
    rw [List.length_cons] at hmax hturns htop
    cases part with
    | nil =>
      -- the first level has no run
      have hslots : slots ([] :: runs) k = none :: slots runs k := rfl
      rw [hslots, carryLoop_none, pure_bind, leave_le (by omega), RunSort.carry_nil]
      refine Runs.pure fun s hs => ⟨k, hk, rfl, rfl, hmax, ?_⟩
      convert hs using 1
      simp only [chains_cons, chain_nil]
      abel
    | cons a part =>
      have hslots : slots ((a :: part) :: runs) k = some a :: slots runs k := rfl
      have hlength : ((a :: part).merge run (le cmp)).length = (a :: part).length + run.length := by
        rw [List.length_merge]
      rw [List.flatten_cons, List.length_append] at hfuel
      rw [hslots, carryLoop_some, bind_assoc]
      have hmerge := @runs_adxListMerge ω _ cmp prev (a :: part) run fuel (chains prev runs + R)
        (by omega)
      refine Runs.bind (hmerge.pre (by rw [chains_cons]; abel)) fun cur => Runs.of_fact ?_
      rintro rfl
      have hne : (a :: part).merge run (le cmp) ≠ [] := by
        intro h
        rw [h, List.length_nil, List.length_cons] at hlength
        omega
      cases runs with
      | nil =>
        -- the run gets past the greatest level
        obtain ⟨turns, rfl⟩ : ∃ n, turns = n + 1 := ⟨turns - 1, by omega⟩
        obtain rfl : maxLev = front.length := by simpa using hmax
        have htop' : top = 0 ↔ k = 1 := by
          rw [htop, List.length_nil]
          omega
        simp only [RunSort.carry_singleton, htop']
        refine Runs.pre (N := chain prev ((a :: part).merge run (le cmp)) + R) ?_ (by simp)
        refine (runs_carryLoop_top hk).mono (fun _ h => h) ?_
        rintro parts s ⟨k', hk', hlen, hrest⟩
        exact ⟨k', hk', by simpa [Nat.add_comm] using hlen, hrest⟩
      | cons next runs =>
        have hrest := @ih ((a :: part).merge run (le cmp)) (front ++ [none]) turns (top - 1) hne
          (by simp) (by omega) (by omega) (by rw [List.length_append, List.length_singleton]; omega)
          (by rw [htop, List.length_cons]; omega)
        rw [RunSort.carry]
        refine (hrest.pre (by abel)).mono (fun _ h => h) ?_
        rintro parts s ⟨k', hk', hlen, hpart, hmaxLev, hs⟩
        refine ⟨k', hk', by simp at hlen ⊢; omega, ?_, by simp at hmaxLev ⊢; omega, ?_⟩
        · rw [hpart]
          simp [slots]
        · simpa using hs

/-- One element more is in the array. -/
theorem runs_place (hruns : runs ≠ []) (hk : 0 < k) (hsize : runs.length + k = size)
    (hlength : runs.length ≤ runs.flatten.length + 1) (hfuel : runs.flatten.length + 1 < fuel) :
    Runs (Owns () (chains prev runs + chain prev [a] + R))
      (place cmp fuel ⟨slots runs k, runs.length - 1⟩ (some a))
      fun parts s => ∃ k', 0 < k' ∧
        (RunSort.carry (le cmp) (size - 2) [a] runs).length + k' = size ∧
        parts = ⟨slots (RunSort.carry (le cmp) (size - 2) [a] runs) k',
          (RunSort.carry (le cmp) (size - 2) [a] runs).length - 1⟩ ∧
        Owns () (chains prev (RunSort.carry (le cmp) (size - 2) [a] runs) + R) s := by
  have hpos := List.length_pos_iff.mpr hruns
  have hcarry := @runs_carryLoop ω _ cmp prev [a] runs [] fuel fuel (runs.length - 1) (size - 2) k R
    (List.cons_ne_nil a []) hruns hk (by omega) (by simpa using hfuel)
    (by rw [List.length_nil]; omega) (by rw [hsize])
  refine hcarry.mono (fun _ h => h) ?_
  rintro ⟨part, maxLev⟩ s ⟨k', hk', hlen, hpart, hmaxLev, hs⟩
  rw [List.nil_append] at hpart
  rw [List.length_nil, Nat.zero_add] at hmaxLev
  refine ⟨k', hk', hlen.trans hsize, ?_, hs⟩
  rw [← hmaxLev, ← hpart]
  rfl

/-- All elements are in the array. -/
theorem runs_elementLoop (hruns : runs ≠ []) (hk : 0 < k) (hsize : runs.length + k = size)
    (hlength : runs.length ≤ runs.flatten.length + 1) (hturns : l.length < turns)
    (hfuel : runs.flatten.length + l.length + 1 < fuel) :
    Runs (Owns () (chains prev runs + chain prev l + R))
      (elementLoop cmp fuel turns l.head? ⟨slots runs k, runs.length - 1⟩)
      fun parts s => ∃ runs' k',
        runs' = l.foldl (fun runs a => RunSort.carry (le cmp) (size - 2) [a] runs) runs ∧
        parts = ⟨slots runs' k', runs'.length - 1⟩ ∧ Owns () (chains prev runs' + R) s := by
  -- by induction over the list; an element is taken off and carried into the runs
  induction l generalizing runs k turns with
  | nil =>
    obtain ⟨turns, rfl⟩ : ∃ n, turns = n + 1 := ⟨turns - 1, by omega⟩
    exact Runs.pure fun s hs => ⟨runs, k, rfl, rfl, by simpa using hs⟩
  | cons a l ih =>
    obtain ⟨turns, rfl⟩ : ∃ n, turns = n + 1 := ⟨turns - 1, by omega⟩
    rw [List.length_cons] at hturns hfuel
    rw [List.head?_cons, elementLoop]
    refine (Runs.deref_bind (c := ⟨l.head?, prev a⟩) (N := chains prev runs + chain prev l + R)
      (Runs.modify_bind ?_)).pre (by rw [chain_cons]; abel)
    have hplace := @runs_place ω _ cmp prev runs fuel size k (chain prev l + R) a hruns hk hsize
      hlength (by omega)
    refine (hplace.pre (by rw [chain_cons, chain_nil]; simp only [List.head?_nil]; abel)).bind
      fun parts s hs => ?_
    obtain ⟨k', hk', hsize', rfl, hs⟩ := hs
    -- the bounds of the next turn, by how a carry changes the runs
    have hperm : (RunSort.carry (le cmp) (size - 2) [a] runs).flatten.Perm ([a] ++ runs.flatten) :=
      RunSort.flatten_carry_perm
    have hcount := hperm.length_eq
    rw [List.length_append, List.length_singleton] at hcount
    have hgrow : (RunSort.carry (le cmp) (size - 2) [a] runs).length ≤ runs.length + 1 :=
      RunSort.length_carry_le
    have hkeep : runs.length ≤ (RunSort.carry (le cmp) (size - 2) [a] runs).length :=
      RunSort.length_le_length_carry
    have hne : RunSort.carry (le cmp) (size - 2) [a] runs ≠ [] := by
      rw [← List.length_pos_iff]
      exact (List.length_pos_iff.mpr hruns).trans_le hkeep
    exact ih hne hk' hsize' (by omega) (by omega) (by omega) s (by rwa [add_assoc])

/-- The runs below the last one become one. -/
theorem runs_joinLoop (hfuel : runs.flatten.length + l.length < fuel) :
    Runs (Owns () (chains prev runs + chain prev l + R))
      (joinLoop cmp fuel (front ++ (runs.map List.head? ++ part)) runs.length front.length l.head?)
      fun r s => r = (runs.foldl (fun list run => run.merge list (le cmp)) l).head? ∧
        Owns () (chain prev (runs.foldl (fun list run => run.merge list (le cmp)) l) + R) s := by
  induction runs generalizing front l with
  | nil => exact Runs.pure fun s hs => ⟨rfl, by simpa using hs⟩
  | cons run runs ih =>
    rw [List.flatten_cons, List.length_append] at hfuel
    rw [List.length_cons, joinLoop, List.map_cons, List.cons_append, partAt_front, pure_bind]
    have hnext : front ++ run.head? :: (runs.map List.head? ++ part) =
        (front ++ [run.head?]) ++ (runs.map List.head? ++ part) := by simp
    cases run with
    | nil =>
      have hrest := @ih l (front ++ [none]) (by rw [List.length_nil] at hfuel; omega)
      rw [List.length_append] at hrest
      simpa [hnext] using hrest
    | cons a run =>
      have hmerge := @runs_adxListMerge ω _ cmp prev (a :: run) l fuel (chains prev runs + R)
        (by omega)
      rw [List.head?_cons, Option.isSome_some, if_pos rfl]
      refine Runs.bind (hmerge.pre (by rw [chains_cons]; abel)) fun list => Runs.of_fact ?_
      rintro rfl
      have hrest := @ih ((a :: run).merge l (le cmp)) (front ++ [some a])
        (by rw [List.length_merge]; omega)
      rw [List.length_append, List.append_assoc] at hrest
      exact hrest.pre (by abel)

end

/-! ## The list -/

/-- `cmp` is a total preorder of the nodes. -/
structure TotalPreorder (cmp : ω → ω → ℤ) : Prop where
  trans : ∀ a b c, cmp a b ≤ 0 → cmp b c ≤ 0 → cmp a c ≤ 0
  total : ∀ a b, cmp a b ≤ 0 ∨ cmp b a ≤ 0

/-- The list has the same elements in order, and those that are equal for `cmp` are in the order
that they had. -/
structure SortedFrom (cmp : ω → ω → ℤ) (l l' : List ω) : Prop where
  perm : l'.Perm l
  sorted : l'.Pairwise fun a b => cmp a b ≤ 0
  stable : ∀ x, l'.filter (fun a => cmp x a ≤ 0 ∧ cmp a x ≤ 0) =
    l.filter fun a => cmp x a ≤ 0 ∧ cmp a x ≤ 0

section

variable {cmp : ω → ω → ℤ} {l : List ω} {fuel size : ℕ} {R : Multiset (ω × Node ω)} {head : ω}

omit [DecidableEq ω] in
/-- What the algorithm of the library does is what is asked for. -/
theorem sortedFrom_sort (hcmp : TotalPreorder cmp) (top : ℕ) :
    SortedFrom cmp l (RunSort.sort (le cmp) top l) := by
  have htrans : ∀ a b c, le cmp a b → le cmp b c → le cmp a c := by
    simpa [le] using hcmp.trans
  have htotal : ∀ a b, le cmp a b || le cmp b a := by
    simpa [le] using hcmp.total
  refine ⟨RunSort.sort_perm l, ?_, fun x => ?_⟩
  · simpa [le] using @RunSort.pairwise_sort ω (le cmp) top htrans htotal l
  · simpa [le] using @RunSort.filter_sort ω (le cmp) top htrans htotal l x

/-- A circular list with elements is sorted in place. -/
theorem runs_adxListSort (hl : l ≠ []) (hsize : 2 ≤ size) (hfuel : l.length + 1 < fuel) :
    Runs (Owns () (ring head l + R)) (adxListSort cmp fuel head size)
      fun _ => Owns () (ring head (RunSort.sort (le cmp) (size - 2) l) + R) := by
  -- the list is cut behind its last node, and is a chain
  refine Runs.of_owns fun hapart => ?_
  have hnodup : (head :: l).Nodup := by
    rw [Multiset.map_add, ring, fst_linked, Multiset.nodup_add] at hapart
    exact Multiset.coe_nodup.mp hapart.1
  obtain ⟨prev, p, S, T, hS, hT, hchain⟩ := exists_ring_cut hl hnodup
  have hempty : ¬ (l.head? = some head ∧ l.head? = some (l.getLastD head)) := by
    rintro ⟨hhead, -⟩
    exact (List.nodup_cons.mp hnodup).1 (List.mem_of_head? hhead)
  rw [hS, adxListSort, adxListEmpty, bind_assoc, add_assoc]
  refine Runs.deref_bind ?_
  rw [pure_bind, decide_eq_false hempty, if_neg Bool.false_ne_true]
  refine Runs.deref_bind (Runs.nonNull_bind (Runs.pre (Runs.modify_bind ?_)
    (by rw [← add_assoc, ← hS, hT, add_assoc])))
  refine Runs.pre (N := {(head, ⟨l.head?, prev head⟩)} + (chains prev [[]] + chain prev l + R))
    (Runs.deref_bind ?_) (by rw [← add_assoc, hchain, add_assoc]; simp)
  -- all elements go into the array
  have hslots : (List.replicate size none : List (Option ω)) =
      slots ([[]] : List (List ω)) (size - 1) := by
    obtain ⟨n, rfl⟩ : ∃ n, size = n + 1 := ⟨size - 1, by omega⟩
    rfl
  have hloop := @runs_elementLoop ω _ cmp prev l [[]] fuel fuel size (size - 1)
    ({(head, ⟨l.head?, prev head⟩)} + R) (by simp) (by omega) (by simp; omega) (by simp) (by omega)
    (by simpa using hfuel)
  rw [hslots]
  refine (hloop.pre (by simp)).bind fun parts s hs => ?_
  obtain ⟨runs, k, hruns, rfl, hs⟩ := hs
  revert s
  -- the last run has elements
  obtain ⟨init, last, rfl, hlast, hcount⟩ := RunSort.exists_last_run hl hruns.symm
  -- the runs below it are merged, and the last merge makes the list circular
  have hpart : slots (init ++ [last]) k =
      init.map List.head? ++ last.head? :: List.replicate k none := by
    simp [slots]
  have hlev : (init ++ [last]).length - 1 = init.length := by
    rw [List.length_append, List.length_singleton, Nat.add_sub_cancel]
  rw [hpart, hlev]
  have hjoin := @runs_joinLoop ω _ cmp prev [] init [] (last.head? :: List.replicate k none) fuel
    ({(head, ⟨l.head?, prev head⟩)} + chain prev last + R)
    (by rw [List.length_nil]; omega)
  refine Runs.bind (hjoin.pre (by simp; abel)) fun list => Runs.of_fact ?_
  rintro rfl
  have hrest := (RunSort.foldl_merge_perm (le cmp) init []).length_eq
  have hat : partAt (init.map List.head? ++ last.head? :: List.replicate k none) init.length =
      pure last.head? := by
    rw [← List.length_map (f := List.head?), partAt_front]
  rw [hat, pure_bind, RunSort.sort, ← hruns, List.foldl_append]
  exact (runs_adxListMergeAndRestoreBackLinks (by simp [hlast])
    (by rw [hrest, List.nil_append]; omega)).pre (by abel)

/-- For every circular list with an element, every total preorder and every array of at least two
lists, `adx_list_sort` ends, uses no index that is not in its array, and leaves a circular list,
linked in both directions, whose nodes are those of the list, in order and stable; the other nodes
are what they were. -/
theorem list_sort_sorts (hcmp : TotalPreorder cmp) (hl : l ≠ []) (hsize : 2 ≤ size)
    (hfuel : l.length + 1 < fuel) {s : State Unit ω (Node ω)}
    (hs : Owns () (ring head l + R) s) :
    ∃ s' l', adxListSort cmp fuel head size s = some ((), s') ∧
      Owns () (ring head l' + R) s' ∧ SortedFrom cmp l l' := by
  obtain ⟨⟨⟩, s', hrun, hs'⟩ := runs_adxListSort hl hsize hfuel s hs
  exact ⟨s', _, hrun, hs', sortedFrom_sort hcmp (size - 2)⟩

/-- Four nodes behind the node 0, which are compared by their halves. -/
theorem list_sort_sorts_four : ∃ s' l',
    adxListSort (fun a b : ℕ => (a / 2 : ℤ) - b / 2) 6 0 2
      ⟨(), fun a => [(⟨some 5, some 4⟩ : Node ℕ), ⟨none, none⟩, ⟨some 3, some 5⟩, ⟨some 4, some 2⟩,
        ⟨some 0, some 3⟩, ⟨some 2, some 0⟩][a]?⟩ = some ((), s') ∧
      Owns () (ring 0 l' + {(1, ⟨none, none⟩)}) s' ∧
      SortedFrom (fun a b : ℕ => (a / 2 : ℤ) - b / 2) [5, 2, 3, 4] l' := by
  refine list_sort_sorts ⟨fun a b c hab hbc => ?_, fun a b => ?_⟩ (by decide) (by decide) (by decide)
    ⟨rfl, by decide, by decide⟩
  · omega
  · omega

end

end ListSort

end AdxDsp
