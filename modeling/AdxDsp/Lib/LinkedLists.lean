import Mathlib

/-!
# Linked lists of cells

The cells of lists whose nodes point to each other: chains that end with `NULL`, in which the
pointers back are whatever they were, and lists that are linked in both directions.

* `Node`: two pointers.
* `chain`: a list that is linked forwards only.
* `linked`: a list behind a node, linked in both directions, with its two ends open.
* `ring`: the circular list of a node.
* `linked_concat`, `exists_linked_last`, `exists_ring_cut`: how they are cut and joined.
* `exists_ring_add`, `exists_ring_del`: a node behind the last one, and without the first one.
-/

namespace LinkedLists

variable {ω : Type}

/-- The two pointers of a node. -/
structure Node (ω : Type) where
  next : Option ω
  prev : Option ω
  deriving DecidableEq

/-- The nodes of a list that ends with `NULL`; what points back is not a part of the list. -/
def chain (prev : ω → Option ω) : List ω → Multiset (ω × Node ω)
  | [] => 0
  | a :: l => {(a, ⟨l.head?, prev a⟩)} + chain prev l

/-- The chains of several lists. -/
def chains (prev : ω → Option ω) (lists : List (List ω)) : Multiset (ω × Node ω) :=
  (lists.map (chain prev)).sum

/-- A node and a list behind it, linked in both directions; `first` is where the node points back,
and `last` is where the last node points to. -/
def linked (first : Option ω) (a : ω) (last : Option ω) : List ω → Multiset (ω × Node ω)
  | [] => {(a, ⟨last, first⟩)}
  | b :: l => {(a, ⟨some b, first⟩)} + linked (some a) b last l

/-- The circular list of a node. -/
def ring (head : ω) (l : List ω) : Multiset (ω × Node ω) :=
  linked (some (l.getLastD head)) head (some head) l

variable {prev prev' : ω → Option ω} {first last : Option ω} {a b : ω} {l : List ω}
  {lists : List (List ω)}

@[simp] theorem chain_nil : chain prev [] = 0 := rfl

@[simp] theorem chain_cons : chain prev (a :: l) = {(a, ⟨l.head?, prev a⟩)} + chain prev l := rfl

@[simp] theorem chains_nil : chains prev [] = 0 := rfl

/-- The cells of a list and of those behind it. -/
@[simp] theorem chains_cons : chains prev (l :: lists) = chain prev l + chains prev lists := by
  simp [chains]

/-- The cells of two rows of lists. -/
@[simp] theorem chains_append {lists' : List (List ω)} :
    chains prev (lists ++ lists') = chains prev lists + chains prev lists' := by
  simp [chains]

@[simp] theorem linked_nil : linked first a last [] = {(a, ⟨last, first⟩)} := rfl

@[simp] theorem linked_cons :
    linked first a last (b :: l) = {(a, ⟨some b, first⟩)} + linked (some a) b last l := rfl

/-- A node behind the last one. -/
theorem linked_concat : linked first a last (l ++ [b]) =
    linked first a (some b) l + {(b, ⟨last, some (l.getLastD a)⟩)} := by
  induction l generalizing first a with
  | nil => simp
  | cons c l ih =>
    rw [List.cons_append, linked_cons, ih, linked_cons, List.getLastD_cons, add_assoc]

/-- The pointer back from the first node is no part of the other nodes. -/
theorem exists_linked_first (a : ω) (last : Option ω) (l : List ω) :
    ∃ R, ∀ first, linked first a last l = {(a, ⟨l.head?.or last, first⟩)} + R := by
  cases l with
  | nil => exact ⟨0, fun first => by simp⟩
  | cons b l => exact ⟨linked (some a) b last l, fun first => by simp⟩

/-- Where the last node points to is no part of the other nodes. -/
theorem exists_linked_last (first : Option ω) (a : ω) (l : List ω) :
    ∃ p R, ∀ last, linked first a last l = {(l.getLastD a, ⟨last, p⟩)} + R := by
  induction l generalizing first a with
  | nil => exact ⟨first, 0, fun last => by simp⟩
  | cons b l ih =>
    obtain ⟨p, R, hR⟩ := ih (some a) b
    refine ⟨p, {(a, ⟨some b, first⟩)} + R, fun last => ?_⟩
    rw [linked_cons, hR, List.getLastD_cons]
    abel

/-- The addresses of a list are those of its nodes. -/
theorem fst_linked (first : Option ω) (a : ω) (last : Option ω) (l : List ω) :
    (linked first a last l).map Prod.fst = (a :: l : Multiset ω) := by
  induction l generalizing first a with
  | nil => simp
  | cons b l ih => simp [ih]

/-- The cells of a list depend on the back pointers of its own addresses only. -/
theorem chain_congr (h : ∀ a ∈ l, prev a = prev' a) : chain prev l = chain prev' l := by
  induction l with
  | nil => rfl
  | cons a l ih =>
    rw [chain_cons, chain_cons, h a List.mem_cons_self,
      ih fun b hb => h b (List.mem_cons_of_mem _ hb)]

/-- A list that is linked in both directions, up to `NULL`, is a chain with the pointers back that
it has. -/
theorem exists_chain [DecidableEq ω] (first : Option ω) (hnodup : (a :: l).Nodup) :
    ∃ prev, linked first a none l = chain prev (a :: l) := by
  induction l generalizing first a with
  | nil => exact ⟨fun _ => first, rfl⟩
  | cons b l ih =>
    obtain ⟨ha, hrest⟩ := List.nodup_cons.mp hnodup
    obtain ⟨prev, hprev⟩ := ih (some a) hrest
    refine ⟨Function.update prev a first, ?_⟩
    -- the first node has a pointer back of its own, and is not met again
    have hsame : chain (Function.update prev a first) (b :: l) = chain prev (b :: l) := by
      apply chain_congr
      intro c hc
      have hne : c ≠ a := fun h => ha (h ▸ hc)
      exact Function.update_of_ne hne _ _
    rw [linked_cons, hprev, ← hsame, chain_cons (a := a)]
    simp

/-- Behind its head, and in front of the pointer from its last node, a circular list can be cut;
cut at both places, it is a chain. -/
theorem exists_ring_cut [DecidableEq ω] (hl : l ≠ []) (hnodup : (a :: l).Nodup) :
    ∃ prev p S T, ring a l = {(a, ⟨l.head?, some (l.getLastD a)⟩)} + S ∧
      ring a l = {(l.getLastD a, ⟨some a, p⟩)} + T ∧
      {(l.getLastD a, ⟨none, p⟩)} + T = {(a, ⟨l.head?, prev a⟩)} + chain prev l := by
  obtain ⟨prev, hprev⟩ := exists_chain (some (l.getLastD a)) hnodup
  obtain ⟨p, T, hT⟩ := exists_linked_last (some (l.getLastD a)) a l
  obtain ⟨S, hS⟩ := exists_linked_first a (some a) l
  have hnext : l.head?.or (some a) = l.head? := by
    obtain ⟨b, l, rfl⟩ := List.exists_cons_of_ne_nil hl
    rfl
  refine ⟨prev, p, S, T, ?_, ?_, ?_⟩
  · rw [ring, hS, hnext]
  · rw [ring, hT]
  · rw [← hT, hprev, chain_cons]

/-- The ring of a head and one node. -/
theorem ring_single : ring a [b] = {(a, ⟨some b, some b⟩)} + {(b, ⟨some a, some a⟩)} := rfl

/-- The nodes that change when one is put behind the last one of a circular list. -/
theorem exists_ring_add (head b : ω) (l : List ω) : ∃ n p R,
    ring head (l ++ [b]) = {(head, ⟨n, some b⟩)} + ({(b, ⟨some head, p⟩)} + R) ∧
      ∀ a, ring head (l ++ [b] ++ [a]) = {(head, ⟨n, some a⟩)} +
        ({(b, ⟨some a, p⟩)} + ({(a, ⟨some head, some b⟩)} + R)) := by
  obtain ⟨R, hR⟩ := exists_linked_first head (some b) l
  have hlast : ∀ (l : List ω) (x : ω), (l ++ [x]).getLastD head = x := by
    intro l x
    simp
  refine ⟨l.head?.or (some b), some (l.getLastD head), R, ?_, fun a => ?_⟩
  · rw [ring, hlast, linked_concat, hR]
    abel
  · rw [ring, hlast, linked_concat, linked_concat, hlast, hR]
    abel

/-- The nodes that change when the first one is taken out of a circular list. -/
theorem exists_ring_del (head b c : ω) (l : List ω) : ∃ n last R,
    ring head (b :: c :: l) = {(head, ⟨some b, last⟩)} +
      ({(b, ⟨some c, some head⟩)} + ({(c, ⟨n, some b⟩)} + R)) ∧
    ring head (c :: l) = {(head, ⟨some c, last⟩)} + ({(c, ⟨n, some head⟩)} + R) := by
  obtain ⟨R, hR⟩ := exists_linked_first c (some head) l
  refine ⟨l.head?.or (some head), some (l.getLastD c), R, ?_, ?_⟩
  · rw [ring, linked_cons, linked_cons, hR, List.getLastD_cons, List.getLastD_cons]
  · rw [ring, linked_cons, hR, List.getLastD_cons]

end LinkedLists
