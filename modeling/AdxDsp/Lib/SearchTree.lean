import Mathlib.Data.List.Basic
import Mathlib.Data.List.Induction
import Mathlib.Tactic.Common
import Mathlib.Tactic.Tauto

/-!
# Search trees with a comparison of their own

`std::set` and `std::map` walk down a tree with a comparison that the program gives.  Insertions may
rebalance the tree in any way that keeps the order of its keys, so that a tree is known by the list
of its keys.

* `SetTree.firstNot_eq`, `SetTree.lastWith_eq`: both walks end where a scan of the list would, if
  the list is split by their test.
* `SetTree.contains_iff`: under a strict partial order, a key is found exactly if some key of the
  tree is neither before nor behind it.
* `SetTree.Built.toList_spec`: insertions build a chain, which does not depend on how the tree was
  rebalanced.
* `SetTree.Built.contains_iff`: what is found among the keys that have been inserted.
* `SetTree.findValue_eq_some_iff`: under a strict total order, a map gives each key its value.
-/

namespace AdxDsp

/-- A `std::set` as the tree it is in memory. -/
inductive SetTree (α : Type) where
  | leaf
  | node (left : SetTree α) (key : α) (right : SetTree α)
  deriving DecidableEq

namespace SetTree

variable {α : Type}

/-- The keys from left to right. -/
def toList : SetTree α → List α
  | leaf => []
  | node left key right => toList left ++ key :: toList right

/-! ## The walks -/

section

variable (p : α → Bool)

/-- Walk to the first key that does not pass the test, given those that come later. -/
def firstNot : SetTree α → Option α → Option α
  | leaf, y => y
  | node left key right, y => if p key then firstNot right y else firstNot left (some key)

/-- Walk to the last key that passes the test, given those that come earlier. -/
def lastWith : SetTree α → Option α → Option α
  | leaf, y => y
  | node left key right, y => if p key then lastWith right (some key) else lastWith left y

/-- Put a key behind those that pass the test, as a leaf. -/
def insertLeaf (x : α) : SetTree α → SetTree α
  | leaf => node leaf x leaf
  | node left key right =>
    if p key then node left key (insertLeaf x right) else node (insertLeaf x left) key right

/-- The test splits a list: what stands before a key that passes it, passes it too. -/
def Splits (l : List α) : Prop := l.Pairwise fun a b => p b = true → p a = true

end

section

variable {p : α → Bool} {left right : SetTree α} {key : α}

/-- A predicate that splits a tree splits its left child. -/
theorem Splits.toLeft (h : Splits p (node left key right).toList) : Splits p left.toList :=
  (List.pairwise_append.mp h).1

/-- A predicate that splits a tree splits its right child. -/
theorem Splits.toRight (h : Splits p (node left key right).toList) : Splits p right.toList :=
  (List.pairwise_cons.mp (List.pairwise_append.mp h).2.1).2

/-- Where the root passes, so does all left of it. -/
theorem Splits.of_pos (h : Splits p (node left key right).toList) (hkey : p key = true) :
    ∀ a ∈ left.toList, p a = true :=
  fun a ha => (List.pairwise_append.mp h).2.2 a ha key List.mem_cons_self hkey

/-- Where the root does not pass, nothing right of it does. -/
theorem Splits.of_neg (h : Splits p (node left key right).toList) (hkey : p key = false) :
    ∀ a ∈ right.toList, p a = false := by
  intro a ha
  have hpass := (List.pairwise_cons.mp (List.pairwise_append.mp h).2.1).1 a ha
  exact eq_false_of_ne_true fun h => Bool.false_ne_true (hkey.symm.trans (hpass h))

/-- The selected elements of a node, part by part. -/
theorem filter_node (p : α → Bool) :
    (node left key right).toList.filter p =
      left.toList.filter p ++ (if p key then [key] else []) ++ right.toList.filter p := by
  rw [toList, List.filter_append, List.filter_cons]
  split_ifs <;> simp

/-- The first walk ends at the first key that does not pass. -/
theorem firstNot_eq (t : SetTree α) (y : Option α) (h : Splits p t.toList) :
    t.firstNot p y = ((t.toList.filter (!p ·)).head?).or y := by
  induction t generalizing y with
  | leaf => rfl
  | node left key right ihl ihr =>
    rw [firstNot, filter_node]
    by_cases hkey : p key = true
    · have hleft : left.toList.filter (!p ·) = [] := by
        rw [List.filter_eq_nil_iff]
        intro a ha
        simp [h.of_pos hkey a ha]
      rw [if_pos hkey, ihr y h.toRight, hleft, hkey]
      rfl
    · rw [if_neg hkey, ihl _ h.toLeft, Bool.eq_false_iff.mpr hkey]
      cases left.toList.filter (!p ·) <;> simp

/-- The second walk ends at the last key that passes. -/
theorem lastWith_eq (t : SetTree α) (y : Option α) (h : Splits p t.toList) :
    t.lastWith p y = ((t.toList.filter p).getLast?).or y := by
  induction t generalizing y with
  | leaf => rfl
  | node left key right ihl ihr =>
    rw [lastWith, filter_node]
    by_cases hkey : p key = true
    · rw [if_pos hkey, ihr _ h.toRight, if_pos hkey]
      cases hright : right.toList.filter p with
      | nil => simp
      | cons a as => simp [List.getLast?_cons]
    · have hright : right.toList.filter p = [] := by
        rw [List.filter_eq_nil_iff]
        intro a ha
        simp [h.of_neg (Bool.eq_false_iff.mpr hkey) a ha]
      rw [if_neg hkey, ihl y h.toLeft, if_neg hkey, hright, List.append_nil, List.append_nil]

/-- The new leaf stands between the keys that pass and those that do not. -/
theorem toList_insertLeaf (x : α) (t : SetTree α) (h : Splits p t.toList) :
    (t.insertLeaf p x).toList = t.toList.filter p ++ x :: t.toList.filter (!p ·) := by
  induction t with
  | leaf => rfl
  | node left key right ihl ihr =>
    rw [insertLeaf, filter_node, filter_node]
    by_cases hkey : p key = true
    · have hleft : left.toList.filter p = left.toList := by
        rw [List.filter_eq_self]
        exact h.of_pos hkey
      have hleft' : left.toList.filter (!p ·) = [] := by
        rw [List.filter_eq_nil_iff]
        intro a ha
        simp [h.of_pos hkey a ha]
      rw [if_pos hkey, toList, ihr h.toRight, hleft, hleft', hkey]
      simp
    · have hkey' := Bool.eq_false_iff.mpr hkey
      have hright : right.toList.filter (!p ·) = right.toList := by
        rw [List.filter_eq_self]
        intro a ha
        simp [h.of_neg hkey' a ha]
      have hright' : right.toList.filter p = [] := by
        rw [List.filter_eq_nil_iff]
        intro a ha
        simp [h.of_neg hkey' a ha]
      rw [if_neg hkey, toList, ihl h.toLeft, hright, hright', hkey']
      simp

end

/-! ## Sets -/

section

variable (lt : α → α → Bool) (k : α)

/-- The first key that is not before `k`, as the search tree finds it. -/
def lowerBound : SetTree α → Option α → Option α
  | leaf, y => y
  | node left key right, y =>
    if lt key k then lowerBound right y else lowerBound left (some key)

/-- `std::set::find`. -/
def contains (t : SetTree α) : Bool :=
  match t.lowerBound lt k none with
  | none => false
  | some j => !lt k j

/-- `std::set::insert`, after which the tree may have been rebalanced: if the last key that `k` is
not before comes before `k`, or there is none, `k` becomes a new leaf behind it. -/
inductive Inserted (t t' : SetTree α) : Prop where
  | new (hbefore : ∀ j ∈ t.lastWith (!lt k ·) none, lt j k = true)
      (htree : t'.toList = (t.insertLeaf (!lt k ·) k).toList)
  | present (j : α) (hlast : t.lastWith (!lt k ·) none = some j) (hnot : lt j k = false)
      (htree : t' = t)

/-- A tree after the insertion of the keys of a list, one after the other. -/
inductive Built : List α → SetTree α → Prop where
  | nil : Built [] leaf
  | insert {xs : List α} {t t' : SetTree α} (x : α) (ht : Built xs t)
      (hins : Inserted lt x t t') : Built (xs ++ [x]) t'

/-- A strict partial order. -/
structure StrictOrder : Prop where
  irrefl : ∀ a, lt a a = false
  trans : ∀ {a b c}, lt a b = true → lt b c = true → lt a c = true

/-- One of two keys comes before the other. -/
def Comparable (a b : α) : Prop := lt a b = true ∨ lt b a = true

instance (a b : α) : Decidable (Comparable lt a b) := inferInstanceAs (Decidable (_ ∨ _))

/-- A key is kept if it can be compared with all that are kept already. -/
def keep (kept : List α) (x : α) : List α :=
  if ∀ k ∈ kept, Comparable lt x k then kept ++ [x] else kept

/-- The keys of a list that are kept. -/
def kept (xs : List α) : List α := xs.foldl (keep lt) []

end

section

variable {lt : α → α → Bool} {t t' : SetTree α} {xs : List α} {x q : α}

/-- The search for the lower bound is one for the first element not below. -/
theorem lowerBound_eq (t : SetTree α) (y : Option α) :
    t.lowerBound lt q y = t.firstNot (lt · q) y := by
  induction t generalizing y with
  | leaf => rfl
  | node left key right ihl ihr => rw [lowerBound, firstNot, ihl, ihr]

/-- One more insertion. -/
theorem kept_concat : kept lt (xs ++ [x]) = keep lt (kept lt xs) x := by
  rw [kept, List.foldl_append]
  rfl

variable (hlt : StrictOrder lt)
include hlt

/-- In a strict order nothing is below itself. -/
theorem StrictOrder.not_comparable (a : α) : ¬Comparable lt a a := by
  rintro (h | h) <;> exact Bool.false_ne_true ((hlt.irrefl a).symm.trans h)

/-- Among the keys of a chain, those before a key come first. -/
theorem splits_before (h : t.toList.Pairwise (lt · ·)) : Splits (lt · q) t.toList :=
  h.imp fun hab hbq => hlt.trans hab hbq

/-- Those that a key is not before come first, too. -/
theorem splits_notBehind (h : t.toList.Pairwise (lt · ·)) : Splits (!lt x ·) t.toList := by
  refine h.imp fun {a b} hab hb => ?_
  rw [Bool.not_eq_true'] at hb ⊢
  exact eq_false_of_ne_true fun ha => Bool.false_ne_true (hb.symm.trans (hlt.trans ha hab))

/-- A key is found exactly if some key of the chain is neither before nor behind it. -/
theorem contains_iff (h : t.toList.Pairwise (lt · ·)) :
    t.contains lt q = true ↔ ∃ k ∈ t.toList, ¬Comparable lt q k := by
  have hmem : ∀ k, k ∈ t.toList.filter (!lt · q) ↔ k ∈ t.toList ∧ lt k q = false := by
    simp [List.mem_filter]
  have hchain := h.filter (!lt · q)
  rw [contains, lowerBound_eq, firstNot_eq _ _ (splits_before hlt h)]
  cases hfilter : t.toList.filter (!lt · q) with
  | nil =>
    rw [hfilter] at hmem
    constructor
    · intro hfalse
      cases hfalse
    · rintro ⟨k, hk, hnot⟩
      refine absurd ((hmem k).mpr ⟨hk, ?_⟩) List.not_mem_nil
      exact eq_false_of_ne_true fun h => hnot (.inr h)
  | cons j rest =>
    rw [hfilter] at hmem hchain
    change (!lt q j) = true ↔ _
    rw [Bool.not_eq_true']
    constructor
    · intro hqj
      obtain ⟨hj, hjq⟩ := (hmem j).mp List.mem_cons_self
      refine ⟨j, hj, ?_⟩
      rintro (h | h)
      · exact Bool.false_ne_true (hqj.symm.trans h)
      · exact Bool.false_ne_true (hjq.symm.trans h)
    · rintro ⟨k, hk, hnot⟩
      refine eq_false_of_ne_true fun hqj => hnot (.inl ?_)
      -- `k` stands at `j` or behind it, so that `q` is before it
      have hkq : lt k q = false := eq_false_of_ne_true fun h => hnot (.inr h)
      rcases List.mem_cons.mp ((hmem k).mpr ⟨hk, hkq⟩) with rfl | hk
      · exact hqj
      · exact hlt.trans hqj ((List.pairwise_cons.mp hchain).1 k hk)

/-- An insertion keeps the chain, and adds the key exactly if it can be compared with all of it. -/
theorem Inserted.toList_spec (h : t.toList.Pairwise (lt · ·)) (hins : Inserted lt x t t') :
    t'.toList.Pairwise (lt · ·) ∧
      ∀ a, a ∈ t'.toList ↔
        a ∈ t.toList ∨ (a = x ∧ ∀ k ∈ t.toList, Comparable lt x k) := by
  have hsplits : Splits (!lt x ·) t.toList := splits_notBehind hlt h
  have hmem : ∀ k, k ∈ t.toList.filter (!lt x ·) ↔ k ∈ t.toList ∧ lt x k = false := by
    simp [List.mem_filter]
  have hmem' : ∀ k, k ∈ t.toList.filter (!!lt x ·) ↔ k ∈ t.toList ∧ lt x k = true := by
    simp [List.mem_filter]
  have hlast := lastWith_eq t none hsplits
  rw [Option.or_none] at hlast
  cases hins with
  | new hbefore htree =>
    rw [htree, toList_insertLeaf x t hsplits]
    -- all that stands before the new leaf comes before the key
    have hall : ∀ k ∈ t.toList, lt x k = false → lt k x = true := by
      intro k hk hxk
      have hchain := h.filter (!lt x ·)
      have hk := (hmem k).mpr ⟨hk, hxk⟩
      rw [hlast] at hbefore
      rcases List.eq_nil_or_concat (t.toList.filter (!lt x ·)) with hnil | ⟨front, j, hfront⟩
      · exact absurd (hnil ▸ hk) List.not_mem_nil
      · rw [hfront, List.concat_eq_append] at hbefore hchain hk
        have hj : lt j x = true := hbefore j List.getLast?_concat
        rcases List.mem_append.mp hk with hk | hk
        · exact hlt.trans ((List.pairwise_append.mp hchain).2.2 k hk j List.mem_cons_self) hj
        · exact List.mem_singleton.mp hk ▸ hj
    constructor
    · refine List.pairwise_append.mpr ⟨h.filter _, List.pairwise_cons.mpr ⟨?_, h.filter _⟩, ?_⟩
      · exact fun b hb => ((hmem' b).mp hb).2
      · intro a ha b hb
        obtain ⟨ha, hxa⟩ := (hmem a).mp ha
        have hax := hall a ha hxa
        rcases List.mem_cons.mp hb with rfl | hb
        · exact hax
        · exact hlt.trans hax ((hmem' b).mp hb).2
    · intro a
      rw [List.mem_append, List.mem_cons, hmem, hmem']
      have hcomp : ∀ k ∈ t.toList, Comparable lt x k := by
        intro k hk
        cases hxk : lt x k with
        | true => exact .inl hxk
        | false => exact .inr (hall k hk hxk)
      cases lt x a <;> tauto
  | present j hj hnot htree =>
    subst htree
    refine ⟨h, fun a => ⟨.inl, ?_⟩⟩
    rintro (ha | ⟨-, hcomp⟩)
    · exact ha
    · -- the key cannot be compared with the last one that it is not before
      rw [hlast] at hj
      obtain ⟨hjmem, hxj⟩ := (hmem j).mp (List.mem_of_getLast? hj)
      rcases hcomp j hjmem with h | h
      · exact absurd (hxj.symm.trans h) Bool.false_ne_true
      · exact absurd (hnot.symm.trans h) Bool.false_ne_true

/-- The tree holds the keys that are kept, as a chain. -/
theorem Built.toList_spec (ht : Built lt xs t) :
    t.toList.Pairwise (lt · ·) ∧ ∀ a, a ∈ t.toList ↔ a ∈ kept lt xs := by
  induction ht with
  | nil => exact ⟨List.Pairwise.nil, fun a => Iff.rfl⟩
  | insert x ht hins ih =>
    obtain ⟨hchain, hmem⟩ := ih
    obtain ⟨hchain', hmem'⟩ := hins.toList_spec hlt hchain
    refine ⟨hchain', fun a => ?_⟩
    rw [hmem', kept_concat, keep]
    simp only [hmem]
    split_ifs with hall
    · rw [and_iff_left hall, List.mem_append, List.mem_singleton]
    · exact or_iff_left fun h => hall h.2

/-- What is found among the keys that have been inserted. -/
theorem Built.contains_iff (ht : Built lt xs t) :
    t.contains lt q = true ↔ ∃ k ∈ kept lt xs, ¬Comparable lt q k := by
  obtain ⟨hchain, hmem⟩ := ht.toList_spec hlt
  rw [SetTree.contains_iff hlt hchain]
  simp only [hmem]

/-- A key that is not kept cannot be compared with one that is. -/
theorem exists_not_comparable (hx : x ∈ xs) : ∃ k ∈ kept lt xs, ¬Comparable lt x k := by
  induction xs using List.reverseRecOn with
  | nil => exact absurd hx List.not_mem_nil
  | append_singleton xs y ih =>
    rw [kept_concat, keep]
    rcases List.mem_append.mp hx with hx | hx
    · obtain ⟨k, hk, hnot⟩ := ih hx
      split_ifs
      · exact ⟨k, List.mem_append_left _ hk, hnot⟩
      · exact ⟨k, hk, hnot⟩
    · obtain rfl := List.mem_singleton.mp hx
      split_ifs with hall
      · exact ⟨x, List.mem_append_right _ List.mem_cons_self, hlt.not_comparable x⟩
      · simpa only [not_forall, exists_prop] using hall

end

/-! ## Maps -/

section

variable {κ ν : Type} (lt : κ → κ → Bool)

/-- `std::map::find`: the value of a key. -/
def findValue (k : κ) (t : SetTree (κ × ν)) : Option ν :=
  match t.firstNot (fun e => lt e.1 k) none with
  | none => none
  | some e => if lt k e.1 then none else some e.2

variable {lt} {k : κ} {v : ν} {t : SetTree (κ × ν)}

/-- A search by key finds just the entries of the tree. -/
theorem findValue_eq_some_iff (hlt : StrictOrder lt)
    (htri : ∀ a b, lt a b = false → lt b a = false → a = b)
    (h : t.toList.Pairwise fun a b => lt a.1 b.1 = true) :
    t.findValue lt k = some v ↔ (k, v) ∈ t.toList := by
  have hsplits : Splits (fun e => lt e.1 k) t.toList := h.imp fun hab hbk => hlt.trans hab hbk
  have hmem : ∀ e, e ∈ t.toList.filter (fun e => !lt e.1 k) ↔ e ∈ t.toList ∧ lt e.1 k = false := by
    simp [List.mem_filter]
  have hsorted := h.filter fun e => !lt e.1 k
  have hkey : (k, v) ∈ t.toList ↔ (k, v) ∈ t.toList.filter (fun e => !lt e.1 k) := by
    rw [hmem, hlt.irrefl, and_iff_left rfl]
  rw [findValue, firstNot_eq _ _ hsplits, hkey]
  cases hfilter : t.toList.filter (fun e => !lt e.1 k) with
  | nil => simp
  | cons e rest =>
    rw [hfilter] at hmem hsorted
    have hek : lt e.1 k = false := ((hmem e).mp List.mem_cons_self).2
    -- the key is not behind the first entry
    have hrest : (k, v) ∉ rest := fun hv =>
      Bool.false_ne_true (hek.symm.trans ((List.pairwise_cons.mp hsorted).1 _ hv))
    rw [List.head?_cons, List.mem_cons, or_iff_left hrest]
    change (if lt k e.1 then none else some e.2) = some v ↔ _
    split_ifs with hke
    · constructor
      · intro hnone
        cases hnone
      · rintro rfl
        exact absurd ((hlt.irrefl k).symm.trans hke) Bool.false_ne_true
    · have hsame := htri e.1 k hek (eq_false_of_ne_true hke)
      rw [Option.some_inj, Prod.ext_iff]
      exact ⟨fun hv => ⟨hsame.symm, hv.symm⟩, fun hv => hv.2.symm⟩

end

end SetTree

end AdxDsp
