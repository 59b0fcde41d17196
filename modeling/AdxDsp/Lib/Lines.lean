import AdxDsp.Lib.Replace

/-!
# Texts of lines

A text is the lines between its separators.  What concerns a text without separators, searching for
it and replacing it, takes place within the lines.

* `lines`, `unlines`: a text and its lines.
* **`replaceAll_unlines`**: each line is rewritten on its own.
* **`infix_unlines_iff`**, **`find_unlines`**: a text is found in one of the lines.
-/

namespace CText

/-- The lines of a text, of which there is at least one. -/
def lines (t : Bytes) : List Bytes := t.splitOn 10

/-- Lines with a `\n` between them. -/
def unlines (ls : List Bytes) : Bytes := [10].intercalate ls

/-- One line has no line feed. -/
@[simp] theorem unlines_singleton (l : Bytes) : unlines [l] = l := List.intercalate_singleton

/-- A line in front of others is closed by a line feed. -/
theorem unlines_cons {ls : List Bytes} (h : ls ≠ []) (l : Bytes) :
    unlines (l :: ls) = l ++ 10 :: unlines ls := by
  rw [unlines, List.intercalate_cons_of_ne_nil h, List.append_assoc]
  rfl

/-- The lines of a text, joined again, are the text. -/
theorem unlines_lines (t : Bytes) : unlines (lines t) = t := List.intercalate_splitOn 10

/-- No line has a line feed. -/
theorem notMem_of_mem_lines {t l : Bytes} (h : l ∈ lines t) : 10 ∉ l := notMem_of_mem_splitOn h

/-- Every text has a line, the empty one included. -/
theorem lines_ne_nil (t : Bytes) : lines t ≠ [] := List.splitOn_ne_nil 10 t

/-- The length of joined lines, with one line feed between any two. -/
theorem length_unlines {ls : List Bytes} (h : ls ≠ []) :
    (unlines ls).length + 1 = (ls.map List.length).sum + ls.length := by
  induction ls with
  | nil => exact absurd rfl h
  | cons l ls ih =>
    rcases eq_or_ne ls [] with rfl | hls
    · rw [unlines_singleton]
      rfl
    · have hrest := ih hls
      rw [unlines_cons hls, List.length_append, List.length_cons, List.map_cons, List.sum_cons,
        List.length_cons]
      omega

/-- Line feeds apart, the bytes are those of the lines. -/
theorem count_unlines {b : UInt8} (hb : b ≠ 10) (ls : List Bytes) :
    (unlines ls).count b = (ls.map (List.count b)).sum := by
  induction ls with
  | nil => rfl
  | cons l ls ih =>
    rcases eq_or_ne ls [] with rfl | hls
    · rw [unlines_singleton, List.map_singleton, List.sum_singleton]
    · rw [unlines_cons hls, List.count_append, List.count_cons_of_ne hb.symm, ih, List.map_cons,
        List.sum_cons]

section

variable {src : Bytes} (hsrc : src ≠ []) (hsep : 10 ∉ src)
include hsrc hsep

/-- A text without a line feed is replaced in each line by itself. -/
theorem replaceAll_unlines (dest : Bytes) (ls : List Bytes) :
    replaceAll src dest (unlines ls) = unlines (ls.map (replaceAll src dest)) := by
  induction ls with
  | nil =>
    change replaceAll src dest [] = []
    rw [replaceAll]
  | cons l ls ih =>
    rcases eq_or_ne ls [] with rfl | hls
    · rw [unlines_singleton, List.map_singleton, unlines_singleton]
    · rw [unlines_cons hls, replaceAll_append_sep hsep hsrc, ih, List.map_cons, unlines_cons]
      exact fun h => hls (List.map_eq_nil_iff.mp h)

/-- A text without a line feed occurs just where a line has it. -/
theorem infix_unlines_iff (ls : List Bytes) : src <:+: unlines ls ↔ ∃ l ∈ ls, src <:+: l := by
  induction ls with
  | nil =>
    change src <:+: [] ↔ _
    rw [List.infix_nil]
    simp [hsrc]
  | cons l ls ih =>
    rw [List.exists_mem_cons_iff]
    rcases eq_or_ne ls [] with rfl | hls
    · simp
    · -- without a separator in it, an occurrence does not reach over one
      rw [unlines_cons hls, infix_append_sep hsep hsrc, ih]

/-- The first line with an occurrence has the first occurrence. -/
theorem find_unlines {l : Bytes} {before after : List Bytes} {n : ℕ}
    (hbefore : ∀ l ∈ before, find src l = none) (h : find src l = some n) :
    find src (unlines (before ++ l :: after)) =
      some ((before.map fun l => l.length + 1).sum + n) := by
  induction before with
  | nil =>
    rw [List.nil_append, List.map_nil, List.sum_nil, Nat.zero_add]
    rcases eq_or_ne after [] with rfl | hafter
    · rw [unlines_singleton, h]
    · rw [unlines_cons hafter, find_append_sep_of_eq_some hsep hsrc _ h]
  | cons b before ih =>
    rw [List.forall_mem_cons] at hbefore
    rw [List.cons_append, unlines_cons (by simp),
      find_append_sep_of_eq_none hsep hsrc _ hbefore.1, ih hbefore.2, Option.map_some,
      List.map_cons, List.sum_cons]
    congr 1
    omega

end

/-! ## The first separator -/

/-- The search skips what lacks the first byte of the text looked for. -/
theorem find_append_of_notMem {c : UInt8} {a : Bytes} (ha : c ∉ a) (src t : Bytes) :
    find (c :: src) (a ++ t) = (find (c :: src) t).map (· + a.length) := by
  induction a with
  | nil => rw [List.nil_append, List.length_nil]; simp
  | cons b a ih =>
    rw [List.mem_cons, not_or] at ha
    -- no byte of `a` starts an occurrence
    rw [List.cons_append, find_cons_of_not_start, ih ha.2, Option.map_map]
    · rfl
    · intro h
      rw [List.cons_prefix_cons] at h
      exact ha.1 h.1

/-- Without the byte, the part before it is everything. -/
theorem takeWhile_of_find_eq_none {c : UInt8} {t : Bytes} (h : find [c] t = none) :
    t.takeWhile (· ≠ c) = t := by
  rw [List.takeWhile_eq_self_iff]
  intro b hb
  rw [find_eq_none_iff] at h
  rw [decide_eq_true_eq]
  rintro rfl
  exact h ((List.singleton_infix_iff _ _).mpr hb)

/-- The part before a byte, by the place where it is found. -/
theorem takeWhile_of_find_eq_some {c : UInt8} {t : Bytes} {n : ℕ} (h : find [c] t = some n) :
    t.takeWhile (· ≠ c) = t.take n := by
  induction t generalizing n with
  | nil => cases h
  | cons b t ih =>
    by_cases hfound : [c] <+: b :: t
    · rw [find, if_pos hfound, Option.some_inj] at h
      subst h
      rw [List.cons_prefix_cons] at hfound
      rw [List.takeWhile_cons_of_neg (by simpa using hfound.1.symm)]
      rfl
    · rw [find_cons_of_not_start hfound] at h
      obtain ⟨n, hn, rfl⟩ := Option.map_eq_some_iff.mp h
      have hne : b ≠ c := by
        rintro rfl
        exact hfound (List.cons_prefix_cons.mpr ⟨rfl, List.nil_prefix⟩)
      rw [List.takeWhile_cons_of_pos (by simpa using hne), ih hn, List.take_succ_cons]

/-- The text from a line on. -/
theorem drop_unlines (before after : List Bytes) (l : Bytes) :
    (unlines (before ++ l :: after)).drop ((before.map fun l => l.length + 1).sum) =
      unlines (l :: after) := by
  induction before with
  | nil => rfl
  | cons b before ih =>
    rw [List.cons_append, unlines_cons (by simp), List.map_cons, List.sum_cons, Nat.add_assoc,
      List.drop_length_add_append, Nat.add_comm 1, List.drop_succ_cons, ih]

end CText
