import AdxDsp.Lib.Bytes

/-!
# Replacing the occurrences of a text

`replaceAll src dest` replaces the occurrences of `src` that do not overlap, found from left to
right.

* `replaceAll_of_find_eq_some`: it goes on behind the first occurrence.
* `gaps`: what lies before each of the occurrences.
* `replaceAll_eq_self_iff`: a text changes if it has an occurrence and the two texts differ.
-/

namespace CText

section

variable (src dest : Bytes)

/-- Each occurrence of `src`, from left to right, is replaced by `dest`. -/
def replaceAll : Bytes → Bytes
  | [] => []
  | c :: t =>
    if src <+: c :: t then dest ++ replaceAll (t.drop (src.length - 1)) else c :: replaceAll t
termination_by t => t.length
decreasing_by
  · rw [List.length_drop, List.length_cons]
    omega
  · exact Nat.lt_succ_self _

/-- The number of bytes before each occurrence, behind the one before it; `n` bytes have been seen
since the last one. -/
def gaps : ℕ → Bytes → List ℕ
  | _, [] => []
  | n, c :: t =>
    if src <+: c :: t then n :: gaps 0 (t.drop (src.length - 1)) else gaps (n + 1) t
termination_by _ t => t.length
decreasing_by
  · rw [List.length_drop, List.length_cons]
    omega
  · exact Nat.lt_succ_self _

end

section

variable {src : Bytes}

/-- A search that fails at the first byte goes on in the rest. -/
theorem find_cons_of_not_start {c : UInt8} {t : Bytes} (h : ¬ src <+: c :: t) :
    find src (c :: t) = (find src t).map (· + 1) := by
  rw [find, if_neg h]

/-- Nothing is replaced where nothing is found. -/
theorem replaceAll_of_find_eq_none (dest : Bytes) {t : Bytes} (h : find src t = none) :
    replaceAll src dest t = t := by
  induction t with
  | nil => rw [replaceAll]
  | cons c t ih =>
    by_cases hfound : src <+: c :: t
    · rw [find, if_pos hfound] at h
      cases h
    · rw [find_cons_of_not_start hfound, Option.map_eq_none_iff] at h
      rw [replaceAll, if_neg hfound, ih h]

/-- Where nothing is found there are no gaps. -/
theorem gaps_of_find_eq_none (k : ℕ) {t : Bytes} (h : find src t = none) : gaps src k t = [] := by
  induction t generalizing k with
  | nil => rw [gaps]
  | cons c t ih =>
    by_cases hfound : src <+: c :: t
    · rw [find, if_pos hfound] at h
      cases h
    · rw [find_cons_of_not_start hfound, Option.map_eq_none_iff] at h
      rw [gaps, if_neg hfound, ih _ h]

/-- A byte of the result comes from the text or from the replacement. -/
theorem mem_of_mem_replaceAll {dest t : Bytes} {b : UInt8} (h : b ∈ replaceAll src dest t) :
    b ∈ t ∨ b ∈ dest := by
  induction hlength : t.length using Nat.strongRecOn generalizing t with
  | ind _ ih =>
    subst hlength
    cases t with
    | nil =>
      rw [replaceAll] at h
      cases h
    | cons c t =>
      rw [replaceAll] at h
      split_ifs at h with hfound
      · rcases List.mem_append.mp h with h | h
        · exact .inr h
        · refine (ih (t.drop (src.length - 1)).length ?_ h rfl).imp_left fun hb => ?_
          · rw [List.length_drop, List.length_cons]
            omega
          · exact List.mem_cons_of_mem c (List.mem_of_mem_drop hb)
      · rcases List.mem_cons.mp h with rfl | h
        · exact .inl List.mem_cons_self
        · exact (ih _ (Nat.lt_succ_self _) h rfl).imp_left (List.mem_cons_of_mem c)

variable (hsrc : src ≠ [])
include hsrc

/-- The text behind an occurrence at its start. -/
theorem drop_cons_of_ne_nil (c : UInt8) (t : Bytes) :
    (c :: t).drop src.length = t.drop (src.length - 1) := by
  have hpos : 0 < src.length := List.length_pos_iff.mpr hsrc
  obtain ⟨k, hk⟩ : ∃ k, src.length = k + 1 := ⟨src.length - 1, by omega⟩
  rw [hk, List.drop_succ_cons, Nat.add_sub_cancel]

/-- The first occurrence is replaced, and then those behind it. -/
theorem replaceAll_of_find_eq_some (dest : Bytes) {t : Bytes} {n : ℕ} (h : find src t = some n) :
    replaceAll src dest t =
      t.take n ++ (dest ++ replaceAll src dest (t.drop (n + src.length))) := by
  induction t generalizing n with
  | nil =>
    rw [find, if_neg hsrc] at h
    cases h
  | cons c t ih =>
    by_cases hfound : src <+: c :: t
    · rw [find, if_pos hfound, Option.some_inj] at h
      subst h
      rw [replaceAll, if_pos hfound, Nat.zero_add, drop_cons_of_ne_nil hsrc]
      rfl
    · rw [find_cons_of_not_start hfound] at h
      obtain ⟨n, hn, rfl⟩ := Option.map_eq_some_iff.mp h
      rw [replaceAll, if_neg hfound, ih hn, Nat.add_right_comm, List.drop_succ_cons,
        List.take_succ_cons]
      rfl

/-- The gap before the first occurrence, and then those behind it. -/
theorem gaps_of_find_eq_some (k : ℕ) {t : Bytes} {n : ℕ} (h : find src t = some n) :
    gaps src k t = (k + n) :: gaps src 0 (t.drop (n + src.length)) := by
  induction t generalizing k n with
  | nil =>
    rw [find, if_neg hsrc] at h
    cases h
  | cons c t ih =>
    by_cases hfound : src <+: c :: t
    · rw [find, if_pos hfound, Option.some_inj] at h
      subst h
      rw [gaps, if_pos hfound, Nat.zero_add, drop_cons_of_ne_nil hsrc, Nat.add_zero]
    · rw [find_cons_of_not_start hfound] at h
      obtain ⟨n, hn, rfl⟩ := Option.map_eq_some_iff.mp h
      rw [gaps, if_neg hfound, ih _ hn, Nat.add_right_comm n, List.drop_succ_cons,
        Nat.add_right_comm k, Nat.add_assoc]

/-- An occurrence ends within the text. -/
theorem add_length_le_of_find {t : Bytes} {n : ℕ} (h : find src t = some n) :
    n + src.length ≤ t.length := by
  have hlen := congrArg List.length (eq_of_find h)
  have hpos : 0 < src.length := List.length_pos_iff.mpr hsrc
  simp only [List.length_append, List.length_take, List.length_drop] at hlen
  omega

/-- What is left behind an occurrence is shorter. -/
theorem length_drop_of_find {t : Bytes} {n : ℕ} (h : find src t = some n) :
    (t.drop (n + src.length)).length < t.length := by
  have hend := add_length_le_of_find hsrc h
  have hpos : 0 < src.length := List.length_pos_iff.mpr hsrc
  rw [List.length_drop]
  omega

/-- Each occurrence changes the length. -/
theorem length_replaceAll (dest t : Bytes) :
    (replaceAll src dest t).length + (gaps src 0 t).length * src.length =
      t.length + (gaps src 0 t).length * dest.length := by
  induction hlength : t.length using Nat.strongRecOn generalizing t with
  | ind _ ih =>
    subst hlength
    cases hfind : find src t with
    | none =>
      rw [replaceAll_of_find_eq_none dest hfind, gaps_of_find_eq_none 0 hfind,
        List.length_nil, Nat.zero_mul, Nat.zero_mul]
    | some n =>
      have hrest := ih _ (length_drop_of_find hsrc hfind) _ rfl
      have hlen := congrArg List.length (eq_of_find hfind)
      rw [replaceAll_of_find_eq_some hsrc dest hfind, gaps_of_find_eq_some hsrc 0 hfind]
      simp only [List.length_append, List.length_cons, Nat.add_mul, Nat.one_mul] at hlen hrest ⊢
      omega

/-- Replacing a text by itself changes nothing. -/
theorem replaceAll_self (t : Bytes) : replaceAll src src t = t := by
  induction hlength : t.length using Nat.strongRecOn generalizing t with
  | ind _ ih =>
    subst hlength
    cases hfind : find src t with
    | none => exact replaceAll_of_find_eq_none src hfind
    | some n =>
      rw [replaceAll_of_find_eq_some hsrc src hfind, ih _ (length_drop_of_find hsrc hfind) _ rfl,
        ← List.append_assoc]
      exact (eq_of_find hfind).symm

/-- A text with an occurrence stays what it is only if nothing else is put in its place. -/
theorem replaceAll_eq_self_iff {dest t : Bytes} :
    replaceAll src dest t = t ↔ find src t = none ∨ src = dest := by
  constructor
  · intro h
    cases hfind : find src t with
    | none => exact .inl rfl
    | some n =>
      right
      have hlen := length_replaceAll hsrc dest t
      rw [h, gaps_of_find_eq_some hsrc 0 hfind, List.length_cons, Nat.add_left_cancel_iff] at hlen
      have hlen' : src.length = dest.length := Nat.eq_of_mul_eq_mul_left (Nat.succ_pos _) hlen
      have htext := (replaceAll_of_find_eq_some hsrc dest hfind).symm.trans
        (h.trans (eq_of_find hfind))
      rw [List.append_assoc] at htext
      exact (List.append_inj_left (List.append_cancel_left htext) hlen'.symm).symm
  · rintro (h | rfl)
    · exact replaceAll_of_find_eq_none dest h
    · exact replaceAll_self hsrc t

/-- Each occurrence changes the number of each byte. -/
theorem count_replaceAll (b : UInt8) (dest t : Bytes) :
    (replaceAll src dest t).count b + (gaps src 0 t).length * src.count b =
      t.count b + (gaps src 0 t).length * dest.count b := by
  induction hlength : t.length using Nat.strongRecOn generalizing t with
  | ind _ ih =>
    subst hlength
    cases hfind : find src t with
    | none =>
      rw [replaceAll_of_find_eq_none dest hfind, gaps_of_find_eq_none 0 hfind, List.length_nil,
        Nat.zero_mul, Nat.zero_mul]
    | some n =>
      have hrest := ih _ (length_drop_of_find hsrc hfind) _ rfl
      have hcount := congrArg (List.count b) (eq_of_find hfind)
      rw [replaceAll_of_find_eq_some hsrc dest hfind, gaps_of_find_eq_some hsrc 0 hfind]
      simp only [List.count_append, List.length_cons, Nat.add_mul, Nat.one_mul] at hcount hrest ⊢
      omega


omit hsrc in
/-- A text that occurs is found. -/
theorem exists_find_of_infix {t : Bytes} (h : src <:+: t) : ∃ n, find src t = some n := by
  rw [← Option.ne_none_iff_exists']
  exact fun hnone => find_eq_none_iff.mp hnone h

/-- A byte that is not put in again gets rarer. -/
theorem count_replaceAll_lt {b : UInt8} {dest t : Bytes} (h : src <:+: t) (hb : b ∈ src)
    (hdest : b ∉ dest) : (replaceAll src dest t).count b < t.count b := by
  have hcount := count_replaceAll hsrc b dest t
  obtain ⟨n, hn⟩ := exists_find_of_infix h
  have hgaps : 0 < (gaps src 0 t).length := by
    rw [gaps_of_find_eq_some hsrc 0 hn]
    exact Nat.succ_pos _
  have hremoved := Nat.mul_pos hgaps (List.count_pos_iff.mpr hb)
  rw [List.count_eq_zero_of_not_mem hdest, Nat.mul_zero] at hcount
  omega

/-- A byte that is not of `src` is in the new text iff it is in the old one, or `src` has been
replaced by a text with this byte. -/
theorem mem_replaceAll_iff {b : UInt8} (hb : b ∉ src) (dest t : Bytes) :
    b ∈ replaceAll src dest t ↔ b ∈ t ∨ (src <:+: t ∧ b ∈ dest) := by
  induction hlength : t.length using Nat.strongRecOn generalizing t with
  | ind _ ih =>
    subst hlength
    cases hfind : find src t with
    | none =>
      have hnot := find_eq_none_iff.mp hfind
      rw [replaceAll_of_find_eq_none dest hfind]
      simp [hnot]
    | some n =>
      have ht := eq_of_find hfind
      have hoccurs : src <:+: t := ⟨_, _, ht.symm⟩
      have hrest := ih _ (length_drop_of_find hsrc hfind) _ rfl
      rw [replaceAll_of_find_eq_some hsrc dest hfind, List.mem_append, List.mem_append, hrest]
      -- the text was `take n ++ src ++ drop …`
      have hold : b ∈ t ↔ b ∈ t.take n ∨ b ∈ t.drop (n + src.length) := by
        conv_lhs => rw [ht]
        rw [List.mem_append, List.mem_append, or_iff_left hb]
      rw [hold]
      constructor
      · rintro (h | h | h | ⟨-, h⟩)
        · exact .inl (.inl h)
        · exact .inr ⟨hoccurs, h⟩
        · exact .inl (.inr h)
        · exact .inr ⟨hoccurs, h⟩
      · rintro ((h | h) | ⟨-, h⟩)
        · exact .inl h
        · exact .inr (.inr (.inl h))
        · exact .inr (.inl h)

end

/-! ## Texts with separators -/

section

variable {src : Bytes} {c : UInt8} (hc : c ∉ src)
include hc

/-- Whether the text begins with `src` is decided before the separator. -/
theorem prefix_append_sep (l t : Bytes) : src <+: l ++ c :: t ↔ src <+: l := by
  constructor
  · intro h
    rcases le_or_gt src.length l.length with hlen | hlen
    · exact List.prefix_of_prefix_length_le h (List.prefix_append _ _) hlen
    · exfalso
      have hsep : l ++ [c] <+: src := by
        refine List.prefix_of_prefix_length_le ?_ h ?_
        · exact ⟨t, by rw [List.append_assoc, List.singleton_append]⟩
        · rw [List.length_append, List.length_singleton]
          omega
      exact hc (hsep.subset (List.mem_append_right _ (List.mem_singleton_self c)))
  · exact fun h => h.trans (List.prefix_append _ _)

variable (hsrc : src ≠ [])
include hsrc

/-- What is searched lies before the separator or behind it. -/
theorem find_append_sep_of_eq_some {l : Bytes} {n : ℕ} (t : Bytes) (h : find src l = some n) :
    find src (l ++ c :: t) = some n := by
  induction l generalizing n with
  | nil =>
    rw [find, if_neg hsrc] at h
    cases h
  | cons b l ih =>
    by_cases hfound : src <+: b :: l
    · have hfound' := (prefix_append_sep hc (b :: l) t).mpr hfound
      rw [find, if_pos hfound] at h
      rw [List.cons_append] at hfound' ⊢
      rw [find, if_pos hfound', h]
    · rw [find_cons_of_not_start hfound] at h
      obtain ⟨m, hm, rfl⟩ := Option.map_eq_some_iff.mp h
      rw [List.cons_append, find_cons_of_not_start, ih hm]
      · rfl
      · exact fun h => hfound ((prefix_append_sep hc (b :: l) t).mp h)

/-- If the part before a separator has no occurrence, the search goes on behind it. -/
theorem find_append_sep_of_eq_none {l : Bytes} (t : Bytes) (h : find src l = none) :
    find src (l ++ c :: t) = (find src t).map (· + (l.length + 1)) := by
  induction l with
  | nil =>
    rw [List.nil_append, find_cons_of_not_start]
    · rfl
    · exact fun h => hsrc (List.prefix_nil.mp ((prefix_append_sep hc [] t).mp h))
  | cons b l ih =>
    by_cases hfound : src <+: b :: l
    · rw [find, if_pos hfound] at h
      cases h
    · rw [find_cons_of_not_start hfound, Option.map_eq_none_iff] at h
      rw [List.cons_append, find_cons_of_not_start, ih h, Option.map_map]
      · rfl
      · exact fun h => hfound ((prefix_append_sep hc (b :: l) t).mp h)

/-- No occurrence runs across a separator. -/
theorem infix_append_sep (l t : Bytes) : src <:+: l ++ c :: t ↔ src <:+: l ∨ src <:+: t := by
  rw [← not_iff_not, not_or, ← find_eq_none_iff, ← find_eq_none_iff, ← find_eq_none_iff]
  cases hl : find src l with
  | none => rw [find_append_sep_of_eq_none hc hsrc t hl, Option.map_eq_none_iff, eq_self, true_and]
  | some n => rw [find_append_sep_of_eq_some hc hsrc t hl]; simp

/-- Both sides of the separator are rewritten on their own. -/
theorem replaceAll_append_sep (dest l t : Bytes) :
    replaceAll src dest (l ++ c :: t) = replaceAll src dest l ++ c :: replaceAll src dest t := by
  induction hlength : l.length using Nat.strongRecOn generalizing l with
  | ind _ ih =>
    subst hlength
    cases l with
    | nil =>
      rw [List.nil_append, replaceAll, replaceAll, if_neg]
      · rfl
      · exact fun h => hsrc (List.prefix_nil.mp ((prefix_append_sep hc [] t).mp h))
    | cons b l =>
      have hiff := prefix_append_sep hc (b :: l) t
      rw [List.cons_append] at hiff ⊢
      rw [replaceAll, replaceAll, if_congr hiff rfl rfl]
      split_ifs with hfound
      · have hlen := hfound.length_le
        rw [List.length_cons] at hlen
        rw [List.drop_append_of_le_length (by omega), ih (l.drop (src.length - 1)).length _ _ rfl,
          List.append_assoc]
        rw [List.length_drop, List.length_cons]
        omega
      · rw [ih _ (Nat.lt_succ_self _) l rfl]
        rfl

end

/-- Before the first byte of `src` nothing is replaced. -/
theorem replaceAll_append_of_notMem {c : UInt8} {a : Bytes} (ha : c ∉ a) (src dest t : Bytes) :
    replaceAll (c :: src) dest (a ++ t) = a ++ replaceAll (c :: src) dest t := by
  induction a with
  | nil => rfl
  | cons b a ih =>
    rw [List.mem_cons, not_or] at ha
    rw [List.cons_append, replaceAll, if_neg, ih ha.2, List.cons_append]
    intro h
    rw [List.cons_prefix_cons] at h
    exact ha.1 h.1

/-- A text without bytes of the replacement is found only where it was. -/
theorem infix_of_infix_replaceAll {w src dest t : Bytes} (hw : w ≠ []) (hsrc : src ≠ [])
    (hdest : dest ≠ []) (hdisjoint : ∀ b ∈ dest, b ∉ w) (h : w <:+: replaceAll src dest t) :
    w <:+: t := by
  have hbehind : ∀ (ds r : Bytes), (∀ b ∈ ds, b ∉ w) → w <:+: ds ++ r → w <:+: r := by
    intro ds r hds h
    induction ds with
    | nil => exact h
    | cons b ds ih =>
      rw [List.forall_mem_cons] at hds
      rcases (infix_append_sep hds.1 hw [] (ds ++ r)).mp h with h | h
      · exact absurd (List.infix_nil.mp h) hw
      · exact ih hds.2 h
  induction hlength : t.length using Nat.strongRecOn generalizing t with
  | ind _ ih =>
    subst hlength
    cases hfind : find src t with
    | none => rwa [replaceAll_of_find_eq_none dest hfind] at h
    | some n =>
      rw [replaceAll_of_find_eq_some hsrc dest hfind] at h
      obtain ⟨b, ds, rfl⟩ := List.exists_cons_of_ne_nil hdest
      have hds := (List.forall_mem_cons.mp hdisjoint).2
      rcases (infix_append_sep (hdisjoint b List.mem_cons_self) hw _ _).mp h with h | h
      · exact h.trans (List.take_prefix n t).isInfix
      · exact (ih _ (length_drop_of_find hsrc hfind) (hbehind ds _ hds h) rfl).trans
          (List.drop_suffix _ t).isInfix

end CText
