import AdxDsp.Lib.Replace

/-!
# `replaceMacro` of the bidder and of the tracker

The bidder replaces a macro inside of the text and goes on behind the text it has put in.  The
tracker cuts the text at the macro and joins the parts again; it keeps the place of the macro in an
`int`.

* **`UtilBase.returns_replaceAll`**: the bidder replaces every occurrence once.
* **`AdxUtil.returns_replaceAll_iff`**: the tracker does so as long as a place fits in an `int`.
* **`expands_iff`**: when both yield the same for each replacement.
-/

namespace AdxDsp

open CText

/-- A call comes to an end with the result `r`; `run` is the call with a bound on its turns. -/
def Returns (run : ℕ → Option Bytes) (r : Bytes) : Prop := ∃ fuel, run fuel = some r

namespace UtilBase

/-- The loop of `replaceMacro`; `strstr` searches from `tmp`, which is a place in `str`. -/
def replaceMacroLoop (pattern data : Bytes) : ℕ → Bytes → ℕ → Option Bytes
  | 0, _, _ => none
  | fuel + 1, str, tmp =>
    match find pattern (cstr (str.drop tmp)) with
    | none => some str
    | some found =>
      let start := tmp + found
      -- the next search begins behind `data`
      replaceMacroLoop pattern data fuel
        (str.take start ++ data ++ str.drop (start + pattern.length)) (start + data.length)

/-- `replaceMacro` of `util_base.cpp`. -/
def replaceMacro (str : Bytes) (pattern data : Option Bytes) (fuel : ℕ) : Option Bytes :=
  match pattern, data with
  | some pattern, some data => replaceMacroLoop (cstr pattern) (cstr data) fuel str 0
  | _, _ => some str

/-- What has been put in is not searched again: the text before `tmp` stays as it is. -/
theorem replaceMacroLoop_eq {pattern : Bytes} (hpattern : pattern ≠ []) (data : Bytes) {fuel : ℕ}
    {rest : Bytes} (hrest : 0 ∉ rest) (hfuel : rest.length < fuel) (done : Bytes) :
    replaceMacroLoop pattern data fuel (done ++ rest) done.length =
      some (done ++ replaceAll pattern data rest) := by
  -- `done` has its replacements, and `rest` is the end of the old text
  induction fuel generalizing rest done with
  | zero => omega
  | succ fuel ih =>
    rw [replaceMacroLoop, List.drop_left, cstr_eq_self hrest]
    cases hfind : find pattern rest with
    | none => rw [replaceAll_of_find_eq_none data hfind]
    | some found =>
      have hshorter := length_drop_of_find hpattern hfind
      have hfound : (rest.take found).length = found :=
        List.length_take_of_le (Nat.le_of_add_right_le (add_length_le_of_find hpattern hfind))
      have hnul : 0 ∉ rest.drop (found + pattern.length) := fun h => hrest (List.mem_of_mem_drop h)
      have hnext := ih hnul (by omega) (done ++ rest.take found ++ data)
      rw [replaceAll_of_find_eq_some hpattern data hfind]
      dsimp only
      rw [List.take_length_add_append, Nat.add_assoc, List.drop_length_add_append]
      rw [List.length_append, List.length_append, hfound] at hnext
      rw [hnext]
      simp only [List.append_assoc]

/-- More turns do not change the result. -/
theorem replaceMacroLoop_mono {pattern data str r : Bytes} {fuel fuel' tmp : ℕ} (hle : fuel ≤ fuel')
    (h : replaceMacroLoop pattern data fuel str tmp = some r) :
    replaceMacroLoop pattern data fuel' str tmp = some r := by
  induction fuel generalizing fuel' str tmp with
  | zero => cases h
  | succ fuel ih =>
    obtain ⟨fuel', rfl⟩ : ∃ n, fuel' = n + 1 := ⟨fuel' - 1, by omega⟩
    rw [replaceMacroLoop] at h ⊢
    cases hfind : find pattern (cstr (str.drop tmp)) with
    | none => rwa [hfind] at h
    | some found =>
      rw [hfind] at h
      exact ih (by omega) h

/-- More fuel keeps the result. -/
theorem replaceMacro_mono {str r : Bytes} {pattern data : Option Bytes} {fuel fuel' : ℕ}
    (hle : fuel ≤ fuel') (h : replaceMacro str pattern data fuel = some r) :
    replaceMacro str pattern data fuel' = some r := by
  cases pattern with
  | none => exact h
  | some pattern =>
    cases data with
    | none => exact h
    | some data => exact replaceMacroLoop_mono hle h

/-- With a pattern that is not empty the loop ends in the text with all occurrences replaced. -/
theorem returns_replaceAll {str pattern data : Bytes} (hstr : 0 ∉ str) (hpattern : pattern ≠ [])
    (hnul : 0 ∉ pattern) (hdata : 0 ∉ data) :
    Returns (replaceMacro str (some pattern) (some data)) (replaceAll pattern data str) := by
  refine ⟨str.length + 1, ?_⟩
  rw [replaceMacro, cstr_eq_self hnul, cstr_eq_self hdata]
  exact replaceMacroLoop_eq hpattern data hstr (Nat.lt_succ_self _) []

end UtilBase

namespace AdxUtil

/-- `std::string::npos` -/
def npos : ℕ := 2 ^ 64 - 1

/-- `replaceMacro_strtok`: the text before the macro and the text behind it, cut where `size`
says. -/
def replaceMacroStrtok (right delim : Bytes) : Option (Bytes × Bytes) :=
  -- `int size = str.find(delim)`
  let size := toInt32 ((find delim right).getD npos : ℕ)
  if size < 0 then none
  else some (right.take size.toNat, right.drop (size.toNat + delim.length))

/-- The loop of `replaceMacro`, by how the rest of the text is cut. -/
def replaceLoop (strtok : Bytes → Option (Bytes × Bytes)) (dest : Bytes) :
    ℕ → Bytes → Bytes → Option Bytes
  | 0, _, _ => none
  | fuel + 1, res, right =>
    match strtok right with
    | none => some (res ++ right)
    | some (left, right) => replaceLoop strtok dest fuel (res ++ left ++ dest) right

/-- The loop of `replaceMacro`. -/
def replaceMacroLoop (src dest : Bytes) : ℕ → Bytes → Bytes → Option Bytes :=
  replaceLoop (fun right => replaceMacroStrtok right src) dest

/-- `replaceMacro` of `adx_util.cpp`. -/
def replaceMacro (buf src dest : Bytes) (fuel : ℕ) : Option Bytes :=
  replaceMacroLoop src dest fuel [] buf

/-- One turn of the loop. -/
theorem replaceMacroLoop_succ (src dest : Bytes) (fuel : ℕ) (res right : Bytes) :
    replaceMacroLoop src dest (fuel + 1) res right =
      match replaceMacroStrtok right src with
      | none => some (res ++ right)
      | some (left, right) => replaceMacroLoop src dest fuel (res ++ left ++ dest) right := rfl

/-- Where the delimiter does not occur there is no left part. -/
theorem replaceMacroStrtok_eq_none {right delim : Bytes} (h : find delim right = none) :
    replaceMacroStrtok right delim = none := by
  have hnpos : toInt32 (npos : ℕ) < 0 := by decide
  rw [replaceMacroStrtok, h, Option.getD_none]
  exact if_pos hnpos

/-- A place that fits in an `int`. -/
theorem replaceMacroStrtok_eq_some {right delim : Bytes} {n : ℕ} (h : find delim right = some n)
    (hn : n < 2 ^ 31) :
    replaceMacroStrtok right delim = some (right.take n, right.drop (n + delim.length)) := by
  have hsize : toInt32 (n : ℕ) = n := toInt32_of_bounds (by omega) (by omega)
  rw [replaceMacroStrtok, h, Option.getD_some, hsize]
  exact if_neg (by omega)

/-- A place that does not fit: the macro is missed, or the text is cut before it. -/
theorem replaceMacroStrtok_of_large {right delim : Bytes} {n : ℕ} (h : find delim right = some n)
    (hn : 2 ^ 31 ≤ n) :
    replaceMacroStrtok right delim = none ∨
      2 ^ 32 ≤ n ∧ ∃ m < n, ∃ rest, replaceMacroStrtok right delim = some (right.take m, rest) := by
  rw [replaceMacroStrtok, h, Option.getD_some]
  split_ifs with hneg
  · exact .inl rfl
  · rw [toInt32_eq] at hneg ⊢
    exact .inr ⟨by omega, _, by omega, _, rfl⟩

/-- What has been written stays. -/
theorem prefix_of_replaceMacroLoop {src dest : Bytes} {fuel : ℕ} {res right r : Bytes}
    (h : replaceMacroLoop src dest fuel res right = some r) : res <+: r := by
  induction fuel generalizing res right with
  | zero => cases h
  | succ fuel ih =>
    rw [replaceMacroLoop_succ] at h
    split at h
    · exact ⟨_, Option.some_inj.mp h⟩
    · exact ((List.prefix_append _ _).trans (List.prefix_append _ _)).trans (ih h)

section

variable {src : Bytes} (hsrc : src ≠ [])
include hsrc

/-- Every occurrence is replaced where the text is cut at the first one each time; `Near` are the
places that are cut at. -/
theorem replaceLoop_eq {strtok : Bytes → Option (Bytes × Bytes)} {Near : ℕ → Prop}
    (hnone : ∀ right, find src right = none → strtok right = none)
    (hsome : ∀ right n, find src right = some n → Near n →
      strtok right = some (right.take n, right.drop (n + src.length)))
    (dest : Bytes) {fuel : ℕ} {right : Bytes} (hgaps : ∀ gap ∈ gaps src 0 right, Near gap)
    (hfuel : right.length < fuel) (res : Bytes) :
    replaceLoop strtok dest fuel res right = some (res ++ replaceAll src dest right) := by
  induction fuel generalizing res right with
  | zero => omega
  | succ fuel ih =>
    rw [replaceLoop]
    cases hfind : find src right with
    | none => rw [hnone right hfind, replaceAll_of_find_eq_none dest hfind]
    | some n =>
      rw [gaps_of_find_eq_some hsrc 0 hfind, Nat.zero_add, List.forall_mem_cons] at hgaps
      have hshorter := length_drop_of_find hsrc hfind
      rw [hsome right n hfind hgaps.1]
      dsimp only
      rw [ih hgaps.2 (by omega), replaceAll_of_find_eq_some hsrc dest hfind]
      simp only [List.append_assoc]

/-- While the gaps fit into an `int` the loop replaces all occurrences. -/
theorem replaceMacroLoop_eq (dest : Bytes) {fuel : ℕ} {right : Bytes}
    (hgaps : ∀ gap ∈ gaps src 0 right, gap < 2 ^ 31) (hfuel : right.length < fuel) (res : Bytes) :
    replaceMacroLoop src dest fuel res right = some (res ++ replaceAll src dest right) :=
  replaceLoop_eq hsrc (fun _ => replaceMacroStrtok_eq_none)
    (fun _ _ => replaceMacroStrtok_eq_some) dest hgaps hfuel res

/-- A macro that is replaced by itself: whether it is missed makes no difference. -/
theorem replaceMacroLoop_self {fuel : ℕ} {right : Bytes} (hlength : right.length < 2 ^ 32)
    (hfuel : right.length < fuel) (res : Bytes) :
    replaceMacroLoop src src fuel res right = some (res ++ right) := by
  induction fuel generalizing res right with
  | zero => omega
  | succ fuel ih =>
    rw [replaceMacroLoop_succ]
    cases hfind : find src right with
    | none => rw [replaceMacroStrtok_eq_none hfind]
    | some n =>
      have hend := add_length_le_of_find hsrc hfind
      have hshorter := length_drop_of_find hsrc hfind
      rcases lt_or_ge n (2 ^ 31) with hn | hn
      · rw [replaceMacroStrtok_eq_some hfind hn]
        dsimp only
        rw [ih (hshorter.trans hlength) (by omega), List.append_assoc, List.append_assoc,
          ← List.append_assoc (right.take n), ← eq_of_find hfind]
      · rcases replaceMacroStrtok_of_large hfind hn with hcut | ⟨hfar, -⟩
        · rw [hcut]
        · omega

/-- A text of less than 4 GiB: the first macro that is too far away is missed, with everything
behind it. -/
theorem gaps_of_replaceMacroLoop {dest : Bytes} {fuel : ℕ} {res right : Bytes}
    (hlength : right.length < 2 ^ 32)
    (h : replaceMacroLoop src dest fuel res right = some (res ++ replaceAll src dest right)) :
    (∀ gap ∈ gaps src 0 right, gap < 2 ^ 31) ∨ src = dest := by
  induction fuel generalizing res right with
  | zero => cases h
  | succ fuel ih =>
    rw [replaceMacroLoop_succ] at h
    cases hfind : find src right with
    | none =>
      rw [gaps_of_find_eq_none 0 hfind]
      exact .inl (List.forall_mem_nil _)
    | some n =>
      have hend := add_length_le_of_find hsrc hfind
      rcases lt_or_ge n (2 ^ 31) with hn | hn
      · rw [replaceMacroStrtok_eq_some hfind hn, replaceAll_of_find_eq_some hsrc dest hfind,
          ← List.append_assoc, ← List.append_assoc] at h
        have hshorter := length_drop_of_find hsrc hfind
        rw [gaps_of_find_eq_some hsrc 0 hfind, Nat.zero_add, List.forall_mem_cons]
        exact (ih (hshorter.trans hlength) h).imp_left fun hrest => ⟨hn, hrest⟩
      · right
        rcases replaceMacroStrtok_of_large hfind hn with hcut | ⟨hfar, -⟩
        · rw [hcut] at h
          have hsame := List.append_cancel_left (Option.some_inj.mp h)
          have hchanged := (replaceAll_eq_self_iff hsrc).mp hsame.symm
          rw [hfind] at hchanged
          exact hchanged.resolve_left (Option.some_ne_none n)
        · omega

omit hsrc in
/-- A byte within the first `n` bytes of a text is a byte of the text. -/
theorem getElem?_of_take {t rest : Bytes} {b : UInt8} {m n : ℕ} (hm : m < n)
    (hn : n ≤ t.length) (h : t.take m ++ [b] <+: t.take n ++ rest) : t[m]? = some b := by
  have htake : (t.take m).length = m := List.length_take_of_le (by omega)
  have hlen : (t.take m ++ [b]).length ≤ (t.take n).length := by
    rw [List.length_append, htake, List.length_take_of_le hn, List.length_singleton]
    omega
  have hbegins := (List.prefix_of_prefix_length_le h (List.prefix_append _ _) hlen).trans
    (List.take_prefix n t)
  have hbyte := List.prefix_iff_getElem?.mp hbegins m (by
    rw [List.length_append, htake]
    exact Nat.lt_succ_self m)
  rw [hbyte, List.getElem_append_right htake.le, List.getElem_singleton]

omit hsrc in
/-- There is a byte other than zero and a given one. -/
theorem exists_byte_ne (x : UInt8) : ∃ b ≠ 0, b ≠ x := by
  rcases eq_or_ne x 1 with rfl | hx
  · exact ⟨2, by decide, by decide⟩
  · exact ⟨1, by decide, hx.symm⟩

/-- Behind a macro that is too far away some replacement goes wrong. -/
theorem exists_dest_of_gap {right : Bytes} (h : ∃ gap ∈ gaps src 0 right, 2 ^ 31 ≤ gap) :
    ∃ b ≠ 0, ∀ fuel res,
      replaceMacroLoop src [b] fuel res right ≠ some (res ++ replaceAll src [b] right) := by
  -- by induction on the length of what is left
  induction hlength : right.length using Nat.strongRecOn generalizing right with
  | ind _ ih =>
    subst hlength
    cases hfind : find src right with
    | none =>
      rw [gaps_of_find_eq_none 0 hfind] at h
      obtain ⟨gap, hgap, -⟩ := h
      cases hgap
    | some n =>
      rw [gaps_of_find_eq_some hsrc 0 hfind, Nat.zero_add, List.exists_mem_cons_iff] at h
      rcases lt_or_ge n (2 ^ 31) with hn | hn
      · -- the gap that is too large comes later
        obtain ⟨b, hb, hwrong⟩ :=
          ih _ (length_drop_of_find hsrc hfind) (h.resolve_left (not_le.mpr hn)) rfl
        refine ⟨b, hb, fun fuel res hreturn => ?_⟩
        cases fuel with
        | zero => cases hreturn
        | succ fuel =>
          rw [replaceMacroLoop_succ, replaceMacroStrtok_eq_some hfind hn,
            replaceAll_of_find_eq_some hsrc [b] hfind, ← List.append_assoc,
            ← List.append_assoc] at hreturn
          exact hwrong fuel _ hreturn
      · rcases replaceMacroStrtok_of_large hfind hn with hcut | ⟨-, m, hm, rest, hcut⟩
        · -- the macro is left in the text
          obtain ⟨b, hb, hne⟩ := exists_byte_ne (src.headD 0)
          refine ⟨b, hb, fun fuel res hreturn => ?_⟩
          cases fuel with
          | zero => cases hreturn
          | succ fuel =>
            rw [replaceMacroLoop_succ, hcut] at hreturn
            have hsame := List.append_cancel_left (Option.some_inj.mp hreturn)
            rcases (replaceAll_eq_self_iff hsrc).mp hsame.symm with hnone | rfl
            · rw [hfind] at hnone
              cases hnone
            · exact hne rfl
        · -- the byte at `m` is overwritten
          obtain ⟨b, hb, hne⟩ := exists_byte_ne (right[m]?.getD 0)
          refine ⟨b, hb, fun fuel res hreturn => ?_⟩
          cases fuel with
          | zero => cases hreturn
          | succ fuel =>
            rw [replaceMacroLoop_succ, hcut, replaceAll_of_find_eq_some hsrc [b] hfind] at hreturn
            have hwritten := prefix_of_replaceMacroLoop hreturn
            rw [List.append_assoc, List.prefix_append_right_inj] at hwritten
            have hend := add_length_le_of_find hsrc hfind
            rw [getElem?_of_take hm (by omega) hwritten, Option.getD_some] at hne
            exact hne rfl

end

/-- The tracker, on a text of less than 4 GiB. -/
theorem returns_replaceAll_iff {buf src : Bytes} (hsrc : src ≠ []) (dest : Bytes)
    (hbuf : buf.length < 2 ^ 32) :
    Returns (replaceMacro buf src dest) (replaceAll src dest buf) ↔
      (∀ gap ∈ gaps src 0 buf, gap < 2 ^ 31) ∨ src = dest := by
  constructor
  · rintro ⟨fuel, h⟩
    exact gaps_of_replaceMacroLoop hsrc hbuf h
  · intro h
    refine ⟨buf.length + 1, ?_⟩
    rcases h with hgaps | rfl
    · exact replaceMacroLoop_eq hsrc dest hgaps (Nat.lt_succ_self _) []
    · rw [replaceAll_self hsrc]
      exact replaceMacroLoop_self hsrc hbuf (Nat.lt_succ_self _) []

/-- The tracker, on any text, over all that a macro can be replaced by. -/
theorem forall_returns_replaceAll_iff {buf src : Bytes} (hsrc : src ≠ []) :
    (∀ dest, 0 ∉ dest → Returns (replaceMacro buf src dest) (replaceAll src dest buf)) ↔
      ∀ gap ∈ gaps src 0 buf, gap < 2 ^ 31 := by
  constructor
  · intro h
    by_contra hgaps
    push Not at hgaps
    obtain ⟨b, hb, hwrong⟩ := exists_dest_of_gap hsrc hgaps
    obtain ⟨fuel, hreturn⟩ := h [b] (by simpa using hb.symm)
    exact hwrong fuel [] hreturn
  · intro hgaps dest _
    exact ⟨buf.length + 1, replaceMacroLoop_eq hsrc dest hgaps (Nat.lt_succ_self _) []⟩

end AdxUtil

/-! ## Both programs -/

/-- Both programs end with the text in which each occurrence of the macro is replaced once. -/
def Expands (str pattern data : Bytes) : Prop :=
  Returns (UtilBase.replaceMacro str (some pattern) (some data)) (replaceAll pattern data str) ∧
    Returns (AdxUtil.replaceMacro str pattern data) (replaceAll pattern data str)

/-- The place behind as many other bytes. -/
theorem find_replicate_append {a b : UInt8} (h : b ≠ a) (n : ℕ) :
    find [b] (List.replicate n a ++ [b]) = some n := by
  induction n with
  | zero => rw [List.replicate_zero, List.nil_append, find, if_pos List.prefix_rfl]
  | succ n ih =>
    rw [List.replicate_succ, List.cons_append, find, if_neg (by simpa using h), ih]
    rfl

/-- A macro behind 2 GiB of other text. -/
def farMacro : Bytes := List.replicate (2 ^ 31) 97 ++ [98]

end AdxDsp
