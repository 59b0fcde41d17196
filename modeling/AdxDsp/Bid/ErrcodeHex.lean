import AdxDsp.Lib.Lines
import AdxDsp.Text.ReplaceMacro

/-!
# Error codes in hexadecimal

`TransErrcodeHex` (`server_log.cpp`) takes the first `nbr: -` of a text and replaces the number with
its sign by its hexadecimal form, wherever it stands in the text, until there is no `nbr: -` left.

* **The function**: `transErrcodeHex`, and its turns without the bounds (`Ends`).
* **What it is for**: `expected`, the text with the numbers of its `nbr` lines in hexadecimal.
* `transErrcodeHex_iff`: when the text is the expected one.
-/

namespace AdxDsp

open CText

namespace ErrcodeHex

/-! ## The function -/

/-- `HexToString`: `0x%X` shows the 32 bits of the `int`. -/
def hexToString (arg : ℤ) : Bytes :=
  let n := (arg % 2 ^ 32).toNat
  bytes "0x" ++ if n = 0 then [48] else (Nat.digits 16 n).reverse.map (hexDigit 65)

/-- `msg.substr(pos + 5, pos2 - pos - 5)`, up to the end of the line; behind the last line `pos2` is
`npos`. -/
def nbrText (msg : Bytes) (pos : ℕ) : Bytes :=
  match find [10] (msg.drop pos) with
  | some n => (msg.drop (pos + 5)).take (n - 5)
  | none => msg.drop (pos + 5)

/-- `TransErrcodeHex` -/
def transErrcodeHex : ℕ → Bytes → Option Bytes
  | 0, _ => none
  | fuel + 1, msg =>
    match find (bytes "nbr: -") msg with
    | none => some msg
    | some pos =>
      -- `-N`, without `nbr: `
      let tmp := nbrText msg pos
      let err := atoi (cstr tmp)
      let hex := hexToString err
      -- the whole text is searched, and the next turn starts from its beginning
      (UtilBase.replaceMacro msg (some tmp) (some hex) fuel).bind (transErrcodeHex fuel)

/-! ## What it is for -/

/-- The digits of a number from 1 to 2 ^ 31. -/
def IsNumber (digits : Bytes) : Prop :=
  digits ≠ [] ∧ (∀ b ∈ digits, isDigit b = true) ∧ 1 ≤ digitsValue digits ∧
    digitsValue digits ≤ 2 ^ 31

instance : DecidablePred IsNumber := fun digits =>
  inferInstanceAs (Decidable (digits ≠ [] ∧ (∀ b ∈ digits, isDigit b = true) ∧
    1 ≤ digitsValue digits ∧ digitsValue digits ≤ 2 ^ 31))

/-- The digits of a line `nbr: -N`, which may be indented. -/
def nbrNumber (line : Bytes) : Option Bytes :=
  let field := line.dropWhile (· = 32)
  if bytes "nbr: -" <+: field ∧ IsNumber (field.drop 6) then some (field.drop 6) else none

/-- A line with its number in hexadecimal. -/
def hexLine (line : Bytes) : Bytes :=
  match nbrNumber line with
  | some digits =>
    line.take (line.length - (digits.length + 1)) ++ hexToString (-(digitsValue digits : ℤ))
  | none => line

/-- The text with the number of each `nbr` line in hexadecimal. -/
def expected (msg : Bytes) : Bytes := unlines ((lines msg).map hexLine)

/-- The numbers of the `nbr` lines. -/
def numbers (ls : List Bytes) : List Bytes := ls.filterMap nbrNumber

/-- `nbr: -` stands in `nbr` lines only. -/
def Proper (ls : List Bytes) : Prop := ∀ l ∈ ls, bytes "nbr: -" <:+: l → nbrNumber l ≠ none

/-- No number stands behind another `-`, and the first number that a number starts with is the
number itself. -/
def Apart (ls : List Bytes) : Prop :=
  (∀ l ∈ ls, nbrNumber l = none → ∀ digits ∈ numbers ls, ¬ 45 :: digits <:+: l) ∧
    ∀ digits ∈ numbers ls, (numbers ls).find? (fun start => start <+: digits) = some digits

example : expected (bytes "id: -5\n  nbr: -5\n") = bytes "id: -5\n  nbr: 0xFFFFFFFB\n" := by
  decide +kernel

example : transErrcodeHex 30 (bytes "id: -5\n  nbr: -5\n") =
    some (bytes "id: 0xFFFFFFFB\n  nbr: 0xFFFFFFFB\n") := by decide +kernel

/-! ## The turns of the loop -/

/-- A hexadecimal digit. -/
theorem hexDigit_mem {d : ℕ} (h : d < 16) :
    hexDigit 65 d ∈ bytes "0123456789ABCDEF" := by
  interval_cases d <;> decide

/-- The text of a number has the digits and the `x` only. -/
theorem mem_hexToString {arg : ℤ} {b : UInt8} (h : b ∈ hexToString arg) :
    b ∈ bytes "0123456789ABCDEFx" := by
  rw [hexToString, List.mem_append] at h
  rcases h with h | h
  · have hmem : b ∈ [48, 120] := h
    rcases List.mem_pair.mp hmem with rfl | rfl <;> decide
  · split_ifs at h
    · rw [List.mem_singleton] at h
      subst h
      decide
    · obtain ⟨d, hd, rfl⟩ := List.mem_map.mp h
      have hmem := hexDigit_mem (Nat.digits_lt_base (by norm_num) (List.mem_reverse.mp hd))
      exact List.mem_append_left [120] hmem

/-- It has no other byte. -/
theorem notMem_hexToString {b : UInt8} (hb : b ∉ bytes "0123456789ABCDEFx") (arg : ℤ) :
    b ∉ hexToString arg :=
  fun h => hb (mem_hexToString h)

/-- It is not empty. -/
theorem hexToString_ne_nil (arg : ℤ) : hexToString arg ≠ [] := by
  rw [hexToString]
  exact List.append_ne_nil_of_left_ne_nil (by decide) _

/-- What is replaced: the `-` and the rest of the line. -/
theorem nbrText_eq {msg : Bytes} {pos : ℕ} (h : find (bytes "nbr: -") msg = some pos) :
    nbrText msg pos = 45 :: (msg.drop (pos + 6)).takeWhile (· ≠ 10) := by
  have hend := add_length_le_of_find (by decide) h
  have hdrop : msg.drop pos = bytes "nbr: -" ++ msg.drop (pos + 6) := by
    have hcut := congrArg (List.drop pos) (eq_of_find h)
    rwa [List.append_assoc, List.drop_left' (List.length_take_of_le (by omega))] at hcut
  have hfive : msg.drop (pos + 5) = 45 :: msg.drop (pos + 6) := by
    rw [← List.drop_drop, hdrop]
    rfl
  rw [nbrText, hfive, hdrop, find_append_of_notMem (by decide)]
  cases hfind : find [10] (msg.drop (pos + 6)) with
  | none => rw [takeWhile_of_find_eq_none hfind]; rfl
  | some n =>
    rw [takeWhile_of_find_eq_some hfind]
    exact congrArg (fun k => (45 :: msg.drop (pos + 6)).take k) (show n + 6 - 5 = n + 1 by omega)

/-- The number's text is a part of the message. -/
theorem nbrText_occurs {msg : Bytes} {pos : ℕ} (h : find (bytes "nbr: -") msg = some pos) :
    nbrText msg pos <:+: msg := by
  have hend := add_length_le_of_find (by decide) h
  have hfive : 45 :: msg.drop (pos + 6) <:+: msg := by
    refine ⟨msg.take pos ++ bytes "nbr: ", [], ?_⟩
    rw [List.append_nil]
    refine Eq.trans ?_ (eq_of_find h).symm
    rw [List.append_assoc, List.append_assoc]
    rfl
  rw [nbrText_eq h]
  refine List.IsInfix.trans (List.IsPrefix.isInfix ?_) hfive
  rw [List.cons_prefix_cons]
  exact ⟨rfl, List.takeWhile_prefix _⟩

/-- The text after a turn. -/
def turn (msg : Bytes) (pos : ℕ) : Bytes :=
  replaceAll (nbrText msg pos) (hexToString (atoi (nbrText msg pos))) msg

/-- The loop, without bounds. -/
inductive Ends : Bytes → Bytes → Prop
  | done {msg : Bytes} (h : find (bytes "nbr: -") msg = none) : Ends msg msg
  | turn {msg r : Bytes} {pos : ℕ} (h : find (bytes "nbr: -") msg = some pos)
      (hnext : Ends (turn msg pos) r) : Ends msg r

/-- A turn adds no zero byte. -/
theorem notMem_turn {msg : Bytes} (pos : ℕ) (hnul : 0 ∉ msg) : 0 ∉ turn msg pos := by
  intro h
  rcases mem_of_mem_replaceAll h with h | h
  · exact hnul h
  · exact notMem_hexToString (by decide) _ h

/-- Each turn removes a `-`. -/
theorem count_turn_lt {msg : Bytes} {pos : ℕ} (h : find (bytes "nbr: -") msg = some pos) :
    (turn msg pos).count 45 < msg.count 45 := by
  have hdash : 45 ∈ nbrText msg pos := by
    rw [nbrText_eq h]
    exact List.mem_cons_self
  exact count_replaceAll_lt (List.ne_nil_of_mem hdash) (nbrText_occurs h) hdash
    (notMem_hexToString (by decide) _)

/-- The turns come to an end for every message. -/
theorem exists_ends (msg : Bytes) : ∃ r, Ends msg r := by
  induction hcount : msg.count 45 using Nat.strongRecOn generalizing msg with
  | ind _ ih =>
    subst hcount
    cases hfind : find (bytes "nbr: -") msg with
    | none => exact ⟨msg, .done hfind⟩
    | some pos =>
      obtain ⟨r, hr⟩ := ih _ (count_turn_lt hfind) _ rfl
      exact ⟨r, .turn hfind hr⟩

/-- At the end there is no error number left. -/
theorem Ends.find_eq_none {msg r : Bytes} (h : Ends msg r) : find (bytes "nbr: -") r = none := by
  induction h with
  | done h => exact h
  | turn _ _ ih => exact ih

/-- More fuel keeps the result. -/
theorem transErrcodeHex_mono {msg r : Bytes} {fuel fuel' : ℕ} (hle : fuel ≤ fuel')
    (h : transErrcodeHex fuel msg = some r) : transErrcodeHex fuel' msg = some r := by
  induction fuel generalizing fuel' msg with
  | zero => cases h
  | succ fuel ih =>
    obtain ⟨fuel', rfl⟩ : ∃ n, fuel' = n + 1 := ⟨fuel' - 1, by omega⟩
    rw [transErrcodeHex] at h ⊢
    cases hfind : find (bytes "nbr: -") msg with
    | none => rwa [hfind] at h
    | some pos =>
      rw [hfind] at h
      obtain ⟨msg', hreplace, hrest⟩ := Option.bind_eq_some_iff.mp h
      exact Option.bind_eq_some_iff.mpr
        ⟨msg', UtilBase.replaceMacro_mono (by omega) hreplace, ih (by omega) hrest⟩

/-- The replacement in a turn, with enough fuel. -/
theorem returns_turn {msg : Bytes} {pos : ℕ} (hnul : 0 ∉ msg)
    (h : find (bytes "nbr: -") msg = some pos) :
    Returns (UtilBase.replaceMacro msg (some (nbrText msg pos))
      (some (hexToString (atoi (cstr (nbrText msg pos)))))) (turn msg pos) := by
  have htmp : 0 ∉ nbrText msg pos := fun h0 => hnul ((nbrText_occurs h).subset h0)
  rw [cstr_eq_self htmp]
  refine UtilBase.returns_replaceAll hnul ?_ htmp (notMem_hexToString (by decide) _)
  rw [nbrText_eq h]
  exact List.cons_ne_nil _ _

/-- The loop returns what the turns end in. -/
theorem returns_iff_ends {msg r : Bytes} (hnul : 0 ∉ msg) :
    Returns (fun fuel => transErrcodeHex fuel msg) r ↔ Ends msg r := by
  constructor
  · rintro ⟨fuel, h⟩
    -- by induction on the fuel; every turn of the loop is a call of `replaceMacro`
    induction fuel generalizing msg with
    | zero => cases h
    | succ fuel ih =>
      dsimp only at h
      rw [transErrcodeHex] at h
      cases hfind : find (bytes "nbr: -") msg with
      | none =>
        rw [hfind] at h
        cases h
        exact .done hfind
      | some pos =>
        rw [hfind] at h
        obtain ⟨msg', hreplace, hrest⟩ := Option.bind_eq_some_iff.mp h
        -- both calls get the larger of the two fuels
        obtain ⟨turns, hturn⟩ := returns_turn hnul hfind
        have hmore := UtilBase.replaceMacro_mono (le_max_left fuel turns) hreplace
        rw [UtilBase.replaceMacro_mono (le_max_right fuel turns) hturn, Option.some_inj] at hmore
        subst hmore
        exact .turn hfind (ih (notMem_turn pos hnul) hrest)
  · intro h
    induction h with
    | @done msg h =>
      refine ⟨0 + 1, ?_⟩
      dsimp only
      rw [transErrcodeHex, h]
    | @turn msg r pos h _ ih =>
      obtain ⟨fuel, hrest⟩ := ih (notMem_turn pos hnul)
      obtain ⟨turns, hturn⟩ := returns_turn hnul h
      refine ⟨max fuel turns + 1, ?_⟩
      dsimp only
      rw [transErrcodeHex, h]
      exact Option.bind_eq_some_iff.mpr ⟨_, UtilBase.replaceMacro_mono (le_max_right _ _) hturn,
        transErrcodeHex_mono (le_max_left _ _) hrest⟩

/-! ## The lines -/

/-- A number has digits only. -/
theorem IsNumber.notMem {digits : Bytes} (h : IsNumber digits) {b : UInt8}
    (hb : isDigit b = false) : b ∉ digits := by
  intro hmem
  rw [h.2.1 b hmem] at hb
  cases hb

/-- The hexadecimal form of the negative number. -/
def hexOf (digits : Bytes) : Bytes := hexToString (-(digitsValue digits : ℤ))

/-- The hexadecimal text of a negative number. -/
theorem atoi_cons {digits : Bytes} (h : IsNumber digits) :
    hexToString (atoi (45 :: digits)) = hexOf digits := by
  have hvalue : numeralValue (45 :: digits) = -(digitsValue digits : ℤ) := rfl
  have hhi := h.2.2.2
  rw [atoi, atol, hvalue, hexOf, toInt32_of_bounds (by omega) (by omega)]
  congr 1
  omega

/-- A 32-bit negative number has eight hexadecimal digits. -/
theorem length_hexOf {digits : Bytes} (h : IsNumber digits) : (hexOf digits).length = 10 := by
  have hlo := h.2.2.1
  have hhi := h.2.2.2
  obtain ⟨n, hn⟩ : ∃ n : ℕ, (-(digitsValue digits : ℤ)) % 2 ^ 32 = n :=
    Int.eq_ofNat_of_zero_le (Int.emod_nonneg _ (by norm_num))
  have hrange : 2 ^ 31 ≤ n ∧ n < 2 ^ 32 := by omega
  have hlen : (Nat.digits 16 n).length = 8 := by
    apply le_antisymm
    · rw [Nat.digits_length_le_iff (by norm_num)]
      omega
    · rw [Nat.succ_le_iff, Nat.lt_digits_length_iff (by norm_num)]
      omega
  rw [hexOf, hexToString, hn, Int.toNat_natCast, if_neg (by omega), List.length_append,
    List.length_map, List.length_reverse, hlen]
  rfl

/-- An `nbr` line and its number. -/
structure NbrLine (l blanks digits : Bytes) : Prop where
  eq : l = blanks ++ bytes "nbr: " ++ 45 :: digits
  blank : ∀ b ∈ blanks, b = 32
  number : IsNumber digits

/-- A line with a number has blanks before it. -/
theorem exists_nbrLine {l digits : Bytes} (h : nbrNumber l = some digits) :
    ∃ blanks, NbrLine l blanks digits := by
  rw [nbrNumber] at h
  split_ifs at h with hfield
  obtain ⟨⟨rest, hrest⟩, hnumber⟩ := hfield
  rw [Option.some_inj] at h
  have hdigits : rest = digits := by rw [← h, ← hrest]; rfl
  subst hdigits
  refine ⟨l.takeWhile (· = 32), ?_, ?_, h ▸ hnumber⟩
  · rw [List.append_assoc]
    exact (List.takeWhile_append_dropWhile.symm.trans (congrArg _ hrest.symm))
  · intro b hb
    simpa using List.mem_takeWhile_imp hb

section

variable {l blanks digits : Bytes} (h : NbrLine l blanks digits)
include h

/-- Such a line has the mark. -/
theorem NbrLine.occurs : bytes "nbr: -" <:+: l := by
  refine ⟨blanks, digits, ?_⟩
  rw [h.eq, List.append_assoc, List.append_assoc]
  rfl

/-- The mark stands behind the blanks. -/
theorem NbrLine.find_eq : find (bytes "nbr: -") l = some blanks.length := by
  have hblanks : 110 ∉ blanks := by
    intro hmem
    cases h.blank 110 hmem
  have hbegins : find (bytes "nbr: -") (bytes "nbr: -" ++ digits) = some 0 := by
    change find _ (110 :: _) = _
    rw [find]
    exact if_pos (List.prefix_append _ _)
  have hline : l = blanks ++ (bytes "nbr: -" ++ digits) := by
    rw [h.eq, List.append_assoc]
    rfl
  rw [hline]
  refine (find_append_of_notMem hblanks (bytes "br: -") _).trans ?_
  change Option.map _ (find (bytes "nbr: -") _) = _
  rw [hbegins, Option.map_some, Nat.zero_add]

/-- The part before the number has no `-`. -/
theorem NbrLine.notMem : 45 ∉ blanks ++ bytes "nbr: " := by
  intro hmem
  rcases List.mem_append.mp hmem with hmem | hmem
  · cases h.blank 45 hmem
  · revert hmem
    decide

/-- The line as it should become. -/
theorem NbrLine.hexLine_eq (hl : nbrNumber l = some digits) :
    hexLine l = blanks ++ bytes "nbr: " ++ hexOf digits := by
  have hlen : l.length - (digits.length + 1) = (blanks ++ bytes "nbr: ").length := by
    rw [h.eq, List.length_append, List.length_cons, Nat.add_sub_cancel]
  rw [hexLine, hl]
  dsimp only
  rw [hlen]
  conv_lhs => rw [h.eq]
  rw [List.take_left]
  rfl

/-- A line whose number starts with the number that is replaced. -/
theorem NbrLine.replaceAll_of_start {start hex : Bytes} (hstart : start <+: digits) :
    replaceAll (45 :: start) hex l =
      blanks ++ bytes "nbr: " ++ (hex ++ digits.drop start.length) := by
  have hdash : 45 ∉ digits.drop start.length := fun hmem =>
    h.number.notMem (by decide) (List.mem_of_mem_drop hmem)
  have hrest := replaceAll_append_of_notMem hdash start hex []
  rw [List.append_nil, replaceAll, List.append_nil] at hrest
  rw [h.eq, replaceAll_append_of_notMem h.notMem, replaceAll,
    if_pos (List.cons_prefix_cons.mpr ⟨rfl, hstart⟩)]
  exact congrArg _ (congrArg _ hrest)

/-- Another number does not change the line. -/
theorem NbrLine.replaceAll_of_not_start {start hex : Bytes} (hstart : ¬ start <+: digits) :
    replaceAll (45 :: start) hex l = l := by
  have hdash : 45 ∉ digits := h.number.notMem (by decide)
  have hrest := replaceAll_append_of_notMem hdash start hex []
  rw [List.append_nil, replaceAll, List.append_nil] at hrest
  rw [h.eq, replaceAll_append_of_notMem h.notMem, replaceAll, if_neg, hrest]
  intro hbegins
  exact hstart (List.cons_prefix_cons.mp hbegins).2

end

/-! ## A line in a turn -/

/-- What a turn makes of a line. -/
def rewriteLine (number l : Bytes) : Bytes := replaceAll (45 :: number) (hexOf number) l

/-- The `-` of a line that are not of an `nbr` line. -/
def strays (l : Bytes) : ℕ := if nbrNumber l = none then l.count 45 else 0

/-- A line without a minus sign has no number. -/
theorem nbrNumber_eq_none_of_notMem {l : Bytes} (h : 45 ∉ l) : nbrNumber l = none := by
  rw [Option.eq_none_iff_forall_ne_some]
  intro digits hdigits
  obtain ⟨blanks, hline⟩ := exists_nbrLine hdigits
  exact h (hline.occurs.subset (by decide))

/-- A line without a minus sign has no strays. -/
theorem strays_of_notMem {l : Bytes} (h : 45 ∉ l) : strays l = 0 := by
  rw [strays, List.count_eq_zero_of_not_mem h, ite_self]

section

variable {number l : Bytes}

/-- A rewritten line has the mark only if the line had it. -/
theorem infix_of_infix_rewriteLine (h : bytes "nbr: -" <:+: rewriteLine number l) :
    bytes "nbr: -" <:+: l := by
  refine infix_of_infix_replaceAll (by decide) (List.cons_ne_nil _ _) (hexToString_ne_nil _) ?_ h
  intro b hb hmem
  have hbyte : b ∈ [110, 98, 114, 58, 32, 45] := hmem
  simp only [List.mem_cons, List.not_mem_nil, or_false] at hbyte
  rcases hbyte with rfl | rfl | rfl | rfl | rfl | rfl <;>
    exact notMem_hexToString (by decide) _ hb

/-- A line without the number stays. -/
theorem rewriteLine_of_absent (h : ¬ 45 :: number <:+: l) : rewriteLine number l = l :=
  replaceAll_of_find_eq_none _ (find_eq_none_iff.mpr h)

/-- A `-` with the number behind it is removed. -/
theorem count_rewriteLine_lt (h : 45 :: number <:+: l) :
    (rewriteLine number l).count 45 < l.count 45 :=
  count_replaceAll_lt (List.cons_ne_nil _ _) h List.mem_cons_self
    (notMem_hexToString (by decide) _)

/-- An `nbr` line keeps its number or loses its `-`. -/
theorem rewriteLine_nbrLine {blanks digits : Bytes} (h : NbrLine l blanks digits) :
    (¬ number <+: digits ∧ rewriteLine number l = l) ∨
      (number <+: digits ∧ 45 ∉ rewriteLine number l ∧ rewriteLine number l =
        blanks ++ bytes "nbr: " ++ (hexOf number ++ digits.drop number.length)) := by
  by_cases hstart : number <+: digits
  · have heq : replaceAll (45 :: number) (hexOf number) l = _ := h.replaceAll_of_start hstart
    refine .inr ⟨hstart, ?_, heq⟩
    rw [rewriteLine, heq]
    intro hmem
    rcases List.mem_append.mp hmem with hmem | hmem
    · exact h.notMem hmem
    · rcases List.mem_append.mp hmem with hmem | hmem
      · exact notMem_hexToString (by decide) _ hmem
      · exact h.number.notMem (by decide) (List.mem_of_mem_drop hmem)
  · exact .inl ⟨hstart, h.replaceAll_of_not_start hstart⟩

/-- `nbr: -` does not get into other lines. -/
theorem proper_rewriteLine (h : bytes "nbr: -" <:+: l → nbrNumber l ≠ none)
    (hoccurs : bytes "nbr: -" <:+: rewriteLine number l) :
    nbrNumber (rewriteLine number l) ≠ none := by
  obtain ⟨digits, hdigits⟩ :=
    Option.ne_none_iff_exists'.mp (h (infix_of_infix_rewriteLine hoccurs))
  obtain ⟨blanks, hline⟩ := exists_nbrLine hdigits
  rcases rewriteLine_nbrLine hline with ⟨-, heq⟩ | ⟨-, hdash, -⟩
  · rw [heq, hdigits]
    exact Option.some_ne_none _
  · exact absurd (hoccurs.subset (by decide)) hdash

/-- A line without a number stays so. -/
theorem nbrNumber_rewriteLine_of_none (h : bytes "nbr: -" <:+: l → nbrNumber l ≠ none)
    (hnone : nbrNumber l = none) : nbrNumber (rewriteLine number l) = none := by
  rw [Option.eq_none_iff_forall_ne_some]
  intro digits hdigits
  obtain ⟨blanks, hline⟩ := exists_nbrLine hdigits
  exact h (infix_of_infix_rewriteLine hline.occurs) hnone

/-- Rewriting makes no strays. -/
theorem strays_rewriteLine_le (h : bytes "nbr: -" <:+: l → nbrNumber l ≠ none) :
    strays (rewriteLine number l) ≤ strays l := by
  cases hl : nbrNumber l with
  | none =>
    by_cases hhit : 45 :: number <:+: l
    · rw [strays, if_pos (nbrNumber_rewriteLine_of_none h hl), strays, if_pos hl]
      exact (count_rewriteLine_lt hhit).le
    · rw [rewriteLine_of_absent hhit]
  | some digits =>
    obtain ⟨blanks, hline⟩ := exists_nbrLine hl
    rcases rewriteLine_nbrLine hline with ⟨-, heq⟩ | ⟨-, hdash, -⟩
    · rw [heq]
    · rw [strays_of_notMem hdash]
      exact Nat.zero_le _

/-- Rewriting a stray makes them fewer. -/
theorem strays_rewriteLine_lt (h : bytes "nbr: -" <:+: l → nbrNumber l ≠ none)
    (hl : nbrNumber l = none) (hhit : 45 :: number <:+: l) :
    strays (rewriteLine number l) < strays l := by
  rw [strays, if_pos (nbrNumber_rewriteLine_of_none h hl), strays, if_pos hl]
  exact count_rewriteLine_lt hhit

/-- The number at the start of a longer one leaves some of its digits. -/
theorem length_hexLine_rewriteLine (hnumber : IsNumber number)
    (hhit : nbrNumber l = none → ¬ 45 :: number <:+: l) :
    (hexLine l).length ≤ (hexLine (rewriteLine number l)).length ∧
      ∀ digits, nbrNumber l = some digits → number <+: digits → number ≠ digits →
        (hexLine l).length < (hexLine (rewriteLine number l)).length := by
  -- a line without a number stays, one with a number may change
  cases hl : nbrNumber l with
  | none =>
    rw [rewriteLine_of_absent (hhit hl)]
    exact ⟨le_rfl, fun digits hdigits => by cases hdigits⟩
  | some digits =>
    obtain ⟨blanks, hline⟩ := exists_nbrLine hl
    rcases rewriteLine_nbrLine hline with ⟨hstart, heq⟩ | ⟨hstart, hdash, heq⟩
    · rw [heq]
      refine ⟨le_rfl, fun d hd hd' => ?_⟩
      cases hd
      exact absurd hd' hstart
    -- the line has lost its dash, so that nothing else in it is rewritten
    · have hnone : hexLine (rewriteLine number l) = rewriteLine number l := by
        rw [hexLine, nbrNumber_eq_none_of_notMem hdash]
      have hlen : (hexLine (rewriteLine number l)).length =
          (hexLine l).length + (digits.length - number.length) := by
        rw [hnone, heq, hline.hexLine_eq hl]
        simp only [List.length_append, length_hexOf hnumber, length_hexOf hline.number,
          List.length_drop]
        omega
      refine ⟨by omega, fun d hd _ hne => ?_⟩
      cases hd
      have hlt : number.length < digits.length :=
        lt_of_le_of_ne hstart.length_le fun hlen => hne (hstart.eq_of_length hlen)
      omega

/-- The right number is replaced, or none. -/
theorem hexLine_rewriteLine (hhit : nbrNumber l = none → ¬ 45 :: number <:+: l)
    (hstart : ∀ digits, nbrNumber l = some digits → number <+: digits → number = digits) :
    hexLine (rewriteLine number l) = hexLine l := by
  cases hl : nbrNumber l with
  | none => rw [rewriteLine_of_absent (hhit hl)]
  | some digits =>
    obtain ⟨blanks, hline⟩ := exists_nbrLine hl
    rcases rewriteLine_nbrLine hline with ⟨-, heq⟩ | ⟨hbegins, hdash, heq⟩
    · rw [heq]
    · have hsame := hstart digits hl hbegins
      subst hsame
      rw [hexLine, nbrNumber_eq_none_of_notMem hdash]
      dsimp only
      rw [heq, hline.hexLine_eq hl, List.drop_length, List.append_nil]

end

/-! ## A text in a turn -/

/-- The lines of a text in which `nbr: -` stands in `nbr` lines only. -/
structure ProperLines (ls : List Bytes) : Prop where
  ne_nil : ls ≠ []
  newline : ∀ l ∈ ls, 10 ∉ l
  proper : Proper ls

/-- The numbers are those of the lines. -/
theorem mem_numbers {ls : List Bytes} {digits : Bytes} :
    digits ∈ numbers ls ↔ ∃ l ∈ ls, nbrNumber l = some digits := List.mem_filterMap

/-- Where there is no `nbr: -` there are no numbers. -/
theorem nbrNumber_eq_none_of_find {ls : List Bytes}
    (hfind : find (bytes "nbr: -") (unlines ls) = none) :
    ∀ l ∈ ls, nbrNumber l = none := by
  intro l hl
  rw [Option.eq_none_iff_forall_ne_some]
  intro digits hdigits
  obtain ⟨blanks, hline⟩ := exists_nbrLine hdigits
  rw [find_eq_none_iff] at hfind
  exact hfind ((infix_unlines_iff (by decide) (by decide) ls).mpr ⟨l, hl, hline.occurs⟩)

/-- Lines without numbers stay. -/
theorem map_hexLine_eq_self {ls : List Bytes} (hnone : ∀ l ∈ ls, nbrNumber l = none) :
    ls.map hexLine = ls := by
  refine (List.map_congr_left fun l hl => ?_).trans (List.map_id ls)
  rw [hexLine, hnone l hl]
  rfl

/-- The `-` that are left in the expected text. -/
theorem count_expected (ls : List Bytes) :
    (unlines (ls.map hexLine)).count 45 = (ls.map strays).sum := by
  rw [count_unlines (by decide), List.map_map]
  congr 1
  refine List.map_congr_left fun l _ => ?_
  rw [Function.comp_apply, strays]
  cases hl : nbrNumber l with
  | none => rw [hexLine, hl, if_pos rfl]
  | some digits =>
    obtain ⟨blanks, hline⟩ := exists_nbrLine hl
    have hhex : 45 ∉ hexOf digits := notMem_hexToString (by decide) _
    rw [if_neg (Option.some_ne_none _), hline.hexLine_eq hl, List.count_append,
      List.count_eq_zero_of_not_mem hline.notMem, List.count_eq_zero_of_not_mem hhex]

section

variable {ls : List Bytes} (h : ProperLines ls) {number : Bytes}
include h

/-- Rewriting keeps the lines proper. -/
theorem ProperLines.rewrite : ProperLines (ls.map (rewriteLine number)) where
  ne_nil hnil := h.ne_nil (List.map_eq_nil_iff.mp hnil)
  newline := by
    intro l' hl' hmem
    obtain ⟨l, hl, rfl⟩ := List.mem_map.mp hl'
    rcases mem_of_mem_replaceAll hmem with hmem | hmem
    · exact h.newline l hl hmem
    · exact notMem_hexToString (by decide) _ hmem
  proper := by
    intro l' hl' hoccurs
    obtain ⟨l, hl, rfl⟩ := List.mem_map.mp hl'
    exact proper_rewriteLine (h.proper l hl) hoccurs

omit h in
/-- The number is read up to the end of its line. -/
theorem NbrLine.takeWhile_eq {l blanks : Bytes} (hline : NbrLine l blanks number)
    (after : List Bytes) :
    ((unlines (l :: after)).drop (blanks.length + 6)).takeWhile (· ≠ 10) = number := by
  have hnumber : ∀ b ∈ number, decide (b ≠ 10) = true := by
    intro b hb
    rw [decide_eq_true_eq]
    rintro rfl
    exact hline.number.notMem (by decide) hb
  have hdrop : ∀ t, (l ++ t).drop (blanks.length + 6) = number ++ t := by
    intro t
    have hlen : blanks.length + 6 = (blanks ++ bytes "nbr: " ++ [45]).length := by
      rw [List.length_append, List.length_append]
      rfl
    have heq : l ++ t = blanks ++ bytes "nbr: " ++ [45] ++ (number ++ t) := by
      rw [hline.eq, List.append_assoc _ [45], List.append_assoc]
      rfl
    rw [hlen, heq, List.drop_left]
  rcases eq_or_ne after [] with rfl | hafter
  · rw [unlines_singleton, ← List.append_nil l, hdrop, List.append_nil]
    exact List.takeWhile_eq_self_iff.mpr hnumber
  · rw [unlines_cons hafter, hdrop, List.takeWhile_append_of_pos hnumber,
      List.takeWhile_cons_of_neg (by decide), List.append_nil]

/-- The first number is the one of a turn. -/
theorem ProperLines.turn_eq {pos : ℕ} (hfind : find (bytes "nbr: -") (unlines ls) = some pos) :
    ∃ number rest, numbers ls = number :: rest ∧ IsNumber number ∧
      turn (unlines ls) pos = unlines (ls.map (rewriteLine number)) := by
  -- the first line with a number, and what is before it
  have hfirst : ∃ l, ls.find? (fun l => (nbrNumber l).isSome) = some l := by
    rw [← Option.isSome_iff_exists, List.find?_isSome]
    have hoccurs : bytes "nbr: -" <:+: unlines ls := by
      by_contra hnot
      rw [← find_eq_none_iff, hfind] at hnot
      cases hnot
    obtain ⟨l, hl, hoccurs⟩ := (infix_unlines_iff (by decide) (by decide) ls).mp hoccurs
    exact ⟨l, hl, Option.isSome_iff_ne_none.mpr (h.proper l hl hoccurs)⟩
  obtain ⟨l, hl⟩ := hfirst
  obtain ⟨hsome, before, after, rfl, hbefore⟩ := List.find?_eq_some_iff_append.mp hl
  obtain ⟨number, hnumber⟩ := Option.isSome_iff_exists.mp hsome
  obtain ⟨blanks, hline⟩ := exists_nbrLine hnumber
  have hnone : ∀ b ∈ before, nbrNumber b = none := by
    intro b hb
    simpa using hbefore b hb
  have hnumbers : numbers (before ++ l :: after) = number :: numbers after := by
    rw [numbers, List.filterMap_append, List.filterMap_cons_some hnumber,
      List.filterMap_eq_nil_iff.mpr hnone]
    rfl
  -- a line with the words has a number, so that those before have not even the words
  have hclear : ∀ b ∈ before, find (bytes "nbr: -") b = none := by
    intro b hb
    rw [find_eq_none_iff]
    exact fun hoccurs => h.proper b (List.mem_append_left _ hb) hoccurs (hnone b hb)
  have hpos : find (bytes "nbr: -") (unlines (before ++ l :: after)) = _ :=
    find_unlines (by decide) (by decide) hclear hline.find_eq
  -- what follows the place is read as a number with its sign
  have htext : nbrText (unlines (before ++ l :: after)) pos = 45 :: number := by
    rw [nbrText_eq hfind]
    rw [hfind, Option.some_inj] at hpos
    rw [hpos, Nat.add_assoc, ← List.drop_drop, drop_unlines, hline.takeWhile_eq]
  refine ⟨number, numbers after, hnumbers, hline.number, ?_⟩
  rw [turn, htext, atoi_cons hline.number, replaceAll_unlines (List.cons_ne_nil _ _)]
  · rfl
  · intro hmem
    rcases List.mem_cons.mp hmem with hmem | hmem
    · cases hmem
    · exact hline.number.notMem (by decide) hmem

/-- The length of the expected text. -/
theorem ProperLines.length_expected :
    (unlines (ls.map hexLine)).length + 1 =
      (ls.map fun l => (hexLine l).length).sum + ls.length := by
  rw [length_unlines (fun hnil => h.ne_nil (List.map_eq_nil_iff.mp hnil)), List.map_map,
    List.length_map]
  rfl

/-! ## What a run can lose -/

/-- Rewriting all lines makes no strays. -/
theorem ProperLines.strays_rewrite_le :
    ((ls.map (rewriteLine number)).map strays).sum ≤ (ls.map strays).sum := by
  rw [List.map_map]
  exact List.sum_le_sum fun l hl => strays_rewriteLine_le (h.proper l hl)

/-- If a stray is rewritten there are fewer. -/
theorem ProperLines.strays_rewrite_lt {l : Bytes} (hl : l ∈ ls)
    (hnone : nbrNumber l = none) (hhit : 45 :: number <:+: l) :
    ((ls.map (rewriteLine number)).map strays).sum < (ls.map strays).sum := by
  rw [List.map_map]
  exact List.sum_lt_sum _ _ (fun l hl => strays_rewriteLine_le (h.proper l hl))
    ⟨l, hl, strays_rewriteLine_lt (h.proper l hl) hnone hhit⟩

/-- A `-` of another line that is lost never comes back; if none is lost, the text can only have
become too long. -/
theorem Ends.measure {msg r : Bytes} (hends : Ends msg r) (hmsg : msg = unlines ls) :
    r.count 45 ≤ (ls.map strays).sum ∧ (r.count 45 = (ls.map strays).sum →
      (ls.map fun l => (hexLine l).length).sum + ls.length ≤ r.length + 1) := by
  -- on the turns: both sums change with each line on its own
  induction hends generalizing ls with
  | done hfind =>
    subst hmsg
    have hnone := nbrNumber_eq_none_of_find hfind
    have hsame := map_hexLine_eq_self hnone
    have hcount := count_expected ls
    have hlength := h.length_expected
    rw [hsame] at hcount hlength
    exact ⟨hcount.le, fun _ => hlength.ge⟩
  | turn hfind _ ih =>
    subst hmsg
    obtain ⟨number, rest, -, hnumber, hturn⟩ := h.turn_eq hfind
    obtain ⟨hcount, hlength⟩ := ih h.rewrite hturn
    have hle : ((ls.map (rewriteLine number)).map strays).sum ≤ (ls.map strays).sum :=
      h.strays_rewrite_le
    refine ⟨hcount.trans hle, fun heq => ?_⟩
    -- nothing was lost in this turn
    have hhit : ∀ l ∈ ls, nbrNumber l = none → ¬ 45 :: number <:+: l := by
      intro l hl hnone hhit
      have hlt := h.strays_rewrite_lt hl hnone hhit
      omega
    have hgrow : (ls.map fun l => (hexLine l).length).sum ≤
        (ls.map fun l => (hexLine (rewriteLine number l)).length).sum :=
      List.sum_le_sum fun l hl => (length_hexLine_rewriteLine hnumber (hhit l hl)).1
    have hrest := hlength (by omega)
    rw [List.map_map, List.length_map] at hrest
    exact (Nat.add_le_add_right hgrow _).trans hrest

/-! ## When the text is the expected one -/

/-- A turn that changes the lines with this number only. -/
def RightTurn (number : Bytes) (ls : List Bytes) : Prop :=
  (∀ l ∈ ls, nbrNumber l = none → ¬ 45 :: number <:+: l) ∧
    ∀ digits ∈ numbers ls, number <+: digits → number = digits

/-- If the end is right, so was the turn. -/
theorem ProperLines.rightTurn (hnumber : IsNumber number) {r : Bytes}
    (hends : Ends (unlines (ls.map (rewriteLine number))) r)
    (hr : r = unlines (ls.map hexLine)) : RightTurn number ls := by
  obtain ⟨hcount, hlength⟩ := Ends.measure h.rewrite hends rfl
  have hle : ((ls.map (rewriteLine number)).map strays).sum ≤ (ls.map strays).sum :=
    h.strays_rewrite_le
  have hleft := count_expected ls
  rw [← hr] at hleft
  have hhit : ∀ l ∈ ls, nbrNumber l = none → ¬ 45 :: number <:+: l := by
    intro l hl hnone hhit
    have hlt := h.strays_rewrite_lt hl hnone hhit
    omega
  -- a longer number keeps its last digits, so that the text is too long
  refine ⟨hhit, fun digits hdigits hstart => ?_⟩
  by_contra hne
  obtain ⟨l, hl, hline⟩ := mem_numbers.mp hdigits
  have hgrow : (ls.map fun l => (hexLine l).length).sum <
      (ls.map fun l => (hexLine (rewriteLine number l)).length).sum :=
    List.sum_lt_sum _ _ (fun l hl => (length_hexLine_rewriteLine hnumber (hhit l hl)).1)
      ⟨l, hl, (length_hexLine_rewriteLine hnumber (hhit l hl)).2 digits hline hstart hne⟩
  have hlong := hlength (by omega)
  have hexpected := h.length_expected
  rw [List.map_map, List.length_map] at hlong
  rw [← hr] at hexpected
  have hcomp : (ls.map ((fun l => (hexLine l).length) ∘ rewriteLine number)).sum =
      (ls.map fun l => (hexLine (rewriteLine number l)).length).sum := rfl
  omega

end

/-! ### One turn fewer -/

section

variable {ls : List Bytes} {number : Bytes} (hright : RightTurn number ls)
include hright

/-- A right turn removes the number from its own lines only. -/
theorem RightTurn.nbrNumber_eq {l : Bytes} (hl : l ∈ ls) :
    nbrNumber (rewriteLine number l) =
      (nbrNumber l).filter (fun digits => number ≠ digits) := by
  cases hline : nbrNumber l with
  | none =>
    rw [rewriteLine_of_absent (hright.1 l hl hline), hline]
    rfl
  | some digits =>
    obtain ⟨blanks, hnbr⟩ := exists_nbrLine hline
    rcases rewriteLine_nbrLine hnbr with ⟨hstart, heq⟩ | ⟨hstart, hdash, -⟩
    · have hne : number ≠ digits := by
        rintro rfl
        exact hstart List.prefix_rfl
      rw [heq, hline, Option.filter_some, if_pos (decide_eq_true hne)]
    · have hsame := hright.2 digits (mem_numbers.mpr ⟨l, hl, hline⟩) hstart
      rw [nbrNumber_eq_none_of_notMem hdash, Option.filter_some, if_neg]
      simp [hsame]

/-- The numbers that are left after a right turn. -/
theorem RightTurn.numbers_map :
    numbers (ls.map (rewriteLine number)) =
      (numbers ls).filter (fun digits => number ≠ digits) := by
  rw [numbers, numbers, List.filterMap_map, List.filter_filterMap]
  exact List.filterMap_congr fun l hl => hright.nbrNumber_eq hl

/-- The lines that are no `nbr` lines after the turn: they were none before, or have no `-`. -/
theorem RightTurn.apart_map (hapart : Apart ls) : Apart (ls.map (rewriteLine number)) := by
  rw [Apart, hright.numbers_map]
  constructor
  · intro l' hl' hnone digits hdigits
    obtain ⟨l, hl, rfl⟩ := List.mem_map.mp hl'
    have hmem := List.mem_of_mem_filter hdigits
    cases hline : nbrNumber l with
    | none =>
      rw [rewriteLine_of_absent (hright.1 l hl hline)]
      exact hapart.1 l hl hline digits hmem
    | some own =>
      obtain ⟨blanks, hnbr⟩ := exists_nbrLine hline
      rcases rewriteLine_nbrLine hnbr with ⟨-, heq⟩ | ⟨-, hdash, -⟩
      · rw [heq, hline] at hnone
        cases hnone
      · exact fun hoccurs => hdash (hoccurs.subset List.mem_cons_self)
  · intro digits hdigits
    obtain ⟨hmem, hne⟩ := List.mem_filter.mp hdigits
    obtain ⟨hstart, earlier, later, hsplit, hearlier⟩ :=
      List.find?_eq_some_iff_append.mp (hapart.2 digits hmem)
    rw [List.find?_filter, List.find?_eq_some_iff_append]
    refine ⟨?_, earlier, later, hsplit, fun start hbefore => ?_⟩
    · exact decide_eq_true ⟨hne, decide_eq_true List.prefix_rfl⟩
    · have hnot := hearlier start hbefore
      simp only [Bool.not_eq_true', decide_eq_false_iff_not] at hnot
      simp [hnot]

/-- If the lines are apart after a right turn, they were before. -/
theorem RightTurn.apart_of_map (hfirst : (numbers ls).head? = some number)
    (hapart : Apart (ls.map (rewriteLine number))) : Apart ls := by
  rw [Apart, hright.numbers_map] at hapart
  constructor
  · intro l hl hnone digits hdigits
    rcases eq_or_ne number digits with rfl | hne
    · exact hright.1 l hl hnone
    · have hsame := rewriteLine_of_absent (hright.1 l hl hnone)
      have hkept : digits ∈ (numbers ls).filter (fun digits => number ≠ digits) :=
        List.mem_filter.mpr ⟨hdigits, decide_eq_true hne⟩
      have hmem : l ∈ ls.map (rewriteLine number) := List.mem_map.mpr ⟨l, hl, hsame⟩
      exact hapart.1 l hmem hnone digits hkept
  · intro digits hdigits
    rcases eq_or_ne number digits with rfl | hne
    · obtain ⟨rest, hrest⟩ := List.head?_eq_some_iff.mp hfirst
      rw [hrest, List.find?_cons_of_pos]
      exact decide_eq_true List.prefix_rfl
    · have hkept : digits ∈ (numbers ls).filter (fun digits => number ≠ digits) :=
        List.mem_filter.mpr ⟨hdigits, decide_eq_true hne⟩
      have hnot : ¬ number <+: digits := fun hstart => hne (hright.2 digits hdigits hstart)
      rw [← hapart.2 digits hkept, List.find?_filter]
      congr 1
      funext start
      rcases eq_or_ne number start with rfl | hother
      · simp [hnot]
      · simp [hother]

end

/-- The first number is a start of no other one, and stands nowhere else. -/
theorem Apart.rightTurn {ls : List Bytes} {number : Bytes} (hapart : Apart ls)
    (hfirst : (numbers ls).head? = some number) : RightTurn number ls := by
  obtain ⟨rest, hrest⟩ := List.head?_eq_some_iff.mp hfirst
  refine ⟨fun l hl hnone => hapart.1 l hl hnone number ?_, fun digits hdigits hstart => ?_⟩
  · rw [hrest]
    exact List.mem_cons_self
  · have hfind := hapart.2 digits hdigits
    rw [hrest, List.find?_cons_of_pos] at hfind
    · exact Option.some_inj.mp hfind
    · exact decide_eq_true hstart

/-- The end is the expected text just if the lines are apart. -/
theorem Ends.eq_expected_iff {msg r : Bytes} (hends : Ends msg r) {ls : List Bytes}
    (h : ProperLines ls) (hmsg : msg = unlines ls) :
    r = unlines (ls.map hexLine) ↔ Apart ls := by
  -- by induction over the turns of the loop
  induction hends generalizing ls with
  | done hfind =>
    subst hmsg
    have hnone := nbrNumber_eq_none_of_find hfind
    have hsame := map_hexLine_eq_self hnone
    have hnumbers : numbers ls = [] := List.filterMap_eq_nil_iff.mpr hnone
    rw [hsame, Apart, hnumbers]
    simp
  | turn hfind hnext ih =>
    subst hmsg
    obtain ⟨number, rest, hnumbers, hnumber, hturn⟩ := h.turn_eq hfind
    have hfirst : (numbers ls).head? = some number := by
      rw [hnumbers]
      rfl
    have hrun := ih h.rewrite hturn
    rw [hturn] at hnext
    -- a turn that goes right leaves the result that is expected
    have hstay : RightTurn number ls →
        (ls.map (rewriteLine number)).map hexLine = ls.map hexLine := by
      intro hright
      rw [List.map_map]
      refine List.map_congr_left fun l hl => hexLine_rewriteLine (hright.1 l hl) ?_
      exact fun digits hdigits => hright.2 digits (mem_numbers.mpr ⟨l, hl, hdigits⟩)
    constructor
    · intro hr
      have hright := h.rightTurn hnumber hnext hr
      rw [hstay hright] at hrun
      exact hright.apart_of_map hfirst (hrun.mp hr)
    · intro hapart
      have hright := hapart.rightTurn hfirst
      rw [hstay hright] at hrun
      exact hrun.mpr (hright.apart_map hapart)

/-- A text that has come out has no `nbr: -`, the expected one keeps each that is not of an `nbr`
line. -/
theorem proper_of_ends_expected {msg : Bytes} (hends : Ends msg (expected msg)) :
    Proper (lines msg) := by
  intro l hl hoccurs hnone
  have hgone := hends.find_eq_none
  rw [find_eq_none_iff, expected] at hgone
  apply hgone
  rw [infix_unlines_iff (by decide) (by decide)]
  refine ⟨l, List.mem_map.mpr ⟨l, hl, ?_⟩, hoccurs⟩
  rw [hexLine, hnone]

/-- The same for the loop. -/
theorem returns_expected_iff {msg : Bytes} (hnul : 0 ∉ msg) :
    Returns (fun fuel => transErrcodeHex fuel msg) (expected msg) ↔
      Proper (lines msg) ∧ Apart (lines msg) := by
  have hlines : Proper (lines msg) → ProperLines (lines msg) := fun hproper =>
    { ne_nil := lines_ne_nil msg
      newline := fun _ hl => notMem_of_mem_lines hl
      proper := hproper }
  rw [returns_iff_ends hnul]
  constructor
  · intro hends
    have hproper := proper_of_ends_expected hends
    exact ⟨hproper, (hends.eq_expected_iff (hlines hproper) (unlines_lines msg).symm).mp rfl⟩
  · rintro ⟨hproper, hapart⟩
    obtain ⟨r, hends⟩ := exists_ends msg
    have hr := (hends.eq_expected_iff (hlines hproper) (unlines_lines msg).symm).mpr hapart
    rw [hr] at hends
    exact hends

/-- `TransErrcodeHex` always comes to an end; when with the expected text. -/
theorem transErrcodeHex_iff {msg : Bytes} (hnul : 0 ∉ msg) :
    (∃ r, Returns (fun fuel => transErrcodeHex fuel msg) r) ∧
      (Returns (fun fuel => transErrcodeHex fuel msg) (expected msg) ↔
        Proper (lines msg) ∧ Apart (lines msg)) := by
  refine ⟨?_, returns_expected_iff hnul⟩
  obtain ⟨r, hends⟩ := exists_ends msg
  exact ⟨r, (returns_iff_ends hnul).mpr hends⟩

/-- A detail with an error code and with a field of the same value. -/
def sameDigits : Bytes := bytes "id: -5\n  nbr: -5\n"

/-- Two numbers of which one begins with the other. -/
theorem transErrcodeHex_sameDigits :
    (∃ r, Returns (fun fuel => transErrcodeHex fuel sameDigits) r) ∧
      (Returns (fun fuel => transErrcodeHex fuel sameDigits) (expected sameDigits) ↔
        Proper (lines sameDigits) ∧ Apart (lines sameDigits)) :=
  transErrcodeHex_iff (by decide)

/-- The other field is changed, too. -/
theorem not_returns_sameDigits :
    ¬ ∀ msg : Bytes, 0 ∉ msg → Proper (lines msg) →
      Returns (fun fuel => transErrcodeHex fuel msg) (expected msg) := by
  intro h
  have hproper : Proper (lines sameDigits) := by
    unfold Proper
    decide +kernel
  obtain ⟨-, hstray, -⟩ :=
    (returns_expected_iff (by decide)).mp (h sameDigits (by decide) hproper)
  exact hstray (bytes "id: -5") (by decide +kernel) (by decide +kernel) (bytes "5")
    (by decide +kernel) (by decide)

end ErrcodeHex

end AdxDsp
