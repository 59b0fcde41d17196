import AdxDsp.Lib.Bytes

/-!
# The specifications of the imps of GDT and Autohome

The exchanges send the number of a template, and a table gives a text for it: pieces `tag:value`
with a `;` between them, the first one with the type of the imp (`gdt_bid.cpp`,
`autohome_bid.cpp`).

* **The parsers** (`getNativeInfo`, `getImpInfo`), for both adapters.
* **The pieces** (`getNativeInfo_iff`): a text is read to its end, and every known piece is used, if
  and only if there is a `:` in each piece before a `;`.
* `impInfo_iff`: the whole specification.
-/

namespace AdxDsp.ImpInfo

open CText

/-! ## The parsers -/

/-- `find` of a byte, and `substr` on both sides of it. -/
def cut (c : UInt8) (t : Bytes) : Option (Bytes × Bytes) :=
  (find [c] t).map fun pos => (t.take pos, t.drop (pos + 1))

/-- The numbers that a specification sets. -/
inductive Field where
  | w
  | h
  | tLen
  | dLen
  | proi
  deriving DecidableEq

/-- The parameters that a parser writes to, each an `uint32`. -/
abbrev Info := Field → ℕ

/-- A tag that a parser knows: the field it sets, and the number by which a value is multiplied. -/
structure Tag where
  name : Bytes
  field : Field
  scale : ℤ
  deriving DecidableEq

/-- The value of a piece, as an `uint32`. -/
def Tag.value (tag : Tag) (infoStr : Bytes) : ℕ :=
  (atoi (cstr infoStr) * tag.scale % 2 ^ 32).toNat

/-- The two adapters that read such a text. -/
inductive Adapter where
  | gdt
  | autohome
  deriving DecidableEq

/-- The tags of `get_native_info`; the lengths of GDT are of characters with three bytes. -/
def Adapter.tags : Adapter → List Tag
  | .gdt => [⟨bytes "w", .w, 1⟩, ⟨bytes "h", .h, 1⟩, ⟨bytes "title", .tLen, 3⟩,
      ⟨bytes "des", .dLen, 3⟩, ⟨bytes "proi", .proi, 1⟩]
  | .autohome => [⟨bytes "w", .w, 1⟩, ⟨bytes "h", .h, 1⟩, ⟨bytes "title", .tLen, 1⟩,
      ⟨bytes "des", .dLen, 1⟩]

/-- The comparisons of `tagStr`. -/
def setTag (tags : List Tag) (tagStr infoStr : Bytes) (info : Info) : Info :=
  match tags.find? fun tag => tagStr = tag.name with
  | some tag => Function.update info tag.field (tag.value infoStr)
  | none => info

/-- `get_native_info` from a turn of its loop on, for at most so many turns. -/
def getNativeInfo (tags : List Tag) : ℕ → Bytes → Info → Option Info
  | 0, _, _ => none
  | fuel + 1, temp, info =>
    if temp = [] then some info
    else
      let posStr := cut 59 temp
      if posStr.isSome ∨ (cut 58 temp).isSome then
        match cut 58 (posStr.elim temp Prod.fst) with
        | some (tagStr, infoStr) =>
          let info := setTag tags tagStr infoStr info
          match posStr with
          | some (_, rest) => getNativeInfo tags fuel rest info
          | none => some info
        | none => getNativeInfo tags fuel temp info
      else some info

/-- A field is set to a value. -/
def setValue (field : Field) (str : Bytes) (info : Info) : Info :=
  Function.update info field (atoi (cstr str) % 2 ^ 32).toNat

/-- The width and the height of `get_banner_info`, from the first two pieces. -/
def bannerSize (impInfo : Bytes) (info : Info) : Info :=
  match cut 59 impInfo with
  | none => info
  | some (wstr, temp) =>
    let info := (cut 58 wstr).elim info fun w => setValue .w w.2 info
    (cut 58 temp).elim info fun h => setValue .h h.2 info

/-- `get_banner_info`; the one of GDT also looks for a priority. -/
def getBannerInfo (adapter : Adapter) (impInfo : Bytes) (info : Info) : Info :=
  let info := bannerSize impInfo info
  match adapter with
  | .autohome => info
  | .gdt =>
    (find (bytes "proi:") impInfo).elim info fun pos => setValue .proi (impInfo.drop (pos + 5)) info

/-- `get_ImpInfo`, with the type of the imp. -/
def getImpInfo (adapter : Adapter) (fuel : ℕ) (impInfo : Bytes) (advtype : ℤ) (info : Info) :
    Option (ℤ × Info) :=
  let info := if adapter = .gdt then Function.update info .proi 100 else info
  match cut 59 impInfo with
  | none => some (advtype, info)
  | some (typestr, rest) =>
    let (advtype, impInfo) := match cut 58 typestr with
      | some (_, str) => (atoi (cstr str), rest)
      | none => (advtype, impInfo)
    if advtype = 1 then some (advtype, getBannerInfo adapter impInfo info)
    else (getNativeInfo adapter.tags fuel impInfo info).map fun info => (advtype, info)

/-! ## Pieces -/

/-- The pieces of a text with a tag and a value. -/
def tagged (temp : Bytes) : List (Bytes × Bytes) := (temp.splitOn 59).filterMap (cut 58)

/-- The value of the last piece with a tag. -/
def lastValue (name temp : Bytes) : Option Bytes := (tagged temp).reverse.lookup name

/-- Every known piece sets its field, the last one of a tag for good. -/
def SetsFields (tags : List Tag) (temp : Bytes) (info info' : Info) : Prop :=
  ∀ tag ∈ tags, info' tag.field = (lastValue tag.name temp).elim (info tag.field) tag.value

/-- There is a `:` in every piece before a `;`. -/
def Colons (temp : Bytes) : Prop := ∀ piece ∈ (temp.splitOn 59).dropLast, 58 ∈ piece

section

variable {c : UInt8} {t a b : Bytes}

/-- The empty text has no separator. -/
theorem cut_nil : cut c [] = none := rfl

/-- A text that begins with the separator. -/
theorem cut_cons_self : cut c (c :: t) = some ([], t) := by
  simp [cut, find]

/-- Any other byte goes to the first part. -/
theorem cut_cons_of_ne {d : UInt8} (h : d ≠ c) :
    cut c (d :: t) = (cut c t).map fun p => (d :: p.1, p.2) := by
  have hnot : ¬[c] <+: d :: t := by
    simp [Ne.symm h]
  rw [cut, find, if_neg hnot, cut]
  cases find [c] t <;> simp

/-- A text is not cut just if it has no separator. -/
theorem cut_eq_none_iff : cut c t = none ↔ c ∉ t := by
  induction t with
  | nil => simp [cut_nil]
  | cons d t ih =>
    by_cases h : d = c
    · subst h
      simp [cut_cons_self]
    · rw [cut_cons_of_ne h, Option.map_eq_none_iff, ih]
      simp [Ne.symm h]

/-- The pieces of a text, from its first separator on. -/
theorem splitOn_eq_cut (c : UInt8) (t : Bytes) :
    t.splitOn c = (cut c t).elim [t] fun p => p.1 :: p.2.splitOn c := by
  induction t with
  | nil => rfl
  | cons d t ih =>
    rw [List.splitOn_cons_eq_if_modifyHead]
    by_cases h : d = c
    · subst h
      rw [if_pos (beq_self_eq_true d), cut_cons_self]
      rfl
    · rw [if_neg (by simpa using h), ih, cut_cons_of_ne h]
      cases cut c t <;> rfl

/-- The rest is shorter. -/
theorem length_lt_of_cut (h : cut c t = some (a, b)) : b.length < t.length := by
  obtain ⟨pos, hpos, heq⟩ := Option.map_eq_some_iff.mp h
  obtain ⟨-, rfl⟩ := Prod.mk.inj heq
  have ht := congrArg List.length (eq_of_find hpos)
  simp only [List.length_append, List.length_singleton] at ht
  rw [List.length_drop]
  omega

end

/-! ## The loop -/

section

variable {tags : List Tag} {fuel : ℕ} {temp first rest : Bytes} {info : Info}

/-- The pieces with a tag set their fields, one after the other. -/
def setPieces (tags : List Tag) (pieces : List (Bytes × Bytes)) (info : Info) : Info :=
  pieces.foldl (fun info piece => setTag tags piece.1 piece.2 info) info

/-- The last piece needs no colon. -/
theorem colons_of_cut_none (h : cut 59 temp = none) : Colons temp := by
  intro piece hpiece
  rw [splitOn_eq_cut, h] at hpiece
  cases hpiece

/-- Every other piece needs one. -/
theorem colons_of_cut (h : cut 59 temp = some (first, rest)) :
    Colons temp ↔ 58 ∈ first ∧ Colons rest := by
  have hsplit : temp.splitOn 59 = first :: rest.splitOn 59 := by rw [splitOn_eq_cut, h]; rfl
  unfold Colons
  rw [hsplit, List.dropLast_cons_of_ne_nil (List.splitOn_ne_nil 59 rest), List.forall_mem_cons]

/-- The pieces with a tag. -/
theorem tagged_of_cut (h : cut 59 temp = some (first, rest)) :
    tagged temp = (cut 58 first).toList ++ tagged rest := by
  rw [tagged, splitOn_eq_cut, h, Option.elim, List.filterMap_cons]
  cases cut 58 first <;> rfl

/-- The last turn of the loop. -/
theorem getNativeInfo_of_cut_none (h : cut 59 temp = none) :
    getNativeInfo tags (fuel + 1) temp info = some (setPieces tags (tagged temp) info) := by
  have htagged : tagged temp = (cut 58 temp).toList := by
    rw [tagged, splitOn_eq_cut, h]
    cases hcut : cut 58 temp <;> simp [hcut]
  rw [getNativeInfo, htagged, h]
  by_cases hnil : temp = []
  · subst hnil
    rfl
  · rw [if_neg hnil]
    cases hcut : cut 58 temp <;> simp [hcut, setPieces]

/-- A turn before a separator: without a tag the text stays as it is. -/
theorem getNativeInfo_of_cut (h : cut 59 temp = some (first, rest)) :
    getNativeInfo tags (fuel + 1) temp info =
      (cut 58 first).elim (getNativeInfo tags fuel temp info) fun piece =>
        getNativeInfo tags fuel rest (setTag tags piece.1 piece.2 info) := by
  have hne : temp ≠ [] := by
    rintro rfl
    cases h
  rw [getNativeInfo, if_neg hne, h]
  cases hcut : cut 58 first <;> simp [hcut]

/-- With a `:` before each separator the loop comes to its end, within as many turns as the text has
bytes. -/
theorem getNativeInfo_of_colons (h : Colons temp) (hfuel : temp.length < fuel) :
    getNativeInfo tags fuel temp info = some (setPieces tags (tagged temp) info) := by
  induction fuel generalizing temp info with
  | zero => omega
  | succ fuel ih =>
    cases hcut : cut 59 temp with
    | none => exact getNativeInfo_of_cut_none hcut
    | some p =>
      obtain ⟨first, rest⟩ := p
      obtain ⟨hfirst, hrest⟩ := (colons_of_cut hcut).mp h
      have hlt := length_lt_of_cut hcut
      rw [getNativeInfo_of_cut hcut, tagged_of_cut hcut]
      cases hpiece : cut 58 first with
      | none => exact absurd hfirst (cut_eq_none_iff.mp hpiece)
      | some piece => exact ih hrest (by omega)

/-- Otherwise it does not: by induction on the number of turns. -/
theorem getNativeInfo_of_not_colons (h : ¬Colons temp) :
    getNativeInfo tags fuel temp info = none := by
  induction fuel generalizing temp info with
  | zero => rfl
  | succ fuel ih =>
    cases hcut : cut 59 temp with
    | none => exact absurd (colons_of_cut_none hcut) h
    | some p =>
      obtain ⟨first, rest⟩ := p
      rw [getNativeInfo_of_cut hcut]
      cases hpiece : cut 58 first with
      | none => exact ih h
      | some piece =>
        have hfirst : 58 ∈ first := by
          by_contra hnot
          rw [cut_eq_none_iff.mpr hnot] at hpiece
          cases hpiece
        exact ih fun hrest => h ((colons_of_cut hcut).mpr ⟨hfirst, hrest⟩)

/-! ## The fields -/

/-- No two tags have a name or a field in common. -/
def Distinct (tags : List Tag) : Prop :=
  ∀ tag ∈ tags, ∀ tag' ∈ tags, (tag.name = tag'.name ↔ tag.field = tag'.field) ∧
    (tag.name = tag'.name → tag = tag')

/-- A piece sets the field of its own tag only. -/
theorem setTag_field (hdistinct : Distinct tags) {tag : Tag} (htag : tag ∈ tags)
    (tagStr infoStr : Bytes) :
    setTag tags tagStr infoStr info tag.field =
      if tagStr = tag.name then tag.value infoStr else info tag.field := by
  unfold setTag
  cases hfind : tags.find? fun tag => tagStr = tag.name with
  | none =>
    have hne := List.find?_eq_none.mp hfind tag htag
    rw [if_neg (by simpa using hne)]
  | some found =>
    have hname : tagStr = found.name := by simpa using List.find?_some hfind
    obtain ⟨hfield, heq⟩ := hdistinct tag htag found (List.mem_of_find?_eq_some hfind)
    dsimp only
    by_cases h : tagStr = tag.name
    · obtain rfl := heq (h.symm.trans hname)
      rw [if_pos h, Function.update_self]
    · rw [if_neg h, Function.update_of_ne]
      exact fun hf => h (hname.trans (hfield.mpr hf).symm)

/-- The last piece of a tag decides. -/
theorem setPieces_field (hdistinct : Distinct tags) {tag : Tag} (htag : tag ∈ tags)
    (pieces : List (Bytes × Bytes)) :
    setPieces tags pieces info tag.field =
      (pieces.reverse.lookup tag.name).elim (info tag.field) tag.value := by
  induction pieces using List.reverseRecOn with
  | nil => rfl
  | append_singleton pieces piece ih =>
    obtain ⟨tagStr, infoStr⟩ := piece
    rw [setPieces, List.foldl_append, List.reverse_append, List.reverse_singleton,
      List.singleton_append, List.lookup_cons]
    change setTag tags tagStr infoStr (setPieces tags pieces info) tag.field = _
    rw [setTag_field hdistinct htag, ih]
    by_cases h : tagStr = tag.name
    · rw [if_pos h, h, beq_self_eq_true]
      rfl
    · rw [if_neg h, beq_eq_false_iff_ne.mpr (Ne.symm h)]

end

/-- The tags of an adapter are different. -/
theorem distinct_tags (adapter : Adapter) : Distinct adapter.tags := by
  unfold Distinct
  cases adapter <;> decide

/-! ## Specifications -/

/-- `get_native_info` returns, and the pieces have set their fields. -/
def NativeMeets (adapter : Adapter) (temp : Bytes) (info : Info) : Prop :=
  ∃ fuel info', getNativeInfo adapter.tags fuel temp info = some info' ∧
    SetsFields adapter.tags temp info info'

/-- The native part is read as claimed just if each piece has its colon. -/
theorem getNativeInfo_iff (adapter : Adapter) (temp : Bytes) (info : Info) :
    NativeMeets adapter temp info ↔ Colons temp := by
  constructor
  · rintro ⟨fuel, info', h, -⟩
    by_contra hnot
    rw [getNativeInfo_of_not_colons hnot] at h
    cases h
  · intro h
    exact ⟨temp.length + 1, _, getNativeInfo_of_colons h (Nat.lt_succ_self _),
      fun tag htag => setPieces_field (distinct_tags adapter) htag _⟩

/-- The type of an imp: the value of the first piece, if a `;` follows it. -/
def impType (impInfo : Bytes) (advtype : ℤ) : ℤ :=
  (cut 59 impInfo).elim advtype fun p => (cut 58 p.1).elim advtype fun q => atoi (cstr q.2)

/-- The part that `get_native_info` is given, unless the imp is a banner: what follows the first
piece, or the whole text if this has no `:`. -/
def nativePart (impInfo : Bytes) (advtype : ℤ) : Option Bytes :=
  (cut 59 impInfo).bind fun p =>
    if impType impInfo advtype = 1 then none else some (if 58 ∈ p.1 then p.2 else impInfo)

/-- What the fields are before a specification is read. -/
def Adapter.start : Adapter → Info → Info
  | .gdt, info => Function.update info .proi 100
  | .autohome, info => info

/-- `get_ImpInfo` returns, with the type and what the other pieces have set. -/
def ImpMeets (adapter : Adapter) (impInfo : Bytes) (advtype : ℤ) (info : Info) : Prop :=
  ∃ fuel info', getImpInfo adapter fuel impInfo advtype info =
      some (impType impInfo advtype, info') ∧
    ∀ part ∈ nativePart impInfo advtype, SetsFields adapter.tags part (adapter.start info) info'

/-- `get_ImpInfo` returns at once, or what `get_native_info` returns. -/
theorem getImpInfo_eq (adapter : Adapter) (fuel : ℕ) (impInfo : Bytes) (advtype : ℤ) (info : Info) :
    ∃ info', getImpInfo adapter fuel impInfo advtype info =
      (nativePart impInfo advtype).elim (some (impType impInfo advtype, info')) fun part =>
        (getNativeInfo adapter.tags fuel part (adapter.start info)).map fun info =>
          (impType impInfo advtype, info) := by
  have hstart : (if adapter = .gdt then Function.update info .proi 100 else info) =
      adapter.start info := by
    cases adapter <;> rfl
  -- the text is cut at `;`, and the type at `:`
  unfold getImpInfo nativePart impType
  rw [hstart]
  cases hcut : cut 59 impInfo with
  | none => exact ⟨_, rfl⟩
  | some p =>
    obtain ⟨typestr, rest⟩ := p
    cases htype : cut 58 typestr with
    | none =>
      refine ⟨getBannerInfo adapter impInfo (adapter.start info), ?_⟩
      have hnot : 58 ∉ typestr := cut_eq_none_iff.mp htype
      by_cases hbanner : advtype = 1
      · simp [htype, hbanner]
      · simp [htype, hbanner, hnot]
    | some q =>
      refine ⟨getBannerInfo adapter rest (adapter.start info), ?_⟩
      have hmem : 58 ∈ typestr := by
        by_contra hnot
        rw [cut_eq_none_iff.mpr hnot] at htype
        cases htype
      by_cases hbanner : atoi (cstr q.2) = 1
      · simp [htype, hbanner]
      · simp [htype, hbanner, hmem]

/-- A text is read as claimed just if its native part has its colons. -/
theorem impMeets_iff (adapter : Adapter) (impInfo : Bytes) (advtype : ℤ) (info : Info) :
    ImpMeets adapter impInfo advtype info ↔ ∀ part ∈ nativePart impInfo advtype, Colons part := by
  unfold ImpMeets
  cases hpart : nativePart impInfo advtype with
  | none =>
    obtain ⟨info', h⟩ := getImpInfo_eq adapter 0 impInfo advtype info
    rw [hpart] at h
    exact iff_of_true ⟨0, info', h, nofun⟩ nofun
  | some part =>
    have heq : ∀ fuel, getImpInfo adapter fuel impInfo advtype info =
        (getNativeInfo adapter.tags fuel part (adapter.start info)).map fun info =>
          (impType impInfo advtype, info) := by
      intro fuel
      obtain ⟨info', h⟩ := getImpInfo_eq adapter fuel impInfo advtype info
      rwa [hpart] at h
    simp only [Option.mem_some_iff, forall_eq']
    rw [← getNativeInfo_iff adapter part (adapter.start info)]
    constructor
    · rintro ⟨fuel, info', h, hsets⟩
      rw [heq, Option.map_eq_some_iff] at h
      obtain ⟨found, hfound, h⟩ := h
      obtain rfl : found = info' := (Prod.mk.inj h).2
      exact ⟨fuel, found, hfound, hsets⟩
    · rintro ⟨fuel, info', h, hsets⟩
      exact ⟨fuel, info', by rw [heq, h]; rfl, hsets⟩

/-- The parsers of both adapters return with all known pieces in their fields, if and only if there
is a `:` in each piece before a `;` of what `get_native_info` is given. -/
theorem impInfo_iff (adapter : Adapter) (impInfo : Bytes) (advtype : ℤ) (info : Info) :
    (NativeMeets adapter impInfo info ↔ Colons impInfo) ∧
      (ImpMeets adapter impInfo advtype info ↔
        ∀ part ∈ nativePart impInfo advtype, Colons part) :=
  ⟨getNativeInfo_iff adapter impInfo info, impMeets_iff adapter impInfo advtype info⟩

/-- A piece without a `:`, with which neither adapter ever returns. -/
theorem size_piece_hangs :
    ¬ImpMeets .gdt (bytes "type:2;640x100;title:12") (-1) (fun _ => 0) ∧
      ¬ImpMeets .autohome (bytes "type:2;640x100;title:12") (-1) (fun _ => 0) := by
  have hnot : ¬Colons (bytes "640x100;title:12") :=
    fun h => absurd (h (bytes "640x100") (by decide)) (by decide)
  rw [impMeets_iff, impMeets_iff]
  exact ⟨fun h => hnot (h _ rfl), fun h => hnot (h _ rfl)⟩

end AdxDsp.ImpInfo
