import AdxDsp.Cache.Rotation
import AdxDsp.Lib.Forest

/-!
# Merging caches

`adx_cache_splice` goes through the children of one node and adds each to another node, level by
level.  The two nodes can be in one tree: the lists that it goes through then grow on the way.

* `terminates`: it always returns.
* `merged`: what it does to a tree that has no node in common with the other one.
* `adxCacheSplice_spec`: both.
-/

namespace AdxDsp

open CText

/-- The nodes of the caches that are worked on; a key and a value as `adx_cache_add` copies them. -/
abbrev CacheHeap := Forest Cache.CacheValue Cache.CacheValue

namespace CacheHeap

open Cache Forest

/-! ## The functions -/

/-- Before the first cache. -/
def noCaches : CacheHeap := Forest.empty .unset .unset

/-- `adx_cache_create` -/
def adxCacheCreate (h : CacheHeap) : CacheHeap := h.create .unset .unset

/-- `adx_cache_find`; the search trees over the keys refuse a second child with a key. -/
def adxCacheFind (h : CacheHeap) (cache : ℕ) (key : CacheValue) : Option ℕ :=
  match key with
  | .string _ => h.find cache key
  | .number _ => h.find cache key
  | .array index =>
    (findNumber (h.node cache).child.length index).bind fun place => (h.node cache).child[place]?
  | _ => none

/-- What `adx_cache_add` does behind its lookup. -/
def linkNode (h : CacheHeap) (cache : ℕ) (key val : CacheValue) : CacheHeap × Option ℕ :=
  match val with
  | .string _ | .number _ | .null =>
    if adxCacheValueCopy key = .error ∨ adxCacheValueCopy val = .error then (h, none)
    else (h.link cache (adxCacheValueCopy key) (adxCacheValueCopy val), some h.size)
  | _ => (h, none)

/-- `adx_cache_add` -/
def adxCacheAdd (h : CacheHeap) (cache : ℕ) (key val : CacheValue) : CacheHeap × Option ℕ :=
  if key = .error ∨ val = .error then (h, none)
  else
    match key with
    | .string _ | .number _ =>
      match adxCacheFind h cache key with
      | some node => (h, some node)
      | none => linkNode h cache key val
    | .array _ => linkNode h cache key val
    | _ => (h, none)

/-- `adx_cache_child_check` -/
def adxCacheChildCheck (h : CacheHeap) (cache : ℕ) : ℤ :=
  if (h.node cache).child = [] then -1 else 0

mutual

/-- `adx_cache_splice_r`; `none` if the fuel does not last. -/
def adxCacheSpliceR : ℕ → CacheHeap → ℕ → ℕ → ℕ → Option (CacheHeap × ℤ)
  | 0, _, _, _, _ => none
  | fuel + 1, h, root, dest, src =>
    if adxCacheChildCheck h src ≠ 0 then some (h, 0)
    else if root = src then some (h, 0)
    else spliceChildren fuel h root dest src 0
termination_by structural fuel => fuel

/-- The loop of `adx_cache_splice_r` from the child at a place on.  The list can get longer behind
that place. -/
def spliceChildren : ℕ → CacheHeap → ℕ → ℕ → ℕ → ℕ → Option (CacheHeap × ℤ)
  | 0, _, _, _, _, _ => none
  | fuel + 1, h, root, dest, src, i =>
    match (h.node src).child[i]? with
    | none => some (h, 0)
    | some node =>
      match adxCacheAdd h dest (h.node node).key (h.node node).val with
      | (h, none) => some (h, -1)
      | (h, some new) =>
        -- what the inner call returns is not looked at
        (adxCacheSpliceR fuel h root new node).bind fun r =>
          spliceChildren fuel r.1 root dest src (i + 1)
termination_by structural fuel => fuel

end

/-- `adx_cache_splice`; a pointer may be NULL. -/
def adxCacheSplice (fuel : ℕ) (h : CacheHeap) (dest src : Option ℕ) : Option (CacheHeap × ℤ) :=
  match dest, src with
  | some dest, some src => adxCacheSpliceR fuel h dest dest src
  | _, _ => some (h, -1)

/-! ## What `adx_cache_add` builds -/

/-- A key that is looked up before it is added. -/
def IsNodeKey (key : CacheValue) : Prop :=
  key.Copies ∧ match key with
    | .string _ | .number _ => True
    | _ => False

/-- What a child has as its key and its value. -/
def IsEntry (key val : CacheValue) : Prop := IsNodeKey key ∧ val.IsNodeValue

section

variable {P : CacheValue → CacheValue → Prop} {h h' : CacheHeap} {key val : CacheValue}
  {dest src root start node new : ℕ}

/-- A key is no error. -/
theorem IsNodeKey.ne_error (hkey : IsNodeKey key) : key ≠ .error := by
  rintro rfl
  exact hkey.2

/-- A node with a key and a value that can be copied is linked under `dest`. -/
theorem linkNode_eq (he : IsEntry key val) :
    linkNode h dest key val = (h.link dest key val, some h.size) := by
  obtain ⟨hkey, hval⟩ := he
  have hcopied : (if adxCacheValueCopy key = .error ∨ adxCacheValueCopy val = .error then (h, none)
      else (h.link dest (adxCacheValueCopy key) (adxCacheValueCopy val), some h.size)) =
        (h.link dest key val, some h.size) := by
    have hk : adxCacheValueCopy key = key := hkey.1
    have hv : adxCacheValueCopy val = val := hval.1
    rw [hk, hv, if_neg (not_or.mpr ⟨hkey.ne_error, hval.ne_error⟩)]
  cases val with
  | unset => exact hval.2.elim
  | string => exact hcopied
  | number => exact hcopied
  | array => exact hval.2.elim
  | null => exact hcopied
  | error => exact hval.2.elim

/-- With a key that is looked up, `adx_cache_add` is the lookup and the link. -/
theorem adxCacheAdd_eq (hkey : IsNodeKey key) (hval : val ≠ .error) :
    adxCacheAdd h dest key val =
      match h.find dest key with
      | some node => (h, some node)
      | none => linkNode h dest key val := by
  unfold adxCacheAdd
  rw [if_neg (not_or.mpr ⟨hkey.ne_error, hval⟩)]
  cases key with
  | unset => exact hkey.2.elim
  | string => rfl
  | number => rfl
  | array => exact hkey.2.elim
  | null => exact hkey.2.elim
  | error => exact hkey.2.elim

/-- A key has a child behind `adx_cache_add`, which gets the value if it is new. -/
theorem adxCacheAdd_spec (hentry : ∀ {key val}, P key val → IsEntry key val)
    (hwf : h.WellFormed P) (hdest : dest < h.size) (hP : P key val) :
    ∃ h' new, adxCacheAdd h dest key val = (h', some new) ∧
      h.Merged P h' dest (under key fun path => if path = [] then some val else none) ∧
      new ∈ (h'.node dest).child ∧ (h'.node new).key = key ∧
      (h' = h ∨ h' = h.link dest key val) := by
  have he := hentry hP
  rw [adxCacheAdd_eq he.1 he.2.ne_error]
  cases hf : h.find dest key with
  | some new =>
    obtain ⟨hmem, hkey⟩ := hwf.find_eq_some_iff.mp hf
    exact ⟨h, new, rfl, .old hwf hf, hmem, hkey, .inl rfl⟩
  | none =>
    refine ⟨_, _, linkNode_eq he, .link hwf hdest hf hP, ?_, ?_, .inr rfl⟩
    · exact (mem_child_link hwf hdest).mpr (.inr ⟨rfl, rfl⟩)
    · rw [node_link_size]

/-- A copy can be copied. -/
theorem copies_adxCacheValueCopy (hcopy : adxCacheValueCopy val ≠ .error) :
    (adxCacheValueCopy val).Copies := by
  cases val with
  | string s =>
    have hlen := toNat_toInt32_le s.length
    have hmax : toInt32 (s.length : ℤ) < 2 ^ 31 := by
      rw [toInt32_eq]
      split_ifs <;> omega
    unfold adxCacheValueCopy at hcopy ⊢
    dsimp only at hcopy ⊢
    split_ifs at hcopy ⊢ with halloc
    · refine copies_string ?_
      rw [List.length_take, Nat.min_eq_left hlen]
      by_contra hlong
      -- the length and the NUL together would be a negative number
      have heq : toInt32 (s.length : ℤ) = 2 ^ 31 - 1 := by omega
      rw [heq] at halloc
      exact absurd halloc (by decide)
    · exact absurd rfl hcopy
  | unset => rfl
  | number => rfl
  | array => rfl
  | null => rfl
  | error => exact absurd rfl hcopy

/-- A value is refused, or a copy of it is linked. -/
theorem linkNode_cases (hkey : IsNodeKey key) :
    linkNode h dest key val = (h, none) ∨
      ∃ val', IsEntry key val' ∧ linkNode h dest key val = (h.link dest key val', some h.size) := by
  have hcopy : adxCacheValueCopy key = key := hkey.1
  -- both copies are made, or nothing is linked
  have hlink : (adxCacheValueCopy val ≠ .error → (adxCacheValueCopy val).IsNodeValue) →
      (if adxCacheValueCopy key = .error ∨ adxCacheValueCopy val = .error then (h, none)
        else (h.link dest (adxCacheValueCopy key) (adxCacheValueCopy val), some h.size)) =
          (h, none) ∨
      ∃ val', IsEntry key val' ∧
        (if adxCacheValueCopy key = .error ∨ adxCacheValueCopy val = .error then (h, none)
          else (h.link dest (adxCacheValueCopy key) (adxCacheValueCopy val), some h.size)) =
            (h.link dest key val', some h.size) := by
    intro hval
    rw [hcopy]
    split_ifs with herror
    · exact .inl rfl
    · exact .inr ⟨_, ⟨hkey, hval (not_or.mp herror).2⟩, rfl⟩
  cases val with
  | unset => exact .inl rfl
  | string s =>
    refine hlink fun hne => ⟨copies_adxCacheValueCopy hne, ?_⟩
    unfold adxCacheValueCopy at hne ⊢
    dsimp only at hne ⊢
    split_ifs at hne ⊢
    · trivial
    · exact absurd rfl hne
  | number => exact hlink fun _ => ⟨rfl, trivial⟩
  | array => exact .inl rfl
  | null => exact hlink fun _ => ⟨rfl, trivial⟩
  | error => exact .inl rfl

/-- Adding with a key that is looked up keeps the caches in order, with whatever value. -/
theorem wellFormed_adxCacheAdd (val : CacheValue) (hwf : h.WellFormed IsEntry)
    (hdest : dest < h.size) (hkey : IsNodeKey key) :
    (adxCacheAdd h dest key val).1.WellFormed IsEntry := by
  by_cases hval : val = .error
  · unfold adxCacheAdd
    rw [if_pos (.inr hval)]
    exact hwf
  · rw [adxCacheAdd_eq hkey hval]
    cases hf : h.find dest key with
    | some node => exact hwf
    | none =>
      dsimp only
      rcases linkNode_cases hkey with heq | ⟨val', he, heq⟩
      · rw [heq]
        exact hwf
      · rw [heq]
        exact hwf.link hdest hf he

/-! ## One step -/

variable {fuel i : ℕ} {r : CacheHeap × ℤ}

/-- The loop ends behind the last child. -/
theorem spliceChildren_end (hi : (h.node src).child[i]? = none) :
    spliceChildren (fuel + 1) h root dest src i = some (h, 0) := by
  rw [spliceChildren, hi]

/-- A child is entered under `dest`, its children below it, and the loop goes on. -/
theorem spliceChildren_step (hi : (h.node src).child[i]? = some node)
    (hadd : adxCacheAdd h dest (h.node node).key (h.node node).val = (h', some new)) :
    spliceChildren (fuel + 1) h root dest src i =
      (adxCacheSpliceR fuel h' root new node).bind fun r =>
        spliceChildren fuel r.1 root dest src (i + 1) := by
  rw [spliceChildren, hi]
  dsimp only
  rw [hadd]

/-- Without children, or at the root that must be left out, nothing is done. -/
theorem adxCacheSpliceR_return (hsrc : (h.node src).child = [] ∨ root = src) :
    adxCacheSpliceR (fuel + 1) h root dest src = some (h, 0) := by
  rw [adxCacheSpliceR, adxCacheChildCheck]
  rcases hsrc with hsrc | hsrc
  · rw [if_pos hsrc, if_pos (by decide)]
  · rw [if_pos hsrc]
    split_ifs <;> rfl

/-- Otherwise the loop goes over the children. -/
theorem adxCacheSpliceR_loop (hchild : (h.node src).child ≠ []) (hroot : root ≠ src) :
    adxCacheSpliceR (fuel + 1) h root dest src = spliceChildren fuel h root dest src 0 := by
  rw [adxCacheSpliceR, adxCacheChildCheck, if_neg hchild, if_neg (not_not.mpr rfl), if_neg hroot]

/-- More fuel changes no result. -/
theorem splice_mono (fuel : ℕ) :
    (∀ {h : CacheHeap} {root dest src r}, adxCacheSpliceR fuel h root dest src = some r →
      adxCacheSpliceR (fuel + 1) h root dest src = some r) ∧
    ∀ {h : CacheHeap} {root dest src i r}, spliceChildren fuel h root dest src i = some r →
      spliceChildren (fuel + 1) h root dest src i = some r := by
  -- both functions at once, as they call each other
  induction fuel with
  | zero =>
    constructor
    · intro h root dest src r hr
      rw [adxCacheSpliceR] at hr
      cases hr
    · intro h root dest src i r hr
      rw [spliceChildren] at hr
      cases hr
  | succ fuel ih =>
    constructor
    · intro h root dest src r hr
      by_cases hreturn : (h.node src).child = [] ∨ root = src
      · rw [adxCacheSpliceR_return hreturn] at hr ⊢
        exact hr
      · obtain ⟨hchild, hroot⟩ := not_or.mp hreturn
        rw [adxCacheSpliceR_loop hchild hroot] at hr ⊢
        exact ih.2 hr
    · intro h root dest src i r hr
      rw [spliceChildren] at hr ⊢
      cases hi : (h.node src).child[i]? with
      | none =>
        rw [hi] at hr
        exact hr
      -- a child is spliced, then those behind it
      | some node =>
        rw [hi] at hr
        dsimp only at hr ⊢
        rcases hadd : adxCacheAdd h dest (h.node node).key (h.node node).val with ⟨h', new⟩
        rw [hadd] at hr
        cases new with
        | none => exact hr
        | some new =>
          obtain ⟨r', hr', hr⟩ := Option.bind_eq_some_iff.mp hr
          exact Option.bind_eq_some_iff.mpr ⟨r', ih.1 hr', ih.2 hr⟩

/-- More fuel keeps the result. -/
theorem adxCacheSpliceR_mono {more : ℕ} (hle : fuel ≤ more)
    (hr : adxCacheSpliceR fuel h root dest src = some r) :
    adxCacheSpliceR more h root dest src = some r := by
  induction more, hle using Nat.le_induction with
  | base => exact hr
  | succ more _ ih => exact (splice_mono more).1 ih

/-! ## Trees that are apart -/

/-- What is found below the children of a node from a place on. -/
def valueFrom (h : CacheHeap) (src i : ℕ) : List CacheValue → Option CacheValue
  | [] => none
  | key :: path =>
    (((h.node src).child.drop i).find? fun c => (h.node c).key = key).bind fun c => h.value c path

/-- From the first child on all paths count. -/
theorem valueFrom_zero {path : List CacheValue} (hne : path ≠ []) :
    valueFrom h src 0 path = h.value src path := by
  cases path with
  | nil => exact absurd rfl hne
  | cons key path =>
    rw [value_cons]
    rfl

/-- Behind the last child there is no path. -/
theorem valueFrom_end (hi : (h.node src).child[i]? = none) (path : List CacheValue) :
    valueFrom h src i path = none := by
  cases path with
  | nil => rfl
  | cons key path =>
    rw [valueFrom, List.drop_eq_nil_of_le (List.getElem?_eq_none_iff.mp hi)]
    rfl

/-- The paths from a child on: those through it, then those through the next ones. -/
theorem valueFrom_step (hwf : h.WellFormed P) (hi : (h.node src).child[i]? = some node)
    (path : List CacheValue) :
    (under (h.node node).key (h.value node) path).or (valueFrom h src (i + 1) path) =
      valueFrom h src i path := by
  cases path with
  | nil => rfl
  | cons key path =>
    obtain ⟨hlt, hget⟩ := List.getElem?_eq_some_iff.mp hi
    have hdrop : (h.node src).child.drop i = node :: (h.node src).child.drop (i + 1) := by
      rw [List.drop_eq_getElem_cons hlt, hget]
    have hnodup := (hwf.nodup src).sublist ((List.drop_sublist i _).map _)
    rw [hdrop, List.map_cons, List.nodup_cons] at hnodup
    rw [valueFrom, valueFrom, hdrop, under, List.find?_cons]
    by_cases hkey : key = (h.node node).key
    · -- the children behind have other keys
      have hrest : ((h.node src).child.drop (i + 1)).find? (fun c => (h.node c).key = key) =
          none := by
        rw [List.find?_eq_none]
        intro c hc heq
        exact hnodup.1 (List.mem_map.mpr ⟨c, hc, (of_decide_eq_true heq).trans hkey⟩)
      rw [hrest, if_pos hkey, decide_eq_true hkey.symm]
      simp
    · rw [if_neg hkey, decide_eq_false (Ne.symm hkey)]
      rfl

/-- The paths below a node depend on the nodes below it only. -/
theorem valueFrom_congr (hsame : ∀ b, h.Below src b → h'.node b = h.node b)
    (path : List CacheValue) : valueFrom h' src i path = valueFrom h src i path := by
  cases path with
  | nil => rfl
  | cons key path =>
    have hchild : ∀ c ∈ (h.node src).child.drop i, h'.node c = h.node c := fun c hc =>
      hsame c (.single (List.mem_of_mem_drop hc))
    have hfind : (((h.node src).child.drop i).find? fun c => (h'.node c).key = key) =
        ((h.node src).child.drop i).find? fun c => (h.node c).key = key :=
      List.find?_congr fun c hc => by rw [hchild c hc]
    rw [valueFrom, valueFrom, hsame src .refl, hfind]
    refine Option.bind_congr fun c hc => value_congr (fun b hb => hsame b (.head ?_ hb)) path
    exact List.mem_of_mem_drop (List.mem_of_find?_eq_some hc)

/-- A child is added, and what it has is merged into the new one. -/
theorem merged_step {h₁ h₂ : CacheHeap} (hwf : h.WellFormed IsEntry) (hnode : node < h.size)
    (hapart : h.Apart dest node)
    (hadd : h.Merged IsEntry h₁ dest
      (under (h.node node).key fun path => if path = [] then some (h.node node).val else none))
    (hmem : new ∈ (h₁.node dest).child) (hkey : (h₁.node new).key = (h.node node).key)
    (hrec : h₁.Merged IsEntry h₂ new (h₁.value node)) :
    h.Merged IsEntry h₂ dest (under (h.node node).key (h.value node)) := by
  refine (hadd.trans hwf (hrec.child hadd.wf hmem)).congr fun path hne => ?_
  cases path with
  | nil => exact absurd rfl hne
  | cons key path =>
    rw [hkey, under, under, under]
    by_cases heq : key = (h.node node).key
    · rw [if_pos heq, if_pos heq, if_pos heq, hadd.value_eq hwf hnode hapart]
      cases path with
      | nil => rfl
      | cons => simp
    · simp [heq]

/-- A tree that has no node in common with another one gets what it has not from there. -/
theorem merged (fuel : ℕ) :
    (∀ {h : CacheHeap} {root dest src r}, h.WellFormed IsEntry → dest < h.size → src < h.size →
      h.Apart dest src → ¬h.Below src root → adxCacheSpliceR fuel h root dest src = some r →
      r.2 = 0 ∧ h.Merged IsEntry r.1 dest (h.value src)) ∧
    ∀ {h : CacheHeap} {root dest src i r}, h.WellFormed IsEntry → dest < h.size → src < h.size →
      h.Apart dest src → ¬h.Below src root → spliceChildren fuel h root dest src i = some r →
      r.2 = 0 ∧ h.Merged IsEntry r.1 dest (valueFrom h src i) := by
  induction fuel with
  | zero =>
    constructor
    · intro h root dest src r _ _ _ _ _ hr
      rw [adxCacheSpliceR] at hr
      cases hr
    · intro h root dest src i r _ _ _ _ _ hr
      rw [spliceChildren] at hr
      cases hr
  | succ fuel ih =>
    constructor
    · intro h root dest src r hwf hdest hsrc hapart hroot hr
      have hne : root ≠ src := fun heq => hroot (heq ▸ .refl)
      by_cases hchild : (h.node src).child = []
      · rw [adxCacheSpliceR_return (.inl hchild)] at hr
        obtain rfl := Option.some.inj hr
        refine ⟨rfl, .refl hwf fun path => ?_⟩
        cases path with
        | nil => exact .inr rfl
        | cons key path =>
          left
          rw [value_cons, Forest.find, hchild]
          rfl
      · rw [adxCacheSpliceR_loop hchild hne] at hr
        obtain ⟨hcode, hm⟩ := ih.2 hwf hdest hsrc hapart hroot hr
        exact ⟨hcode, hm.congr fun path hpath => valueFrom_zero hpath⟩
    · intro h root dest src i r hwf hdest hsrc hapart hroot hr
      cases hi : (h.node src).child[i]? with
      | none =>
        rw [spliceChildren_end hi] at hr
        obtain rfl := Option.some.inj hr
        exact ⟨rfl, .refl hwf fun path => .inl (valueFrom_end hi path)⟩
      | some node =>
        have hmem : node ∈ (h.node src).child := List.mem_of_getElem? hi
        have hnode := (hwf.lt hmem).2
        have hbelow : ∀ {c}, h.Below node c → h.Below src c := fun hc => .head hmem hc
        have hapart' : h.Apart dest node := fun c hd hc => hapart c hd (hbelow hc)
        obtain ⟨h₁, new, hadd, hm₁, hnew, hkey, -⟩ :=
          adxCacheAdd_spec id hwf hdest (hwf.payload hmem)
        rw [spliceChildren_step hi hadd] at hr
        obtain ⟨r₂, hr₂, hr⟩ := Option.bind_eq_some_iff.mp hr
        -- the inner call: the new child and the child that it was made after
        have hnew' := (hm₁.wf.lt hnew).2
        have hrec := ih.1 hm₁.wf hnew' (hnode.trans_le hm₁.grows.size_le)
          (fun c hc => (hm₁.apart hwf hnode hapart') c (.head hnew hc))
          (fun hb => hroot (hbelow ((hm₁.below_iff hwf hnode hapart').mp hb))) hr₂
        have hm₂ := merged_step hwf hnode hapart' hm₁ hnew hkey hrec.2
        -- the other children
        have hrest := ih.2 hm₂.wf (hdest.trans_le hm₂.grows.size_le)
          (hsrc.trans_le hm₂.grows.size_le) (hm₂.apart hwf hsrc hapart)
          (fun hb => hroot ((hm₂.below_iff hwf hsrc hapart).mp hb)) hr
        refine ⟨hrest.1, (hm₂.trans hwf hrest.2).congr fun path _ => ?_⟩
        rw [valueFrom_congr fun b hb => hm₂.node_eq hwf hsrc hapart hb, valueFrom_step hwf hi]

/-! ## Trees that may overlap -/

/-- A node is some levels below the start, and the way there does not lead through the root of the
tree that grows. -/
def Reached (h : CacheHeap) (root start n a : ℕ) : Prop :=
  h.ancestor n a = some start ∧ ∀ i < n, h.ancestor (i + 1) a ≠ some root

/-- There are only so many keys, and only so many levels to go through. -/
structure Bounded (keys : Finset CacheValue) (levels root start : ℕ) (h : CacheHeap) : Prop where
  wf : h.WellFormed fun key val => IsEntry key val ∧ key ∈ keys
  start_lt : start < h.size
  le_levels : ∀ {n a}, a < h.size → Reached h root start n a → n ≤ levels

/-- The two nodes of a call are on one level, below the two nodes of the first call. -/
structure Position (h : CacheHeap) (root start n dest src : ℕ) : Prop where
  dest_lt : dest < h.size
  src_lt : src < h.size
  dest : h.ancestor n dest = some root
  src : Reached h root start n src

variable {keys : Finset CacheValue} {levels n a c : ℕ}

/-- The parent of a child. -/
theorem ancestor_child (hwf : h.WellFormed P) (hc : c ∈ (h.node a).child) :
    h.ancestor (n + 1) c = h.ancestor n a := by
  rw [ancestor, (hwf.mem_child.mp hc).2]
  rfl

/-- The children of a node that was reached are reached in one more step. -/
theorem Reached.child (hwf : h.WellFormed P) (ha : Reached h root start n a)
    (hc : c ∈ (h.node a).child) (hne : a ≠ root) : Reached h root start (n + 1) c := by
  refine ⟨(ancestor_child hwf hc).trans ha.1, fun i hi => ?_⟩
  rw [ancestor_child hwf hc]
  cases i with
  | zero => exact fun heq => hne (Option.some.inj heq)
  | succ i => exact ha.2 i (by omega)

/-- Growth reaches no node anew. -/
theorem reached_iff_of_grows (hg : h.Grows h') (hwf : h.WellFormed P) (ha : a < h.size) :
    Reached h' root start n a ↔ Reached h root start n a := by
  unfold Reached
  simp only [hg.ancestor_eq hwf ha]

/-- A position stays one while the forest grows. -/
theorem Position.grows (hp : Position h root start n dest src) (hg : h.Grows h')
    (hwf : h.WellFormed P) : Position h' root start n dest src where
  dest_lt := hp.dest_lt.trans_le hg.size_le
  src_lt := hp.src_lt.trans_le hg.size_le
  dest := (hg.ancestor_eq hwf hp.dest_lt).trans hp.dest
  src := (reached_iff_of_grows hg hwf hp.src_lt).mpr hp.src

/-- A new child is no deeper than the child that it is made after. -/
theorem Bounded.link (hb : Bounded keys levels root start h)
    (hp : Position h root start n dest src) (hne : src ≠ root) (hnode : node ∈ (h.node src).child)
    (hwf' : (h.link dest key val).WellFormed fun key val => IsEntry key val ∧ key ∈ keys) :
    Bounded keys levels root start (h.link dest key val) := by
  refine ⟨hwf', hb.start_lt.trans (Nat.lt_succ_self _), fun {m a} ha hr => ?_⟩
  have hdeep : n + 1 ≤ levels :=
    hb.le_levels (hb.wf.lt hnode).2 (hp.src.child hb.wf hnode hne)
  rcases (Nat.lt_succ_iff.mp ha).lt_or_eq with ha | rfl
  · exact hb.le_levels ha ((reached_iff_of_grows grows_link hb.wf ha).mp hr)
  · cases m with
    | zero => exact Nat.zero_le _
    | succ m =>
      have hup : ∀ i, (h.link dest key val).ancestor (i + 1) h.size = h.ancestor i dest := by
        intro i
        rw [ancestor, node_link_size]
        exact grows_link.ancestor_eq hb.wf hp.dest_lt
      -- the way up from the new node meets the root of its tree before the start
      have hm : ¬n < m + 1 := fun hlt => hr.2 n hlt ((hup n).trans hp.dest)
      omega

/-- A node has no more children than there are keys. -/
theorem Bounded.length_le (hb : Bounded keys levels root start h) :
    (h.node a).child.length ≤ keys.card := by
  have hsub : ((h.node a).child.map fun c => (h.node c).key).toFinset ⊆ keys := by
    intro key hkey
    obtain ⟨c, hc, rfl⟩ := List.mem_map.mp (List.mem_toFinset.mp hkey)
    exact (hb.wf.payload hc).2
  have hcard := Finset.card_le_card hsub
  rwa [List.toFinset_card_of_nodup (hb.wf.nodup a), List.length_map] at hcard

/-- The calls return, if only their fuel lasts for all the levels and keys. -/
theorem terminates (fuel : ℕ) :
    (∀ {h : CacheHeap} {n dest src}, Bounded keys levels root start h →
      Position h root start n dest src →
      (levels - n) * (keys.card + 2) + keys.card + 2 ≤ fuel →
      ∃ h', adxCacheSpliceR fuel h root dest src = some (h', 0) ∧
        Bounded keys levels root start h' ∧ h.Grows h') ∧
    ∀ {h : CacheHeap} {n dest src i}, Bounded keys levels root start h →
      Position h root start n dest src → src ≠ root →
      (levels - n) * (keys.card + 2) + (keys.card - i) + 1 ≤ fuel →
      ∃ h', spliceChildren fuel h root dest src i = some (h', 0) ∧
        Bounded keys levels root start h' ∧ h.Grows h' := by
  -- both functions at once, by induction on the fuel
  induction fuel with
  | zero => exact ⟨fun _ _ hfuel => by omega, fun _ _ _ hfuel => by omega⟩
  | succ fuel ih =>
    constructor
    · intro h n dest src hb hp hfuel
      -- a leaf, or the tree itself, is returned from at once
      by_cases hreturn : (h.node src).child = [] ∨ root = src
      · exact ⟨h, adxCacheSpliceR_return hreturn, hb, .refl h⟩
      · obtain ⟨hchild, hroot⟩ := not_or.mp hreturn
        rw [adxCacheSpliceR_loop hchild hroot]
        exact ih.2 hb hp (Ne.symm hroot) (by omega)
    · intro h n dest src i hb hp hne hfuel
      cases hi : (h.node src).child[i]? with
      | none => exact ⟨h, spliceChildren_end hi, hb, .refl h⟩
      | some node =>
        have hmem : node ∈ (h.node src).child := List.mem_of_getElem? hi
        have hnode := hb.wf.lt hmem
        have hlt : i < keys.card := (List.getElem?_eq_some_iff.mp hi).1.trans_le hb.length_le
        have hreached := hp.src.child hb.wf hmem hne
        obtain ⟨h₁, new, hadd, hm, hnew, -, hcase⟩ :=
          adxCacheAdd_spec And.left hb.wf hp.dest_lt (hb.wf.payload hmem)
        -- the child is found in the tree, or is a new node of it
        have hb₁ : Bounded keys levels root start h₁ := by
          rcases hcase with rfl | rfl
          · exact hb
          · exact hb.link hp hne hmem hm.wf
        have hp₁ := hp.grows hm.grows hb.wf
        -- one level below, the bound is smaller by the turns of one whole loop
        have hlevel : (levels - n) * (keys.card + 2) =
            (levels - (n + 1)) * (keys.card + 2) + (keys.card + 2) := by
          have := hb.le_levels hnode.2 hreached
          rw [← Nat.succ_mul]
          congr 1
          omega
        obtain ⟨h₂, hr₂, hb₂, hg₂⟩ := ih.1 (n := n + 1) hb₁
          ⟨(hb₁.wf.lt hnew).2, hnode.2.trans_le hm.grows.size_le,
            (ancestor_child hb₁.wf hnew).trans hp₁.dest,
            (reached_iff_of_grows hm.grows hb.wf hnode.2).mpr hreached⟩ (by omega)
        obtain ⟨h₃, hr₃, hb₃, hg₃⟩ := ih.2 (i := i + 1) hb₂ (hp₁.grows hg₂ hb₁.wf) hne (by omega)
        refine ⟨h₃, ?_, hb₃, hm.grows.trans (hg₂.trans hg₃)⟩
        rw [spliceChildren_step hi hadd, hr₂]
        exact hr₃

/-! ## The whole call -/

/-- The paths of both trees, with the old values where there were some.  The other tree is as it
was. -/
structure Merges (h h' : CacheHeap) (dest src : ℕ) : Prop where
  paths_eq : h'.paths dest = h.paths dest ∪ h.paths src
  value_old : ∀ path ∈ h.paths dest, h'.value dest path = h.value dest path
  value_new : ∀ path ∈ h.paths src, path ∉ h.paths dest → h'.value dest path = h.value src path
  below_src : ∀ c, h'.Below src c ↔ h.Below src c
  node_src : ∀ c, h.Below src c → h'.node c = h.node c

/-- The values of a merge are those of the source. -/
theorem Merges.of_merged (hwf : h.WellFormed IsEntry) (hsrc : src < h.size)
    (hapart : h.Apart dest src) (hm : h.Merged IsEntry h' dest (h.value src)) :
    Merges h h' dest src where
  paths_eq := by
    ext path
    change (h'.value dest path).isSome ↔ (h.value dest path).isSome ∨ (h.value src path).isSome
    rw [hm.value, Option.isSome_or, Bool.or_eq_true]
  value_old path hpath := by
    obtain ⟨val, hval⟩ := Option.isSome_iff_exists.mp hpath
    rw [hm.value, hval, Option.some_or]
  value_new path _ hpath := by
    have hnone : h.value dest path = none := Option.not_isSome_iff_eq_none.mp hpath
    rw [hm.value, hnone, Option.none_or]
  below_src _ := hm.below_iff hwf hsrc hapart
  node_src _ hc := hm.node_eq hwf hsrc hapart hc

/-- The bounds on the keys and levels are there before the call. -/
theorem exists_bounded (dest : ℕ) (hwf : h.WellFormed IsEntry) (hsrc : src < h.size) :
    ∃ keys levels, Bounded keys levels dest src h := by
  refine ⟨(Finset.range h.size).image fun a => (h.node a).key, h.size,
    ⟨hwf.mem_child, hwf.parent_lt, hwf.nodup, fun {a c} hc => ⟨hwf.payload hc, ?_⟩⟩, hsrc,
    fun {n a} ha hr => ?_⟩
  · exact Finset.mem_image_of_mem _ (Finset.mem_range.mpr (hwf.lt hc).2)
  · have := hwf.add_le_of_ancestor ha hr.1
    omega

/-- The call returns, whatever the two nodes are to each other, and merges two trees without a
common node. -/
theorem adxCacheSplice_spec (hwf : h.WellFormed IsEntry) (hdest : dest < h.size)
    (hsrc : src < h.size) :
    ∃ h' fuel, (∀ more ≥ fuel, adxCacheSplice more h (some dest) (some src) = some (h', 0)) ∧
      h'.WellFormed IsEntry ∧ (h.Apart dest src → Merges h h' dest src) := by
  obtain ⟨keys, levels, hb⟩ := exists_bounded dest hwf hsrc
  obtain ⟨h', hr, hb', -⟩ := (terminates _).1 hb
    ⟨hdest, hsrc, rfl, rfl, fun i hi => absurd hi (Nat.not_lt_zero i)⟩ le_rfl
  have hwf' : h'.WellFormed IsEntry :=
    ⟨hb'.wf.mem_child, hb'.wf.parent_lt, hb'.wf.nodup, fun hc => (hb'.wf.payload hc).1⟩
  refine ⟨h', _, fun more hmore => adxCacheSpliceR_mono hmore hr, hwf', fun hapart => ?_⟩
  have hroot : ¬h.Below src dest := fun hbelow => hapart dest .refl hbelow
  exact .of_merged hwf hsrc hapart ((merged _).1 hwf hdest hsrc hapart hroot hr).2

end

/-- Two caches: 1 under "a", and 2 under "a" with an empty value under 5 in it. -/
def sampleCaches : CacheHeap :=
  let h := adxCacheCreate (adxCacheCreate noCaches)
  let h := (adxCacheAdd h 0 (.string [97]) (.number 1)).1
  let h := (adxCacheAdd h 1 (.string [97]) (.number 2)).1
  (adxCacheAdd h 3 (.number 5) .null).1

/-- The sample is well formed. -/
theorem wellFormed_sampleCaches : sampleCaches.WellFormed IsEntry := by
  have ha : IsNodeKey (.string [97]) := ⟨copies_string (by decide), trivial⟩
  have hroots : (adxCacheCreate (adxCacheCreate noCaches)).WellFormed IsEntry :=
    wellFormed_empty.create.create
  have h0 := wellFormed_adxCacheAdd (.number 1) hroots (show 0 < 2 by decide) ha
  have h1 := wellFormed_adxCacheAdd (.number 2) h0 (show 1 < 3 by decide) ha
  exact wellFormed_adxCacheAdd .null h1 (by decide) ⟨rfl, trivial⟩

/-- The two caches are apart, and merged. -/
theorem adxCacheSplice_sample : ∃ h' fuel,
    (∀ more ≥ fuel, adxCacheSplice more sampleCaches (some 0) (some 1) = some (h', 0)) ∧
      h'.WellFormed IsEntry ∧ Merges sampleCaches h' 0 1 := by
  obtain ⟨h', fuel, hr, hwf, hm⟩ := adxCacheSplice_spec wellFormed_sampleCaches
    (show 0 < 5 by decide) (show 1 < 5 by decide)
  exact ⟨h', fuel, hr, hwf, hm (wellFormed_sampleCaches.apart_of_roots rfl rfl (by decide))⟩

-- A child is merged into its own parent.
example : ((adxCacheSplice 9 sampleCaches (some 1) (some 3)).map fun r =>
    r.1.value 1 [.number 5]) = some (some .null) := by decide

end CacheHeap

end AdxDsp
