import AdxDsp.Lib.Ranges
import Mathlib.Algebra.Ring.Int.Defs
import Mathlib.Algebra.Ring.Nat
import Mathlib.Data.List.Basic

/-!
# The region of an address

The table of address ranges with its index of blocks, once for the bidder (`getlocation.cpp`) and
once for the rest (`adx_region.cpp`).  The two differ in the types of the bounds of the search and
of the block number.

* `search_inside`: the binary search on a table in which the address lies.
* `region_meets_iff`: when both find the region of an address without leaving their vectors.
* `short_table_outside`: a table of one range, which is too short for the index.
-/

namespace AdxDsp

open Ranges

namespace Region

/-! ## Vectors -/

/-- What becomes of a computation: it ends with a value, it leaves its vectors or the range of
`int`, or its loops are still turning. -/
inductive Run (α : Type) where
  | done (value : α)
  | outside
  | unfinished
  deriving DecidableEq

namespace Run

variable {α β : Type}

/-- The second computation follows if the first one ends with a value. -/
protected def bind (m : Run α) (f : α → Run β) : Run β :=
  match m with
  | done value => f value
  | outside => outside
  | unfinished => unfinished

instance : Monad Run where
  pure := done
  bind := Run.bind

@[simp] theorem done_bind (value : α) (f : α → Run β) : (done value >>= f) = f value := rfl

@[simp] theorem outside_bind (f : α → Run β) : (outside >>= f) = outside := rfl

end Run

/-- `ADDRINFO`; the code is the `int` as which it is read and returned. -/
structure AddrInfo where
  b : ℕ
  e : ℕ
  regioncode : ℤ
  deriving DecidableEq

/-- `IPBINFO` -/
structure IpbInfo where
  addrList : List AddrInfo
  addrListIndex : List AddrInfo
  deriving DecidableEq

/-- `METASIZE` -/
def metasize : ℕ := 256

/-- `INADDR_NONE`, which is also what `inet_addr` makes of 255.255.255.255. -/
def inaddrNone : ℕ := 2 ^ 32 - 1

/-- An element of a vector. -/
def readAt (addrList : List AddrInfo) (i : ℤ) : Run AddrInfo :=
  if i < 0 then .outside else addrList[i.toNat]?.elim .outside .done

/-! ## Building the index -/

/-- The loop of `initInfo` over the blocks. -/
def initLoop (addrList : List AddrInfo) (bound : ℕ) :
    ℕ → ℕ → List AddrInfo → Run (ℕ × List AddrInfo)
  | 0, _, _ => .unfinished
  | fuel + 1, i, addrListIndex =>
    if i < bound then do
      let first ← readAt addrList i
      let last ← readAt addrList (i + metasize - 1)
      initLoop addrList bound fuel (i + metasize) (addrListIndex ++ [⟨first.b, last.e, 0⟩])
    else .done (i, addrListIndex)

/-- `initInfo`, after the file has been read. -/
def initInfo (fuel : ℕ) (addrList : List AddrInfo) : Run IpbInfo := do
  -- the difference of two `size_t`
  let bound := (addrList.length + (2 ^ 64 - metasize)) % 2 ^ 64
  let (i, addrListIndex) ← initLoop addrList bound fuel 0 []
  if bound ≤ i then
    let first ← readAt addrList i
    let last ← readAt addrList (addrList.length - 1)
    return ⟨addrList, addrListIndex ++ [⟨first.b, last.e, 0⟩]⟩
  else return ⟨addrList, addrListIndex⟩

/-! ## Searching -/

/-- The loop of `getRegionCode`, which is there twice; `pred` takes one from a bound. -/
def search (pred : ℤ → ℤ) (ipInt : ℕ) (addrList : List AddrInfo) :
    ℕ → ℤ → ℤ → Run (Option (ℤ × AddrInfo))
  | 0, _, _ => .unfinished
  | fuel + 1, low, high =>
    if low ≤ high then do
      let mid := (low + high) / 2
      let addr ← readAt addrList mid
      if ipInt ≤ addr.e ∧ addr.b ≤ ipInt then return some (mid, addr)
      else if ipInt < addr.b then
        let high := pred mid
        if low ≤ high then
          let other ← readAt addrList high
          if other.e < ipInt then return none else search pred ipInt addrList fuel low high
        else search pred ipInt addrList fuel low high
      else
        let low := mid + 1
        if low ≤ high then
          let other ← readAt addrList low
          if ipInt < other.b then return none else search pred ipInt addrList fuel low high
        else search pred ipInt addrList fuel low high
    else return none

/-- Where the two differ: how a bound is lowered, and the first place of a block. -/
structure Bounds where
  pred : ℤ → ℤ
  first : ℤ → Run ℤ

/-- `getRegionCode`, with the address in host byte order. -/
def getRegionCode (v : Bounds) (fuel : ℕ) (info : IpbInfo) (ipInt : ℕ) : Run ℤ :=
  if ipInt = inaddrNone then .done 0
  else do
    let index ← search v.pred ipInt info.addrListIndex fuel 0 info.addrListIndex.length
    match index with
    | none => return 0
    | some (index, _) =>
      let low ← v.first index
      let high := if index = info.addrListIndex.length - 1 then (info.addrList.length : ℤ)
        else low + metasize
      let found ← search v.pred ipInt info.addrList fuel low high
      return found.elim 0 fun e => e.2.regioncode

/-- The index is built, and an address is looked up. -/
def regionCode (v : Bounds) (fuel : ℕ) (addrList : List AddrInfo) (ipInt : ℕ) : Run ℤ := do
  let info ← initInfo fuel addrList
  getRegionCode v fuel info ipInt

/-- The bounds of `getlocation.cpp`: `int64_t`, and an `int` for the block. -/
def getlocation : Bounds where
  pred i := i - 1
  first index := if index * metasize < 2 ^ 31 then .done (index * metasize) else .outside

/-- The bounds of `adx_region.cpp`: `size_t` throughout. -/
def adxRegion : Bounds where
  pred i := (i - 1) % 2 ^ 64
  first index := .done (index * metasize)

/-! ## Tables -/

/-- The range contains the address. -/
def AddrInfo.Contains (addr : AddrInfo) (ipInt : ℕ) : Prop := addr.b ≤ ipInt ∧ ipInt ≤ addr.e

instance (addr : AddrInfo) (ipInt : ℕ) : Decidable (addr.Contains ipInt) :=
  inferInstanceAs (Decidable (_ ∧ _))

/-- A table of sorted, disjoint ranges. -/
structure IpTable where
  ranges : List AddrInfo
  nonempty : ranges ≠ []
  le : ∀ addr ∈ ranges, addr.b ≤ addr.e
  sorted : ranges.Pairwise fun addr other => addr.e < other.b
  bound : ∀ addr ∈ ranges, addr.e < 2 ^ 32

/-- The region of the range that contains the address, 0 if there is none. -/
def IpTable.regionOf (t : IpTable) (ipInt : ℕ) : ℤ :=
  (t.ranges.find? fun addr => addr.Contains ipInt).elim 0 AddrInfo.regioncode

/-- The ends of the ranges, as functions of the place. -/
def lowEnd (addrList : List AddrInfo) (i : ℕ) : ℕ := addrList[i]?.elim 0 AddrInfo.b

/-- The upper end of the range at a place. -/
def highEnd (addrList : List AddrInfo) (i : ℕ) : ℕ := addrList[i]?.elim 0 AddrInfo.e

/-- The vector is ascending, as a table and as an index are. -/
def Sorted (addrList : List AddrInfo) : Prop :=
  Ascending (lowEnd addrList) (highEnd addrList) addrList.length

/-- The address lies in block `j`, which may have gaps. -/
def InBlock (addrList : List AddrInfo) (ipInt j : ℕ) : Prop :=
  metasize * j < addrList.length ∧ Covers (fun j => lowEnd addrList (metasize * j))
    (fun j => highEnd addrList (groupEnd metasize addrList.length j)) ipInt j

section

variable {addrList : List AddrInfo} {addr : AddrInfo} {i ipInt : ℕ}

/-- The lower end of a range that is there. -/
theorem lowEnd_eq (h : addrList[i]? = some addr) : lowEnd addrList i = addr.b := by
  rw [lowEnd, h, Option.elim_some]

/-- The upper end of a range that is there. -/
theorem highEnd_eq (h : addrList[i]? = some addr) : highEnd addrList i = addr.e := by
  rw [highEnd, h, Option.elim_some]

/-- A range that is there covers an address just if it contains it. -/
theorem covers_iff (h : addrList[i]? = some addr) :
    Covers (lowEnd addrList) (highEnd addrList) ipInt i ↔ addr.Contains ipInt := by
  rw [Covers, lowEnd_eq h, highEnd_eq h]
  rfl

/-- A read inside the vector. -/
theorem readAt_of_lt (h : i < addrList.length) :
    ∃ addr, addrList[i]? = some addr ∧ readAt addrList i = .done addr := by
  refine ⟨addrList[i], List.getElem?_eq_getElem h, ?_⟩
  rw [readAt, if_neg (by omega), Int.toNat_natCast, List.getElem?_eq_getElem h]
  rfl

/-- A read behind the vector. -/
theorem readAt_of_length_le (h : addrList.length ≤ i) : readAt addrList i = .outside := by
  rw [readAt, if_neg (by omega), Int.toNat_natCast, List.getElem?_eq_none h]
  rfl

end

/-- A range of the vector is not empty. -/
theorem Sorted.le_of_mem {addrList : List AddrInfo} {addr : AddrInfo} (h : Sorted addrList)
    (haddr : addr ∈ addrList) : addr.b ≤ addr.e := by
  obtain ⟨i, hi⟩ := List.mem_iff_getElem?.mp haddr
  rw [← lowEnd_eq hi, ← highEnd_eq hi]
  exact h.le i (List.getElem?_eq_some_iff.mp hi).1

/-- A table is ascending. -/
theorem IpTable.sorted_ranges (t : IpTable) : Sorted t.ranges where
  le i hi := by
    obtain ⟨addr, hget, -⟩ := readAt_of_lt hi
    rw [lowEnd_eq hget, highEnd_eq hget]
    exact t.le addr (List.mem_of_getElem? hget)
  lt i j hij hj := by
    obtain ⟨addr, hget, -⟩ := readAt_of_lt (hij.trans hj)
    obtain ⟨other, hget', -⟩ := readAt_of_lt hj
    rw [highEnd_eq hget, lowEnd_eq hget']
    obtain ⟨hlt, rfl⟩ := List.getElem?_eq_some_iff.mp hget
    obtain ⟨hlt', rfl⟩ := List.getElem?_eq_some_iff.mp hget'
    exact List.pairwise_iff_getElem.mp t.sorted i j hlt hlt' hij

/-- A table has at most one range for each address. -/
theorem IpTable.length_le (t : IpTable) : t.ranges.length ≤ 2 ^ 32 := by
  have hle : ∀ i < t.ranges.length, i ≤ highEnd t.ranges i := by
    intro i hi
    induction i with
    | zero => omega
    | succ i ih =>
      have hlow := t.sorted_ranges.le (i + 1) hi
      have hlt := t.sorted_ranges.lt i (i + 1) (by omega) hi
      have := ih (by omega)
      omega
  by_contra hlen
  obtain ⟨addr, hget, -⟩ := readAt_of_lt (show 2 ^ 32 < t.ranges.length by omega)
  have hend := hle (2 ^ 32) (by omega)
  rw [highEnd_eq hget] at hend
  have := t.bound addr (List.mem_of_getElem? hget)
  omega

/-- The region of an address is that of any range that contains it. -/
theorem IpTable.regionOf_eq (t : IpTable) {addr : AddrInfo} {ipInt : ℕ} (h : addr ∈ t.ranges)
    (hin : addr.Contains ipInt) : t.regionOf ipInt = addr.regioncode := by
  unfold IpTable.regionOf
  cases hfind : t.ranges.find? fun addr => addr.Contains ipInt with
  | none =>
    rw [List.find?_eq_none] at hfind
    exact absurd (decide_eq_true hin) (hfind addr h)
  | some other =>
    have hother : other.Contains ipInt := by simpa using List.find?_some hfind
    obtain ⟨i, hi⟩ := List.mem_iff_getElem?.mp h
    obtain ⟨j, hj⟩ := List.mem_iff_getElem?.mp (List.mem_of_find?_eq_some hfind)
    have hij := t.sorted_ranges.covers_unique (List.getElem?_eq_some_iff.mp hi).1
      (List.getElem?_eq_some_iff.mp hj).1 ((covers_iff hi).mpr hin) ((covers_iff hj).mpr hother)
    rw [hij, hj] at hi
    obtain rfl := Option.some.inj hi
    rfl

/-- An address in no range has no region. -/
theorem IpTable.regionOf_eq_zero (t : IpTable) {ipInt : ℕ}
    (h : ∀ addr ∈ t.ranges, ¬addr.Contains ipInt) : t.regionOf ipInt = 0 := by
  rw [IpTable.regionOf, List.find?_eq_none.mpr fun addr haddr => by simpa using h addr haddr]
  rfl

/-! ## The search -/

/-- What a search finds: a range that contains the address, or that there is none. -/
def Answer (addrList : List AddrInfo) (ipInt : ℕ) : Option (ℤ × AddrInfo) → Prop
  | some (mid, addr) => ∃ i : ℕ, mid = i ∧ addrList[i]? = some addr ∧ addr.Contains ipInt
  | none => ∀ i < addrList.length, ¬Covers (lowEnd addrList) (highEnd addrList) ipInt i

section

variable {pred : ℤ → ℤ} {addrList : List AddrInfo} {addr : AddrInfo} {ipInt fuel : ℕ}
  {low high : ℤ} {mid : ℕ}

/-- A turn of the loop whose middle lies in the vector. -/
theorem search_succ (hle : low ≤ high) (hmid : (low + high) / 2 = mid)
    (hget : addrList[mid]? = some addr) :
    search pred ipInt addrList (fuel + 1) low high =
      if addr.Contains ipInt then .done (some (mid, addr))
      else if ipInt < addr.b then
        if low ≤ pred mid then do
          let other ← readAt addrList (pred mid)
          if other.e < ipInt then return none
          else search pred ipInt addrList fuel low (pred mid)
        else search pred ipInt addrList fuel low (pred mid)
      else if ((mid + 1 : ℕ) : ℤ) ≤ high then do
        let other ← readAt addrList (mid + 1 : ℕ)
        if ipInt < other.b then return none
        else search pred ipInt addrList fuel (mid + 1 : ℕ) high
      else search pred ipInt addrList fuel (mid + 1 : ℕ) high := by
  obtain ⟨other, hget', hread⟩ := readAt_of_lt (List.getElem?_eq_some_iff.mp hget).1
  obtain rfl : other = addr := Option.some.inj (hget'.symm.trans hget)
  rw [search, if_pos hle, hmid]
  dsimp only
  rw [hread]
  simp only [Run.done_bind, AddrInfo.Contains, and_comm, Int.natCast_add, Int.natCast_one]
  rfl

/-- The search of a vector in whose span the address lies stays inside it, and its answer is right.
All that is before `l` and from `s` on has been excluded. -/
theorem search_inside (hasc : Sorted addrList)
    (hpred : ∀ m < addrList.length, pred ((m + 1 : ℕ) : ℤ) = (m : ℤ)) {p q : ℕ}
    (hp : p < addrList.length) (hhigh : ipInt ≤ highEnd addrList p) (hq : q < addrList.length)
    (hlow : lowEnd addrList q ≤ ipInt) {l s : ℕ}
    (hw : Narrowed (lowEnd addrList) (highEnd addrList) addrList.length ipInt l s) (hls : l ≤ s)
    (hs : s ≤ addrList.length + 1) (hfuel : s < l + fuel) :
    ∃ r, search pred ipInt addrList fuel l (s - 1) = .done r ∧ Answer addrList ipInt r := by
  -- by induction on the fuel; the answer lies in what is left between the ends
  induction fuel generalizing l s with
  | zero => omega
  | succ fuel ih =>
    have hlp := hw.le_of_le hhigh
    rcases hls.eq_or_lt with rfl | hlt
    · refine ⟨none, ?_, fun i hi => hw.not_covers le_rfl hi⟩
      rw [search, if_neg (by omega)]
      rfl
    -- the middle of the two ends is not negative
    · obtain ⟨mid, hmid, hl, hs'⟩ :
          ∃ mid : ℕ, ((l : ℤ) + (s - 1)) / 2 = mid ∧ l ≤ mid ∧ 2 * mid ≤ l + s - 1 :=
        ⟨(l + s - 1) / 2, by omega, by omega, by omega⟩
      have hlen : mid < addrList.length := by omega
      obtain ⟨addr, hget, -⟩ := readAt_of_lt hlen
      rw [search_succ (by omega) hmid hget]
      split_ifs with hin hb hle hle
      · exact ⟨_, rfl, mid, rfl, hget, hin⟩
      · -- the address is before the middle, which is not the first place
        have hw' := hw.left hasc (m := mid) (by rwa [lowEnd_eq hget])
        have hqm := hw'.lt_of_le hq hlow
        obtain ⟨m, rfl⟩ : ∃ m, mid = m + 1 := ⟨mid - 1, by omega⟩
        obtain ⟨other, hget', hread⟩ := readAt_of_lt (show m < addrList.length by omega)
        rw [hpred m (by omega), hread, Run.done_bind]
        split_ifs with hother
        · have hgap := hw'.right hasc (m := m) (by omega) (by rwa [highEnd_eq hget'])
          exact ⟨none, rfl, fun i hi => hgap.not_covers le_rfl hi⟩
        · obtain ⟨r, hr, hanswer⟩ := ih hw' hl (by omega) (by omega)
          rw [show (((m + 1 : ℕ) : ℤ) - 1) = m by omega] at hr
          exact ⟨r, hr, hanswer⟩
      · have hw' := hw.left hasc (m := mid) (by rwa [lowEnd_eq hget])
        have hqm := hw'.lt_of_le hq hlow
        obtain ⟨m, rfl⟩ : ∃ m, mid = m + 1 := ⟨mid - 1, by omega⟩
        rw [hpred m (by omega)]
        obtain ⟨r, hr, hanswer⟩ := ih hw' hl (by omega) (by omega)
        rw [show (((m + 1 : ℕ) : ℤ) - 1) = m by omega] at hr
        exact ⟨r, hr, hanswer⟩
      · -- the address is behind the middle, which is not the last place
        have he : addr.e < ipInt := by
          unfold AddrInfo.Contains at hin
          omega
        have hw' := hw.right hasc hlen (by rwa [highEnd_eq hget])
        have hmp := hw'.le_of_le hhigh
        obtain ⟨other, hget', hread⟩ := readAt_of_lt
          (show mid + 1 < addrList.length by omega)
        rw [hread, Run.done_bind]
        split_ifs with hother
        · have hgap := hw'.left hasc (m := mid + 1) (by rwa [lowEnd_eq hget'])
          exact ⟨none, rfl, fun i hi => hgap.not_covers le_rfl hi⟩
        · exact ih hw' (by omega) hs (by omega)
      · have he : addr.e < ipInt := by
          unfold AddrInfo.Contains at hin
          omega
        exact ih (hw.right hasc hlen (by rwa [highEnd_eq hget])) (by omega) hs (by omega)

/-- An address behind all ranges: the search reads behind the vector. -/
theorem search_behind (hasc : Sorted addrList) (hall : ∀ addr ∈ addrList, addr.e < ipInt)
    {l : ℕ} (hl : l ≤ addrList.length) (hfuel : addrList.length < l + fuel) :
    search pred ipInt addrList fuel l addrList.length = .outside := by
  -- by induction on the fuel; the search goes to the right at each turn
  induction fuel generalizing l with
  | zero => omega
  | succ fuel ih =>
    obtain ⟨mid, hmid, hlm, hms⟩ :
        ∃ mid : ℕ, ((l : ℤ) + addrList.length) / 2 = mid ∧ l ≤ mid ∧
          2 * mid ≤ l + addrList.length :=
      ⟨(l + addrList.length) / 2, by omega, by omega, by omega⟩
    -- the middle is behind the last place, or the place after it may be
    rcases (show mid ≤ addrList.length by omega).eq_or_lt with rfl | hlt
    · rw [search, if_pos (by omega), hmid]
      dsimp only
      rw [readAt_of_length_le le_rfl]
      rfl
    · obtain ⟨addr, hget, -⟩ := readAt_of_lt hlt
      have hmem := List.mem_of_getElem? hget
      have he := hall addr hmem
      have hbe := hasc.le_of_mem hmem
      rw [search_succ (by omega) hmid hget, if_neg (by rintro ⟨-, h⟩; omega),
        if_neg (by omega), if_pos (by omega)]
      rcases (show mid + 1 ≤ addrList.length by omega).eq_or_lt with heq | hlt'
      · rw [readAt_of_length_le heq.ge]
        rfl
      · obtain ⟨other, hget', hread⟩ := readAt_of_lt hlt'
        have hmem' := List.mem_of_getElem? hget'
        have he' := hall other hmem'
        have hbe' := hasc.le_of_mem hmem'
        rw [hread, Run.done_bind, if_neg (by omega)]
        exact ih (by omega) (by omega)

/-- An address before all ranges: the bound that is lowered below 0 becomes the largest `size_t`,
and the search reads there. -/
theorem search_before (hasc : Sorted addrList) (hall : ∀ addr ∈ addrList, ipInt < addr.b)
    (hpred : ∀ m < addrList.length, pred ((m + 1 : ℕ) : ℤ) = (m : ℤ)) {h : ℕ}
    (hzero : 0 ≤ pred 0) (hout : readAt addrList (pred 0) = .outside)
    (hh : h ≤ addrList.length) (hpos : 0 < addrList.length) (hfuel : h < fuel) :
    search pred ipInt addrList fuel 0 h = .outside := by
  induction fuel generalizing h with
  | zero => omega
  | succ fuel ih =>
    obtain ⟨mid, hmid, hms⟩ : ∃ mid : ℕ, ((0 : ℤ) + h) / 2 = mid ∧ 2 * mid ≤ h :=
      ⟨h / 2, by omega, by omega⟩
    obtain ⟨addr, hget, -⟩ := readAt_of_lt (show mid < addrList.length by omega)
    have hlt := hall addr (List.mem_of_getElem? hget)
    rw [search_succ (by omega) hmid hget, if_neg (by rintro ⟨h, -⟩; omega), if_pos hlt]
    cases mid with
    | zero =>
      rw [Int.natCast_zero, if_pos hzero, hout]
      rfl
    | succ m =>
      obtain ⟨other, hget', hread⟩ := readAt_of_lt (show m < addrList.length by omega)
      have hlt' := hall other (List.mem_of_getElem? hget')
      have hbe' := hasc.le_of_mem (List.mem_of_getElem? hget')
      rw [hpred m (by omega), if_pos (by omega), hread, Run.done_bind, if_neg (by omega)]
      exact ih (by omega) (by omega)

end

/-! ## The index -/

/-- The first `k` elements of the index. -/
def blocks (addrList : List AddrInfo) (k : ℕ) : List AddrInfo :=
  (List.range k).map fun j =>
    ⟨lowEnd addrList (metasize * j),
      highEnd addrList (groupEnd metasize addrList.length j), 0⟩

/-- The vector has `k` blocks, of which the last one may be shorter. -/
def HasBlocks (addrList : List AddrInfo) (k : ℕ) : Prop :=
  0 < k ∧ metasize * (k - 1) < addrList.length ∧ addrList.length ≤ metasize * k

section

variable {addrList : List AddrInfo} {i j k ipInt fuel : ℕ}

/-- One more block. -/
theorem blocks_succ (addrList : List AddrInfo) (k : ℕ) :
    blocks addrList (k + 1) = blocks addrList k ++
      [⟨lowEnd addrList (metasize * k),
        highEnd addrList (groupEnd metasize addrList.length k), 0⟩] := by
  rw [blocks, List.range_succ, List.map_append]
  rfl

/-- The number of blocks. -/
@[simp] theorem length_blocks : (blocks addrList k).length = k := by simp [blocks]

/-- A block reaches from its first range to its last one. -/
theorem getElem?_blocks (hj : j < k) :
    (blocks addrList k)[j]? = some ⟨lowEnd addrList (metasize * j),
      highEnd addrList (groupEnd metasize addrList.length j), 0⟩ := by
  simp [blocks, hj]

/-- A block has a range. -/
theorem HasBlocks.lt (h : HasBlocks addrList k) (hj : j < k) :
    metasize * j < addrList.length :=
  (Nat.mul_le_mul_left metasize (show j ≤ k - 1 by omega)).trans_lt h.2.1

/-- There are no more blocks than ranges. -/
theorem HasBlocks.le (h : HasBlocks addrList k) : k ≤ addrList.length := by
  have hlt := h.2.1
  have hpos : 0 < metasize := by decide
  have := Nat.le_mul_of_pos_left (k - 1) hpos
  omega

/-- A group that begins in the table has a block. -/
theorem HasBlocks.lt_of_mul_lt (h : HasBlocks addrList k) (hj : metasize * j < addrList.length) :
    j < k :=
  Nat.lt_of_mul_lt_mul_left (hj.trans_le h.2.2)

/-- The blocks of a sorted vector are sorted. -/
theorem HasBlocks.group (h : HasBlocks addrList k) (hasc : Sorted addrList) :
    Ascending (fun j => lowEnd addrList (metasize * j))
      (fun j => highEnd addrList (groupEnd metasize addrList.length j)) k :=
  hasc.group (by decide) fun _ hj => h.lt hj

/-- The blocks of an ascending table are ascending. -/
theorem HasBlocks.sorted_blocks (h : HasBlocks addrList k) (hasc : Sorted addrList) :
    Sorted (blocks addrList k) where
  le j hj := by
    rw [length_blocks] at hj
    rw [lowEnd_eq (getElem?_blocks hj), highEnd_eq (getElem?_blocks hj)]
    exact (h.group hasc).le j hj
  lt i j hij hj := by
    rw [length_blocks] at hj
    rw [highEnd_eq (getElem?_blocks (hij.trans hj)), lowEnd_eq (getElem?_blocks hj)]
    exact (h.group hasc).lt i j hij hj

/-- A block has the ends of two ranges. -/
theorem HasBlocks.exists_of_mem (h : HasBlocks addrList k) {addr : AddrInfo}
    (haddr : addr ∈ blocks addrList k) :
    (∃ first ∈ addrList, addr.b = first.b) ∧ ∃ last ∈ addrList, addr.e = last.e := by
  obtain ⟨j, hj⟩ := List.mem_iff_getElem?.mp haddr
  have hjk : j < k := by simpa using (List.getElem?_eq_some_iff.mp hj).1
  rw [getElem?_blocks hjk] at hj
  obtain rfl := Option.some.inj hj
  have hlt := h.lt hjk
  obtain ⟨first, hfirst, -⟩ := readAt_of_lt hlt
  obtain ⟨last, hlast, -⟩ := readAt_of_lt
    (groupEnd_lt (m := metasize) (show 0 < addrList.length by omega) j)
  exact ⟨⟨first, List.mem_of_getElem? hfirst, lowEnd_eq hfirst⟩,
    ⟨last, List.mem_of_getElem? hlast, highEnd_eq hlast⟩⟩

/-- A block covers an address just if it lies between its ends. -/
theorem covers_blocks (h : HasBlocks addrList k) (hj : j < k) :
    Covers (lowEnd (blocks addrList k)) (highEnd (blocks addrList k)) ipInt j ↔
      InBlock addrList ipInt j := by
  rw [covers_iff (getElem?_blocks hj), InBlock]
  exact (and_iff_right (h.lt hj)).symm

/-- The loop over the blocks stops at the last one. -/
theorem initLoop_eq (hlen : metasize ≤ addrList.length) (hj : metasize * j < addrList.length)
    (hfuel : addrList.length < metasize * j + fuel) :
    ∃ k, initLoop addrList (addrList.length - metasize) fuel (metasize * j) (blocks addrList j) =
        .done (metasize * k, blocks addrList k) ∧
      metasize * k < addrList.length ∧ addrList.length ≤ metasize * (k + 1) := by
  -- by induction on the fuel, with the blocks that are already there
  induction fuel generalizing j with
  | zero => omega
  | succ fuel ih =>
    rw [initLoop]
    split_ifs with hbound
    · -- the block has all its places inside the vector
      have hnext : metasize * (j + 1) < addrList.length := by
        rw [Nat.mul_succ]
        omega
      have hend : groupEnd metasize addrList.length j = metasize * j + (metasize - 1) := by
        rw [Nat.mul_succ] at hnext
        unfold groupEnd
        omega
      obtain ⟨first, hfirst, hread⟩ := readAt_of_lt hj
      obtain ⟨last, hlast, hread'⟩ := readAt_of_lt
        (groupEnd_lt (m := metasize) (show 0 < addrList.length by omega) j)
      have hplace : ((metasize * j : ℕ) : ℤ) + metasize - 1 =
          (groupEnd metasize addrList.length j : ℕ) := by
        rw [hend]
        unfold metasize
        omega
      rw [hread, Run.done_bind, hplace, hread', Run.done_bind, ← lowEnd_eq hfirst,
        ← highEnd_eq hlast, ← blocks_succ, ← Nat.mul_succ]
      refine ih hnext ?_
      have hpos : 0 < metasize := by decide
      rw [Nat.mul_succ]
      omega
    -- the last block is shorter, and ends the loop
    · refine ⟨j, rfl, hj, ?_⟩
      rw [Nat.mul_succ]
      omega

/-- Of a vector with a block or more the index is built. -/
theorem initInfo_eq (hlen : metasize ≤ addrList.length) (hmax : addrList.length ≤ 2 ^ 32)
    (hfuel : addrList.length < fuel) :
    ∃ k, initInfo fuel addrList = .done ⟨addrList, blocks addrList k⟩ ∧ HasBlocks addrList k := by
  have hpos : 0 < metasize := by decide
  obtain ⟨k, hloop, hlt, hle⟩ := initLoop_eq (j := 0) hlen (by omega)
    (show addrList.length < metasize * 0 + fuel by omega)
  -- the bound of the loop is computed without a sign
  have hbound : (addrList.length + (2 ^ 64 - metasize)) % 2 ^ 64 = addrList.length - metasize := by
    unfold metasize at hlen ⊢
    omega
  refine ⟨k + 1, ?_, by omega, by simpa using hlt, hle⟩
  -- the last block ends with the table
  have hend : groupEnd metasize addrList.length k = addrList.length - 1 := by
    rw [Nat.mul_succ] at hle
    unfold groupEnd
    omega
  obtain ⟨first, hfirst, hread⟩ := readAt_of_lt hlt
  obtain ⟨last, hlast, hread'⟩ := readAt_of_lt
    (show addrList.length - 1 < addrList.length by omega)
  unfold initInfo
  dsimp only
  rw [hbound]
  change (initLoop addrList (addrList.length - metasize) fuel 0 [] >>= _) = _
  rw [show (0 : ℕ) = metasize * 0 from rfl, show [] = blocks addrList 0 from rfl, hloop,
    Run.done_bind]
  dsimp only
  rw [if_pos (by rw [Nat.mul_succ] at hle; omega), hread, Run.done_bind,
    show (addrList.length : ℤ) - 1 = (addrList.length - 1 : ℕ) by omega, hread', Run.done_bind,
    blocks_succ, hend, lowEnd_eq hfirst, highEnd_eq hlast]
  rfl

/-- With less than a block, the number of blocks is the difference of two `size_t` below 0, and the
loop reads behind the vector. -/
theorem initInfo_short (hpos : 0 < addrList.length) (hlen : addrList.length < metasize)
    (hfuel : 0 < fuel) : initInfo fuel addrList = .outside := by
  obtain ⟨fuel, rfl⟩ : ∃ f, fuel = f + 1 := ⟨fuel - 1, by omega⟩
  obtain ⟨first, -, hread⟩ := readAt_of_lt hpos
  unfold initInfo
  dsimp only
  rw [initLoop, if_pos (by unfold metasize at hlen ⊢; omega), hread, Run.done_bind]
  rw [show ((0 : ℕ) : ℤ) + metasize - 1 = (255 : ℕ) from rfl,
    readAt_of_length_le (by unfold metasize at hlen; omega)]
  rfl

end

/-! ## Looking up an address -/

section

variable (t : IpTable) {v : Bounds} {ipInt fuel j k : ℕ}

/-- The place before, as an `int`. -/
theorem getlocation_pred (m : ℕ) : getlocation.pred ((m + 1 : ℕ) : ℤ) = (m : ℤ) := by
  unfold getlocation
  dsimp only
  omega

/-- The place before, as an `int`. -/
theorem adxRegion_pred {m : ℕ} (hm : m < t.ranges.length) :
    adxRegion.pred ((m + 1 : ℕ) : ℤ) = (m : ℤ) := by
  have hlen := t.length_le
  unfold adxRegion
  dsimp only
  omega

/-- The search of the index finds the block of the address. -/
theorem search_blocks (h : HasBlocks t.ranges k)
    (hpred : ∀ m < t.ranges.length, v.pred ((m + 1 : ℕ) : ℤ) = (m : ℤ))
    (hlow : ∃ addr ∈ t.ranges, addr.b ≤ ipInt) (hhigh : ∃ addr ∈ t.ranges, ipInt ≤ addr.e)
    (hfuel : k + 1 < fuel) :
    ∃ r, search v.pred ipInt (blocks t.ranges k) fuel 0 (blocks t.ranges k).length = .done r ∧
      Answer (blocks t.ranges k) ipInt r := by
  have hgroup := h.group t.sorted_ranges
  have hsorted := h.sorted_blocks t.sorted_ranges
  -- the first block begins where the first range does, the last one ends where the last range does
  have hfirst : lowEnd (blocks t.ranges k) 0 ≤ ipInt := by
    obtain ⟨addr, haddr, hle⟩ := hlow
    obtain ⟨i, hi⟩ := List.mem_iff_getElem?.mp haddr
    rw [lowEnd_eq (getElem?_blocks h.1)]
    refine (t.sorted_ranges.lo_mono (Nat.zero_le i) (List.getElem?_eq_some_iff.mp hi).1).trans ?_
    rwa [lowEnd_eq hi]
  have hlast : ipInt ≤ highEnd (blocks t.ranges k) (k - 1) := by
    have hk := h.1
    have hle := h.2.2
    obtain ⟨addr, haddr, hle'⟩ := hhigh
    obtain ⟨i, hi⟩ := List.mem_iff_getElem?.mp haddr
    have hin := (List.getElem?_eq_some_iff.mp hi).1
    rw [highEnd_eq (getElem?_blocks (by omega))]
    refine le_trans ?_ (t.sorted_ranges.hi_mono (i := i) ?_ (groupEnd_lt (by omega) _))
    · rwa [highEnd_eq hi]
    · rw [show k = k - 1 + 1 by omega, Nat.mul_succ] at hle
      unfold groupEnd
      omega
  have hk := h.1
  have hstart : Narrowed (lowEnd (blocks t.ranges k)) (highEnd (blocks t.ranges k))
      (blocks t.ranges k).length ipInt 0 ((blocks t.ranges k).length + 1) :=
    ⟨fun _ hi => absurd hi (Nat.not_lt_zero _), fun _ hle hlt => by omega⟩
  have hpred' : ∀ m < (blocks t.ranges k).length, v.pred ((m + 1 : ℕ) : ℤ) = (m : ℤ) := by
    intro m hm
    rw [length_blocks] at hm
    have hlt := h.lt hm
    have hpos : 0 < metasize := by decide
    exact hpred m ((Nat.le_mul_of_pos_left m hpos).trans_lt hlt)
  have hsearch := search_inside hsorted hpred' (p := k - 1) (by rw [length_blocks]; omega) hlast
    (q := 0) (by rwa [length_blocks]) hfirst hstart (Nat.zero_le _) le_rfl
    (show (blocks t.ranges k).length + 1 < 0 + fuel by rw [length_blocks]; omega)
  rwa [Int.natCast_zero, show (((blocks t.ranges k).length + 1 : ℕ) : ℤ) - 1 =
    (blocks t.ranges k).length by omega] at hsearch

/-- The search of the ranges of a block finds the region. -/
theorem search_block (h : HasBlocks t.ranges k)
    (hpred : ∀ m < t.ranges.length, v.pred ((m + 1 : ℕ) : ℤ) = (m : ℤ)) (hj : j < k)
    (hin : InBlock t.ranges ipInt j) (hfuel : t.ranges.length + 1 < fuel) :
    (search v.pred ipInt t.ranges fuel (j * metasize : ℤ)
        (if (j : ℤ) = (blocks t.ranges k).length - 1 then (t.ranges.length : ℤ)
          else (j * metasize : ℤ) + metasize) >>= fun found =>
      (return found.elim 0 fun e => e.2.regioncode : Run ℤ)) = .done (t.regionOf ipInt) := by
  obtain ⟨hlt, hlo, hhi⟩ := hin
  have hpos : 0 < metasize := by decide
  have hend := groupEnd_lt (m := metasize) (n := t.ranges.length) (by omega) j
  -- the upper bound is the first place that is not in the block
  obtain ⟨s, hs, hle, hafter⟩ : ∃ s : ℕ, (if (j : ℤ) = (blocks t.ranges k).length - 1 then
        (t.ranges.length : ℤ) else (j * metasize : ℤ) + metasize) = (s : ℤ) - 1 ∧
      s ≤ t.ranges.length + 1 ∧ groupEnd metasize t.ranges.length j < s := by
    rw [length_blocks]
    split_ifs with hlast
    · exact ⟨t.ranges.length + 1, by omega, le_rfl, by omega⟩
    · have hnext := h.lt (show j + 1 < k by omega)
      rw [Nat.mul_succ] at hnext
      refine ⟨metasize * j + metasize + 1, ?_, by omega, ?_⟩
      · push_cast
        rw [Int.mul_comm]
        omega
      · unfold groupEnd
        omega
  have hnarrow : Narrowed (lowEnd t.ranges) (highEnd t.ranges) t.ranges.length ipInt
      (metasize * j) s :=
    ⟨fun i hi => (t.sorted_ranges.lt i _ hi hlt).trans_le hlo,
      fun i hsi hi => hhi.trans_lt (t.sorted_ranges.lt _ i (by omega) hi)⟩
  have hls : metasize * j ≤ s := by
    have := hnarrow.lt_of_le hlt hlo
    omega
  obtain ⟨r, hr, hanswer⟩ := search_inside t.sorted_ranges hpred hend hhi hlt hlo hnarrow
    hls hle (show s < metasize * j + fuel by omega)
  rw [hs, show (j : ℤ) * (metasize : ℤ) = (metasize * j : ℕ) by push_cast; rw [Int.mul_comm], hr,
    Run.done_bind]
  refine congrArg Run.done ?_
  cases r with
  | none =>
    refine (t.regionOf_eq_zero fun addr haddr hcontains => ?_).symm
    obtain ⟨i, hi⟩ := List.mem_iff_getElem?.mp haddr
    exact hanswer i (List.getElem?_eq_some_iff.mp hi).1 ((covers_iff hi).mpr hcontains)
  | some found =>
    obtain ⟨i, -, hi, hcontains⟩ := hanswer
    exact (t.regionOf_eq (List.mem_of_getElem? hi) hcontains).symm

/-- In the span of the table: the address is in no block, or the lookup goes on in its block. -/
theorem getRegionCode_inside (h : HasBlocks t.ranges k)
    (hpred : ∀ m < t.ranges.length, v.pred ((m + 1 : ℕ) : ℤ) = (m : ℤ))
    (hip : ipInt ≠ inaddrNone)
    (hlow : ∃ addr ∈ t.ranges, addr.b ≤ ipInt) (hhigh : ∃ addr ∈ t.ranges, ipInt ≤ addr.e)
    (hfuel : t.ranges.length + 1 < fuel) :
    ((∀ j, ¬InBlock t.ranges ipInt j) ∧
        getRegionCode v fuel ⟨t.ranges, blocks t.ranges k⟩ ipInt = .done (t.regionOf ipInt)) ∨
      ∃ j, (∀ i, InBlock t.ranges ipInt i ↔ i = j) ∧
        (v.first j = .done (j * metasize) →
          getRegionCode v fuel ⟨t.ranges, blocks t.ranges k⟩ ipInt =
            .done (t.regionOf ipInt)) ∧
        (v.first j = .outside →
          getRegionCode v fuel ⟨t.ranges, blocks t.ranges k⟩ ipInt = .outside) := by
  have hkn := h.le
  obtain ⟨r, hr, hanswer⟩ := search_blocks t h hpred hlow hhigh (show k + 1 < fuel by omega)
  unfold getRegionCode
  rw [if_neg hip]
  dsimp only
  rw [hr, Run.done_bind]
  cases r with
  | none =>
    left
    -- a block that has the address would have been found
    have hnone : ∀ j, ¬InBlock t.ranges ipInt j := by
      intro j hj
      have hjk := h.lt_of_mul_lt hj.1
      exact hanswer j (by rwa [length_blocks]) ((covers_blocks h hjk).mpr hj)
    refine ⟨hnone, congrArg Run.done (t.regionOf_eq_zero fun addr haddr hcontains => ?_).symm⟩
    obtain ⟨i, hi⟩ := List.mem_iff_getElem?.mp haddr
    have hin := (List.getElem?_eq_some_iff.mp hi).1
    refine hnone (i / metasize) ⟨?_, Covers.group t.sorted_ranges (by decide) hin
      ((covers_iff hi).mpr hcontains)⟩
    exact (Nat.mul_div_le i metasize).trans_lt hin
  | some found =>
    -- the block that is found is the only one with the address
    right
    obtain ⟨index, addr⟩ := found
    obtain ⟨j, rfl, hget, hcontains⟩ := hanswer
    have hjk : j < k := by simpa using (List.getElem?_eq_some_iff.mp hget).1
    have hin : InBlock t.ranges ipInt j :=
      (covers_blocks h hjk).mp ((covers_iff hget).mpr hcontains)
    refine ⟨j, fun i => ⟨fun hi => ?_, fun hi => hi ▸ hin⟩, fun hfirst => ?_, fun hfirst => ?_⟩
    · exact (h.group t.sorted_ranges).covers_unique (h.lt_of_mul_lt hi.1) hjk hi.2 hin.2
    · dsimp only
      rw [hfirst, Run.done_bind]
      exact search_block t h hpred hjk hin hfuel
    · dsimp only
      rw [hfirst]
      rfl

/-- Above the table both implementations read behind the index. -/
theorem getRegionCode_above (h : HasBlocks t.ranges k) (hip : ipInt ≠ inaddrNone)
    (hall : ∀ addr ∈ t.ranges, addr.e < ipInt) (hfuel : k < fuel) :
    getRegionCode v fuel ⟨t.ranges, blocks t.ranges k⟩ ipInt = .outside := by
  have hblocks : ∀ addr ∈ blocks t.ranges k, addr.e < ipInt := by
    intro addr haddr
    obtain ⟨-, last, hlast, heq⟩ := h.exists_of_mem haddr
    exact heq ▸ hall last hlast
  have hsearch : search v.pred ipInt (blocks t.ranges k) fuel (0 : ℕ) (blocks t.ranges k).length =
      .outside :=
    search_behind (h.sorted_blocks t.sorted_ranges) hblocks (Nat.zero_le _)
      (by rw [length_blocks]; omega)
  unfold getRegionCode
  rw [if_neg hip]
  dsimp only
  rw [← Int.natCast_zero, hsearch]
  rfl

/-- Below the table `adx_region.cpp` reads behind the index, at the largest `size_t`. -/
theorem getRegionCode_below (h : HasBlocks t.ranges k) (hip : ipInt ≠ inaddrNone)
    (hall : ∀ addr ∈ t.ranges, ipInt < addr.b) (hfuel : k < fuel) :
    getRegionCode adxRegion fuel ⟨t.ranges, blocks t.ranges k⟩ ipInt = .outside := by
  have hlen := t.length_le
  have hk := h.1
  have hkn := h.le
  have hblocks : ∀ addr ∈ blocks t.ranges k, ipInt < addr.b := by
    intro addr haddr
    obtain ⟨⟨first, hfirst, heq⟩, -⟩ := h.exists_of_mem haddr
    exact heq ▸ hall first hfirst
  have hout : readAt (blocks t.ranges k) (adxRegion.pred 0) = .outside := by
    rw [show adxRegion.pred 0 = (2 ^ 64 - 1 : ℕ) from rfl]
    exact readAt_of_length_le (by rw [length_blocks]; omega)
  have hsearch := search_before (h.sorted_blocks t.sorted_ranges) hblocks
    (fun m hm => adxRegion_pred t (by rw [length_blocks] at hm; omega))
    (show 0 ≤ adxRegion.pred 0 by decide) hout le_rfl (by rwa [length_blocks])
    (show (blocks t.ranges k).length < fuel by rw [length_blocks]; omega)
  unfold getRegionCode
  rw [if_neg hip]
  dsimp only
  rw [hsearch]
  rfl

end

/-! ## Both implementations -/

/-- Both implementations find the region of the address. -/
def Meets (t : IpTable) (fuel ipInt : ℕ) : Prop :=
  regionCode getlocation fuel t.ranges ipInt = .done (t.regionOf ipInt) ∧
    regionCode adxRegion fuel t.ranges ipInt = .done (t.regionOf ipInt)

/-- There is a whole block of ranges.  The address is in the span of the table, and its block can be
counted by an `int`; or it is 255.255.255.255, which counts as no address, and has no region. -/
def Served (t : IpTable) (ipInt : ℕ) : Prop :=
  metasize ≤ t.ranges.length ∧
    if ipInt = inaddrNone then ∀ addr ∈ t.ranges, addr.Contains ipInt → addr.regioncode = 0
    else (∃ addr ∈ t.ranges, addr.b ≤ ipInt) ∧ (∃ addr ∈ t.ranges, ipInt ≤ addr.e) ∧
      ∀ j, InBlock t.ranges ipInt j → j < 2 ^ 23

section

variable (t : IpTable) {ipInt fuel : ℕ}

/-- An address has the region 0 just if the range that contains it has it, if there is one. -/
theorem IpTable.regionOf_eq_zero_iff :
    t.regionOf ipInt = 0 ↔ ∀ addr ∈ t.ranges, addr.Contains ipInt → addr.regioncode = 0 := by
  constructor
  · intro h addr haddr hin
    rw [← t.regionOf_eq haddr hin, h]
  · intro h
    by_cases hany : ∃ addr ∈ t.ranges, addr.Contains ipInt
    · obtain ⟨addr, haddr, hin⟩ := hany
      rw [t.regionOf_eq haddr hin, h addr haddr hin]
    · exact t.regionOf_eq_zero fun addr haddr hin => hany ⟨addr, haddr, hin⟩

/-- The first place of a block, as far as it is an `int`. -/
theorem getlocation_first (j : ℕ) :
    getlocation.first j = if j < 2 ^ 23 then .done (j * metasize) else .outside := by
  unfold getlocation metasize
  dsimp only
  split_ifs <;> first | rfl | omega

/-- The two implementations find the region of an address if and only if it is served. -/
theorem region_meets_iff (hfuel : t.ranges.length + 2 ≤ fuel) :
    Meets t fuel ipInt ↔ Served t ipInt := by
  have hpos : 0 < t.ranges.length := List.length_pos_iff.mpr t.nonempty
  unfold Meets Served regionCode
  by_cases hlen : metasize ≤ t.ranges.length
  · obtain ⟨k, hinit, hblocks⟩ := initInfo_eq hlen t.length_le
      (show t.ranges.length < fuel by omega)
    rw [hinit, Run.done_bind, Run.done_bind, and_iff_right hlen]
    have hpred : ∀ m < t.ranges.length, adxRegion.pred ((m + 1 : ℕ) : ℤ) = (m : ℤ) :=
      fun m hm => adxRegion_pred t hm
    -- what `inet_addr` returns for an error is looked up by neither copy
    by_cases hip : ipInt = inaddrNone
    · rw [if_pos hip, ← t.regionOf_eq_zero_iff]
      unfold getRegionCode
      rw [if_pos hip, if_pos hip, and_self, Run.done.injEq, eq_comm]
    · rw [if_neg hip]
      by_cases hhigh : ∃ addr ∈ t.ranges, ipInt ≤ addr.e
      · by_cases hlow : ∃ addr ∈ t.ranges, addr.b ≤ ipInt
        -- the address is inside the table
        · rw [and_iff_right hlow, and_iff_right hhigh]
          rcases getRegionCode_inside t hblocks (fun m _ => getlocation_pred m) hip hlow hhigh
            (show t.ranges.length + 1 < fuel by omega) with ⟨hnone, hcode⟩ | ⟨j, hj, hcode, hover⟩
          · rcases getRegionCode_inside t hblocks hpred hip hlow hhigh
              (show t.ranges.length + 1 < fuel by omega) with ⟨-, hcode'⟩ | ⟨j, hj, -⟩
            · exact iff_of_true ⟨hcode, hcode'⟩ fun j hj => absurd hj (hnone j)
            · exact absurd ((hj j).mpr rfl) (hnone j)
          · rcases getRegionCode_inside t hblocks hpred hip hlow hhigh
              (show t.ranges.length + 1 < fuel by omega) with ⟨hnone, -⟩ | ⟨i, hi, hcode', -⟩
            · exact absurd ((hj j).mpr rfl) (hnone j)
            · have hsingle : (∀ j, InBlock t.ranges ipInt j → j < 2 ^ 23) ↔ j < 2 ^ 23 :=
                ⟨fun h => h j ((hj j).mpr rfl), fun h i hi => (hj i).mp hi ▸ h⟩
              rw [hsingle, and_iff_left (hcode' rfl)]
              rw [getlocation_first] at hcode hover
              -- the first place of the block is computed in `int`
              by_cases hint : j < 2 ^ 23
              · exact iff_of_true (hcode (if_pos hint)) hint
              · rw [hover (if_neg hint)]
                exact iff_of_false nofun hint
        · -- below the table only the signed bound stops the search
          have hall : ∀ addr ∈ t.ranges, ipInt < addr.b :=
            fun addr haddr => not_le.mp fun hle => hlow ⟨addr, haddr, hle⟩
          rw [getRegionCode_below t hblocks hip hall (by have := hblocks.le; omega)]
          exact iff_of_false (fun h => nomatch h.2) fun h => hlow h.1
      · have hall : ∀ addr ∈ t.ranges, addr.e < ipInt :=
          fun addr haddr => not_le.mp fun hle => hhigh ⟨addr, haddr, hle⟩
        rw [getRegionCode_above t hblocks hip hall (by have := hblocks.le; omega)]
        exact iff_of_false (fun h => nomatch h.1) fun h => hhigh h.2.1
  · rw [initInfo_short hpos (not_le.mp hlen) (by omega)]
    exact iff_of_false (fun h => nomatch h.1) fun h => hlen h.1

end

/-! ## Two tables -/

/-- Ranges of two addresses with gaps of two. -/
def sampleRanges (n : ℕ) : List AddrInfo :=
  (List.range n).map fun i => ⟨4 * i + 10, 4 * i + 11, 1156000000 + i⟩

/-- A table of such ranges. -/
def sampleTable (n : ℕ) (hpos : 0 < n) (hn : n < 2 ^ 29) : IpTable where
  ranges := sampleRanges n
  nonempty := by
    rw [sampleRanges, Ne, List.map_eq_nil_iff, List.range_eq_nil]
    omega
  le := by
    simp [sampleRanges]
  sorted := by
    rw [sampleRanges, List.pairwise_map]
    refine List.pairwise_lt_range.imp fun {i j} hij => ?_
    dsimp only
    omega
  bound := by
    intro addr haddr
    obtain ⟨i, hi, rfl⟩ := List.mem_map.mp haddr
    rw [List.mem_range] at hi
    dsimp only
    omega

/-- An address in the second block of a table of 300 ranges. -/
theorem long_table_meets : Meets (sampleTable 300 (by decide) (by decide)) 302 1050 := by
  have hlen : (sampleTable 300 (by decide) (by decide)).ranges.length = 300 := by
    simp [sampleTable, sampleRanges]
  have hmem : ⟨1050, 1051, 1156000260⟩ ∈ (sampleTable 300 (by decide) (by decide)).ranges :=
    List.mem_map.mpr ⟨260, by simp, rfl⟩
  refine (region_meets_iff _ (by rw [hlen])).mpr ⟨by rw [hlen]; decide, ?_⟩
  rw [if_neg (by decide)]
  refine ⟨⟨_, hmem, by decide⟩, ⟨_, hmem, by decide⟩, ?_⟩
  rintro j ⟨hj, -⟩
  rw [hlen] at hj
  unfold metasize at hj
  omega

/-- A table of one range: building the index reads its 256th. -/
theorem short_table_outside :
    ¬Meets (sampleTable 1 (by decide) (by decide)) 3 10 ∧
      initInfo 3 (sampleTable 1 (by decide) (by decide)).ranges = .outside ∧
      (sampleTable 1 (by decide) (by decide)).regionOf 10 = 1156000000 := by
  refine ⟨fun h => ?_, by decide, by decide⟩
  exact absurd h.1 (by decide)

end Region

end AdxDsp
