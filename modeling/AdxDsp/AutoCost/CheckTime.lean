import Mathlib.Data.Finset.Max
import Mathlib.Data.List.Induction
import Mathlib.Data.List.Nodup
import Mathlib.Data.List.Infix
import Mathlib.Tactic.Common
import Mathlib.Tactic.Linarith

/-!
# When the automatic price calculation runs

The main loop of `adx_auto_cost` polls the clock about once a second and calculates when
`auto_bid_check_time` returns 0.  The function keeps `check_status` between the polls: 0 while a
calculation may start, 1 when it has just started, 2 afterwards.  The status only changes in the
minute of a ten-minute boundary.

* **The status** (`statusAfter_eq_zero_iff`): it is 0 exactly when every poll in the first five
  seconds of a boundary has been followed by one in the rest of that minute.
* **The calculations** (`oncePerBoundary_iff`): there is one for each boundary polled in its first
  five seconds, and no other, exactly when the loop does not leave a boundary's minute too early.
-/

namespace AdxDsp.CheckTime

/-- A local clock, as its distance from `time` in seconds at each time.  Where the distance
changes, the clock is moved by a multiple of ten minutes. -/
structure Zone where
  gmtoff : ℤ → ℤ
  moved : ∀ t, (600 : ℤ) ∣ gmtoff t - gmtoff 0

namespace Zone

variable (z : Zone)

/-- The field `tm_min` of `localtime_r`. -/
def tmMin (t : ℤ) : ℤ := (t + z.gmtoff t) / 60 % 60

/-- The field `tm_sec` of `localtime_r`. -/
def tmSec (t : ℤ) : ℤ := (t + z.gmtoff t) % 60

/-- The time that has passed since the last ten-minute boundary of the local clock. -/
def sinceBoundary (t : ℤ) : ℤ := (t + z.gmtoff t) % 600

/-- The time of the last ten-minute boundary of the local clock. -/
def boundary (t : ℤ) : ℤ := t - z.sinceBoundary t

/-- `t` is in the first five seconds after a boundary. -/
abbrev InWindow (t : ℤ) : Prop := z.sinceBoundary t < 5

/-- `t` is in the minute of a boundary, after its first five seconds. -/
abbrev InRest (t : ℤ) : Prop := 5 ≤ z.sinceBoundary t ∧ z.sinceBoundary t < 60

/-- The universal time. -/
def utc : Zone := ⟨fun _ => 0, fun _ => ⟨0, rfl⟩⟩

/-- The seconds since the boundary, by the offset of the zone. -/
theorem sinceBoundary_eq (t : ℤ) : z.sinceBoundary t = (t + z.gmtoff 0) % 600 := by
  obtain ⟨k, hk⟩ := z.moved t
  have : t + z.gmtoff t = t + z.gmtoff 0 + 600 * k := by omega
  rw [sinceBoundary, this, Int.add_mul_emod_self_left]

/-- What the code tests: the minute, and then the second. -/
theorem tmMin_mod_ten (t : ℤ) : z.tmMin t % 10 = 0 ↔ z.sinceBoundary t < 60 := by
  rw [tmMin, sinceBoundary]
  omega

/-- In the minute of a boundary the first five seconds are the window. -/
theorem tmSec_le_four {t : ℤ} (h : z.tmMin t % 10 = 0) : z.tmSec t ≤ 4 ↔ z.InWindow t := by
  rw [tmMin] at h
  show (t + z.gmtoff t) % 60 ≤ 4 ↔ (t + z.gmtoff t) % 600 < 5
  omega

/-- A later time has no earlier boundary. -/
theorem boundary_mono {t u : ℤ} (h : t ≤ u) : z.boundary t ≤ z.boundary u := by
  simp only [boundary, sinceBoundary_eq]
  omega

/-- The minute of one boundary is over before the next boundary. -/
theorem not_inRest_between {t r u : ℤ} (hb : z.boundary t = z.boundary u) (hu : z.InWindow u)
    (htr : t < r) (hru : r < u) : ¬ z.InRest r := by
  simp only [boundary, sinceBoundary_eq] at hb
  show ¬(5 ≤ z.sinceBoundary r ∧ z.sinceBoundary r < 60)
  have hu' : z.sinceBoundary u < 5 := hu
  rw [sinceBoundary_eq] at hu' ⊢
  omega

end Zone

variable (z : Zone)

/-- `auto_bid_check_time` at the time `t`: the returned value, and the `check_status` it leaves. -/
def autoBidCheckTime (checkStatus t : ℤ) : ℤ × ℤ :=
  let checkStatus :=
    if z.tmMin t % 10 = 0 then
      if z.tmSec t ≤ 4 then
        if checkStatus = 0 then 1 else if checkStatus = 1 then 2 else checkStatus
      else 0
    else checkStatus
  (if checkStatus = 1 then 0 else -1, checkStatus)

/-- The loop of `main` from a given `check_status`: the polls at which a calculation starts. -/
def calculationsFrom (checkStatus : ℤ) : List ℤ → List ℤ
  | [] => []
  | t :: polls =>
    let (result, checkStatus) := autoBidCheckTime z checkStatus t
    if result = 0 then t :: calculationsFrom checkStatus polls
    else calculationsFrom checkStatus polls

/-- The calculations of a process that polls at these times. -/
def calculations (polls : List ℤ) : List ℤ := calculationsFrom z 0 polls

/-- `check_status` after the polls. -/
def statusAfter (polls : List ℤ) : ℤ := polls.foldl (fun s t => (autoBidCheckTime z s t).2) 0

/-! ## One poll -/

section Poll

variable {z} {s t : ℤ}

/-- In the window the status goes from 0 to 1 and on to 2. -/
theorem checkTime_window (h : z.InWindow t) :
    (autoBidCheckTime z s t).2 = if s = 0 then 1 else if s = 1 then 2 else s := by
  have hmin : z.tmMin t % 10 = 0 := (z.tmMin_mod_ten t).mpr (by
    have : z.sinceBoundary t < 5 := h
    omega)
  simp only [autoBidCheckTime]
  rw [if_pos hmin, if_pos ((z.tmSec_le_four hmin).mpr h)]

/-- In the rest of the minute the status is reset. -/
theorem checkTime_rest (h : z.InRest t) : (autoBidCheckTime z s t).2 = 0 := by
  have hmin : z.tmMin t % 10 = 0 := (z.tmMin_mod_ten t).mpr h.2
  have hsec : ¬ z.tmSec t ≤ 4 := fun h4 => by
    have : z.sinceBoundary t < 5 := (z.tmSec_le_four hmin).mp h4
    omega
  simp only [autoBidCheckTime]
  rw [if_pos hmin, if_neg hsec]

/-- In the other nine minutes the status stays. -/
theorem checkTime_idle (h : 60 ≤ z.sinceBoundary t) : (autoBidCheckTime z s t).2 = s := by
  have hmin : ¬ z.tmMin t % 10 = 0 := fun h0 => by
    have := (z.tmMin_mod_ten t).mp h0
    omega
  simp only [autoBidCheckTime]
  rw [if_neg hmin]

/-- A poll is in the first five seconds of a boundary, in the rest of its minute, or later. -/
theorem poll_cases (z : Zone) (t : ℤ) : z.InWindow t ∨ z.InRest t ∨ 60 ≤ z.sinceBoundary t := by
  show z.sinceBoundary t < 5 ∨ (5 ≤ z.sinceBoundary t ∧ z.sinceBoundary t < 60) ∨ _
  omega

/-- The check lets the calculation run just with the status 1. -/
theorem checkTime_returns_zero :
    (autoBidCheckTime z s t).1 = 0 ↔ (autoBidCheckTime z s t).2 = 1 := by
  show (if (autoBidCheckTime z s t).2 = 1 then (0 : ℤ) else -1) = 0 ↔ _
  split <;> simp_all

end Poll

/-! ## The polls of a process -/

/-- The status after one more poll. -/
theorem statusAfter_concat (polls : List ℤ) (t : ℤ) :
    statusAfter z (polls ++ [t]) = (autoBidCheckTime z (statusAfter z polls) t).2 := by
  simp [statusAfter]

/-- A poll calculates just if the polls up to it leave the status 1. -/
theorem mem_calculationsFrom {s u : ℤ} {polls : List ℤ} :
    u ∈ calculationsFrom z s polls ↔ ∃ pre post, polls = pre ++ u :: post ∧
      (pre ++ [u]).foldl (fun s t => (autoBidCheckTime z s t).2) s = 1 := by
  induction polls generalizing s with
  | nil => simp [calculationsFrom]
  | cons t polls ih =>
    -- a poll calculates exactly when it leaves the status at 1
    have hhead : u ∈ calculationsFrom z s (t :: polls) ↔
        (u = t ∧ (autoBidCheckTime z s t).2 = 1) ∨
          u ∈ calculationsFrom z (autoBidCheckTime z s t).2 polls := by
      simp only [calculationsFrom, checkTime_returns_zero]
      split <;> simp_all
    rw [hhead, ih]
    constructor
    · rintro (⟨rfl, hs⟩ | ⟨pre, post, rfl, hs⟩)
      · exact ⟨[], polls, rfl, hs⟩
      · exact ⟨t :: pre, post, rfl, hs⟩
    · rintro ⟨pre, post, heq, hs⟩
      cases pre with
      | nil =>
        obtain ⟨rfl, rfl⟩ := List.cons.inj heq
        exact .inl ⟨rfl, hs⟩
      | cons p pre =>
        obtain ⟨rfl, rfl⟩ := List.cons.inj heq
        exact .inr ⟨pre, post, rfl, hs⟩

/-- A calculation starts at the polls that leave `check_status` at 1. -/
theorem mem_calculations {u : ℤ} {polls : List ℤ} :
    u ∈ calculations z polls ↔
      ∃ pre post, polls = pre ++ u :: post ∧ statusAfter z (pre ++ [u]) = 1 :=
  mem_calculationsFrom z

/-- The calculations are among the polls, in their order. -/
theorem calculations_sublist (polls : List ℤ) : (calculations z polls).Sublist polls := by
  suffices h : ∀ s, (calculationsFrom z s polls).Sublist polls from h 0
  intro s
  induction polls generalizing s with
  | nil => exact List.Sublist.refl _
  | cons t polls ih =>
    simp only [calculationsFrom]
    split
    · exact (ih _).cons_cons t
    · exact (ih _).cons t

/-- There are three statuses. -/
theorem statusAfter_cases (polls : List ℤ) :
    statusAfter z polls = 0 ∨ statusAfter z polls = 1 ∨ statusAfter z polls = 2 := by
  induction polls using List.reverseRecOn with
  | nil => exact .inl rfl
  | append_singleton polls t ih =>
    rw [statusAfter_concat]
    rcases poll_cases z t with h | h | h
    · rw [checkTime_window h]
      omega
    · exact .inl (checkTime_rest h)
    · rwa [checkTime_idle h]

variable {z} {polls pre post : List ℤ} {t u : ℤ}

/-- The status is 0 when each poll in a boundary's first five seconds has been followed by one
in the rest of a boundary's minute. -/
theorem statusAfter_eq_zero_iff (hp : polls.Pairwise (· < ·)) :
    statusAfter z polls = 0 ↔
      ∀ t ∈ polls, z.InWindow t → ∃ r ∈ polls, z.InRest r ∧ t < r := by
  induction polls using List.reverseRecOn with
  | nil => simp [statusAfter]
  | append_singleton polls u ih =>
    obtain ⟨hpre, -, hlt⟩ := List.pairwise_append.mp hp
    have hlast : ∀ t ∈ polls, t < u := fun t ht => hlt t ht u (by simp)
    rw [statusAfter_concat]
    rcases poll_cases z u with h | h | h
    · -- a poll that nothing has followed yet
      have hnone : ¬ ∀ t ∈ polls ++ [u], z.InWindow t → ∃ r ∈ polls ++ [u], z.InRest r ∧ t < r := by
        intro hall
        obtain ⟨r, hr, -, hur⟩ := hall u (by simp) h
        rcases List.mem_append.mp hr with hr | hr
        · have := hlast r hr
          omega
        · rw [List.mem_singleton.mp hr] at hur
          omega
      rw [checkTime_window h]
      refine ⟨fun h0 => absurd h0 ?_, fun hall => absurd hall hnone⟩
      split
      · decide
      · split
        · decide
        · assumption
    · -- this poll follows all the others
      rw [checkTime_rest h]
      refine ⟨fun _ t ht hw => ⟨u, by simp, h, ?_⟩, fun _ => rfl⟩
      -- the polls come in order of their times
      rcases List.mem_append.mp ht with ht | ht
      · exact hlast t ht
      · rw [List.mem_singleton.mp ht] at hw
        have h5 := h.1
        have : z.sinceBoundary u < 5 := hw
        omega
    · -- the poll is neither in a window nor in the rest of one
      rw [checkTime_idle h, ih hpre]
      have hnw : ¬ z.InWindow u := fun hw => by
        have : z.sinceBoundary u < 5 := hw
        omega
      have hnr : ¬ z.InRest u := fun hr => by
        have := hr.2
        omega
      constructor
      · intro hall t ht hw
        rcases List.mem_append.mp ht with ht | ht
        · obtain ⟨r, hr, hrest⟩ := hall t ht hw
          exact ⟨r, List.mem_append_left _ hr, hrest⟩
        · exact absurd (List.mem_singleton.mp ht ▸ hw) hnw
      · intro hall t ht hw
        obtain ⟨r, hr, hrest, hlt⟩ := hall t (List.mem_append_left _ ht) hw
        rcases List.mem_append.mp hr with hr | hr
        · exact ⟨r, hr, hrest, hlt⟩
        · exact absurd (List.mem_singleton.mp hr ▸ hrest) hnr

/-! ## The calculations -/

section

variable (z polls)

/-- `t` is the first poll in the first five seconds of its boundary. -/
def FirstInWindow (t : ℤ) : Prop :=
  t ∈ polls ∧ z.InWindow t ∧
    ∀ s ∈ polls, z.InWindow s → z.boundary s = z.boundary t → t ≤ s

/-- One calculation for each boundary in whose first five seconds a poll falls, and no other. -/
structure OncePerBoundary : Prop where
  inTime : ∀ u ∈ calculations z polls, z.InWindow u
  atMostOnce : ((calculations z polls).map z.boundary).Nodup
  atLeastOnce : ∀ t ∈ polls, z.InWindow t → z.boundary t ∈ (calculations z polls).map z.boundary

/-- The loop does not leave the minute of a boundary too early: after the first poll in the first
five seconds of a boundary comes another one in a boundary's minute, and between polls in the
first five seconds of two boundaries there is one in the rest of a boundary's minute. -/
structure MinutePolled : Prop where
  next : ∀ pre t u post, polls = pre ++ t :: u :: post → FirstInWindow z polls t →
    z.sinceBoundary u < 60
  between : ∀ t ∈ polls, ∀ u ∈ polls, z.InWindow t → z.InWindow u →
    z.boundary t < z.boundary u → ∃ r ∈ polls, z.InRest r ∧ t < r ∧ r < u

end

/-- A boundary with a poll in its window has a first one. -/
theorem exists_firstInWindow (ht : t ∈ polls) (hw : z.InWindow t) :
    ∃ u, FirstInWindow z polls u ∧ z.boundary u = z.boundary t := by
  obtain ⟨u, hu, hmin⟩ := Finset.exists_min_image
    (polls.toFinset.filter fun s => z.InWindow s ∧ z.boundary s = z.boundary t) id
    ⟨t, by simp [ht, hw]⟩
  obtain ⟨hmem, hwu, hb⟩ : u ∈ polls ∧ z.InWindow u ∧ z.boundary u = z.boundary t := by
    simpa using hu
  refine ⟨u, ⟨hmem, hwu, fun s hs hws hbs => ?_⟩, hb⟩
  apply hmin s
  simp [hs, hws, hbs.trans hb]

/-- A boundary has one first poll. -/
theorem FirstInWindow.unique (ht : FirstInWindow z polls t) (hu : FirstInWindow z polls u)
    (hb : z.boundary t = z.boundary u) : t = u :=
  le_antisymm (ht.2.2 u hu.1 hu.2.1 hb.symm) (hu.2.2 t ht.1 ht.2.1 hb)

/-- In increasing polls the earlier ones are those that stand before. -/
theorem filter_lt_eq_before (hp : (pre ++ u :: post).Pairwise (· < ·)) :
    (pre ++ u :: post).filter (· < u) = pre := by
  obtain ⟨-, hpost, hlt⟩ := List.pairwise_append.mp hp
  have hpre : pre.filter (· < u) = pre :=
    List.filter_eq_self.mpr fun s hs => by simpa using hlt s hs u (by simp)
  have hrest : (u :: post).filter (· < u) = [] := by
    refine List.filter_eq_nil_iff.mpr fun s hs => ?_
    rcases List.mem_cons.mp hs with rfl | hs
    · simp
    · simpa using (List.rel_of_pairwise_cons hpost hs).le
  rw [List.filter_append, hpre, hrest, List.append_nil]

/-- The polls before one of them are the earlier ones. -/
theorem mem_before_iff {s : ℤ} (hp : (pre ++ u :: post).Pairwise (· < ·)) :
    s ∈ pre ↔ s ∈ pre ++ u :: post ∧ s < u := by
  conv_lhs => rw [← filter_lt_eq_before hp]
  rw [List.mem_filter, decide_eq_true_iff]

/-- A poll in the window calculates just if the status was reset. -/
theorem calculated_window_iff (h : z.InWindow u) :
    statusAfter z (pre ++ [u]) = 1 ↔ statusAfter z pre = 0 := by
  rw [statusAfter_concat, checkTime_window h]
  rcases statusAfter_cases z pre with hs | hs | hs <;> simp [hs]

/-- A calculation in the first five seconds of a boundary starts at the first poll there. -/
theorem firstInWindow_of_calculated (hp : polls.Pairwise (· < ·)) (hu : u ∈ calculations z polls)
    (hw : z.InWindow u) : FirstInWindow z polls u := by
  obtain ⟨pre, post, rfl, hs⟩ := (mem_calculations z).mp hu
  have hzero := (statusAfter_eq_zero_iff (List.pairwise_append.mp hp).1).mp
    ((calculated_window_iff hw).mp hs)
  refine ⟨by simp, hw, fun s hmem hws hb => ?_⟩
  by_contra hlt
  -- an earlier poll there would be followed by one in the rest of the same minute
  obtain ⟨r, hr, hrest, hsr⟩ := hzero s ((mem_before_iff hp).mpr ⟨hmem, not_le.mp hlt⟩) hws
  exact z.not_inRest_between hb hw hsr ((mem_before_iff hp).mp hr).2 hrest

/-- If each boundary has its calculation, the first poll in the window makes it. -/
theorem OncePerBoundary.calculated (h : OncePerBoundary z polls) (hp : polls.Pairwise (· < ·))
    (ht : FirstInWindow z polls t) : t ∈ calculations z polls := by
  obtain ⟨u, hu, hb⟩ := List.mem_map.mp (h.atLeastOnce t ht.1 ht.2.1)
  have hfirst := firstInWindow_of_calculated hp hu (h.inTime u hu)
  rwa [ht.unique hfirst hb.symm]

/-- Before the first poll in a window the status was reset. -/
theorem MinutePolled.statusAfter_eq_zero (h : MinutePolled z polls) (hp : polls.Pairwise (· < ·))
    (hs : polls = pre ++ t :: post) (ht : FirstInWindow z polls t) : statusAfter z pre = 0 := by
  subst hs
  rw [statusAfter_eq_zero_iff (List.pairwise_append.mp hp).1]
  intro s hpre hw
  obtain ⟨hmem, hst⟩ := (mem_before_iff hp).mp hpre
  have hb : z.boundary s < z.boundary t := by
    refine lt_of_le_of_ne (z.boundary_mono hst.le) fun hb => ?_
    have := ht.2.2 s hmem hw hb
    omega
  obtain ⟨r, hr, hrest, hsr, hrt⟩ := h.between s hmem t ht.1 hw ht.2.1 hb
  exact ⟨r, (mem_before_iff hp).mpr ⟨hr, hrt⟩, hrest, hsr⟩

/-- A status of 1 is set by the last poll, or left by it as it was. -/
theorem inWindow_or_statusAfter_eq_one (h : statusAfter z (pre ++ [u]) = 1) :
    z.InWindow u ∨ 60 ≤ z.sinceBoundary u ∧ statusAfter z pre = 1 := by
  rw [statusAfter_concat] at h
  rcases poll_cases z u with hu | hu | hu
  · exact .inl hu
  · rw [checkTime_rest hu] at h
    omega
  · rw [checkTime_idle hu] at h
    exact .inr ⟨hu, h⟩

/-- The status can only be 1 in later minutes if the loop left a boundary's minute right after
the calculation started. -/
theorem MinutePolled.inWindow (h : MinutePolled z polls) (hp : polls.Pairwise (· < ·))
    (hs : polls = pre ++ u :: post) (h1 : statusAfter z (pre ++ [u]) = 1) : z.InWindow u := by
  induction pre using List.reverseRecOn generalizing u post with
  | nil =>
    rcases inWindow_or_statusAfter_eq_one h1 with hu | ⟨-, h0⟩
    · exact hu
    · have : statusAfter z [] = 0 := rfl
      omega
  | append_singleton pre t ih =>
    have hs' : polls = pre ++ t :: u :: post := by rw [hs, List.append_assoc, List.singleton_append]
    rcases inWindow_or_statusAfter_eq_one h1 with hu | ⟨hu, h0⟩
    · exact hu
    · -- the status was 1 before, and the poll before was the first one of its boundary
      have ht := ih hs' h0
      have hcalc := (mem_calculations z).mpr ⟨pre, u :: post, hs', h0⟩
      have := h.next pre t u post hs' (firstInWindow_of_calculated hp hcalc ht)
      omega

/-- One calculation for each boundary needs the polls in the rest of the minute. -/
theorem OncePerBoundary.minutePolled (h : OncePerBoundary z polls)
    (hp : polls.Pairwise (· < ·)) : MinutePolled z polls where
  next pre t u post hs ht := by
    obtain ⟨pre', post', hs', h1⟩ := (mem_calculations z).mp (h.calculated hp ht)
    -- the two places of `t` are one
    obtain rfl : pre' = pre := by
      have hbefore := filter_lt_eq_before (hs ▸ hp)
      rwa [← hs, hs', filter_lt_eq_before (hs' ▸ hp)] at hbefore
    -- behind the minute the next poll would calculate again
    by_contra hidle
    have hcalc : u ∈ calculations z polls := by
      refine (mem_calculations z).mpr ⟨pre' ++ [t], post, by simp [hs], ?_⟩
      rw [statusAfter_concat, checkTime_idle (by omega)]
      exact h1
    have : z.sinceBoundary u < 5 := h.inTime u hcalc
    omega
  between t ht u hu hwt hwu hb := by
    obtain ⟨f, hf, hfb⟩ := exists_firstInWindow hu hwu
    obtain ⟨pre, post, rfl, h1⟩ := (mem_calculations z).mp (h.calculated hp hf)
    -- the second boundary is calculated, so that the status was 0 again before
    have hzero := (statusAfter_eq_zero_iff (List.pairwise_append.mp hp).1).mp
      ((calculated_window_iff hf.2.1).mp h1)
    have htf : t < f := by
      by_contra hle
      have := z.boundary_mono (not_lt.mp hle)
      omega
    obtain ⟨r, hr, hrest, htr⟩ := hzero t ((mem_before_iff hp).mpr ⟨ht, htf⟩) hwt
    obtain ⟨hr, hrf⟩ := (mem_before_iff hp).mp hr
    exact ⟨r, hr, hrest, htr, lt_of_lt_of_le hrf (hf.2.2 u hu hwu hfb.symm)⟩

/-- The polls in the rest of the minute are enough for one calculation for each boundary. -/
theorem MinutePolled.oncePerBoundary (h : MinutePolled z polls)
    (hp : polls.Pairwise (· < ·)) : OncePerBoundary z polls where
  inTime u hu := by
    obtain ⟨pre, post, hs, h1⟩ := (mem_calculations z).mp hu
    exact h.inWindow hp hs h1
  atMostOnce := by
    have hnd : (calculations z polls).Nodup :=
      (calculations_sublist z polls).nodup (hp.imp fun hlt => hlt.ne)
    refine (List.nodup_map_iff_inj_on hnd).mpr fun t ht u hu hb => ?_
    have hfirst : ∀ v ∈ calculations z polls, FirstInWindow z polls v := by
      intro v hv
      obtain ⟨pre, post, hs, h1⟩ := (mem_calculations z).mp hv
      exact firstInWindow_of_calculated hp hv (h.inWindow hp hs h1)
    exact (hfirst t ht).unique (hfirst u hu) hb
  atLeastOnce t ht hw := by
    obtain ⟨f, hf, hfb⟩ := exists_firstInWindow ht hw
    obtain ⟨pre, post, hs⟩ := List.append_of_mem hf.1
    refine List.mem_map.mpr ⟨f, (mem_calculations z).mpr ⟨pre, post, hs, ?_⟩, hfb⟩
    rw [calculated_window_iff hf.2.1]
    exact h.statusAfter_eq_zero hp hs hf

/-- **One calculation for each boundary.**  For polls at increasing times, the calculations are
one for each boundary polled in its first five seconds, at such a poll, and no other, exactly when
the loop does not leave the minute of a boundary too early. -/
theorem oncePerBoundary_iff (z : Zone) (polls : List ℤ) (hp : polls.Pairwise (· < ·)) :
    OncePerBoundary z polls ↔ MinutePolled z polls :=
  ⟨fun h => h.minutePolled hp, fun h => h.oncePerBoundary hp⟩

/-- A calculation that takes from one boundary to the next but one minute. -/
theorem oncePerBoundary_iff_long_calculation :
    OncePerBoundary Zone.utc [0, 70] ↔ MinutePolled Zone.utc [0, 70] :=
  oncePerBoundary_iff Zone.utc [0, 70] (by decide)

/-- A calculation of seventy seconds is followed by another one a minute after the boundary. -/
theorem second_calculation_after_the_minute :
    [0, 70].Pairwise (· < ·) ∧ calculations Zone.utc [0, 70] = [0, 70] ∧
      ¬ OncePerBoundary Zone.utc [0, 70] := by
  have hcalc : calculations Zone.utc [0, 70] = [0, 70] := by decide
  refine ⟨by decide, hcalc, fun h => ?_⟩
  have : Zone.utc.sinceBoundary 70 < 5 := h.inTime 70 (by rw [hcalc]; simp)
  exact absurd this (by decide)

end AdxDsp.CheckTime
