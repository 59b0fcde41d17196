import AdxDsp.Bid.Pipeline

/-!
# Bidding among the candidates

The last stage of `BidWork::SelectAd` (`bidbase.cpp`) leaves one creative for each imp: of those
with a deep link, if some have one, the dearest, of these the ones in a category close to what the
user has clicked, and of these a random one.

* `mem_of_mem_bidding`: the bidding only leaves candidates.
* `selected_audience`: the audiences of the policies that win.
-/

namespace AdxDsp

open CText Sieve

namespace BidWork

/-- `BidWork::SelectByDeeplink`. -/
def selectByDeeplink (deepLink : ℤ) (creatives : List CreativeInfo) : List CreativeInfo :=
  if deepLink = 0 ∨ creatives.length = 1 then creatives
  else
    let supports := creatives.filter (·.deeplink ≠ [])
    if supports.length = 0 ∨ supports.length = creatives.length then creatives else supports

/-- One turn of the first loop of `SelectByPrice`: the highest price so far, with its creatives. -/
def selectPrice (prices : List (ℤ × ℤ)) (best : ℤ × List CreativeInfo) (one : CreativeInfo) :
    ℤ × List CreativeInfo :=
  let tmp := (prices.lookup one.mapid).getD 0
  if tmp = 0 ∨ tmp < best.1 then best
  else if tmp = best.1 then (best.1, AddrSet.insert CreativeInfo.addr one best.2)
  else (tmp, [one])

/-- `BidWork::SelectByPrice`. -/
def selectByPrice (prices : List (ℤ × ℤ)) (creatives : List CreativeInfo) : List CreativeInfo :=
  if creatives.length = 1 then creatives
  else (creatives.foldl (selectPrice prices) (0, [])).2

section

variable {ρ : Type} [LinearOrder ρ] [Zero ρ]

/-- `GetMaxRelevancy`; the relevancies may be of any linear order. -/
def getMaxRelevancy (oneAdvcat : ℤ) (advcat : List (Bytes × ρ)) (userAdvcat : List ℤ) : ρ :=
  userAdvcat.foldl (fun highest user =>
    max highest ((advcat.lookup (decimal oneAdvcat ++ bytes "x" ++ decimal user)).getD 0)) 0

variable (advcat : List (Bytes × ρ)) (userAdvcat : List ℤ)

/-- One turn of the loop over the categories in `SelectByAdvcat`.  The highest relevancy is compared
with zero all along, since the source never updates it. -/
def selectAdvcat (sel : List ℤ) (oneAdvcat : ℤ) : List ℤ :=
  if oneAdvcat ∈ userAdvcat then sel
  else
    let relevancy := getMaxRelevancy oneAdvcat advcat userAdvcat
    -- `max_relevancy` is still 0
    if 0 < relevancy then [oneAdvcat]
    else if relevancy = 0 then sel ++ [oneAdvcat]
    else sel

/-- `BidWork::SelectByAdvcat`. -/
def selectByAdvcat (creatives : List CreativeInfo) : List CreativeInfo :=
  if creatives.length = 1 then creatives
  else
    let advcats := AddrSet.insertAll id (creatives.map (·.policy.advcat)) []
    if advcats.length = 1 then creatives
    else
      let sel := advcats.foldl (selectAdvcat advcat userAdvcat) []
      if sel.length = 0 then creatives
      else
        AddrSet.insertAll CreativeInfo.addr
          (sel.flatMap fun one => creatives.filter (·.policy.advcat = one)) []

end

/-- `BidWork::SelectByLast`, with a random number; `none` is the division by zero in
`GetRandomIndex`. -/
def selectByLast (rand : ℕ) (creatives : List CreativeInfo) : Option (List CreativeInfo) :=
  if creatives.length = 0 then none
  else some (creatives[rand % creatives.length]?).toList

/-- What the bidding depends on besides the candidates: the relevancies of the categories and the
random numbers. -/
structure BidInput where
  advcat : List (Bytes × ℚ)
  rand : ImpRef → ℕ

/-- One turn of the loop of `FilterByCreativeBidding`.  The device knows no categories that the user
has clicked: nothing fills them in (`advcats_getDeviceCount`). -/
def bidOne (i : BidInput) (req : ComRequest) (prices : List (ℤ × ℤ)) (imp : ImpRef)
    (creatives : List CreativeInfo) : Option (List CreativeInfo) :=
  selectByLast (i.rand imp)
    (selectByAdvcat i.advcat [] (selectByPrice prices
      (selectByDeeplink req.supportDeepLink creatives)))

/-- The loop of `FilterByCreativeBidding`. -/
def bidEach (i : BidInput) (req : ComRequest) (prices : List (ℤ × ℤ)) :
    List (ImpRef × List CreativeInfo) → Option (List (ImpRef × List CreativeInfo))
  | [] => some []
  | (imp, creatives) :: rest => do
    let kept ← bidOne i req prices imp creatives
    let rest' ← bidEach i req prices rest
    return if kept = [] then rest' else (imp, kept) :: rest'

/-- `BidWork::FilterByCreativeBidding` after a selection. -/
def filterByCreativeBidding (i : BidInput) : Selection → Selection
  | .selected req c =>
    match bidEach i req c.creativePrice c.impCreatives with
    | none => .crashed
    | some [] => .refused
    | some impCreatives => .selected req { c with impCreatives := impCreatives }
  | sel => sel

/-- `BidWork::SelectAd`. -/
def selectAdBid (w : BidWork) (req : ComRequest) (i : BidInput) : ClusterProg Selection := do
  let sel ← w.selectAd req
  return filterByCreativeBidding i sel

/-! ## What the bidding leaves -/

section

variable {creatives : List CreativeInfo} {one : CreativeInfo}

/-- The first choice is among the candidates. -/
theorem mem_of_mem_selectByDeeplink {deepLink : ℤ}
    (h : one ∈ selectByDeeplink deepLink creatives) : one ∈ creatives := by
  simp only [selectByDeeplink] at h
  split_ifs at h
  · exact h
  · exact h
  · exact List.mem_of_mem_filter h

/-- A turn of the choice by price keeps its own creative and those before. -/
theorem mem_of_mem_selectPrice {prices : List (ℤ × ℤ)} {best : ℤ × List CreativeInfo}
    {x : CreativeInfo} (h : one ∈ (selectPrice prices best x).2) : one = x ∨ one ∈ best.2 := by
  simp only [selectPrice] at h
  split_ifs at h
  · exact .inr h
  · exact (AddrSet.mem_insert _).mp h
  · exact .inl (List.mem_singleton.mp h)

/-- The dearest are among the candidates. -/
theorem mem_of_mem_selectByPrice {prices : List (ℤ × ℤ)}
    (h : one ∈ selectByPrice prices creatives) : one ∈ creatives := by
  -- what is kept so far comes from the creatives that were looked at
  have hfold : ∀ (best : ℤ × List CreativeInfo),
      one ∈ (creatives.foldl (selectPrice prices) best).2 → one ∈ creatives ∨ one ∈ best.2 := by
    clear h
    induction creatives with
    | nil => exact fun _ h => .inr h
    | cons x creatives ih =>
      intro best h
      rcases ih _ h with h | h
      · exact .inl (List.mem_cons_of_mem x h)
      · rcases mem_of_mem_selectPrice h with rfl | h
        · exact .inl List.mem_cons_self
        · exact .inr h
  rw [selectByPrice] at h
  split_ifs at h
  · exact h
  · exact (hfold _ h).resolve_right List.not_mem_nil

/-- The choice by category is among the candidates. -/
theorem mem_of_mem_selectByAdvcat {ρ : Type} [LinearOrder ρ] [Zero ρ] {advcat : List (Bytes × ρ)}
    {userAdvcat : List ℤ}
    (h : one ∈ selectByAdvcat advcat userAdvcat creatives) : one ∈ creatives := by
  simp only [selectByAdvcat] at h
  split_ifs at h
  · exact h
  · exact h
  · exact h
  · rw [AddrSet.mem_insertAll, or_iff_left List.not_mem_nil, List.mem_flatMap] at h
    obtain ⟨_, -, h⟩ := h
    exact List.mem_of_mem_filter h

/-- The last choice is among the candidates. -/
theorem mem_of_mem_selectByLast {rand : ℕ} {kept : List CreativeInfo}
    (hkept : selectByLast rand creatives = some kept) (h : one ∈ kept) : one ∈ creatives := by
  rw [selectByLast] at hkept
  split_ifs at hkept
  obtain rfl := Option.some_inj.mp hkept
  exact List.mem_of_getElem? (Option.mem_toList.mp h)

/-- The bidding on an imp leaves creatives of the imp. -/
theorem mem_of_mem_bidOne {i : BidInput} {req : ComRequest} {prices : List (ℤ × ℤ)} {imp : ImpRef}
    {kept : List CreativeInfo} (hkept : bidOne i req prices imp creatives = some kept)
    (h : one ∈ kept) : one ∈ creatives :=
  mem_of_mem_selectByDeeplink (mem_of_mem_selectByPrice
    (mem_of_mem_selectByAdvcat (mem_of_mem_selectByLast hkept h)))

/-- The bidding only leaves candidates. -/
theorem mem_of_mem_bidEach {i : BidInput} {req : ComRequest} {prices : List (ℤ × ℤ)} {imp : ImpRef}
    {m m' : List (ImpRef × List CreativeInfo)} (hm : bidEach i req prices m = some m')
    (h : Pairs m' imp one) : Pairs m imp one := by
  induction m generalizing m' with
  | nil =>
    obtain rfl := Option.some_inj.mp hm
    exact h
  | cons e m ih =>
    obtain ⟨imp₀, creatives₀⟩ := e
    obtain ⟨kept, hkept, hm⟩ := Option.bind_eq_some_iff.mp hm
    obtain ⟨rest, hrest, hm⟩ := Option.bind_eq_some_iff.mp hm
    obtain rfl := Option.some_inj.mp hm
    rw [pairs_cons]
    split_ifs at h
    · exact .inr (ih hrest h)
    · rcases (pairs_cons _ _ _ _ _).mp h with ⟨himp, hone⟩ | h
      · exact .inl ⟨himp, mem_of_mem_bidOne hkept hone⟩
      · exact .inr (ih hrest h)

end

end BidWork

/-! ## Audiences -/

/-- The device is in the white list audiences of the policy and in none of its black list
audiences. -/
def AudiencesFit (policy : PolicyInfo) (audiences : List Bytes) : Prop :=
  ∀ a ∈ policy.audiences, (a.2 = 1 → a.1 ∈ audiences) ∧ (a.2 = 0 → a.1 ∉ audiences)

/-- `FilterAudience` lets the devices pass that fit: by induction over the audiences. -/
theorem filterAudience_eq_success_iff {policy : PolicyInfo} {audiences : List Bytes} :
    policy.filterAudience audiences = .success ↔ AudiencesFit policy audiences := by
  rw [PolicyInfo.filterAudience, AudiencesFit]
  induction policy.audiences with
  | nil => simp [PolicyInfo.filterAudiences]
  | cons a rest ih =>
    obtain ⟨id, kind⟩ := a
    rw [PolicyInfo.filterAudiences, List.forall_mem_cons, ← ih]
    by_cases hid : id ∈ audiences
    · rw [if_neg (not_not.mpr hid)]
      split_ifs with hkind
      · simp [hkind, hid]
      · simp [hkind, hid]
    · rw [if_pos hid]
      split_ifs with hkind
      · simp [hkind, hid]
      · simp [hkind, hid]

section

variable {S : Type} {exec : S → ClusterCmd → S × ClusterReply} {s : S} {w : BidWork}
  {req req' : ComRequest} {i : BidWork.BidInput} {c : Candidates} {imp : ImpRef}
  {creative : CreativeInfo}

/-- What the bidding selects was a candidate. -/
theorem pairs_of_filterByCreativeBidding {sel : BidWork.Selection}
    (hsel : BidWork.filterByCreativeBidding i sel = .selected req' c)
    (hc : Pairs c.impCreatives imp creative) :
    ∃ c₀, sel = .selected req' c₀ ∧ Pairs c₀.impCreatives imp creative := by
  cases sel with
  | crashed => exact absurd hsel (by simp [BidWork.filterByCreativeBidding])
  | refused => exact absurd hsel (by simp [BidWork.filterByCreativeBidding])
  | selected req₀ c₀ =>
    rw [BidWork.filterByCreativeBidding] at hsel
    cases hbid : BidWork.bidEach i req₀ c₀.creativePrice c₀.impCreatives with
    | none =>
      rw [hbid] at hsel
      exact absurd hsel (by simp)
    | some kept =>
      rw [hbid] at hsel
      cases kept with
      | nil => exact absurd hsel (by simp)
      | cons e kept =>
        obtain ⟨rfl, rfl⟩ := BidWork.Selection.selected.inj hsel
        exact ⟨c₀, rfl, BidWork.mem_of_mem_bidEach hbid hc⟩

/-- A candidate has passed the stages after the device was looked up, and the selection has sent
nothing but the commands for that. -/
theorem devicePasses_of_selectAd (hsel : ((w.selectAd req).eval exec s).1 = .selected req' c)
    (hc : Pairs c.impCreatives imp creative) :
    (w.selectAd req).transcript exec s = (getDeviceCount req).transcript exec s ∧
      ((getDeviceCount req).eval exec s).1 ≠ .crashed ∧
        w.DevicePasses req ((getDeviceCount req).eval exec s).1 creative := by
  rw [BidWork.selectAd] at hsel ⊢
  cases hcand : w.selectByRequest req with
  | none =>
    rw [hcand] at hsel
    exact absurd hsel (by simp)
  | some c₀ =>
    rw [hcand, Prog.eval_bind, Prog.pure_eq_ret, Prog.eval_ret] at hsel
    rw [Prog.transcript_bind, Prog.pure_eq_ret, Prog.transcript_ret, List.append_nil]
    split_ifs at hsel with hcrash
    replace hsel : w.selectByDevice req ((getDeviceCount req).eval exec s).1 c₀ =
      .selected req' c := hsel
    have hspec := (@BidWork.selectByDevice_spec w req c₀ ((getDeviceCount req).eval exec s).1).1
    rw [hsel] at hspec
    exact ⟨rfl, hcrash, ((hspec.1 imp creative).mp hc).2⟩

/-- A creative wins only on a device that is in the white list audiences of its policy and in none
of its black list audiences, unless no id of the request could be read. -/
theorem selected_audience (w : BidWork) (req req' : ComRequest) (i : BidWork.BidInput)
    (exec : S → ClusterCmd → S × ClusterReply) (s : S) (c : Candidates)
    (hsel : ((w.selectAdBid req i).eval exec s).1 = .selected req' c) (imp : ImpRef)
    (creative : CreativeInfo) (hc : Pairs c.impCreatives imp creative) :
    ¬AnyRead ((w.selectAdBid req i).transcript exec s) ∨
      ∃ r ∈ req.device.dids ++ req.device.dpids, ∃ d,
        ReadAs ((w.selectAdBid req i).transcript exec s) r d ∧
          AudiencesFit creative.policy d.audiences := by
  rw [BidWork.selectAdBid, Prog.eval_bind, Prog.pure_eq_ret, Prog.eval_ret] at hsel
  rw [BidWork.selectAdBid, Prog.transcript_bind, Prog.pure_eq_ret, Prog.transcript_ret,
    List.append_nil]
  obtain ⟨c₀, hsel₀, hc₀⟩ := pairs_of_filterByCreativeBidding hsel hc
  obtain ⟨htranscript, hcrash, hdevice, -⟩ := devicePasses_of_selectAd hsel₀ hc₀
  have hexplains := @explains_getDeviceCount S exec req s
  rw [htranscript]
  cases hlookup : ((getDeviceCount req).eval exec s).1 with
  | crashed => exact absurd hlookup hcrash
  | unread =>
    rw [hlookup] at hexplains
    exact .inl hexplains
  | read d =>
    rw [hlookup] at hexplains
    obtain ⟨r, hr, hread⟩ := hexplains
    exact .inr ⟨r, hr, d, hread, filterAudience_eq_success_iff.mp (hdevice d hlookup).2⟩

end

/-- A policy for the devices of one audience. -/
def sampleWhitelist : PolicyInfo := { samplePolicy with audiences := [(bytes "7", 1)] }

/-- A creative of this policy. -/
def sampleTargeted : CreativeInfo :=
  { sampleCreative 1 adtypeImage 320 50 with policy := sampleWhitelist }

/-- The candidates that the bidding leaves for this creative. -/
def sampleSelected : Candidates where
  policies := [sampleWhitelist]
  impPolicies := [((sampleImpression, 0), [sampleWhitelist])]
  impCreatives := [((sampleImpression, 0), [sampleTargeted])]
  creativePrice := [(31, 100)]

/-- A cluster that knows every device as a member of audience 7. -/
def sampleCluster (s : Unit) (_ : ClusterCmd) : Unit × ClusterReply :=
  (s, .array [bytes "ap_7", bytes "1"])

/-- The device 123 is read, and is in the audience. -/
theorem selected_audience_sample :
    ¬AnyRead (((sampleWork [sampleTargeted]).selectAdBid (sampleRequest (bytes "a"))
        ⟨[], fun _ => 0⟩).transcript sampleCluster ()) ∨
      ∃ r ∈ [((16 : ℕ), bytes "123")], ∃ d,
        ReadAs (((sampleWork [sampleTargeted]).selectAdBid (sampleRequest (bytes "a"))
          ⟨[], fun _ => 0⟩).transcript sampleCluster ()) r d ∧
            AudiencesFit sampleWhitelist d.audiences :=
  selected_audience (sampleWork [sampleTargeted]) (sampleRequest (bytes "a"))
    (sampleRequest (bytes "a")) ⟨[], fun _ => 0⟩ sampleCluster () sampleSelected
    (by decide +kernel) (sampleImpression, 0) sampleTargeted
    ⟨_, List.mem_singleton.mpr rfl, List.mem_singleton.mpr rfl⟩

/-- When the lookup fails, the creative of the white list wins on a device of which nothing is
known. -/
theorem unread_device_selected :
    (((sampleWork [sampleTargeted]).selectAdBid (sampleRequest (bytes "a"))
        ⟨[], fun _ => 0⟩).eval deafCluster ()).1 =
          .selected (sampleRequest (bytes "a")) sampleSelected ∧
      Pairs sampleSelected.impCreatives (sampleImpression, 0) sampleTargeted ∧
      (bytes "7", 1) ∈ sampleTargeted.policy.audiences ∧
      ¬∃ r ∈ (sampleRequest (bytes "a")).device.dids ++ (sampleRequest (bytes "a")).device.dpids,
        ∃ d, ReadAs (((sampleWork [sampleTargeted]).selectAdBid (sampleRequest (bytes "a"))
          ⟨[], fun _ => 0⟩).transcript deafCluster ()) r d ∧ bytes "7" ∈ d.audiences := by
  have htranscript : ((sampleWork [sampleTargeted]).selectAdBid (sampleRequest (bytes "a"))
      ⟨[], fun _ => 0⟩).transcript deafCluster () =
        [(.command (.hgetall (bytes "did_imei_Clear_123")), .other)] := by
    decide +kernel
  refine ⟨by decide +kernel, ⟨_, List.mem_singleton.mpr rfl, List.mem_singleton.mpr rfl⟩,
    by decide +kernel, ?_⟩
  rintro ⟨r, -, d, ⟨key, elements, -, hmem, -⟩, -⟩
  rw [htranscript] at hmem
  simp at hmem

end AdxDsp
