import AdxDsp.Bid.JsonTree

/-!
# The response to letv

`LetvBid::ParseResponse` writes the seats and bids of a response as a JSON document
(`letv_bid.cpp`).  The loops over the URLs of the template use the index of the loop over the bids,
and the object of a bid is put into its array behind the loop.

* **The function**: `buildResponse`, `parseResponse`.
* `ParseRight`: it ends, and its document has each bid of each seat.
* `parse_right_iff`: the responses for which it does.
* `two_bids_and_no_bid`: a seat with two bids, and one without.
-/

namespace AdxDsp

open CText

namespace LetvResponse

open LinkedTrees LinkedTrees.Trees JsonTree

/-! ## The response -/

/-- The fields of a `COM_BIDOBJECT` that are written. -/
structure Bid where
  impid : Bytes
  price : ℤ
  type : ℕ
  ftype : ℕ
  curl : Bytes
  sourceurl : Bytes
  trackUrlPar : Bytes
  imonitorurl : List Bytes
  cmonitorurl : List Bytes
  deriving DecidableEq

/-- The fields of the `COM_RESPONSE`; a seat is its bids. -/
structure Response where
  id : Bytes
  bidid : Bytes
  seatbid : List (List Bid)

/-- The fields of the template of the exchange. -/
structure Template where
  nurl : Bytes
  iurl : List Bytes
  cturl : List Bytes

/-- The value of `type`. -/
def typeText (bid : Bid) : Bytes :=
  if bid.ftype = 0x11 then bytes "image/png"
  else if bid.ftype = 0x12 then bytes "image/jpeg"
  else if bid.ftype = 0x13 then bytes "image/gif"
  else if bid.ftype = 0x21 then bytes "video/x-flv"
  else if bid.ftype = 0x22 then bytes "video/mp4"
  else if bid.type = 7 then bytes "application/x-shockwave-flash"
  else bytes "unknown"

/-- The loop over the URLs of the template, with the index that it ends with. -/
def urlLoop (array : Option ℕ) (trackUrlPar : Bytes) : List Bytes → ℕ → Build ℕ
  | [], j => pure j
  | url :: urls, j => do
    let value ← jsonNewString (url ++ trackUrlPar)
    jsonInsertChild array value
    urlLoop array trackUrlPar urls (j + 1)

/-- The loop over the monitor URLs of a bid. -/
def monitorLoop (array : Option ℕ) (listed : Bytes → Bool) : List Bytes → Build Unit
  | [] => pure ()
  | url :: urls => do
    if listed url then
      let value ← jsonNewString url
      jsonInsertChild array value
    monitorLoop array listed urls

/-- "Imp Url", "Click Url": an array in `ext` if the template has URLs, and the index `j`. -/
def insertUrls (entryExt : Option ℕ) (label : Bytes) (urls : List Bytes) (trackUrlPar : Bytes)
    (listed : Bytes → Bool) (monitors : List Bytes) (j : ℕ) : Build ℕ :=
  if urls = [] then pure j
  else do
    let ext ← jsonNewString label
    let extEntry ← jsonNewValue .array
    let j ← urlLoop extEntry trackUrlPar urls 0
    monitorLoop extEntry listed monitors
    jsonInsertChild ext extEntry
    jsonInsertChild entryExt ext
    pure j

/-- The body of the loop over the bids. -/
def bidBody (tmpl : Template) (bid : Bid) (j : ℕ) : Build (ℕ × Option ℕ) := do
  let entryBid ← jsonNewValue .object
  let labelExt ← jsonNewString (bytes "ext")
  let entryExt ← jsonNewValue .object
  jsonInsertString entryBid (bytes "id") bid.impid
  jsonInsertString entryBid (bytes "impid") bid.impid
  jsonInsertFloat entryBid (bytes "price") bid.price
  jsonInsertString entryBid (bytes "nurl") (tmpl.nurl ++ bid.trackUrlPar)
  jsonInsertString entryBid (bytes "adm") bid.sourceurl
  jsonInsertString entryExt (bytes "ldp") bid.curl
  -- `c_str()` is never `NULL`
  let j ← insertUrls entryExt (bytes "pm") tmpl.iurl bid.trackUrlPar (fun _ => true)
    bid.imonitorurl j
  let j ← insertUrls entryExt (bytes "cm") tmpl.cturl bid.trackUrlPar (fun url => url ≠ [])
    bid.cmonitorurl j
  jsonInsertString entryExt (bytes "type") (typeText bid)
  jsonInsertChild labelExt entryExt
  jsonInsertChild entryBid labelExt
  pure (j, entryBid)

/-- The loop over the bids of a seat. -/
def bidLoop (tmpl : Template) (bids : List Bid) : ℕ → ℕ → Option ℕ → Build (Option ℕ)
  | 0, _, _ => fun _ => none
  | fuel + 1, j, entryBid =>
    match bids[j]? with
    | none => pure entryBid
    | some bid => do
      let (j, entryBid) ← bidBody tmpl bid j
      bidLoop tmpl bids fuel (j + 1) entryBid

/-- The pointers that stay from one seat to the next. -/
structure Vars where
  labelBid : Option ℕ
  arrayBid : Option ℕ
  entryBid : Option ℕ

/-- What is done for a seat that has bids. -/
def seatBids (tmpl : Template) (fuel : ℕ) (seat : List Bid) (vars : Vars) : Build Vars := do
  let labelBid ← jsonNewString (bytes "bid")
  let arrayBid ← jsonNewValue .array
  let entryBid ← bidLoop tmpl seat fuel 0 vars.entryBid
  jsonInsertChild arrayBid entryBid
  pure ⟨labelBid, arrayBid, entryBid⟩

/-- The body of the loop over the seats. -/
def seatBody (tmpl : Template) (fuel : ℕ) (arraySeatbid : Option ℕ) (seat : List Bid)
    (vars : Vars) : Build Vars := do
  let entrySeatbid ← jsonNewValue .object
  let vars ← (if seat = [] then pure vars else seatBids tmpl fuel seat vars)
  jsonInsertChild vars.labelBid vars.arrayBid
  jsonInsertChild entrySeatbid vars.labelBid
  jsonInsertChild arraySeatbid entrySeatbid
  pure vars

/-- The loop over the seats. -/
def seatLoop (tmpl : Template) (fuel : ℕ) (arraySeatbid : Option ℕ) :
    List (List Bid) → Vars → Build Unit
  | [], _ => pure ()
  | seat :: seats, vars => do
    let vars ← seatBody tmpl fuel arraySeatbid seat vars
    seatLoop tmpl fuel arraySeatbid seats vars

/-- The tree that `ParseResponse` builds for a response with seats. -/
def buildResponse (fuel : ℕ) (tmpl : Template) (resp : Response) : Build (Option ℕ) := do
  let root ← jsonNewValue .object
  jsonInsertString root (bytes "id") resp.id
  jsonInsertString root (bytes "bidid") resp.bidid
  let labelSeatbid ← jsonNewString (bytes "seatbid")
  let arraySeatbid ← jsonNewValue .array
  seatLoop tmpl fuel arraySeatbid resp.seatbid ⟨none, none, none⟩
  jsonInsertChild labelSeatbid arraySeatbid
  jsonInsertChild root labelSeatbid
  pure root

/-- The answer with a document. -/
def answer (text : Bytes) : Bytes :=
  bytes "Content-Type: application/json\r\nContent-Length: " ++ decimal (toInt32 text.length) ++
    bytes "\r\n\r\n" ++ text

/-- `LetvBid::ParseResponse`; `none` if it does not end, or is aborted. -/
def parseResponse (fuel : ℕ) (selAd : Bool) (tmpl : Template) (resp : Response) : Option Bytes :=
  if ¬ selAd ∨ resp.seatbid = [] then some (bytes "Status: 204 OK\r\n\r\n")
  else do
    let (root, s) ← buildResponse fuel tmpl resp []
    let root ← root
    let text ← jsonTreeToString s root fuel .opening root []
    return answer text

/-! ## What it should do -/

/-- `json_find_first_label`: the value of the first field with a label. -/
def lookup (label : Bytes) : Trees JsonValue → Option (JsonValue × Trees JsonValue)
  | .nil => none
  | .cons v children siblings =>
    if v = .string (cstr label) then children.roots.head? else lookup label siblings

/-- The elements of an array in a field. -/
def arrayAt (label : Bytes) (fields : Trees JsonValue) :
    Option (List (JsonValue × Trees JsonValue)) :=
  match lookup label fields with
  | some (.array, elements) => some elements.roots
  | _ => none

/-- The URLs that an array lists; without an array there are none. -/
def urlsAt (label : Bytes) (fields : Trees JsonValue) : List JsonValue :=
  ((arrayAt label fields).getD []).map Prod.fst

/-- The URLs of the template, and behind them the monitor URLs of the bid; an empty text is no
URL. -/
def urls (tmplUrls monitors : List Bytes) (bid : Bid) : List JsonValue :=
  (tmplUrls.map (· ++ bid.trackUrlPar) ++ monitors.filter fun url => url ≠ []).map fun url =>
    .string (cstr url)

/-- The object of a bid. -/
structure BidListed (tmpl : Template) (bid : Bid) (entry : JsonValue × Trees JsonValue) :
    Prop where
  object : entry.1 = .object
  id : lookup (bytes "id") entry.2 = some (.string (cstr bid.impid), .nil)
  price : lookup (bytes "price") entry.2 = some (.number (twoPlaces bid.price), .nil)
  nurl : lookup (bytes "nurl") entry.2 =
    some (.string (cstr (tmpl.nurl ++ bid.trackUrlPar)), .nil)
  adm : lookup (bytes "adm") entry.2 = some (.string (cstr bid.sourceurl), .nil)
  ext : ∃ ext, lookup (bytes "ext") entry.2 = some (.object, ext) ∧
    urlsAt (bytes "pm") ext = urls tmpl.iurl bid.imonitorurl bid ∧
    urlsAt (bytes "cm") ext = urls tmpl.cturl bid.cmonitorurl bid

/-- The object of a seat, with one object for each bid. -/
def SeatListed (tmpl : Template) (seat : List Bid) (entry : JsonValue × Trees JsonValue) : Prop :=
  entry.1 = .object ∧
    ∃ bids, arrayAt (bytes "bid") entry.2 = some bids ∧ List.Forall₂ (BidListed tmpl) seat bids

/-- The fields of the document, with one entry for each seat. -/
def SeatsListed (tmpl : Template) (resp : Response) (fields : Trees JsonValue) : Prop :=
  ∃ entries, arrayAt (bytes "seatbid") fields = some entries ∧
    List.Forall₂ (SeatListed tmpl) resp.seatbid entries

/-- `ParseResponse` ends.  If an ad has been selected, it has built a tree in which all seats are
listed, and its answer is the text of the tree. -/
def ParseRight (selAd : Bool) (tmpl : Template) (resp : Response) : Prop :=
  ∃ fuel result, parseResponse fuel selAd tmpl resp = some result ∧
    (selAd = true → resp.seatbid ≠ [] → ∃ root s children,
      buildResponse fuel tmpl resp [] = some (some root, s) ∧
      Layout s none none (single (root, .object) children) ∧
      result = answer (print .object children.erase) ∧ SeatsListed tmpl resp children.erase)

/-! ## Where it does it -/

/-- The monitor URLs of a bid can be listed: the template has URLs before which they come, and no
URL of an impression is empty. -/
structure MonitorsListed (tmpl : Template) (bid : Bid) : Prop where
  pm : if tmpl.iurl = [] then ∀ url ∈ bid.imonitorurl, url = [] else [] ∉ bid.imonitorurl
  cm : tmpl.cturl = [] → ∀ url ∈ bid.cmonitorurl, url = []

/-- Each seat has exactly one bid. -/
def SingleBids (tmpl : Template) (resp : Response) : Prop :=
  ∀ seat ∈ resp.seatbid, ∃ bid, seat = [bid] ∧ MonitorsListed tmpl bid

/-! ## The object of a bid -/

section

variable {base s s' : Store JsonValue} {items : List Item} {tmpl : Template} {bid : Bid}
  {p : Option ℕ} {children : Trees JsonValue}

/-- Strings in an array. -/
def strings (texts : List Bytes) : Trees JsonValue :=
  ofRoots (texts.map fun text => (.string (cstr text), .nil))

/-- The array of URLs, or nothing. -/
def urlField (label : Bytes) (tmplUrls : List Bytes) (trackUrlPar : Bytes)
    (listed : Bytes → Bool) (monitors : List Bytes) : Trees JsonValue :=
  if tmplUrls = [] then .nil
  else field label .array (strings (tmplUrls.map (· ++ trackUrlPar) ++ monitors.filter listed))

/-- The fields of `ext`. -/
def extFields (tmpl : Template) (bid : Bid) : Trees JsonValue :=
  (field (bytes "ldp") (.string (cstr bid.curl)) .nil).append <|
    (urlField (bytes "pm") tmpl.iurl bid.trackUrlPar (fun _ => true) bid.imonitorurl).append <|
    (urlField (bytes "cm") tmpl.cturl bid.trackUrlPar (fun url => url ≠ [])
      bid.cmonitorurl).append <|
    field (bytes "type") (.string (cstr (typeText bid))) .nil

/-- The fields of the object of a bid. -/
def bidFields (tmpl : Template) (bid : Bid) : Trees JsonValue :=
  (field (bytes "id") (.string (cstr bid.impid)) .nil).append <|
    (field (bytes "impid") (.string (cstr bid.impid)) .nil).append <|
    (field (bytes "price") (.number (cstr (twoPlaces bid.price))) .nil).append <|
    (field (bytes "nurl") (.string (cstr (tmpl.nurl ++ bid.trackUrlPar))) .nil).append <|
    (field (bytes "adm") (.string (cstr bid.sourceurl)) .nil).append <|
    field (bytes "ext") .object (extFields tmpl bid)

/-- The index behind the loops over the URLs. -/
def endIndex (tmpl : Template) (j : ℕ) : ℕ :=
  if tmpl.cturl ≠ [] then tmpl.cturl.length else if tmpl.iurl ≠ [] then tmpl.iurl.length else j

@[simp] theorem strings_nil : strings [] = .nil := rfl

/-- The strings of two lists. -/
theorem strings_append (texts texts' : List Bytes) :
    strings (texts ++ texts') = (strings texts).append (strings texts') := by
  induction texts with
  | nil => rfl
  | cons text texts ih =>
    show Trees.cons _ _ (strings (texts ++ texts')) = _
    rw [ih]
    rfl

/-- The loop adds a string for each address of the template. -/
theorem runs_urlLoop (trackUrlPar : Bytes) (tmplUrls : List Bytes) (j : ℕ) :
    Runs (Has base ((p, .array, children) :: items)) (urlLoop p trackUrlPar tmplUrls j)
      fun j' s => j' = j + tmplUrls.length ∧ Has base
        ((p, .array, children.append (strings (tmplUrls.map (· ++ trackUrlPar)))) :: items) s := by
  induction tmplUrls generalizing children j with
  | nil =>
    refine Runs.pure fun s hs => ⟨rfl, ?_⟩
    rw [List.map_nil, strings_nil, append_nil]
    exact hs
  | cons url tmplUrls ih =>
    refine (runs_jsonNewValue _).bind fun value => runs_perm (.swap _ _ _) ?_
    refine (runs_jsonInsertChild fun _ h => by exact h rfl).bind fun _ => ?_
    refine (ih (j + 1)).mono (fun _ hs => hs) ?_
    rintro j' s ⟨rfl, hs⟩
    refine ⟨by rw [List.length_cons]; omega, ?_⟩
    rw [append_assoc] at hs
    exact hs

/-- The loop adds a string for each monitor that is listed. -/
theorem runs_monitorLoop (listed : Bytes → Bool) (monitors : List Bytes) :
    Runs (Has base ((p, .array, children) :: items)) (monitorLoop p listed monitors)
      fun _ => Has base
        ((p, .array, children.append (strings (monitors.filter listed))) :: items) := by
  induction monitors generalizing children with
  | nil =>
    refine Runs.pure fun s hs => ?_
    rw [List.filter_nil, strings_nil, append_nil]
    exact hs
  | cons url monitors ih =>
    rw [monitorLoop]
    cases hlisted : listed url with
    | false =>
      rw [List.filter_cons_of_neg (by rw [hlisted]; exact Bool.false_ne_true)]
      exact ih
    | true =>
      rw [List.filter_cons_of_pos hlisted]
      refine (runs_jsonNewValue _).bind fun value => runs_perm (.swap _ _ _) ?_
      refine (runs_jsonInsertChild fun _ h => by exact h rfl).bind fun _ => ?_
      refine ih.mono (fun _ hs => hs) fun _ s hs => ?_
      rw [append_assoc] at hs
      exact hs

/-- The addresses under their label, if the template has some. -/
theorem runs_insertUrls (label : Bytes) (tmplUrls : List Bytes) (trackUrlPar : Bytes)
    (listed : Bytes → Bool) (monitors : List Bytes) (j : ℕ) :
    Runs (Has base ((p, .object, children) :: items))
      (insertUrls p label tmplUrls trackUrlPar listed monitors j)
      fun j' s => j' = (if tmplUrls = [] then j else tmplUrls.length) ∧ Has base
        ((p, .object,
          children.append (urlField label tmplUrls trackUrlPar listed monitors)) :: items) s := by
  rw [insertUrls, urlField]
  split_ifs with hnil
  · refine Runs.pure fun s hs => ⟨rfl, ?_⟩
    rw [append_nil]
    exact hs
  · refine (runs_jsonNewValue _).bind fun ext => (runs_jsonNewValue _).bind fun entry => ?_
    refine (runs_urlLoop trackUrlPar tmplUrls 0).bind fun j' s ⟨hj, hs⟩ => ?_
    refine ((runs_monitorLoop listed monitors).bind fun _ => ?_) s hs
    refine runs_perm (.swap _ _ _) ((runs_jsonInsertChild fun _ _ => rfl).bind fun _ => ?_)
    refine runs_perm (.swap _ _ _) ((runs_jsonInsertChild fun _ _ => rfl).bind fun _ => ?_)
    refine Runs.pure fun s hs => ⟨by rw [hj, Nat.zero_add], ?_⟩
    rw [strings_append]
    exact hs

/-- The third of a list put first. -/
theorem perm_rotate {α : Type} (a b c : α) (l : List α) :
    (a :: b :: c :: l).Perm (c :: a :: b :: l) :=
  (List.perm_middle : ([a, b] ++ c :: l).Perm (c :: ([a, b] ++ l)))

/-- The body of the loop over the bids makes the object of a bid. -/
theorem runs_bidBody (tmpl : Template) (bid : Bid) (j : ℕ) :
    Runs (Has base items) (bidBody tmpl bid j) fun r s => r.1 = endIndex tmpl j ∧
      Has base ((r.2, .object, bidFields tmpl bid) :: items) s := by
  refine (runs_jsonNewValue _).bind fun entryBid => (runs_jsonNewValue _).bind fun labelExt => ?_
  refine (runs_jsonNewValue _).bind fun entryExt => ?_
  refine runs_perm (perm_rotate _ _ _ _) ?_
  refine (runs_jsonInsertString _ _).bind fun _ => (runs_jsonInsertString _ _).bind fun _ => ?_
  refine (runs_jsonInsertFloat _ _).bind fun _ => (runs_jsonInsertString _ _).bind fun _ => ?_
  refine (runs_jsonInsertString _ _).bind fun _ => ?_
  refine runs_perm (perm_rotate _ _ _ _).symm ?_
  refine (runs_jsonInsertString _ _).bind fun _ => ?_
  refine (runs_insertUrls _ _ _ _ _ _).bind fun j₁ s ⟨hj₁, hs⟩ => ?_
  refine ((runs_insertUrls _ _ _ _ _ j₁).bind fun j₂ s ⟨hj₂, hs⟩ => ?_) s hs
  refine ((runs_jsonInsertString _ _).bind fun _ => runs_perm (.swap _ _ _) ?_) s hs
  refine (runs_jsonInsertChild fun _ _ => rfl).bind fun _ => runs_perm (.swap _ _ _) ?_
  refine (runs_jsonInsertChild fun _ _ => rfl).bind fun _ => Runs.pure fun s hs => ⟨?_, ?_⟩
  · show j₂ = _
    rw [hj₂, hj₁, endIndex]
    split_ifs <;> first | rfl | contradiction
  · simpa only [bidFields, extFields, append_assoc, nil_append, field] using hs

end

/-! ## The loop over the bids -/

section

variable {base s s' : Store JsonValue} {tmpl : Template} {bids seat : List Bid} {vars vars' : Vars}
  {fuel j : ℕ} {entryBid r : Option ℕ}

/-- If the loop ends, it has kept one of the bids. -/
theorem bidLoop_some (h : bidLoop tmpl bids fuel j entryBid s = some (r, s'))
    (hj : j < bids.length) : ∃ bid ∈ bids, Has s [(r, .object, bidFields tmpl bid)] s' := by
  induction fuel generalizing j entryBid s with
  | zero => cases h
  | succ fuel ih =>
    rw [bidLoop, List.getElem?_eq_getElem hj] at h
    obtain ⟨⟨j', e⟩, s₁, hbody, hloop⟩ := bind_eq_some h
    obtain ⟨-, hs₁⟩ := (runs_bidBody tmpl bids[j] j).of_eq (Has.nil s) hbody
    have hrest : bidLoop tmpl bids fuel (j' + 1) e s₁ = some (r, s') := hloop
    by_cases hnext : j' + 1 < bids.length
    · obtain ⟨bid, hmem, hhas⟩ := ih hrest hnext
      exact ⟨bid, hmem, hhas.of_prefix hs₁.grown⟩
    · cases fuel with
      | zero => cases hrest
      | succ fuel =>
        rw [bidLoop, List.getElem?_eq_none (not_lt.mp hnext)] at hrest
        obtain ⟨rfl, rfl⟩ := Prod.mk.inj (Option.some.inj hrest)
        exact ⟨bids[j], List.getElem_mem hj, hs₁⟩

/-- With URLs in the template, the loop does not come to the end of many bids. -/
theorem bidLoop_eq_none (htmpl : tmpl.iurl ≠ [] ∨ tmpl.cturl ≠ []) (hj : j < bids.length)
    (hmany : endIndex tmpl 0 + 1 < bids.length) : bidLoop tmpl bids fuel j entryBid s = none := by
  induction fuel generalizing j entryBid s with
  | zero => rfl
  | succ fuel ih =>
    rw [bidLoop, List.getElem?_eq_getElem hj]
    obtain ⟨⟨j', e⟩, s₁, hbody, hend, -⟩ := runs_bidBody tmpl bids[j] j s (Has.nil s)
    have hindex : j' = endIndex tmpl 0 := by
      rw [show j' = endIndex tmpl j from hend, endIndex, endIndex]
      split_ifs with hcturl hiurl
      · rfl
      · rfl
      · exact absurd htmpl (not_or.mpr ⟨hiurl, hcturl⟩)
    refine Option.bind_eq_none_iff.mpr fun r hr => ?_
    obtain rfl := Option.some.inj (hbody.symm.trans hr)
    exact ih (by rw [hindex]; exact hmany)

/-- One bid is kept. -/
theorem runs_bidLoop {items : List Item} (bid : Bid) (fuel : ℕ) (entryBid : Option ℕ) :
    Runs (Has base items) (bidLoop tmpl [bid] (fuel + 2) 0 entryBid) fun r =>
      Has base ((r, .object, bidFields tmpl bid) :: items) :=
  (runs_bidBody tmpl bid 0).bind fun _ => Runs.pure fun _ h => h.2

/-- The label and the array of a seat that has bids. -/
theorem seatBids_some (h : seatBids tmpl fuel seat vars s = some (vars', s')) (hseat : seat ≠ []) :
    ∃ bid ∈ seat, ∃ l a : Root JsonValue, Holds s [l, a] s' ∧
      vars'.labelBid = some l.addr ∧ vars'.arrayBid = some a.addr ∧
      l.value = .string (cstr (bytes "bid")) ∧ l.children = .nil ∧ a.value = .array ∧
      a.children.erase = single .object (bidFields tmpl bid) := by
  obtain ⟨labelBid, s₁, hlabel, h⟩ := bind_eq_some h
  obtain ⟨arrayBid, s₂, harray, h⟩ := bind_eq_some h
  obtain ⟨entryBid, s₃, hloop, h⟩ := bind_eq_some h
  obtain ⟨⟨⟩, s₄, hinsert, h⟩ := bind_eq_some h
  obtain ⟨rfl, rfl⟩ := Prod.mk.inj (Option.some.inj h)
  have hs₁ := (runs_jsonNewValue _).of_eq (Has.nil s) hlabel
  have hs₂ := (runs_jsonNewValue _).of_eq hs₁ harray
  obtain ⟨bid, hmem, hhas⟩ := bidLoop_some hloop (List.length_pos_iff.mpr hseat)
  have hs₃ := (hs₂.frame hhas).perm (.swap _ _ _)
  have hs₄ := (runs_jsonInsertChild fun _ _ => rfl).of_eq hs₃ hinsert
  obtain ⟨roots, hholds, hroots⟩ := (hs₄.perm (.swap _ _ _)).exists_holds
  obtain ⟨l, roots', rfl, hl, hroots⟩ := List.map_eq_cons_iff.mp hroots
  obtain ⟨a, roots, rfl, ha, hroots⟩ := List.map_eq_cons_iff.mp hroots
  obtain rfl := List.map_eq_nil_iff.mp hroots
  obtain ⟨hl₁, hl⟩ := Prod.mk.inj hl
  obtain ⟨hl₂, hl₃⟩ := Prod.mk.inj hl
  obtain ⟨ha₁, ha⟩ := Prod.mk.inj ha
  obtain ⟨ha₂, ha₃⟩ := Prod.mk.inj ha
  exact ⟨bid, hmem, l, a, hholds, hl₁.symm, ha₁.symm, hl₂, erase_eq_nil.mp hl₃, ha₂, ha₃⟩

end

/-! ## A seat without bids -/

/-- An array whose last entry has nothing behind it. -/
structure Open (s : Store JsonValue) (a : ℕ) (cell : Cell JsonValue) : Prop where
  here : s[a]? = some cell
  value : cell.value = .array
  last : cell.child ≠ none → ∃ e last, cell.childEnd = some e ∧ s[e]? = some last ∧
    last.value = .object ∧ last.next = none ∧ a < e ∧ Reaches s a e

/-- The label and the array of a seat that has bids, which `label_bid` and `array_bid` still point
to in the next seat. -/
structure Labelled (s : Store JsonValue) (a l r : ℕ) (label array : Cell JsonValue) : Prop where
  labelHere : s[l]? = some label
  labelValue : isString label.value = true
  child : label.child = some r
  childEnd : label.childEnd = some r
  arrayHere : s[r]? = some array
  arrayValue : array.value = .array
  next : array.next = none ∨ array.next = some r
  lt_label : a < l
  lt_array : a < r

/-- What the links of a seat leave as it was: all pointers to children and to the cells behind, and
all cells before the array of the seats. -/
structure Keeps (s s' : Store JsonValue) (a : ℕ) : Prop where
  edge : ∀ x y, Edge s x y → Edge s' x y
  before : ∀ x < a, s'[x]? = s[x]?

section

variable {s s' s'' : Store JsonValue} {a b l r : ℕ} {cell entry label array : Cell JsonValue}

/-- What is kept twice is kept. -/
theorem Keeps.trans (h : Keeps s s' a) (h' : Keeps s' s'' a) : Keeps s s'' a where
  edge x y hedge := h'.edge x y (h.edge x y hedge)
  before x hx := (h'.before x hx).trans (h.before x hx)

/-- The paths are kept. -/
theorem Keeps.reaches (h : Keeps s s' a) {x y : ℕ} (hreach : Reaches s x y) : Reaches s' x y :=
  hreach.of_edges h.edge

/-- A memory that grows keeps what was there. -/
theorem Keeps.of_prefix (h : s <+: s') (ha : a ≤ s.length) : Keeps s s' a where
  edge _ _ hedge := hedge.mono h
  before _ hx := getElem?_of_grown h (hx.trans_le ha)

/-- The array is still one whose last entry has nothing behind it, if it and the objects are what
they were. -/
theorem Open.of_kept (h : Open s a cell) (hhere : s'[a]? = some cell)
    (hobject : ∀ (x : ℕ) (other : Cell JsonValue), s[x]? = some other → other.value = .object →
      s'[x]? = some other)
    (hedge : ∀ x y, Edge s x y → Edge s' x y) : Open s' a cell := by
  refine ⟨hhere, h.value, fun hchild => ?_⟩
  obtain ⟨e, last, hend, hlast, hvalue, hnone, hae, hreach⟩ := h.last hchild
  exact ⟨e, last, hend, hobject e last hlast hvalue, hvalue, hnone, hae, hreach.of_edges hedge⟩

/-- An open cell stays one while the memory grows. -/
theorem Open.mono (h : Open s a cell) (hs : s <+: s') : Open s' a cell := by
  have hold : ∀ (x : ℕ) (other : Cell JsonValue), s[x]? = some other → s'[x]? = some other := by
    intro x other hx
    rw [getElem?_of_grown hs (List.getElem?_eq_some_iff.mp hx).1, hx]
  exact h.of_kept (hold a cell h.here) (fun x other hx _ => hold x other hx)
    fun _ _ hedge => hedge.mono hs

/-- A new cell is not the last entry. -/
theorem Open.childEnd_ne (h : Open s a cell) (hb : s.length ≤ b) :
    cell.child ≠ none → cell.childEnd ≠ some b := by
  intro hchild hend
  obtain ⟨e, last, hend', hlast, -⟩ := h.last hchild
  have hlt := (List.getElem?_eq_some_iff.mp hlast).1
  rw [Option.some.inj (hend'.symm.trans hend)] at hlt
  exact absurd hlt (not_lt.mpr hb)

/-- An entry behind the others.  Other cells than objects are not changed. -/
theorem Open.insert (h : Open s a cell) (hentry : s[b]? = some entry)
    (hvalue : entry.value = .object) (hnext : entry.next = none) (hab : a < b)
    (hfresh : cell.child ≠ none → cell.childEnd ≠ some b) :
    ∃ s' cell', jsonInsertChild (some a) (some b) s = some ((), s') ∧ Open s' a cell' ∧
      Keeps s s' a ∧ Reaches s' a b ∧
      ∀ x other, x ≠ a → s[x]? = some other → other.value ≠ .object → s'[x]? = some other := by
  have haccepts : accepts cell.value entry.value entry.child.isNone = true := by
    rw [h.value, hvalue]
    rfl
  have hne : ∀ {x y : ℕ} {object other : Cell JsonValue}, s[y]? = some object →
      object.value = .object → s[x]? = some other → other.value ≠ .object → x ≠ y := by
    rintro x y object other hy hobject hx hother rfl
    exact hother (Option.some.inj (hx.symm.trans hy) ▸ hobject)
  by_cases hchild : cell.child = none
  · -- the first entry
    obtain ⟨s', hs', hcells, hkeep⟩ :=
      jsonInsertChild_first hab.ne h.here hentry haccepts hchild
    have hroot : s'[a]? = some { cell with child := some b, childEnd := some b } := by
      simp [hcells, h.here, hab.ne]
    have hreach : Reaches s' a b := .single ⟨_, hroot, .inl rfl⟩
    refine ⟨s', _, hs', ⟨hroot, h.value, fun _ => ⟨b, { entry with parent := some a }, rfl, ?_,
      hvalue, hnext, hab, hreach⟩⟩, ⟨hkeep, fun x hx => ?_⟩, hreach, ?_⟩
    · simp [hcells, hentry, hab.ne']
    · simp [hcells, hx.ne, (hx.trans hab).ne]
    · intro x other hxa hx hother
      simp [hcells, hx, hxa, hne hentry hvalue hx hother]
  · -- the way to the last entry goes on to the new one
    obtain ⟨e, last, hend, hlast, hobject, hnone, hae, hreach⟩ := h.last hchild
    have heb : e ≠ b := fun heq => hfresh hchild (heq ▸ hend)
    obtain ⟨s', hs', hcells, hkeep⟩ :=
      jsonInsertChild_behind hab.ne h.here hentry haccepts hchild hend hlast hae.ne' (.inl hnone)
    have hroot : s'[a]? = some { cell with childEnd := some b } := by
      simp [hcells, h.here, hab.ne, hae.ne]
    have hedge : Edge s' e b :=
      ⟨{ last with next := some b }, by simp [hcells, hlast, heb, hae.ne'], .inr rfl⟩
    have hreach' : Reaches s' a b := (hreach.of_edges hkeep).tail hedge
    refine ⟨s', _, hs', ⟨hroot, h.value, fun _ =>
      ⟨b, { entry with parent := some a, previous := some e }, rfl, ?_, hvalue, hnext, hab,
        hreach'⟩⟩, ⟨hkeep, fun x hx => ?_⟩, hreach', ?_⟩
    · simp [hcells, hentry, hab.ne', heb.symm]
    · simp [hcells, hx.ne, (hx.trans hab).ne, (hx.trans hae).ne]
    · intro x other hxa hx hother
      simp [hcells, hx, hxa, hne hentry hvalue hx hother, hne hlast hobject hx hother]

/-- A label and its array are two cells. -/
theorem Labelled.ne (h : Labelled s a l r label array) : l ≠ r := by
  rintro rfl
  have hvalue := h.labelValue
  rw [Option.some.inj (h.labelHere.symm.trans h.arrayHere), h.arrayValue] at hvalue
  cases hvalue

/-- A label is no object. -/
theorem Labelled.label_ne_object (h : Labelled s a l r label array) : label.value ≠ .object := by
  intro hvalue
  have hstring := h.labelValue
  rw [hvalue] at hstring
  cases hstring

/-- An array is no object. -/
theorem Labelled.array_ne_object (h : Labelled s a l r label array) : array.value ≠ .object := by
  rw [h.arrayValue]
  exact fun heq => nomatch heq

/-- A labelled array stays one while the memory grows. -/
theorem Labelled.mono (h : Labelled s a l r label array) (hs : s <+: s') :
    Labelled s' a l r label array := by
  have hold : ∀ {x : ℕ} {other : Cell JsonValue}, s[x]? = some other → s'[x]? = some other := by
    intro x other hx
    rw [getElem?_of_grown hs (List.getElem?_eq_some_iff.mp hx).1, hx]
  exact { h with labelHere := hold h.labelHere, arrayHere := hold h.arrayHere }

/-- The array gets behind itself, and the label into a new entry. -/
theorem Labelled.relink (h : Labelled s a l r label array) (hb : s[b]? = some (Cell.new .object))
    (hbl : b ≠ l) (hbr : b ≠ r) :
    ∃ s₁ s₂ label' array', jsonInsertChild (some l) (some r) s = some ((), s₁) ∧
      jsonInsertChild (some b) (some l) s₁ = some ((), s₂) ∧ Labelled s₂ a l r label' array' ∧
      array'.next = some r ∧ (∀ x y, Edge s x y → Edge s₂ x y) ∧
      s₂[b]? = some { Cell.new JsonValue.object with child := some l, childEnd := some l } ∧
      ∀ x, x ≠ l → x ≠ r → x ≠ b → s₂[x]? = s[x]? := by
  have hne := h.ne
  obtain ⟨text, htext⟩ : ∃ text, label.value = .string text := by
    have hvalue := h.labelValue
    cases hcases : label.value with
    | string text => exact ⟨text, rfl⟩
    | _ =>
      rw [hcases] at hvalue
      cases hvalue
  obtain ⟨s₁, hs₁, hcells₁, hedge₁⟩ := jsonInsertChild_behind hne h.labelHere h.arrayHere
    (by rw [htext, h.arrayValue]; rfl) (by rw [h.child]; exact Option.some_ne_none r) h.childEnd
    h.arrayHere hne.symm h.next
  -- the first call writes the label and the list, the second one `b` and the label
  have hb₁ : s₁[b]? = some (Cell.new .object) := by
    simp [hcells₁, hb, hbl, hbr]
  have hl₁ : s₁[l]? = some { label with childEnd := some r } := by
    simp [hcells₁, h.labelHere, hne]
  obtain ⟨s₂, hs₂, hcells₂, hedge₂⟩ :=
    jsonInsertChild_first hbl hb₁ hl₁ (by rw [htext]; rfl) rfl
  have hl₂ : s₂[l]? = some { label with parent := some b, childEnd := some r } := by
    simp [hcells₂, hl₁, hbl.symm]
  have hr₂ : s₂[r]? = some { array with
      parent := some l, previous := some r, next := some r } := by
    simp [hcells₂, hcells₁, h.arrayHere, hne.symm, hbr.symm]
  refine ⟨s₁, s₂, _, _, hs₁, hs₂, ⟨hl₂, h.labelValue, h.child, rfl, hr₂, h.arrayValue, .inr rfl,
    h.lt_label, h.lt_array⟩, rfl, fun x y hedge => hedge₂ x y (hedge₁ x y hedge), ?_, ?_⟩
  · simp [hcells₂, hb₁, hbl]
  · intro x hxl hxr hxb
    simp [hcells₂, hcells₁, hxl, hxr, hxb]

/-- The label and the array of the seat before get into the entry of the seat, and the array is now
behind itself. -/
theorem seatBody_nil {tmpl : Template} {fuel : ℕ} {vars : Vars} (hopen : Open s a cell)
    (hlabelled : Labelled s a l r label array) (hl : vars.labelBid = some l)
    (hr : vars.arrayBid = some r) :
    ∃ s' cell' label' array', seatBody tmpl fuel (some a) [] vars s = some (vars, s') ∧
      Open s' a cell' ∧ Labelled s' a l r label' array' ∧ Keeps s s' a ∧
      ∃ x, Reaches s' a x ∧ Edge s' x x := by
  have hprefix : s <+: s ++ [Cell.new .object] := List.prefix_append _ _
  have hnew : (s ++ [Cell.new JsonValue.object])[s.length]? = some (Cell.new .object) := by
    rw [List.getElem?_append_right le_rfl, Nat.sub_self]
    rfl
  have halen := (List.getElem?_eq_some_iff.mp hopen.here).1
  have hllen := (List.getElem?_eq_some_iff.mp hlabelled.labelHere).1
  have hrlen := (List.getElem?_eq_some_iff.mp hlabelled.arrayHere).1
  obtain ⟨s₁, s₂, label', array', hs₁, hs₂, hlabelled₂, hloop, hedge₂, hentry₂, hsame₂⟩ :=
    (hlabelled.mono hprefix).relink hnew hllen.ne' hrlen.ne'
  have hkeeps₂ : Keeps s s₂ a := by
    refine ⟨fun x y hedge => hedge₂ x y (hedge.mono hprefix), fun x hx => ?_⟩
    rw [hsame₂ x (hx.trans hlabelled.lt_label).ne (hx.trans hlabelled.lt_array).ne
      (hx.trans halen).ne, getElem?_of_grown hprefix (hx.trans halen)]
  -- neither the label nor the array is an object
  have hopen₂ : Open s₂ a cell := by
    refine hopen.of_kept ?_ (fun x other hx hobject => ?_) hkeeps₂.edge
    · rw [hsame₂ a hlabelled.lt_label.ne hlabelled.lt_array.ne halen.ne,
        getElem?_of_grown hprefix halen, hopen.here]
    · have hxlen := (List.getElem?_eq_some_iff.mp hx).1
      rw [hsame₂ x ?_ ?_ hxlen.ne, getElem?_of_grown hprefix hxlen, hx]
      · rintro rfl
        exact hlabelled.label_ne_object
          (Option.some.inj (hx.symm.trans hlabelled.labelHere) ▸ hobject)
      · rintro rfl
        exact hlabelled.array_ne_object
          (Option.some.inj (hx.symm.trans hlabelled.arrayHere) ▸ hobject)
  obtain ⟨s₃, cell', hs₃, hopen₃, hkeeps₃, hreach₃, hothers₃⟩ :=
    hopen₂.insert hentry₂ rfl rfl halen (hopen.childEnd_ne le_rfl)
  have hl₃ := hothers₃ l _ hlabelled.lt_label.ne' hlabelled₂.labelHere hlabelled₂.label_ne_object
  have hr₃ := hothers₃ r _ hlabelled.lt_array.ne' hlabelled₂.arrayHere hlabelled₂.array_ne_object
  refine ⟨s₃, cell', label', array', ?_, hopen₃,
    { hlabelled₂ with labelHere := hl₃, arrayHere := hr₃ }, hkeeps₂.trans hkeeps₃, r, ?_, ?_⟩
  · rw [seatBody, bind_apply (rfl : jsonNewValue .object s = some (some s.length, _)), if_pos rfl,
      bind_apply (rfl : (pure vars : Build Vars) _ = some (vars, _)), hl, hr,
      bind_apply hs₁, bind_apply hs₂, bind_apply hs₃]
    rfl
  · -- from the array of the seats to the entry, the label and the array
    have hbl : Edge s₃ s.length l := hkeeps₃.edge _ _ ⟨_, hentry₂, .inl rfl⟩
    have hlr : Edge s₃ l r := ⟨_, hl₃, .inl hlabelled₂.child⟩
    exact (hreach₃.tail hbl).tail hlr
  · exact ⟨_, hr₃, .inr hloop⟩

end

/-! ## The loop over the seats -/

/-- The fields of the entry of a seat of which one bid is kept. -/
def entryFields (tmpl : Template) (bid : Bid) : Trees JsonValue :=
  field (bytes "bid") .array (single .object (bidFields tmpl bid))

/-- No seat has had bids, or the pointers are still those of the last one that had. -/
def Stale (s : Store JsonValue) (a : ℕ) (vars : Vars) : Prop :=
  vars.labelBid = none ∨ ∃ l r label array, vars.labelBid = some l ∧ vars.arrayBid = some r ∧
    Labelled s a l r label array

section

variable {base s s' : Store JsonValue} {a : ℕ} {cell : Cell JsonValue} {tmpl : Template}
  {fuel : ℕ} {seat : List Bid} {seats : List (List Bid)} {vars vars' : Vars}
  {q e l r : Root JsonValue}

/-- The entry of a seat that has bids is built apart from all others, and goes to their end. -/
theorem seatBody_entry (h : seatBody tmpl fuel (some a) seat vars s = some (vars', s'))
    (hseat : seat ≠ []) : ∃ bid ∈ seat, ∃ s₁, ∃ e l r : Root JsonValue, Holds s [e] s₁ ∧
      e.value = .object ∧ e.children = (l.add r).tree ∧ l.children = .nil ∧
      l.value = .string (cstr (bytes "bid")) ∧ r.value = .array ∧
      r.children.erase = single .object (bidFields tmpl bid) ∧ vars'.labelBid = some l.addr ∧
      vars'.arrayBid = some r.addr ∧ jsonInsertChild (some a) (some e.addr) s₁ = some ((), s') := by
  obtain ⟨entry, s₁, hentry, h⟩ := bind_eq_some h
  obtain ⟨vars₁, s₂, hbids, h⟩ := bind_eq_some h
  obtain ⟨⟨⟩, s₃, hinsert₃, h⟩ := bind_eq_some h
  obtain ⟨⟨⟩, s₄, hinsert₄, h⟩ := bind_eq_some h
  obtain ⟨⟨⟩, s₅, hinsert₅, h⟩ := bind_eq_some h
  obtain ⟨rfl, rfl⟩ := Prod.mk.inj (Option.some.inj h)
  obtain ⟨rfl, rfl⟩ := Prod.mk.inj (Option.some.inj hentry)
  rw [if_neg hseat] at hbids
  obtain ⟨bid, hmem, l, r, hholds, hl, hr, hlvalue, hlchildren, hrvalue, hrchildren⟩ :=
    seatBids_some hbids hseat
  rw [hl, hr] at hinsert₃
  rw [hl] at hinsert₄
  obtain ⟨s₃', hs₃, hholds₃⟩ := jsonInsertChild_holds
    ((Holds.new s JsonValue.object).frame hholds) (by rw [hlvalue, hrvalue]; rfl)
  obtain rfl := (Prod.mk.inj (Option.some.inj (hinsert₃.symm.trans hs₃))).2
  obtain ⟨s₄', hs₄, hholds₄⟩ := jsonInsertChild_holds (hholds₃.perm (.swap _ _ _))
    (show accepts .object l.value _ = true by rw [hlvalue]; rfl)
  obtain rfl := (Prod.mk.inj (Option.some.inj (hinsert₄.symm.trans hs₄))).2
  exact ⟨bid, hmem, s₄, _, l, r, hholds₄, rfl, rfl, hlchildren, hlvalue, hrvalue, hrchildren, hl,
    hr, hinsert₅⟩

/-- The label and the array in an entry. -/
theorem labelled_of_entry (h : Holds s [e] s') (hchildren : e.children = (l.add r).tree)
    (hl : l.children = .nil) (hlvalue : isString l.value = true) (hr : r.value = .array)
    (ha : a < s.length) :
    ∃ label array, Labelled s' a l.addr r.addr label array := by
  obtain ⟨-, hlayout, -⟩ := h.layout e (by simp)
  rw [hchildren] at hlayout
  have hadd : (l.add r).children = r.tree := by
    rw [Root.add, hl]
    rfl
  obtain ⟨hlcell, hrlayout, -⟩ := hlayout
  rw [hadd] at hlcell hrlayout
  have hmem : ∀ x ∈ (l.add r).tree.addrs, a < x := fun x hx =>
    ha.trans_le (h.fresh e (by simp) x (Root.mem_addrs.mpr (.inr (hchildren ▸ hx))))
  refine ⟨_, _, hlcell, hlvalue, rfl, rfl, hrlayout.1, hr, .inl rfl, ?_, ?_⟩
  · exact hmem _ (Root.addr_mem _)
  · rw [Root.addrs_add] at hmem
    exact hmem _ (List.mem_append_right _ r.addr_mem)

/-- What the body of the loop leaves as it was; a seat without bids puts an array behind itself. -/
theorem seatBody_keeps (hopen : Open s a cell) (hstale : Stale s a vars)
    (h : seatBody tmpl fuel (some a) seat vars s = some (vars', s')) :
    ∃ cell', Open s' a cell' ∧ Stale s' a vars' ∧ Keeps s s' a ∧
      (seat = [] → ∃ x, Reaches s' a x ∧ Edge s' x x) := by
  have halen : a < s.length := (List.getElem?_eq_some_iff.mp hopen.here).1
  -- a seat without bids uses the label and the list of the one before
  rcases eq_or_ne seat [] with rfl | hseat
  · rcases hstale with hnone | ⟨l, r, label, array, hl, hr, hlabelled⟩
    · -- the first label is still `NULL`
      obtain ⟨entry, s₁, -, h⟩ := bind_eq_some h
      obtain ⟨vars₁, s₂, hvars, h⟩ := bind_eq_some h
      obtain ⟨⟨⟩, s₃, hinsert, h⟩ := bind_eq_some h
      obtain ⟨rfl, rfl⟩ := Prod.mk.inj (Option.some.inj hvars)
      rw [hnone] at hinsert
      cases hinsert
    · obtain ⟨s₁, cell', label', array', hrun, hopen', hlabelled', hkeeps, hloop⟩ :=
        @seatBody_nil _ _ _ _ _ _ _ tmpl fuel _ hopen hlabelled hl hr
      obtain ⟨rfl, rfl⟩ := Prod.mk.inj (Option.some.inj (h.symm.trans hrun))
      exact ⟨cell', hopen', .inr ⟨l, r, label', array', hl, hr, hlabelled'⟩, hkeeps, fun _ => hloop⟩
  · obtain ⟨bid, -, s₁, e, l, r, hholds, hevalue, hchildren, hlchildren, hlvalue, hrvalue, -, hl,
      hr, hinsert⟩ := seatBody_entry h hseat
    -- the entry has a label and a list of its own
    obtain ⟨label, array, hlabelled⟩ := labelled_of_entry hholds hchildren hlchildren
      (by rw [hlvalue]; rfl) hrvalue halen
    have hentry := hholds.root_cell (r := e) (by simp)
    have hae : s.length ≤ e.addr := hholds.fresh e (by simp) e.addr e.addr_mem
    obtain ⟨s₂, cell', hs₂, hopen', hkeeps, -, hothers⟩ := (hopen.mono hholds.grown).insert hentry
      hevalue rfl (halen.trans_le hae) (hopen.childEnd_ne hae)
    obtain rfl := (Prod.mk.inj (Option.some.inj (hinsert.symm.trans hs₂))).2
    refine ⟨cell', hopen', .inr ⟨l.addr, r.addr, label, array, hl, hr, ?_⟩,
      (Keeps.of_prefix hholds.grown halen.le).trans hkeeps, fun hnil => absurd hnil hseat⟩
    exact { hlabelled with
      labelHere := hothers _ _ hlabelled.lt_label.ne' hlabelled.labelHere hlabelled.label_ne_object
      arrayHere := hothers _ _ hlabelled.lt_array.ne' hlabelled.arrayHere hlabelled.array_ne_object }

/-- What the loop leaves as it was; a seat without bids puts an array behind itself. -/
theorem seatLoop_keeps (hopen : Open s a cell) (hstale : Stale s a vars)
    (h : seatLoop tmpl fuel (some a) seats vars s = some ((), s')) :
    ∃ cell', Open s' a cell' ∧ Keeps s s' a ∧
      ([] ∈ seats → ∃ x, Reaches s' a x ∧ Edge s' x x) := by
  induction seats generalizing s vars cell with
  | nil =>
    obtain ⟨-, rfl⟩ := Prod.mk.inj (Option.some.inj h)
    exact ⟨cell, hopen, ⟨fun _ _ hedge => hedge, fun _ _ => rfl⟩,
      fun hmem => absurd hmem List.not_mem_nil⟩
  | cons seat seats ih =>
    obtain ⟨vars', s₁, hbody, hloop⟩ := bind_eq_some h
    obtain ⟨cell', hopen', hstale', hkeeps, hnil⟩ := seatBody_keeps hopen hstale hbody
    obtain ⟨cell'', hopen'', hkeeps', hrest⟩ := ih hopen' hstale' hloop
    refine ⟨cell'', hopen'', hkeeps.trans hkeeps', fun hmem => ?_⟩
    rcases List.mem_cons.mp hmem with hseat | hmem
    · obtain ⟨x, hreach, hx⟩ := hnil hseat.symm
      exact ⟨x, hkeeps'.reaches hreach, hkeeps'.edge _ _ hx⟩
    · exact hrest hmem

/-- If all seats have bids, one bid of each seat is kept. -/
theorem seatLoop_holds (hseats : [] ∉ seats) (hholds : Holds base [q] s) (hq : q.value = .array)
    (h : seatLoop tmpl fuel (some q.addr) seats vars s = some ((), s')) :
    ∃ bids, List.Forall₂ (fun seat bid => bid ∈ seat) seats bids ∧ ∃ q', Holds base [q'] s' ∧
      q'.addr = q.addr ∧ q'.value = .array ∧ q'.children.erase = q.children.erase.append
        (ofRoots (bids.map fun bid => (.object, entryFields tmpl bid))) := by
  -- by induction over the seats; each one adds its entry to the list
  induction seats generalizing s vars q with
  | nil =>
    obtain ⟨-, rfl⟩ := Prod.mk.inj (Option.some.inj h)
    refine ⟨[], .nil, q, hholds, rfl, hq, ?_⟩
    rw [List.map_nil, show ofRoots ([] : List (JsonValue × Trees JsonValue)) = .nil from rfl,
      append_nil]
  | cons seat seats ih =>
    obtain ⟨vars', s₁, hbody, hloop⟩ := bind_eq_some h
    rw [List.mem_cons, not_or] at hseats
    obtain ⟨bid, hmem, s₂, e, l, r, hholds₂, hevalue, hchildren, hlchildren, hlvalue, hrvalue,
      hrchildren, -, -, hinsert⟩ := seatBody_entry hbody (Ne.symm hseats.1)
    obtain ⟨s₃, hs₃, hholds₃⟩ := jsonInsertChild_holds
      ((hholds.frame hholds₂).perm (.swap _ _ _)) (by rw [hq, hevalue]; rfl)
    obtain rfl := (Prod.mk.inj (Option.some.inj (hinsert.symm.trans hs₃))).2
    obtain ⟨bids, hbids, q', hholds', haddr, hvalue, hq'⟩ := ih hseats.2 hholds₃ hq hloop
    refine ⟨bid :: bids, .cons hmem hbids, q', hholds', haddr, hvalue, ?_⟩
    have hentry : e.children.erase = entryFields tmpl bid := by
      rw [hchildren, Root.erase_tree, Root.erase_children_add, hlchildren, hrchildren, hrvalue]
      show single l.value _ = _
      rw [hlvalue]
      rfl
    rw [hq', Root.erase_children_add, append_assoc, hentry, hevalue]
    rfl

end

/-! ## The document -/

/-- The fields of a document with one bid of each seat. -/
def responseFields (tmpl : Template) (resp : Response) (bids : List Bid) : Trees JsonValue :=
  (field (bytes "id") (.string (cstr resp.id)) .nil).append <|
    (field (bytes "bidid") (.string (cstr resp.bidid)) .nil).append <|
    field (bytes "seatbid") .array
      (ofRoots (bids.map fun bid => (.object, entryFields tmpl bid)))

section

variable {base s : Store JsonValue} {tmpl : Template} {resp : Response} {fuel : ℕ}
  {items : List Item} {a p : Option ℕ} {vars : Vars} {children : Trees JsonValue}

/-- What has been built before the loop over the seats. -/
theorem buildResponse_peel {root : Option ℕ}
    (h : buildResponse fuel tmpl resp [] = some (root, s)) :
    ∃ s₁ s₂ s₃ : Store JsonValue, ∃ label q : Root JsonValue, Holds [] [label, q] s₁ ∧
      root = some q.addr ∧ label.value = .string (cstr (bytes "seatbid")) ∧ label.children = .nil ∧
      q.value = .object ∧ q.children.erase =
        (field (bytes "id") (.string (cstr resp.id)) .nil).append
          (field (bytes "bidid") (.string (cstr resp.bidid)) .nil) ∧
      seatLoop tmpl fuel (some s₁.length) resp.seatbid ⟨none, none, none⟩
        (s₁ ++ [Cell.new .array]) = some ((), s₂) ∧
      jsonInsertChild (some label.addr) (some s₁.length) s₂ = some ((), s₃) ∧
      jsonInsertChild (some q.addr) (some label.addr) s₃ = some ((), s) := by
  -- call by call
  obtain ⟨root', s₁, hroot, h⟩ := bind_eq_some h
  obtain ⟨⟨⟩, s₂, hid, h⟩ := bind_eq_some h
  obtain ⟨⟨⟩, s₃, hbidid, h⟩ := bind_eq_some h
  obtain ⟨label, s₄, hlabel, h⟩ := bind_eq_some h
  obtain ⟨array, s₅, harray, h⟩ := bind_eq_some h
  obtain ⟨⟨⟩, s₆, hloop, h⟩ := bind_eq_some h
  obtain ⟨⟨⟩, s₇, hinsert₇, h⟩ := bind_eq_some h
  obtain ⟨⟨⟩, s₈, hinsert₈, h⟩ := bind_eq_some h
  obtain ⟨rfl, rfl⟩ := Prod.mk.inj (Option.some.inj h)
  -- the root object and its two strings are built before the loop
  have hs₁ := (runs_jsonNewValue _).of_eq (Has.nil []) hroot
  have hs₂ := (runs_jsonInsertString _ _).of_eq hs₁ hid
  have hs₃ := (runs_jsonInsertString _ _).of_eq hs₂ hbidid
  -- two trees are left in the store: the label of the list, and the root
  obtain ⟨roots, hholds, hroots⟩ := ((runs_jsonNewValue _).of_eq hs₃ hlabel).exists_holds
  obtain ⟨l, roots', rfl, hl, hroots⟩ := List.map_eq_cons_iff.mp hroots
  obtain ⟨q, roots, rfl, hq, hroots⟩ := List.map_eq_cons_iff.mp hroots
  obtain rfl := List.map_eq_nil_iff.mp hroots
  obtain ⟨hl₁, hl⟩ := Prod.mk.inj hl
  obtain ⟨hl₂, hl₃⟩ := Prod.mk.inj hl
  obtain ⟨hq₁, hq⟩ := Prod.mk.inj hq
  obtain ⟨hq₂, hq₃⟩ := Prod.mk.inj hq
  obtain ⟨rfl, rfl⟩ := Prod.mk.inj (Option.some.inj harray)
  rw [← hl₁] at hinsert₇ hinsert₈
  rw [← hq₁] at hinsert₈
  exact ⟨s₄, s₆, s₇, l, q, hholds, hq₁.symm, hl₂, erase_eq_nil.mp hl₃, hq₂, hq₃, hloop, hinsert₇,
    hinsert₈⟩

/-- If all seats have bids, the document has one bid of each seat. -/
theorem buildResponse_holds {root : ℕ} (hseats : [] ∉ resp.seatbid)
    (h : buildResponse fuel tmpl resp [] = some (some root, s)) :
    ∃ bids, List.Forall₂ (fun seat bid => bid ∈ seat) resp.seatbid bids ∧
      Has [] [(some root, .object, responseFields tmpl resp bids)] s := by
  obtain ⟨s₁, s₂, s₃, label, q, hholds, hroot, hlvalue, hlchildren, hqvalue, hqchildren, hloop,
    hinsert₃, hinsert₄⟩ := buildResponse_peel h
  obtain ⟨bids, hbids, r, hr, haddr, hrvalue, hrchildren⟩ :=
    seatLoop_holds hseats (Holds.new s₁ JsonValue.array) rfl hloop
  rw [← show r.addr = s₁.length from haddr] at hinsert₃
  obtain ⟨s₃', hs₃, hholds₃⟩ := jsonInsertChild_holds ((hholds.frame hr).perm (.swap _ _ _))
    (by rw [hlvalue, hrvalue]; rfl)
  obtain rfl := (Prod.mk.inj (Option.some.inj (hinsert₃.symm.trans hs₃))).2
  obtain ⟨s₄', hs₄, hholds₄⟩ := jsonInsertChild_holds (hholds₃.perm (.swap _ _ _))
    (show accepts q.value label.value _ = true by rw [hqvalue, hlvalue]; rfl)
  obtain rfl := (Prod.mk.inj (Option.some.inj (hinsert₄.symm.trans hs₄))).2
  refine ⟨bids, hbids, _, hholds₄, ?_⟩
  obtain rfl := Option.some.inj hroot
  rw [List.map_cons, List.map_nil, item, Root.erase_children_add, Root.erase_children_add,
    hqchildren, hrchildren, hlchildren, append_assoc]
  show List.Perm [(some q.addr, q.value, append _ (append _ (single label.value
    (single r.value _))))] _
  rw [hqvalue, hlvalue, hrvalue]
  rfl

/-- After a seat without bids there is an array behind itself in the document. -/
theorem buildResponse_loop {root : ℕ} (hseats : [] ∈ resp.seatbid)
    (h : buildResponse fuel tmpl resp [] = some (some root, s)) :
    ∃ x, Reaches s root x ∧ Edge s x x := by
  obtain ⟨s₁, s₂, s₃, label, q, hholds, hroot, hlvalue, hlchildren, hqvalue, hqchildren, hloop,
    hinsert₃, hinsert₄⟩ := buildResponse_peel h
  obtain rfl := Option.some.inj hroot
  have hnew : (s₁ ++ [Cell.new JsonValue.array])[s₁.length]? = some (Cell.new .array) := by
    rw [List.getElem?_append_right le_rfl, Nat.sub_self]
    rfl
  obtain ⟨cell, hopen, hkeeps, hstuck⟩ :=
    seatLoop_keeps ⟨hnew, rfl, fun hchild => absurd rfl hchild⟩ (.inl rfl) hloop
  obtain ⟨x, hreach, hx⟩ := hstuck hseats
  -- the root and the label of the seats are as they were before the loop
  have hholds₂ : Holds [] [label, q] s₂ := by
    refine hholds.congr fun a ha => ?_
    rw [hkeeps.before a ha, getElem?_of_grown (List.prefix_append _ _) ha]
  have hlabel := hholds₂.layout label (by simp)
  have hq := hholds₂.layout q (by simp)
  obtain ⟨hlnodup, hapart, hqnodup, -⟩ := hholds₂.apart_two
  have hfresh : ∀ r ∈ [label, q], s₁.length ∉ r.tree.addrs := fun r hr hmem =>
    lt_irrefl _ (hholds.lt hr hmem)
  -- the array of the seats in its label
  obtain ⟨s₃', hs₃, hedge₃, hreach₃, hvalue₃, hsame₃⟩ := jsonInsertChild_reaches hlabel hlnodup
    hopen.here (hfresh label (by simp)) (by rw [hlvalue, hopen.value]; rfl)
  obtain rfl := (Prod.mk.inj (Option.some.inj (hinsert₃.symm.trans hs₃))).2
  have hq₃ : Layout s₃ none none q.tree := hq.congr fun x hx =>
    hsame₃ x (fun hmem => hapart x hmem hx) fun heq => hfresh q (by simp) (heq ▸ hx)
  -- the label in the root
  obtain ⟨cell', hcell', hvalue'⟩ : ∃ cell', s₃[label.addr]? = some cell' ∧
      cell'.value = label.value :=
    Option.map_eq_some_iff.mp ((hvalue₃ label.addr).trans (by rw [hlabel.1]; rfl))
  obtain ⟨s₄, hs₄, hedge₄, hreach₄, -, -⟩ := jsonInsertChild_reaches hq₃ hqnodup hcell'
    (hapart label.addr label.addr_mem) (by rw [hqvalue, hvalue', hlvalue]; rfl)
  obtain rfl := (Prod.mk.inj (Option.some.inj (hinsert₄.symm.trans hs₄))).2
  have hkeep : ∀ x y, Edge s₂ x y → Edge s x y := fun x y hedge => hedge₄ x y (hedge₃ x y hedge)
  exact ⟨x, (hreach₄.trans (hreach₃.of_edges hedge₄)).trans (hreach.of_edges hkeep), hkeep x x hx⟩

/-! ### One bid in each seat -/

/-- A seat with one bid adds an entry. -/
theorem runs_seatBody (bid : Bid) :
    Runs (Has base ((a, .array, children) :: items)) (seatBody tmpl (fuel + 2) a [bid] vars)
      fun _ => Has base
        ((a, .array, children.append (single .object (entryFields tmpl bid))) :: items) := by
  refine (runs_jsonNewValue _).bind fun entry => ?_
  rw [if_neg (List.cons_ne_nil _ _), seatBids, bind_assoc]
  refine (runs_jsonNewValue _).bind fun labelBid => ?_
  rw [bind_assoc]
  refine (runs_jsonNewValue _).bind fun arrayBid => ?_
  rw [bind_assoc]
  refine (runs_bidLoop bid fuel _).bind fun entryBid => runs_perm (.swap _ _ _) ?_
  rw [bind_assoc]
  refine (runs_jsonInsertChild fun _ _ => rfl).bind fun _ => runs_perm (.swap _ _ _) ?_
  rw [pure_bind]
  refine (runs_jsonInsertChild fun _ _ => rfl).bind fun _ => runs_perm (.swap _ _ _) ?_
  refine (runs_jsonInsertChild fun _ _ => rfl).bind fun _ => runs_perm (.swap _ _ _) ?_
  exact (runs_jsonInsertChild fun _ _ => rfl).bind fun _ => Runs.pure fun _ h => h

/-- Seats with one bid each add an entry each. -/
theorem runs_seatLoop (bids : List Bid) :
    Runs (Has base ((a, .array, children) :: items))
      (seatLoop tmpl (fuel + 2) a (bids.map fun bid => [bid]) vars)
      fun _ => Has base ((a, .array, children.append
        (ofRoots (bids.map fun bid => (.object, entryFields tmpl bid)))) :: items) := by
  induction bids generalizing children vars with
  | nil =>
    refine Runs.pure fun s h => ?_
    rw [List.map_nil, show ofRoots ([] : List (JsonValue × Trees JsonValue)) = .nil from rfl,
      append_nil]
    exact h
  | cons bid bids ih =>
    refine (runs_seatBody bid).bind fun vars' => ih.mono (fun _ h => h) fun _ s h => ?_
    rw [append_assoc] at h
    exact h

/-- The document is built if each seat has one bid. -/
theorem runs_buildResponse (bids : List Bid) (h : resp.seatbid = bids.map fun bid => [bid]) :
    Runs (Has base items) (buildResponse (fuel + 2) tmpl resp)
      fun root => Has base ((root, .object, responseFields tmpl resp bids) :: items) := by
  refine (runs_jsonNewValue _).bind fun root => (runs_jsonInsertString _ _).bind fun _ => ?_
  refine (runs_jsonInsertString _ _).bind fun _ => (runs_jsonNewValue _).bind fun label => ?_
  refine (runs_jsonNewValue _).bind fun array => ?_
  rw [h]
  refine (runs_seatLoop bids).bind fun _ => runs_perm (.swap _ _ _) ?_
  refine (runs_jsonInsertChild fun _ _ => rfl).bind fun _ => runs_perm (.swap _ _ _) ?_
  refine (runs_jsonInsertChild fun _ _ => rfl).bind fun _ => Runs.pure fun s hs => ?_
  simpa only [responseFields, append_assoc, nil_append, field] using hs

/-- With one bid in each seat two turns are enough. -/
theorem seatLoop_fuel (bids : List Bid) :
    seatLoop tmpl (fuel + 2) a (bids.map fun bid => [bid]) vars =
      seatLoop tmpl 2 a (bids.map fun bid => [bid]) vars := by
  induction bids generalizing vars with
  | nil => rfl
  | cons bid bids ih =>
    have hbody : seatBody tmpl (fuel + 2) a [bid] vars = seatBody tmpl 2 a [bid] vars := rfl
    rw [List.map_cons, seatLoop, seatLoop, hbody]
    exact congrArg _ (funext fun vars' => ih)

/-- With one bid in each seat two turns are enough for the response. -/
theorem buildResponse_fuel (bids : List Bid) (h : resp.seatbid = bids.map fun bid => [bid]) :
    buildResponse (fuel + 2) tmpl resp = buildResponse 2 tmpl resp := by
  simp only [buildResponse, h, seatLoop_fuel]

end

/-! ## What is listed -/

section

variable {tmpl : Template} {resp : Response} {bid : Bid}

/-- The first field with a label is found. -/
theorem lookup_append {label label' : Bytes} {v : JsonValue} {children t : Trees JsonValue} :
    lookup label ((field label' v children).append t) =
      if cstr label' = cstr label then some (v, children) else lookup label t := by
  show (if JsonValue.string (cstr label') = .string (cstr label) then _ else _) = _
  simp only [JsonValue.string.injEq]
  rfl

/-- A field is found under its label. -/
theorem lookup_field {label : Bytes} {v : JsonValue} {children : Trees JsonValue} :
    lookup label (field label v children) = some (v, children) := by
  rw [← append_nil (field label v children), lookup_append, if_pos rfl]

/-- A number with two places is a C string. -/
@[simp] theorem cstr_twoPlaces (value : ℤ) : cstr (twoPlaces value) = twoPlaces value := by
  refine cstr_eq_self fun h => ?_
  rw [twoPlaces, List.mem_append] at h
  rcases h with h | h
  · exact notMem_decimal (by decide) (by decide) value h
  · revert h
    decide

/-- A field is not found under another label. -/
theorem lookup_of_ne {label label' : Bytes} {v : JsonValue} {children : Trees JsonValue}
    (h : cstr label' ≠ cstr label) : lookup label (field label' v children) = none := by
  rw [← append_nil (field label' v children), lookup_append, if_neg h]
  rfl

/-- The addresses are found under their label, if the template has some. -/
theorem lookup_urlField {label label' : Bytes} {tmplUrls monitors : List Bytes}
    {trackUrlPar : Bytes} {listed : Bytes → Bool} {t : Trees JsonValue} :
    lookup label ((urlField label' tmplUrls trackUrlPar listed monitors).append t) =
      if tmplUrls ≠ [] ∧ cstr label' = cstr label then
        some (.array, strings (tmplUrls.map (· ++ trackUrlPar) ++ monitors.filter listed))
      else lookup label t := by
  rw [urlField]
  by_cases hnil : tmplUrls = []
  · rw [if_pos hnil, if_neg (by rw [not_and]; exact fun h => absurd hnil h)]
    rfl
  · rw [if_neg hnil, lookup_append]
    simp only [hnil, ne_eq, not_false_eq_true, true_and]

/-- The roots of an array of strings. -/
theorem fst_roots_strings (texts : List Bytes) :
    (strings texts).roots.map Prod.fst = texts.map fun text => .string (cstr text) := by
  rw [strings, roots_ofRoots, List.map_map]
  rfl

/-- The URLs in `ext`. -/
theorem urlsAt_pm : urlsAt (bytes "pm") (extFields tmpl bid) =
    if tmpl.iurl = [] then []
    else (tmpl.iurl.map (· ++ bid.trackUrlPar) ++ bid.imonitorurl).map fun url =>
      .string (cstr url) := by
  have hcm : ¬ (tmpl.cturl ≠ [] ∧ cstr (bytes "cm") = cstr (bytes "pm")) := fun h =>
    absurd h.2 (by decide)
  rw [urlsAt, arrayAt, extFields, lookup_append, if_neg (by decide), lookup_urlField,
    lookup_urlField, if_neg hcm, lookup_of_ne (by decide)]
  by_cases hnil : tmpl.iurl = []
  · rw [if_neg (fun h => h.1 hnil), if_pos hnil]
    rfl
  · rw [if_pos ⟨hnil, rfl⟩, if_neg hnil, List.filter_eq_self.mpr fun _ _ => rfl]
    exact fst_roots_strings _

/-- The click monitors of an entry. -/
theorem urlsAt_cm : urlsAt (bytes "cm") (extFields tmpl bid) =
    if tmpl.cturl = [] then [] else urls tmpl.cturl bid.cmonitorurl bid := by
  have hpm : ¬ (tmpl.iurl ≠ [] ∧ cstr (bytes "pm") = cstr (bytes "cm")) := fun h =>
    absurd h.2 (by decide)
  rw [urlsAt, arrayAt, extFields, lookup_append, if_neg (by decide), lookup_urlField, if_neg hpm,
    lookup_urlField, lookup_of_ne (by decide)]
  by_cases hnil : tmpl.cturl = []
  · rw [if_neg (fun h => h.1 hnil), if_pos hnil]
    rfl
  · rw [if_pos ⟨hnil, rfl⟩, if_neg hnil]
    exact fst_roots_strings _

/-- Without URLs before them, the monitor URLs are nothing if they are empty. -/
theorem urls_nil_iff {monitors : List Bytes} :
    [] = urls [] monitors bid ↔ ∀ url ∈ monitors, url = [] := by
  rw [urls, eq_comm, List.map_nil, List.nil_append, List.map_eq_nil_iff, List.filter_eq_nil_iff]
  simp

/-- The object of a bid is right if its monitor URLs can be listed. -/
theorem bidListed_iff :
    BidListed tmpl bid (.object, bidFields tmpl bid) ↔ MonitorsListed tmpl bid := by
  have hext : lookup (bytes "ext") (bidFields tmpl bid) =
      some (.object, extFields tmpl bid) := by
    rw [bidFields, lookup_append, if_neg (by decide), lookup_append, if_neg (by decide),
      lookup_append, if_neg (by decide), lookup_append, if_neg (by decide), lookup_append, if_neg
      (by decide), lookup_field]
  -- an empty url is left out of `pm`
  have hpm : urlsAt (bytes "pm") (extFields tmpl bid) = urls tmpl.iurl bid.imonitorurl bid ↔
      if tmpl.iurl = [] then ∀ url ∈ bid.imonitorurl, url = [] else [] ∉ bid.imonitorurl := by
    rw [urlsAt_pm]
    by_cases hnil : tmpl.iurl = []
    · rw [if_pos hnil, if_pos hnil, hnil]
      exact urls_nil_iff
    · rw [if_neg hnil, if_neg hnil, urls]
      constructor
      · intro heq hmem
        -- as many urls are left as there were, so that none of them is empty
        have hlength := congrArg List.length heq
        simp only [List.length_map, List.length_append, Nat.add_left_cancel_iff] at hlength
        have hall := List.length_filter_eq_length_iff.mp hlength.symm [] hmem
        simp at hall
      · intro hmem
        rw [List.filter_eq_self.mpr fun url hurl => ?_]
        have hne : url ≠ [] := fun h => hmem (h ▸ hurl)
        simpa using hne
  have hcm : urlsAt (bytes "cm") (extFields tmpl bid) = urls tmpl.cturl bid.cmonitorurl bid ↔
      (tmpl.cturl = [] → ∀ url ∈ bid.cmonitorurl, url = []) := by
    rw [urlsAt_cm]
    by_cases hnil : tmpl.cturl = []
    · rw [if_pos hnil, hnil]
      exact urls_nil_iff.trans ⟨fun h _ => h, fun h => h rfl⟩
    · simp [hnil]
  constructor
  · intro h
    obtain ⟨ext, hlookup, hpm', hcm'⟩ := h.ext
    obtain rfl := (Prod.mk.inj (Option.some.inj (hext.symm.trans hlookup))).2
    exact ⟨hpm.mp hpm', hcm.mp hcm'⟩
  · intro h
    refine ⟨rfl, ?_, ?_, ?_, ?_, _, hext, hpm.mpr h.pm, hcm.mpr h.cm⟩
    · rw [bidFields, lookup_append, if_pos rfl]
    · rw [bidFields, lookup_append, if_neg (by decide), lookup_append, if_neg (by decide),
        lookup_append, if_pos rfl, cstr_twoPlaces]
    · rw [bidFields, lookup_append, if_neg (by decide), lookup_append, if_neg (by decide),
        lookup_append, if_neg (by decide), lookup_append, if_pos rfl]
    · rw [bidFields, lookup_append, if_neg (by decide), lookup_append, if_neg (by decide),
        lookup_append, if_neg (by decide), lookup_append, if_neg (by decide), lookup_append,
        if_pos rfl]

/-- The document lists all bids if each seat has one. -/
theorem seatsListed_iff {bids : List Bid}
    (hbids : List.Forall₂ (fun seat bid => bid ∈ seat) resp.seatbid bids) :
    SeatsListed tmpl resp (responseFields tmpl resp bids) ↔ SingleBids tmpl resp := by
  have hentries : arrayAt (bytes "seatbid") (responseFields tmpl resp bids) =
      some (bids.map fun bid => (.object, entryFields tmpl bid)) := by
    rw [arrayAt, responseFields, lookup_append, if_neg (by decide), lookup_append,
      if_neg (by decide), lookup_field]
    exact congrArg some (roots_ofRoots _)
  -- one bid of each seat is listed, which has to be its only one
  have hseat : ∀ seat bid, bid ∈ seat → (SeatListed tmpl seat (.object, entryFields tmpl bid) ↔
      ∃ bid, seat = [bid] ∧ MonitorsListed tmpl bid) := by
    intro seat bid hmem
    have hbid : arrayAt (bytes "bid") (entryFields tmpl bid) =
        some [(.object, bidFields tmpl bid)] := by
      rw [arrayAt, entryFields, lookup_field]
      rfl
    rw [SeatListed, hbid]
    constructor
    · rintro ⟨-, listed, hlisted, hall⟩
      obtain rfl := Option.some.inj hlisted
      cases hall with
      | @cons bid' _ rest _ hone hrest =>
        cases hrest
        obtain rfl := List.mem_singleton.mp hmem
        exact ⟨bid, rfl, bidListed_iff.mp hone⟩
    · rintro ⟨bid', rfl, hmonitors⟩
      obtain rfl := List.mem_singleton.mp hmem
      exact ⟨rfl, _, rfl, .cons (bidListed_iff.mpr hmonitors) .nil⟩
  -- the seats and the listed entries come in pairs
  have hall : List.Forall₂ (SeatListed tmpl) resp.seatbid
      (bids.map fun bid => (.object, entryFields tmpl bid)) ↔ SingleBids tmpl resp := by
    rw [List.forall₂_map_right_iff, SingleBids]
    clear hentries
    generalize resp.seatbid = seats at hbids
    induction hbids with
    | nil => simp
    | cons hmem _ ih => rw [List.forall₂_cons, List.forall_mem_cons, hseat _ _ hmem, ih]
  rw [SeatsListed, hentries, ← hall]
  constructor
  · rintro ⟨entries, hsome, hlisted⟩
    obtain rfl := Option.some.inj hsome
    exact hlisted
  · exact fun h => ⟨_, rfl, h⟩

end

/-! ## The response -/

section

variable {selAd : Bool} {tmpl : Template} {resp : Response}

/-- A seat for each of some bids. -/
theorem SingleBids.exists_map (h : SingleBids tmpl resp) :
    ∃ bids : List Bid, resp.seatbid = bids.map fun bid => [bid] := by
  rw [SingleBids] at h
  generalize resp.seatbid = seats at h
  induction seats with
  | nil => exact ⟨[], rfl⟩
  | cons seat seats ih =>
    rw [List.forall_mem_cons] at h
    obtain ⟨⟨bid, rfl, -⟩, hseats⟩ := h
    obtain ⟨bids, rfl⟩ := ih hseats
    exact ⟨bid :: bids, rfl⟩

/-- Appended trees can be printed if both can. -/
theorem printable_append {label : Bool} {t u : Trees JsonValue} :
    Printable label (t.append u) ↔ Printable label t ∧ Printable label u := by
  induction t with
  | nil => simp [Printable, append]
  | cons v children siblings _ ih => simp only [append, Printable, ih, and_assoc]

/-- A field can be printed if its children can. -/
theorem printable_field {label : Bytes} {v : JsonValue} {children : Trees JsonValue}
    (h : Printable (v = .object) children) : Printable true (field label v children) :=
  ⟨fun _ => Trees.cons_ne_nil _ _ _, ⟨fun hlabel => absurd hlabel.1 (by simp), h, trivial⟩, trivial⟩

/-- An array of strings can be printed. -/
theorem printable_strings (texts : List Bytes) : Printable false (strings texts) := by
  induction texts with
  | nil => trivial
  | cons text texts ih => exact ⟨fun h => absurd h.1 Bool.false_ne_true, trivial, ih⟩

/-- An array of objects can be printed. -/
theorem printable_objects {β : Type} {f : β → Trees JsonValue} (h : ∀ b, Printable true (f b))
    (l : List β) : Printable false (ofRoots (l.map fun b => (.object, f b))) := by
  induction l with
  | nil => trivial
  | cons b l ih => exact ⟨fun h => absurd h.1 Bool.false_ne_true, h b, ih⟩

/-- The addresses can be printed. -/
theorem printable_urlField {label : Bytes} {tmplUrls monitors : List Bytes} {trackUrlPar : Bytes}
    {listed : Bytes → Bool} :
    Printable true (urlField label tmplUrls trackUrlPar listed monitors) := by
  rw [urlField]
  split_ifs
  · trivial
  · exact printable_field (printable_strings _)

/-- All labels of a document have a value. -/
theorem printable_responseFields (bids : List Bid) :
    Printable true (responseFields tmpl resp bids) := by
  have hext : ∀ bid, Printable true (extFields tmpl bid) := by
    intro bid
    simp only [extFields, printable_append]
    exact ⟨printable_field trivial, printable_urlField, printable_urlField,
      printable_field trivial⟩
  have hbid : ∀ bid, Printable true (bidFields tmpl bid) := by
    intro bid
    simp only [bidFields, printable_append]
    exact ⟨printable_field trivial, printable_field trivial, printable_field trivial,
      printable_field trivial, printable_field trivial, printable_field (hext bid)⟩
  have hentry : ∀ bid, Printable true (entryFields tmpl bid) := fun bid =>
    printable_field ⟨fun h => absurd h.1 Bool.false_ne_true, hbid bid, trivial⟩
  simp only [responseFields, printable_append]
  exact ⟨printable_field trivial, printable_field trivial,
    printable_field (printable_objects hentry bids)⟩

/-- The store of a response with one bid in each seat, and its text. -/
theorem parseResponse_single {bids : List Bid} (hselAd : selAd = true)
    (hbids : resp.seatbid = bids.map fun bid => [bid]) (hne : resp.seatbid ≠ []) :
    ∃ fuel root s children, buildResponse fuel tmpl resp [] = some (some root, s) ∧
      Layout s none none (single (root, .object) children) ∧
      children.erase = responseFields tmpl resp bids ∧
      parseResponse fuel selAd tmpl resp = some (answer (print .object children.erase)) := by
  obtain ⟨root, s, hrun, hhas⟩ :=
    @runs_buildResponse [] tmpl resp 0 [] bids hbids [] (Has.nil [])
  obtain ⟨a, children, rfl, hlayout, hroot, hchildren⟩ := hhas.exists_layout
  have hprint : Printable true (single .object children.erase) := by
    rw [hchildren]
    exact ⟨fun _ => Trees.cons_ne_nil _ _ _, printable_responseFields bids, trivial⟩
  obtain ⟨k, hk⟩ := jsonTreeToString_eq hlayout hroot hprint
  have hbuild : ∀ fuel, buildResponse (fuel + 2) tmpl resp [] = some (some a, s) := by
    intro fuel
    rw [buildResponse_fuel bids hbids]
    exact hrun
  refine ⟨k + 2, a, s, children, hbuild k, hlayout, hchildren, ?_⟩
  rw [parseResponse, if_neg (by simp [hselAd, hne]), hbuild k]
  have htext := hk 2
  rw [Nat.add_comm] at htext
  simp [htext]

/-- If the document lists all bids, each seat has one. -/
theorem ParseRight.singleBids (h : ParseRight selAd tmpl resp) (hselAd : selAd = true) :
    SingleBids tmpl resp := by
  obtain ⟨fuel, result, hresult, hdocument⟩ := h
  by_cases hne : resp.seatbid = []
  · rw [SingleBids, hne]
    exact fun seat hmem => absurd hmem List.not_mem_nil
  · obtain ⟨root, s, children, hbuild, hlayout, -, hlisted⟩ := hdocument hselAd hne
    have hmem : root ∈ (single (root, JsonValue.object) children).addrs := by
      rw [single, addrs_cons]
      exact List.mem_cons_self
    by_cases hseats : [] ∈ resp.seatbid
    · obtain ⟨x, hreach, hx⟩ := buildResponse_loop hseats hbuild
      exact absurd hlayout (not_layout_of_loop hmem hreach hx)
    · obtain ⟨bids, hbids, hhas⟩ := buildResponse_holds hseats hbuild
      obtain ⟨roots, hholds, hroots⟩ := hhas.exists_holds
      obtain ⟨r, rest, rfl, hr, -⟩ := List.map_eq_cons_iff.mp hroots
      obtain ⟨hr₁, hr⟩ := Prod.mk.inj hr
      obtain ⟨hr₂, hr₃⟩ := Prod.mk.inj hr
      have haddr : r.addr = root := Option.some.inj hr₁
      -- the pointers say the tree
      have hsame := (hholds.layout r (by simp)).unique hlayout (congrArg some haddr)
      injection hsame with _ hchildren _
      rw [← hchildren, hr₃] at hlisted
      exact (seatsListed_iff hbids).mp hlisted

/-- If each seat has one bid, the document lists it. -/
theorem parseRight_of_singleBids (h : selAd = true → SingleBids tmpl resp) :
    ParseRight selAd tmpl resp := by
  by_cases hcase : selAd = true ∧ resp.seatbid ≠ []
  · obtain ⟨hselAd, hne⟩ := hcase
    obtain ⟨bids, hbids⟩ := (h hselAd).exists_map
    obtain ⟨fuel, root, s, children, hbuild, hlayout, hchildren, hparse⟩ :=
      @parseResponse_single selAd tmpl resp bids hselAd hbids hne
    refine ⟨fuel, _, hparse, fun _ _ => ⟨root, s, children, hbuild, hlayout, rfl, ?_⟩⟩
    have hmem : List.Forall₂ (fun seat bid => bid ∈ seat) resp.seatbid bids := by
      rw [hbids, List.forall₂_map_left_iff]
      exact List.forall₂_same.mpr fun bid _ => List.mem_singleton_self bid
    rw [hchildren]
    exact (seatsListed_iff hmem).mpr (h hselAd)
  · have hnone : ¬ selAd = true ∨ resp.seatbid = [] := by
      rwa [← not_and_or.trans (or_congr_right not_not)]
    refine ⟨0, _, if_pos hnone, fun hselAd hne => absurd ⟨hselAd, hne⟩ hcase⟩

/-- For every response: `ParseResponse` ends, and its document has each bid of each seat, exactly if
no ad has been selected, or each seat has one bid whose monitor URLs can be listed. -/
theorem parse_right_iff :
    ParseRight selAd tmpl resp ↔ (selAd = true → SingleBids tmpl resp) :=
  ⟨ParseRight.singleBids, parseRight_of_singleBids⟩

/-- Of two bids of a seat one is lost, a seat without bids makes an array that is behind itself, and
with one URL in the template the loop over three bids does not end. -/
theorem two_bids_and_no_bid :
    let bid : Bid := ⟨[49], 100, 2, 0x11, [], [], [], [], []⟩
    ¬ ParseRight true ⟨[], [], []⟩ ⟨[50], [51], [[bid, bid]]⟩ ∧
      ¬ ParseRight true ⟨[], [], []⟩ ⟨[50], [51], [[bid], []]⟩ ∧
      ∀ fuel entryBid s, bidLoop ⟨[], [[117]], []⟩ [bid, bid, bid] fuel 0 entryBid s = none := by
  intro bid
  refine ⟨fun h => ?_, fun h => ?_, fun fuel entryBid s => ?_⟩
  · obtain ⟨bid', hseat, -⟩ := h.singleBids rfl _ List.mem_cons_self
    cases hseat
  · obtain ⟨bid', hseat, -⟩ := h.singleBids rfl [] (by simp)
    cases hseat
  · exact bidLoop_eq_none (.inl (List.cons_ne_nil _ _)) (by decide) (by decide)

end

end LetvResponse

end AdxDsp
