import AdxDsp.Bid.LetvResponse
import AdxDsp.Lib.JsonQuote

/-!
# The objects in the response to iflytek

A native or video bid of iflytek is a JSON object, whose text is the string `adm` in the response
(`iflytek_adapter.cpp`).  `serial_json` escapes the quotes of the text, and nothing else.

* **The functions**: `serialJson`, `ResObject.toAdm`, `toJsonStr`.
* `AdmRight`: the string stands for the text of the object.
* **What is written**: `runs_object`, `runs_buildResponse`; `describes_print`.
* `adm_right_iff`: the bids for which it is right; `quote_in_title`: one for which it is not.
-/

namespace AdxDsp

open CText JsonText

namespace IflytekAdm

open LinkedTrees LinkedTrees.Trees JsonTree

open LetvResponse (lookup arrayAt strings strings_nil lookup_append lookup_field printable_append
  printable_field printable_strings printable_objects)

/-! ## The functions -/

/-- The loop of `serial_json`. -/
def serialJsonLoop (src data : Bytes) : ℕ → (text : Bytes) → (locate : ℕ) → Option Bytes
  | 0, _, _ => none
  | fuel + 1, text, locate =>
    match find src (text.drop locate) with
    | none => some text
    | some found =>
      let locate := locate + found
      -- the next search begins behind `data`
      serialJsonLoop src data fuel (text.take locate ++ data ++ text.drop (locate + src.length))
        (locate + data.length)

/-- `serial_json`, where `src` is its `macro`. -/
def serialJson (src data text : Bytes) (fuel : ℕ) : Option Bytes :=
  serialJsonLoop src data fuel text 0

/-- The loop over some trackers. -/
def trackerLoop (array : Option ℕ) : List Bytes → Build Unit
  | [] => pure ()
  | tracker :: trackers => do
    let label ← jsonNewString tracker
    jsonInsertChild array label
    trackerLoop array trackers

/-- An array of trackers in an object. -/
def insertTrackers (root : Option ℕ) (label : Bytes) (trackers : List Bytes) : Build Unit := do
  let array ← jsonNewValue .array
  trackerLoop array trackers
  jsonInsertPairIntoObject root label array

/-- `NATIVERESOBJECT` -/
structure NativeResObject where
  title : Bytes
  desc : Bytes
  icon : Bytes
  img : Bytes
  landing : Bytes
  imptrackers : List Bytes
  clicktrackers : List Bytes

/-- `VIDEORESOBJECT` -/
structure VideoResObject where
  src : Bytes
  duration : ℕ
  landing : Bytes
  starttrackers : List Bytes
  completetrackers : List Bytes
  clicktrackers : List Bytes

/-- The object of a native or video bid. -/
inductive ResObject where
  | native (object : NativeResObject)
  | video (object : VideoResObject)

/-- What `NATIVERESOBJECT::ToAdm` builds. -/
def NativeResObject.build (object : NativeResObject) : Build (Option ℕ) := do
  let root ← jsonNewValue .object
  jsonInsertString root (bytes "title") object.title
  jsonInsertString root (bytes "desc") object.desc
  jsonInsertString root (bytes "icon") object.icon
  jsonInsertString root (bytes "img") object.img
  jsonInsertString root (bytes "landing") object.landing
  insertTrackers root (bytes "imptrackers") object.imptrackers
  insertTrackers root (bytes "clicktrackers") object.clicktrackers
  pure root

/-- What `VIDEORESOBJECT::ToAdm` builds. -/
def VideoResObject.build (object : VideoResObject) : Build (Option ℕ) := do
  let root ← jsonNewValue .object
  jsonInsertString root (bytes "src") object.src
  jsonInsertInt root (bytes "duration") object.duration
  jsonInsertString root (bytes "landing") object.landing
  insertTrackers root (bytes "starttrackers") object.starttrackers
  insertTrackers root (bytes "completetrackers") object.completetrackers
  insertTrackers root (bytes "clicktrackers") object.clicktrackers
  pure root

/-- The calls that build the tree of an object. -/
def ResObject.build : ResObject → Build (Option ℕ)
  | .native object => object.build
  | .video object => object.build

/-- The text of what has been built. -/
def treeText (build : Build (Option ℕ)) (fuel : ℕ) : Option Bytes := do
  let (root, s) ← build []
  let root ← root
  jsonTreeToString s root fuel .opening root []

/-- `ToAdm` -/
def ResObject.toAdm (object : ResObject) (fuel : ℕ) : Option Bytes := do
  let adm ← treeText object.build fuel
  serialJson [34] [92, 34] adm fuel

/-- The fields of a `BIDOBJECT` that are written; `price` is the text of the price. -/
structure BidObject (α : Type) where
  impid : Bytes
  price : Bytes
  adm : α

/-- `MESSAGERESPONSE`; a seat is its bids. -/
structure MessageResponse (α : Type) where
  id : Bytes
  seatbids : List (List (BidObject α))
  bidid : Bytes
  cur : Bytes

/-- The loop over the bids of a seat. -/
def bidLoop (arrayBid : Option ℕ) : List (BidObject Bytes) → Build Unit
  | [] => pure ()
  | bid :: bids => do
    let entryBid ← jsonNewValue .object
    jsonInsertString entryBid (bytes "impid") bid.impid
    jsonInsertNumber entryBid (bytes "price") bid.price
    jsonInsertString entryBid (bytes "adm") bid.adm
    jsonInsertChild arrayBid entryBid
    bidLoop arrayBid bids

/-- The array of the bids of a seat. -/
def seatBids (entrySeatbid : Option ℕ) (seat : List (BidObject Bytes)) : Build Unit := do
  let labelBid ← jsonNewString (bytes "bid")
  let arrayBid ← jsonNewValue .array
  bidLoop arrayBid seat
  jsonInsertChild labelBid arrayBid
  jsonInsertChild entrySeatbid labelBid

/-- The loop over the seats. -/
def seatLoop (arraySeatbid : Option ℕ) : List (List (BidObject Bytes)) → Build Unit
  | [] => pure ()
  | seat :: seats => do
    let entrySeatbid ← jsonNewValue .object
    (if seat = [] then pure () else seatBids entrySeatbid seat)
    jsonInsertChild arraySeatbid entrySeatbid
    seatLoop arraySeatbid seats

/-- The array of the seats. -/
def insertSeats (root : Option ℕ) (seatbids : List (List (BidObject Bytes))) : Build Unit := do
  let labelSeatbid ← jsonNewString (bytes "seatbid")
  let arraySeatbid ← jsonNewValue .array
  seatLoop arraySeatbid seatbids
  jsonInsertChild labelSeatbid arraySeatbid
  jsonInsertChild root labelSeatbid

/-- What `MESSAGERESPONSE::ToJsonStr` builds. -/
def buildResponse (resp : MessageResponse Bytes) : Build (Option ℕ) := do
  let root ← jsonNewValue .object
  jsonInsertString root (bytes "id") resp.id
  (if resp.seatbids = [] then pure () else insertSeats root resp.seatbids)
  jsonInsertString root (bytes "bidid") resp.bidid
  jsonInsertString root (bytes "cur") resp.cur
  pure root

/-- `MESSAGERESPONSE::ToJsonStr` -/
def toJsonStr (resp : MessageResponse Bytes) (fuel : ℕ) : Option Bytes :=
  treeText (buildResponse resp) fuel

/-- A bid with its `adm`; a banner has a text of its own. -/
def BidObject.withAdm (bid : BidObject (Bytes ⊕ ResObject)) (fuel : ℕ) :
    Option (BidObject Bytes) := do
  let adm ← bid.adm.elim some fun object => object.toAdm fuel
  some ⟨bid.impid, bid.price, adm⟩

/-- The response with the `adm` of each bid. -/
def MessageResponse.withAdm (resp : MessageResponse (Bytes ⊕ ResObject)) (fuel : ℕ) :
    Option (MessageResponse Bytes) := do
  let seatbids ← resp.seatbids.mapM fun seat => seat.mapM fun bid => bid.withAdm fuel
  some ⟨resp.id, seatbids, resp.bidid, resp.cur⟩

/-! ## What it should do -/

/-- The texts of an object. -/
def NativeResObject.texts (object : NativeResObject) : List Bytes :=
  [object.title, object.desc, object.icon, object.img, object.landing] ++ object.imptrackers ++
    object.clicktrackers

/-- The texts of a video. -/
def VideoResObject.texts (object : VideoResObject) : List Bytes :=
  [object.src, object.landing] ++ object.starttrackers ++ object.completetrackers ++
    object.clicktrackers

/-- The texts of an object. -/
def ResObject.texts : ResObject → List Bytes
  | .native object => object.texts
  | .video object => object.texts

/-- The texts are bodies of JSON strings, with all their escape sequences. -/
def Bodies (object : ResObject) : Prop := ∀ text ∈ object.texts, ∃ s, renderPieces s = text

/-- A member that is a string. -/
def stringMember (name text : Bytes) (next : Text Bytes Bytes Bytes) : Text Bytes Bytes Bytes :=
  .leaf [] (some ⟨name, [], []⟩) (.string text) [] next

/-- A member that is a number. -/
def numberMember (name text : Bytes) (next : Text Bytes Bytes Bytes) : Text Bytes Bytes Bytes :=
  .leaf [] (some ⟨name, [], []⟩) (.number text) [] next

/-- The elements of an array of strings. -/
def elements : List Bytes → Text Bytes Bytes Bytes
  | [] => .nil
  | text :: texts => .leaf [] none (.string text) [] (elements texts)

/-- A member that is an array of strings. -/
def stringsMember (name : Bytes) (texts : List Bytes) (next : Text Bytes Bytes Bytes) :
    Text Bytes Bytes Bytes :=
  if texts = [] then .leaf [] (some ⟨name, [], []⟩) (.emptyList false []) [] next
  else .node [] (some ⟨name, [], []⟩) false (elements texts) [] next

/-- The members of an object, as bytes. -/
def NativeResObject.members (object : NativeResObject) : Text Bytes Bytes Bytes :=
  stringMember (bytes "title") object.title <|
    stringMember (bytes "desc") object.desc <|
    stringMember (bytes "icon") object.icon <|
    stringMember (bytes "img") object.img <|
    stringMember (bytes "landing") object.landing <|
    stringsMember (bytes "imptrackers") object.imptrackers <|
    stringsMember (bytes "clicktrackers") object.clicktrackers .nil

/-- The members of a video. -/
def VideoResObject.members (object : VideoResObject) : Text Bytes Bytes Bytes :=
  stringMember (bytes "src") object.src <|
    numberMember (bytes "duration") (decimal (toInt32 object.duration)) <|
    stringMember (bytes "landing") object.landing <|
    stringsMember (bytes "starttrackers") object.starttrackers <|
    stringsMember (bytes "completetrackers") object.completetrackers <|
    stringsMember (bytes "clicktrackers") object.clicktrackers .nil

/-- The members of an object. -/
def ResObject.members : ResObject → Text Bytes Bytes Bytes
  | .native object => object.members
  | .video object => object.members

/-- A text is a JSON document with the texts of the object. -/
def Describes (object : ResObject) (text : Bytes) : Prop :=
  ∃ doc : Document, doc.render = text ∧
    doc.text.map renderPieces Number.render renderBlanks = object.members

/-- The pointers of what has been built are those of an object with these fields. -/
def Builds (build : Build (Option ℕ)) (fields : Trees JsonValue) : Prop :=
  ∃ root s children, build [] = some (some root, s) ∧
    Layout s none none (single (root, .object) children) ∧ children.erase = fields

/-- The string `adm` of a bid in the response. -/
def AdmAt (i j : ℕ) (adm : Bytes) (fields : Trees JsonValue) : Prop :=
  ∃ seats seat bids bid, arrayAt (bytes "seatbid") fields = some seats ∧ seats[i]? = some seat ∧
    arrayAt (bytes "bid") seat.2 = some bids ∧ bids[j]? = some bid ∧
    lookup (bytes "adm") bid.2 = some (.string adm, .nil)

/-- A bid of the response is native or video. -/
def BidAt (resp : MessageResponse (Bytes ⊕ ResObject)) (i j : ℕ) (object : ResObject) : Prop :=
  ∃ seat bid, resp.seatbids[i]? = some seat ∧ seat[j]? = some bid ∧ bid.adm = .inr object

/-- With enough turns the response has been written.  The string `adm` of a bid is what `ToAdm`
returns, and it is a JSON string for the text of the object, which is a document with the texts of
the bid. -/
def AdmRight (resp : MessageResponse (Bytes ⊕ ResObject)) (i j : ℕ) (object : ResObject) : Prop :=
  ∃ k, ∀ fuel, k ≤ fuel → ∃ resp' fields text adm, resp.withAdm fuel = some resp' ∧
    Builds (buildResponse resp') fields ∧ toJsonStr resp' fuel = some (print .object fields) ∧
    object.toAdm fuel = some adm ∧ AdmAt i j adm fields ∧
    treeText object.build fuel = some text ∧ (∃ s, renderPieces s = adm ∧ textOf s = some text) ∧
    Describes object text

/-! ## What is built -/

/-- The fields of a native object. -/
def NativeResObject.fields (object : NativeResObject) : Trees JsonValue :=
  (field (bytes "title") (.string (cstr object.title)) .nil).append <|
    (field (bytes "desc") (.string (cstr object.desc)) .nil).append <|
    (field (bytes "icon") (.string (cstr object.icon)) .nil).append <|
    (field (bytes "img") (.string (cstr object.img)) .nil).append <|
    (field (bytes "landing") (.string (cstr object.landing)) .nil).append <|
    (field (bytes "imptrackers") .array (strings object.imptrackers)).append <|
    field (bytes "clicktrackers") .array (strings object.clicktrackers)

/-- The fields of a video object. -/
def VideoResObject.fields (object : VideoResObject) : Trees JsonValue :=
  (field (bytes "src") (.string (cstr object.src)) .nil).append <|
    (field (bytes "duration") (.number (cstr (decimal (toInt32 object.duration)))) .nil).append <|
    (field (bytes "landing") (.string (cstr object.landing)) .nil).append <|
    (field (bytes "starttrackers") .array (strings object.starttrackers)).append <|
    (field (bytes "completetrackers") .array (strings object.completetrackers)).append <|
    field (bytes "clicktrackers") .array (strings object.clicktrackers)

/-- The tree of an object. -/
def ResObject.fields : ResObject → Trees JsonValue
  | .native object => object.fields
  | .video object => object.fields

/-- The fields of a bid. -/
def bidFields (bid : BidObject Bytes) : Trees JsonValue :=
  (field (bytes "impid") (.string (cstr bid.impid)) .nil).append <|
    (field (bytes "price") (.number (cstr bid.price)) .nil).append <|
    field (bytes "adm") (.string (cstr bid.adm)) .nil

/-- The bids of a seat, each of them an object. -/
def bidObjects (seat : List (BidObject Bytes)) : Trees JsonValue :=
  ofRoots (seat.map fun bid => (.object, bidFields bid))

/-- The fields of a seat. -/
def seatFields (seat : List (BidObject Bytes)) : Trees JsonValue :=
  if seat = [] then .nil else field (bytes "bid") .array (bidObjects seat)

/-- The seats, each of them an object. -/
def seatObjects (seatbids : List (List (BidObject Bytes))) : Trees JsonValue :=
  ofRoots (seatbids.map fun seat => (.object, seatFields seat))

/-- The fields of the response. -/
def responseFields (resp : MessageResponse Bytes) : Trees JsonValue :=
  (field (bytes "id") (.string (cstr resp.id)) .nil).append <|
    (if resp.seatbids = [] then .nil
      else field (bytes "seatbid") .array (seatObjects resp.seatbids)).append <|
    (field (bytes "bidid") (.string (cstr resp.bidid)) .nil).append <|
    field (bytes "cur") (.string (cstr resp.cur)) .nil

section

variable {base s : Store JsonValue} {items : List Item} {p : Option ℕ} {children : Trees JsonValue}

/-- The loop adds a string for each tracker. -/
theorem runs_trackerLoop (trackers : List Bytes) :
    Runs (Has base ((p, .array, children) :: items)) (trackerLoop p trackers)
      fun _ => Has base ((p, .array, children.append (strings trackers)) :: items) := by
  induction trackers generalizing children with
  | nil =>
    refine Runs.pure fun s hs => ?_
    rw [strings_nil, append_nil]
    exact hs
  | cons tracker trackers ih =>
    refine (runs_jsonNewValue _).bind fun label => runs_perm (.swap _ _ _) ?_
    refine (runs_jsonInsertChild fun _ h => by exact h rfl).bind fun _ => ?_
    refine ih.mono (fun _ hs => hs) fun _ s hs => ?_
    rw [append_assoc] at hs
    exact hs

/-- The trackers under their label. -/
theorem runs_insertTrackers (label : Bytes) (trackers : List Bytes) :
    Runs (Has base ((p, .object, children) :: items)) (insertTrackers p label trackers)
      fun _ => Has base
        ((p, .object, children.append (field label .array (strings trackers))) :: items) := by
  refine (runs_jsonNewValue _).bind fun array => (runs_trackerLoop trackers).bind fun _ => ?_
  exact runs_perm (.swap _ _ _) (runs_jsonInsertPairIntoObject label)

/-- The calls for a native ad build its tree. -/
theorem runs_native (object : NativeResObject) : Runs (Has base items) object.build
    fun root => Has base ((root, .object, object.fields) :: items) := by
  refine (runs_jsonNewValue _).bind fun root => ?_
  refine (runs_jsonInsertString _ _).bind fun _ => (runs_jsonInsertString _ _).bind fun _ => ?_
  refine (runs_jsonInsertString _ _).bind fun _ => (runs_jsonInsertString _ _).bind fun _ => ?_
  refine (runs_jsonInsertString _ _).bind fun _ => (runs_insertTrackers _ _).bind fun _ => ?_
  refine (runs_insertTrackers _ _).bind fun _ => Runs.pure fun s hs => ?_
  simpa only [NativeResObject.fields, append_assoc, nil_append] using hs

/-- The calls for a video build its tree. -/
theorem runs_video (object : VideoResObject) : Runs (Has base items) object.build
    fun root => Has base ((root, .object, object.fields) :: items) := by
  refine (runs_jsonNewValue _).bind fun root => ?_
  refine (runs_jsonInsertString _ _).bind fun _ => (runs_jsonInsertNumber _ _).bind fun _ => ?_
  refine (runs_jsonInsertString _ _).bind fun _ => (runs_insertTrackers _ _).bind fun _ => ?_
  refine (runs_insertTrackers _ _).bind fun _ => (runs_insertTrackers _ _).bind fun _ => ?_
  refine Runs.pure fun s hs => ?_
  simpa only [VideoResObject.fields, append_assoc, nil_append] using hs

/-- The calls for an object build its tree. -/
theorem runs_object (object : ResObject) : Runs (Has base items) object.build
    fun root => Has base ((root, .object, object.fields) :: items) := by
  cases object with
  | native object => exact runs_native object
  | video object => exact runs_video object

/-- The loop adds an object for each bid. -/
theorem runs_bidLoop (seat : List (BidObject Bytes)) :
    Runs (Has base ((p, .array, children) :: items)) (bidLoop p seat)
      fun _ => Has base ((p, .array, children.append (bidObjects seat)) :: items) := by
  induction seat generalizing children with
  | nil =>
    refine Runs.pure fun s hs => ?_
    rw [show bidObjects [] = .nil from rfl, append_nil]
    exact hs
  | cons bid seat ih =>
    refine (runs_jsonNewValue _).bind fun entry => (runs_jsonInsertString _ _).bind fun _ => ?_
    refine (runs_jsonInsertNumber _ _).bind fun _ => (runs_jsonInsertString _ _).bind fun _ => ?_
    refine runs_perm (.swap _ _ _) ((runs_jsonInsertChild fun _ _ => rfl).bind fun _ => ?_)
    refine ih.mono (fun _ hs => hs) fun _ s hs => ?_
    simp only [append_assoc, nil_append] at hs
    exact hs

/-- The bids of a seat under their label. -/
theorem runs_seatBids (seat : List (BidObject Bytes)) :
    Runs (Has base ((p, .object, children) :: items)) (seatBids p seat) fun _ => Has base
      ((p, .object, children.append (field (bytes "bid") .array (bidObjects seat))) :: items) := by
  refine (runs_jsonNewValue _).bind fun label => (runs_jsonNewValue _).bind fun array => ?_
  refine (runs_bidLoop seat).bind fun _ => runs_perm (.swap _ _ _) ?_
  refine (runs_jsonInsertChild fun _ _ => rfl).bind fun _ => ?_
  exact runs_perm (.swap _ _ _) (runs_jsonInsertChild fun _ _ => rfl)

/-- The loop adds an object for each seat. -/
theorem runs_seatLoop (seatbids : List (List (BidObject Bytes))) :
    Runs (Has base ((p, .array, children) :: items)) (seatLoop p seatbids)
      fun _ => Has base ((p, .array, children.append (seatObjects seatbids)) :: items) := by
  induction seatbids generalizing children with
  | nil =>
    refine Runs.pure fun s hs => ?_
    rw [show seatObjects [] = .nil from rfl, append_nil]
    exact hs
  | cons seat seats ih =>
    have hseat (entry : Option ℕ) : Runs (Has base ((entry, .object, .nil) ::
        (p, .array, children) :: items)) (if seat = [] then pure () else seatBids entry seat)
        fun _ => Has base ((entry, .object, seatFields seat) :: (p, .array, children) :: items) := by
      rw [seatFields]
      split_ifs with hnil
      · exact Runs.pure fun s hs => hs
      · exact runs_seatBids seat
    refine (runs_jsonNewValue _).bind fun entry => (hseat entry).bind fun _ => ?_
    refine runs_perm (.swap _ _ _) ((runs_jsonInsertChild fun _ _ => rfl).bind fun _ => ?_)
    refine ih.mono (fun _ hs => hs) fun _ s hs => ?_
    rw [append_assoc] at hs
    exact hs

/-- The seats under their label. -/
theorem runs_insertSeats (seatbids : List (List (BidObject Bytes))) :
    Runs (Has base ((p, .object, children) :: items)) (insertSeats p seatbids) fun _ => Has base
      ((p, .object, children.append (field (bytes "seatbid") .array (seatObjects seatbids))) ::
        items) := by
  refine (runs_jsonNewValue _).bind fun label => (runs_jsonNewValue _).bind fun array => ?_
  refine (runs_seatLoop seatbids).bind fun _ => runs_perm (.swap _ _ _) ?_
  refine (runs_jsonInsertChild fun _ _ => rfl).bind fun _ => ?_
  exact runs_perm (.swap _ _ _) (runs_jsonInsertChild fun _ _ => rfl)

/-- The response has all bids of all seats. -/
theorem runs_buildResponse (resp : MessageResponse Bytes) :
    Runs (Has base items) (buildResponse resp)
      fun root => Has base ((root, .object, responseFields resp) :: items) := by
  refine (runs_jsonNewValue _).bind fun root => (runs_jsonInsertString _ _).bind fun _ => ?_
  have hseats : ∀ fields, Runs (Has base ((root, .object, fields) :: items))
      (if resp.seatbids = [] then pure () else insertSeats root resp.seatbids)
      fun _ => Has base ((root, .object, fields.append (if resp.seatbids = [] then .nil
        else field (bytes "seatbid") .array (seatObjects resp.seatbids))) :: items) := by
    intro fields
    split_ifs with hnil
    · refine Runs.pure fun s hs => ?_
      rw [append_nil]
      exact hs
    · exact runs_insertSeats resp.seatbids
  refine (hseats _).bind fun _ => (runs_jsonInsertString _ _).bind fun _ => ?_
  refine (runs_jsonInsertString _ _).bind fun _ => Runs.pure fun s hs => ?_
  simpa only [responseFields, append_assoc, nil_append] using hs

end

/-! ## The texts -/

/-- The text of a string or a number. -/
def valueTexts : JsonValue → List Bytes
  | .string text | .number text => [text]
  | _ => []

/-- The texts of the strings and numbers that are written. -/
def shown : Trees JsonValue → List Bytes
  | .nil => []
  | .cons v children siblings =>
    valueTexts v ++ (if opens v then shown children else []) ++ shown siblings

/-- What is true of the text of a document if it is true of the texts in it. -/
structure Textual (P : Bytes → Prop) : Prop where
  append : ∀ t t', P t → P t' → P (t ++ t')
  ascii : ∀ t : Bytes, (∀ b ∈ t, 32 ≤ b ∧ b < 128 ∧ b ≠ 92) → P t

/-- Being visible is preserved by what is written around the texts. -/
theorem textual_visible : Textual Visible := ⟨fun _ _ => Visible.append, fun _ => visible_of_ascii⟩

/-- So is having no zero byte. -/
theorem textual_notMem_zero : Textual (0 ∉ ·) where
  append t t' h h' hmem := (List.mem_append.mp hmem).elim h h'
  ascii t h hmem := absurd (h 0 hmem).1 (by decide)

section

variable {P : Bytes → Prop} {t : Trees JsonValue} {v : JsonValue} {label first : Bool}
  {object : ResObject} {text : Bytes} {b : UInt8}

/-- What opens a value has the property if its text has. -/
theorem Textual.openText (hP : Textual P) (h : ∀ text ∈ valueTexts v, P text) :
    P (openText label v) := by
  cases v with
  | string text =>
    have hbody := hP.append [34] text (hP.ascii _ (by simp)) (h text (by simp [valueTexts]))
    refine hP.append _ _ hbody (hP.ascii _ ?_)
    cases label <;> simp
  | number text => exact h text (by simp [valueTexts])
  | _ => exact hP.ascii _ (by simp [JsonTree.openText])

/-- What is printed has the property if the shown texts have. -/
theorem Textual.printTrees (hP : Textual P) (h : ∀ text ∈ shown t, P text) :
    P (printTrees label first t) := by
  induction t generalizing label first with
  | nil => exact hP.ascii _ (by simp [JsonTree.printTrees])
  | cons v children siblings ihc ihs =>
    simp only [shown, List.forall_mem_append] at h
    obtain ⟨⟨hv, hchildren⟩, hsiblings⟩ := h
    have hcomma : P (if first then [] else [44]) := hP.ascii _ (by cases first <;> simp)
    have hclose : P (closeText v) := hP.ascii _ (by cases v <;> simp [closeText])
    refine hP.append _ _ (hP.append _ _ (hP.append _ _ (hP.append _ _ hcomma (hP.openText hv)) ?_)
      hclose) (ihs hsiblings)
    split_ifs with hopens
    · exact ihc (by simpa [hopens] using hchildren)
    · exact hP.ascii _ (by simp)

/-- A text is shown with its bytes. -/
theorem mem_openText (htext : text ∈ valueTexts v) (hb : b ∈ text) : b ∈ openText label v := by
  cases v with
  | string t =>
    obtain rfl := List.mem_singleton.mp htext
    exact List.mem_append_left _ (List.mem_cons_of_mem _ hb)
  | number t =>
    obtain rfl := List.mem_singleton.mp htext
    exact hb
  | _ => cases htext

/-- The shown texts are printed with their bytes. -/
theorem mem_printTrees (htext : text ∈ shown t) (hb : b ∈ text) : b ∈ printTrees label first t := by
  induction t generalizing label first with
  | nil => cases htext
  | cons v children siblings ihc ihs =>
    rw [printTrees]
    simp only [shown, List.mem_append] at htext
    rcases htext with (hv | hchildren) | hsiblings
    · have hopen := @mem_openText v label _ _ hv hb
      simp [hopen]
    · split_ifs at hchildren with hopens
      · have hchild : b ∈ printTrees (v = .object) true children := ihc hchildren
        simp [hopens, hchild]
      · cases hchildren
    · have hsibling : b ∈ printTrees label false siblings := ihs hsiblings
      simp [hsibling]

/-- The shown texts of appended trees. -/
theorem shown_append (t u : Trees JsonValue) : shown (t.append u) = shown t ++ shown u := by
  induction t with
  | nil => rfl
  | cons v children siblings _ ih => simp [shown, append, ih]

/-- The shown texts of a field. -/
theorem shown_field (label : Bytes) (v : JsonValue) (children : Trees JsonValue) :
    shown (field label v children) =
      cstr label :: (valueTexts v ++ if opens v then shown children else []) := by
  simp [field, single, shown, valueTexts, opens]

/-- The shown texts of an array of strings. -/
theorem shown_strings (texts : List Bytes) : shown (strings texts) = texts.map cstr := by
  induction texts with
  | nil => rfl
  | cons text texts ih =>
    show valueTexts (.string (cstr text)) ++ _ ++ shown (strings texts) = _
    rw [ih]
    rfl

/-- A decimal text is visible. -/
theorem visible_decimal (z : ℤ) : ∀ b ∈ decimal z, 32 ≤ b ∧ b < 128 ∧ b ≠ 92 := by
  intro b hb
  rcases mem_decimal hb with hdigit | rfl
  · simp only [isDigit, Bool.and_eq_true, decide_eq_true_eq, UInt8.le_iff_toNat_le,
      UInt8.reduceToNat] at hdigit
    refine ⟨?_, ?_, fun h => ?_⟩
    · rw [UInt8.le_iff_toNat_le]
      exact le_trans (by decide) hdigit.1
    · rw [UInt8.lt_iff_toNat_lt]
      exact hdigit.2.trans_lt (by decide)
    · rw [h] at hdigit
      exact absurd hdigit.2 (by decide)
  · decide

/-- The texts of a field have the property if its parts have. -/
theorem Textual.of_field (hP : Textual P) {label : Bytes} {children : Trees JsonValue}
    (hlabel : ∀ b ∈ cstr label, 32 ≤ b ∧ b < 128 ∧ b ≠ 92) (hv : ∀ text ∈ valueTexts v, P text)
    (hchildren : ∀ text ∈ shown children, P text) :
    ∀ text ∈ shown (field label v children), P text := by
  rw [shown_field, List.forall_mem_cons, List.forall_mem_append]
  refine ⟨hP.ascii _ hlabel, hv, ?_⟩
  split_ifs
  · exact hchildren
  · simp

/-- The text of an object is made of its texts. -/
theorem Textual.printObject (hP : Textual P) (h : ∀ text ∈ object.texts, P (cstr text)) :
    P (print .object object.fields) := by
  -- a field with a text, and a field with a list of texts
  have hstring {label value : Bytes} (hlabel : ∀ b ∈ cstr label, 32 ≤ b ∧ b < 128 ∧ b ≠ 92)
      (hvalue : P (cstr value)) :
      ∀ text ∈ shown (field label (.string (cstr value)) .nil), P text :=
    hP.of_field hlabel (by simpa [valueTexts] using hvalue) (by simp [shown])
  have htrackers {label : Bytes} {texts : List Bytes}
      (hlabel : ∀ b ∈ cstr label, 32 ≤ b ∧ b < 128 ∧ b ≠ 92) (htexts : ∀ text ∈ texts, P (cstr text)) :
      ∀ text ∈ shown (field label .array (strings texts)), P text :=
    hP.of_field hlabel (by simp [valueTexts]) (by simpa [shown_strings] using htexts)
  have hfields : ∀ text ∈ shown object.fields, P text := by
    cases object with
    | native object =>
      simp only [ResObject.texts, NativeResObject.texts, List.forall_mem_append,
        List.forall_mem_cons] at h
      obtain ⟨⟨⟨htitle, hdesc, hicon, himg, hlanding, -⟩, himp⟩, hclick⟩ := h
      simp only [ResObject.fields, NativeResObject.fields, shown_append, List.forall_mem_append]
      refine ⟨hstring ?_ htitle, hstring ?_ hdesc, hstring ?_ hicon, hstring ?_ himg,
        hstring ?_ hlanding, htrackers ?_ himp, htrackers ?_ hclick⟩ <;> simp [bytes, cstr]
    | video object =>
      simp only [ResObject.texts, VideoResObject.texts, List.forall_mem_append,
        List.forall_mem_cons] at h
      obtain ⟨⟨⟨⟨hsrc, hlanding, -⟩, hstart⟩, hcomplete⟩, hclick⟩ := h
      have hduration : ∀ text ∈ valueTexts (.number (cstr (decimal (toInt32 object.duration)))),
          P text := by
        simpa [valueTexts] using hP.ascii _ (visible_decimal _)
      simp only [ResObject.fields, VideoResObject.fields, shown_append, List.forall_mem_append]
      refine ⟨hstring ?_ hsrc, hP.of_field ?_ hduration (by simp [shown]), hstring ?_ hlanding,
        htrackers ?_ hstart, htrackers ?_ hcomplete, htrackers ?_ hclick⟩ <;> simp [bytes, cstr]
  refine hP.printTrees ?_
  simpa [single, shown, valueTexts, opens] using hfields

/-- Each text of an object is in its text. -/
theorem mem_printObject (htext : text ∈ object.texts) (hb : b ∈ cstr text) :
    b ∈ print .object object.fields := by
  suffices hfields : cstr text ∈ shown object.fields by
    have hshown : cstr text ∈ shown (single .object object.fields) := by
      simpa [single, shown, valueTexts, opens] using hfields
    exact mem_printTrees hshown hb
  cases object with
  | native object =>
    simp only [ResObject.texts, NativeResObject.texts, List.mem_append, List.mem_cons,
      List.not_mem_nil, or_false] at htext
    simp only [ResObject.fields, NativeResObject.fields, shown_append, shown_field, shown_strings,
      valueTexts, opens]
    rcases htext with ((rfl | rfl | rfl | rfl | rfl) | himp) | hclick
    iterate 5 simp
    · simp [List.mem_map_of_mem himp]
    · simp [List.mem_map_of_mem hclick]
  | video object =>
    simp only [ResObject.texts, VideoResObject.texts, List.mem_append, List.mem_cons,
      List.not_mem_nil, or_false] at htext
    simp only [ResObject.fields, VideoResObject.fields, shown_append, shown_field, shown_strings,
      valueTexts, opens]
    rcases htext with (((rfl | rfl) | hstart) | hcomplete) | hclick
    iterate 2 simp
    · simp [List.mem_map_of_mem hstart]
    · simp [List.mem_map_of_mem hcomplete]
    · simp [List.mem_map_of_mem hclick]

end

/-! ## The calls come to an end -/

/-- What `serial_json` has put in is not searched again. -/
theorem serialJsonLoop_eq {src : Bytes} (hsrc : src ≠ []) (data : Bytes) {fuel : ℕ} {rest : Bytes}
    (hfuel : rest.length < fuel) (done : Bytes) :
    serialJsonLoop src data fuel (done ++ rest) done.length =
      some (done ++ replaceAll src data rest) := by
  -- `done` has its replacements, and `rest` is the end of the old text
  induction fuel generalizing rest done with
  | zero => omega
  | succ fuel ih =>
    rw [serialJsonLoop, List.drop_left]
    cases hfind : find src rest with
    | none => rw [replaceAll_of_find_eq_none data hfind]
    | some found =>
      have hshorter := length_drop_of_find hsrc hfind
      have hfound : (rest.take found).length = found :=
        List.length_take_of_le (Nat.le_of_add_right_le (add_length_le_of_find hsrc hfind))
      have hnext := @ih (rest.drop (found + src.length)) (by omega) (done ++ rest.take found ++ data)
      rw [replaceAll_of_find_eq_some hsrc data hfind]
      dsimp only
      rw [List.take_length_add_append, Nat.add_assoc, List.drop_length_add_append]
      rw [List.length_append, List.length_append, hfound] at hnext
      rw [hnext]
      simp only [List.append_assoc]

/-- The loop puts a backslash before each quotation mark. -/
theorem serialJson_eq {text : Bytes} {fuel : ℕ} (hfuel : text.length < fuel) :
    serialJson [34] [92, 34] text fuel = some (quoted text) :=
  serialJsonLoop_eq (List.cons_ne_nil _ _) _ hfuel []

/-- What has been built has a text. -/
theorem exists_treeText {build : Build (Option ℕ)} {fields : Trees JsonValue}
    (hbuild : Runs (Has [] []) build fun root => Has [] [(root, .object, fields)])
    (hprint : Printable true fields) : Builds build fields ∧
      ∃ k, ∀ fuel, k ≤ fuel → treeText build fuel = some (print .object fields) := by
  obtain ⟨root, s, hrun, hhas⟩ := hbuild [] (Has.nil [])
  obtain ⟨a, children, rfl, hlayout, hroot, rfl⟩ := hhas.exists_layout
  obtain ⟨k, hk⟩ := jsonTreeToString_eq hlayout hroot
    ⟨fun h => absurd h.2 Bool.false_ne_true, hprint, trivial⟩
  refine ⟨⟨a, s, children, hrun, hlayout, rfl⟩, k, fun fuel hfuel => ?_⟩
  obtain ⟨m, rfl⟩ := Nat.exists_eq_add_of_le' hfuel
  simp [treeText, hrun, hk]

/-- The tree of an object can be printed. -/
theorem printable_fields (object : ResObject) : Printable true object.fields := by
  have hstring (label value : Bytes) : Printable true (field label (.string (cstr value)) .nil) :=
    printable_field trivial
  have htrackers (label : Bytes) (texts : List Bytes) :
      Printable true (field label .array (strings texts)) :=
    printable_field (printable_strings texts)
  cases object with
  | native object =>
    simp only [ResObject.fields, NativeResObject.fields, printable_append]
    exact ⟨hstring _ _, hstring _ _, hstring _ _, hstring _ _, hstring _ _, htrackers _ _,
      htrackers _ _⟩
  | video object =>
    simp only [ResObject.fields, VideoResObject.fields, printable_append]
    exact ⟨hstring _ _, printable_field trivial, hstring _ _, htrackers _ _, htrackers _ _,
      htrackers _ _⟩

/-- The tree of a response can be printed. -/
theorem printable_responseFields (resp : MessageResponse Bytes) :
    Printable true (responseFields resp) := by
  have hbid (bid : BidObject Bytes) : Printable true (bidFields bid) := by
    simp only [bidFields, printable_append]
    exact ⟨printable_field trivial, printable_field trivial, printable_field trivial⟩
  have hseat (seat : List (BidObject Bytes)) : Printable true (seatFields seat) := by
    rw [seatFields]
    split_ifs
    · trivial
    · exact printable_field (printable_objects hbid seat)
  simp only [responseFields, printable_append]
  refine ⟨printable_field trivial, ?_, printable_field trivial, printable_field trivial⟩
  split_ifs
  · trivial
  · exact printable_field (printable_objects hseat resp.seatbids)

/-- With enough fuel the response is printed. -/
theorem exists_toJsonStr (resp : MessageResponse Bytes) :
    Builds (buildResponse resp) (responseFields resp) ∧ ∃ k, ∀ fuel, k ≤ fuel →
      toJsonStr resp fuel = some (print .object (responseFields resp)) :=
  exists_treeText (runs_buildResponse resp) (printable_responseFields resp)

/-- The string `adm` is the text of the object with its quotes escaped. -/
theorem exists_toAdm (object : ResObject) : ∃ k, ∀ fuel, k ≤ fuel →
    treeText object.build fuel = some (print .object object.fields) ∧
      object.toAdm fuel = some (quoted (print .object object.fields)) := by
  obtain ⟨-, k, hk⟩ := exists_treeText (runs_object object) (printable_fields object)
  refine ⟨max k ((print .object object.fields).length + 1), fun fuel hfuel => ?_⟩
  have htext := hk fuel (le_of_max_le_left hfuel)
  refine ⟨htext, ?_⟩
  rw [ResObject.toAdm, htext]
  exact serialJson_eq (le_of_max_le_right hfuel)

/-- A bid with the string that it gets. -/
def BidObject.written (bid : BidObject (Bytes ⊕ ResObject)) : BidObject Bytes :=
  ⟨bid.impid, bid.price, bid.adm.elim id fun object => quoted (print .object object.fields)⟩

/-- A response with its objects written as texts. -/
def MessageResponse.written (resp : MessageResponse (Bytes ⊕ ResObject)) :
    MessageResponse Bytes :=
  ⟨resp.id, resp.seatbids.map fun seat => seat.map BidObject.written, resp.bidid, resp.cur⟩

/-- Calls that all come to an end do so with a common bound on their turns. -/
theorem exists_mapM {α β : Type} {f : ℕ → α → Option β} {g : α → β}
    (h : ∀ a, ∃ k, ∀ fuel, k ≤ fuel → f fuel a = some (g a)) (l : List α) :
    ∃ k, ∀ fuel, k ≤ fuel → l.mapM (f fuel) = some (l.map g) := by
  induction l with
  | nil => exact ⟨0, fun fuel _ => rfl⟩
  | cons a l ih =>
    obtain ⟨k, hk⟩ := h a
    obtain ⟨m, hm⟩ := ih
    refine ⟨max k m, fun fuel hfuel => ?_⟩
    rw [List.mapM_cons, hk fuel (le_of_max_le_left hfuel), hm fuel (le_of_max_le_right hfuel)]
    rfl

/-- With enough fuel all objects are written. -/
theorem exists_withAdm (resp : MessageResponse (Bytes ⊕ ResObject)) : ∃ k, ∀ fuel, k ≤ fuel →
    resp.withAdm fuel = some resp.written := by
  have hbid (bid : BidObject (Bytes ⊕ ResObject)) : ∃ k, ∀ fuel, k ≤ fuel →
      bid.withAdm fuel = some bid.written := by
    obtain ⟨impid, price, adm⟩ := bid
    cases adm with
    | inl adm => exact ⟨0, fun fuel _ => rfl⟩
    | inr object =>
      obtain ⟨k, hk⟩ := exists_toAdm object
      refine ⟨k, fun fuel hfuel => ?_⟩
      simp [BidObject.withAdm, BidObject.written, (hk fuel hfuel).2]
  obtain ⟨k, hk⟩ := exists_mapM (fun seat => exists_mapM hbid seat) resp.seatbids
  refine ⟨k, fun fuel hfuel => ?_⟩
  rw [MessageResponse.withAdm, hk fuel hfuel]
  rfl

/-! ## The document -/

/-- The fields of an object are printed as these members. -/
def Prints (members : Text Bytes Bytes Bytes) (t : Trees JsonValue) : Prop :=
  ∀ first, printTrees true first t = (if first then [] else members.comma) ++ members.render

/-- Strings that are bodies, numbers, and no blanks. -/
def tokens : Text.Condition Bytes Bytes Bytes :=
  ⟨fun t => ∃ s, s ≠ [] ∧ renderPieces s = t, fun t => ∃ s, True ∧ renderPieces s = t,
    fun t => ∃ n, True ∧ Number.render n = t, fun t => ∃ b, True ∧ renderBlanks b = t, False⟩

section

variable {name text : Bytes} {texts : List Bytes} {next members : Text Bytes Bytes Bytes}
  {t : Trees JsonValue} {object : ResObject}

/-- Nothing is printed of nothing. -/
theorem prints_nil : Prints .nil .nil := by
  intro first
  cases first <;> rfl

/-- A member that is a string. -/
theorem prints_stringMember (hname : cstr name = name) (htext : cstr text = text)
    (h : Prints next t) :
    Prints (stringMember name text next) ((field name (.string (cstr text)) .nil).append t) := by
  intro first
  cases first <;> simp [stringMember, Text.render, Text.comma, Name.render, Scalar.render, field,
    single, append, printTrees, openText, opens, closeText, hname, htext, h false]

/-- A member that is a number. -/
theorem prints_numberMember (hname : cstr name = name) (htext : cstr text = text)
    (h : Prints next t) :
    Prints (numberMember name text next) ((field name (.number (cstr text)) .nil).append t) := by
  intro first
  cases first <;> simp [numberMember, Text.render, Text.comma, Name.render, Scalar.render, field,
    single, append, printTrees, openText, opens, closeText, hname, htext, h false]

/-- An array of strings is printed as its elements. -/
theorem printTrees_strings (htexts : ∀ text ∈ texts, cstr text = text) (first : Bool) :
    printTrees false first (strings texts) =
      (if first then [] else (elements texts).comma) ++ (elements texts).render := by
  induction texts generalizing first with
  | nil => cases first <;> rfl
  | cons text texts ih =>
    obtain ⟨htext, htexts⟩ := List.forall_mem_cons.mp htexts
    have hstrings : strings (text :: texts) = .cons (.string (cstr text)) .nil (strings texts) := rfl
    rw [hstrings, printTrees, ih htexts]
    cases first <;> simp [elements, Text.render, Text.comma, Scalar.render, printTrees, openText,
      opens, closeText, htext]

/-- A member that is an array of strings. -/
theorem prints_stringsMember (hname : cstr name = name) (htexts : ∀ text ∈ texts, cstr text = text)
    (h : Prints next t) :
    Prints (stringsMember name texts next) ((field name .array (strings texts)).append t) := by
  intro first
  rw [stringsMember]
  by_cases hnil : texts = []
  · rw [if_pos hnil, hnil]
    cases first <;> simp [Text.render, Text.comma, Name.render, Scalar.render, field, single, append,
      printTrees, openText, opens, closeText, openBracket, closeBracket, hname, h false]
  · rw [if_neg hnil]
    cases first <;> simp [Text.render, Text.comma, Name.render, field, single, append, printTrees,
      openText, opens, closeText, openBracket, closeBracket, hname, h false,
      printTrees_strings htexts]

/-- The text of an object is that of its members. -/
theorem prints_members (htexts : ∀ text ∈ object.texts, cstr text = text) :
    Prints object.members object.fields := by
  cases object with
  | native object =>
    simp only [ResObject.texts, NativeResObject.texts, List.forall_mem_append,
      List.forall_mem_cons] at htexts
    obtain ⟨⟨⟨htitle, hdesc, hicon, himg, hlanding, -⟩, himp⟩, hclick⟩ := htexts
    rw [ResObject.fields, NativeResObject.fields, ← append_nil (field (bytes "clicktrackers") _ _)]
    refine prints_stringMember (by rfl) htitle <| prints_stringMember (by rfl) hdesc <|
      prints_stringMember (by rfl) hicon <| prints_stringMember (by rfl) himg <|
      prints_stringMember (by rfl) hlanding <| prints_stringsMember (by rfl) himp <|
      prints_stringsMember (by rfl) hclick prints_nil
  | video object =>
    simp only [ResObject.texts, VideoResObject.texts, List.forall_mem_append,
      List.forall_mem_cons] at htexts
    obtain ⟨⟨⟨⟨hsrc, hlanding, -⟩, hstart⟩, hcomplete⟩, hclick⟩ := htexts
    rw [ResObject.fields, VideoResObject.fields, ← append_nil (field (bytes "clicktrackers") _ _)]
    refine prints_stringMember (by rfl) hsrc <| prints_numberMember (by rfl) (cstr_decimal _) <|
      prints_stringMember (by rfl) hlanding <| prints_stringsMember (by rfl) hstart <|
      prints_stringsMember (by rfl) hcomplete <| prints_stringsMember (by rfl) hclick prints_nil

/-- A visible name is one for the reader. -/
theorem name_tokens (hne : name ≠ []) (hquote : 34 ∉ name)
    (hascii : ∀ b ∈ name, 32 ≤ b ∧ b < 128 ∧ b ≠ 92) : tokens.name name := by
  obtain ⟨s, hs, -⟩ := quoted_right_iff.mpr (visible_of_ascii hascii)
  rw [quoted_of_notMem hquote] at hs
  refine ⟨s, ?_, hs⟩
  rintro rfl
  exact hne hs.symm

/-- No white space is white space. -/
theorem blanks_tokens : tokens.blanks [] := ⟨[], trivial, rfl⟩

/-- A name without white space around its colon. -/
theorem onName_tokens (h : tokens.name name) : tokens.OnName (some ⟨name, [], []⟩) := by
  rintro n ⟨⟩
  exact ⟨h, blanks_tokens, blanks_tokens⟩

/-- An element has no name. -/
theorem onName_none : tokens.OnName none := nofun

/-- The elements are strings for the reader. -/
theorem all_elements (htexts : ∀ text ∈ texts, tokens.string text) : (elements texts).All tokens := by
  induction texts with
  | nil => trivial
  | cons text texts ih =>
    obtain ⟨htext, htexts⟩ := List.forall_mem_cons.mp htexts
    exact ⟨blanks_tokens, onName_none, htext, blanks_tokens, ih htexts⟩

/-- Elements have no names. -/
theorem wellKeyed_elements (texts : List Bytes) : (elements texts).WellKeyed false := by
  induction texts with
  | nil => trivial
  | cons text texts ih => exact ⟨rfl, ih⟩

/-- Members that are well keyed, and have only good tokens. -/
def Good (members : Text Bytes Bytes Bytes) : Prop :=
  members.WellKeyed true ∧ members.All tokens

/-- No members are good. -/
theorem good_nil : Good .nil := ⟨trivial, trivial⟩

/-- A member that is a string. -/
theorem good_stringMember (hname : tokens.name name) (htext : tokens.string text) (h : Good next) :
    Good (stringMember name text next) :=
  ⟨⟨rfl, h.1⟩, blanks_tokens, onName_tokens hname, htext, blanks_tokens, h.2⟩

/-- A member that is a number. -/
theorem good_numberMember (hname : tokens.name name) (htext : tokens.number text) (h : Good next) :
    Good (numberMember name text next) :=
  ⟨⟨rfl, h.1⟩, blanks_tokens, onName_tokens hname, htext, blanks_tokens, h.2⟩

/-- A member that is an array of strings. -/
theorem good_stringsMember (hname : tokens.name name)
    (htexts : ∀ text ∈ texts, tokens.string text) (h : Good next) :
    Good (stringsMember name texts next) := by
  cases texts with
  | nil => exact ⟨⟨rfl, h.1⟩, blanks_tokens, onName_tokens hname, blanks_tokens, blanks_tokens, h.2⟩
  | cons text texts =>
    exact ⟨⟨rfl, trivial, wellKeyed_elements _, h.1⟩, blanks_tokens, onName_tokens hname,
      all_elements htexts, blanks_tokens, h.2⟩

/-- The members of an object whose texts are bodies of strings. -/
theorem good_members (h : Bodies object) : Good object.members := by
  have htexts : ∀ text ∈ object.texts, tokens.string text := fun text htext =>
    (h text htext).imp fun s hs => ⟨trivial, hs⟩
  have hname (label : String) (hgood : bytes label ≠ [] ∧ 34 ∉ bytes label ∧
      ∀ b ∈ bytes label, 32 ≤ b ∧ b < 128 ∧ b ≠ 92) : tokens.name (bytes label) :=
    name_tokens hgood.1 hgood.2.1 hgood.2.2
  cases object with
  | native object =>
    simp only [ResObject.texts, NativeResObject.texts, List.forall_mem_append,
      List.forall_mem_cons] at htexts
    obtain ⟨⟨⟨htitle, hdesc, hicon, himg, hlanding, -⟩, himp⟩, hclick⟩ := htexts
    refine good_stringMember (hname _ ?_) htitle <| good_stringMember (hname _ ?_) hdesc <|
      good_stringMember (hname _ ?_) hicon <| good_stringMember (hname _ ?_) himg <|
      good_stringMember (hname _ ?_) hlanding <| good_stringsMember (hname _ ?_) himp <|
      good_stringsMember (hname _ ?_) hclick good_nil <;> simp [bytes]
  | video object =>
    simp only [ResObject.texts, VideoResObject.texts, List.forall_mem_append,
      List.forall_mem_cons] at htexts
    obtain ⟨⟨⟨⟨hsrc, hlanding, -⟩, hstart⟩, hcomplete⟩, hclick⟩ := htexts
    have hduration : tokens.number (decimal (toInt32 object.duration)) :=
      (Number.exists_render_eq _).imp fun n hn => ⟨trivial, hn⟩
    refine good_stringMember (hname _ ?_) hsrc <| good_numberMember (hname _ ?_) hduration <|
      good_stringMember (hname _ ?_) hlanding <| good_stringsMember (hname _ ?_) hstart <|
      good_stringsMember (hname _ ?_) hcomplete <| good_stringsMember (hname _ ?_) hclick
      good_nil <;> simp [bytes]

/-- The texts of such an object are C strings. -/
theorem Bodies.cstr_eq (h : Bodies object) : ∀ text ∈ object.texts, cstr text = text := by
  intro text htext
  obtain ⟨s, rfl⟩ := h text htext
  exact cstr_eq_self (zero_notMem_renderPieces s)

/-- The text of an object is a document. -/
theorem describes_print (h : Bodies object) : Describes object (print .object object.fields) := by
  obtain ⟨hkeyed, hall⟩ := good_members h
  obtain ⟨t, ht, hall⟩ := Text.exists_map (f := renderPieces) (g := Number.render)
    (h := renderBlanks) (p := ⟨(· ≠ []), fun _ => True, fun _ => True, fun _ => True, False⟩) hall
  have hentry : object.members.HasEntry := by
    cases object <;> trivial
  rw [← ht, Text.hasEntry_map] at hentry
  rw [← ht, Text.wellKeyed_map] at hkeyed
  refine ⟨⟨[], t, [], hentry, hkeyed, hall⟩, ?_, ht⟩
  simp [Document.render, renderBlanks, ht, print, single, printTrees, openText, opens, closeText,
    prints_members h.cstr_eq true]

end

/-! ## Where it is right -/

section

variable {resp : MessageResponse (Bytes ⊕ ResObject)} {i j : ℕ} {object : ResObject} {text : Bytes}

/-- Each bid has its `adm` in the response. -/
theorem admAt_responseFields {resp : MessageResponse Bytes} {seat : List (BidObject Bytes)}
    {bid : BidObject Bytes} (hseat : resp.seatbids[i]? = some seat) (hbid : seat[j]? = some bid) :
    AdmAt i j (cstr bid.adm) (responseFields resp) := by
  have hseats : resp.seatbids ≠ [] := by
    rintro hnil
    rw [hnil] at hseat
    cases hseat
  have hbids : seat ≠ [] := by
    rintro rfl
    cases hbid
  refine ⟨(seatObjects resp.seatbids).roots, (.object, seatFields seat), (bidObjects seat).roots,
    (.object, bidFields bid), ?_, ?_, ?_, ?_, ?_⟩
  · rw [arrayAt, responseFields, lookup_append, if_neg (by decide), if_neg hseats, lookup_append,
      if_pos rfl]
  · simp [seatObjects, hseat]
  · simp only [arrayAt, seatFields, if_neg hbids, lookup_field]
  · simp [bidObjects, hbid]
  · rw [bidFields, lookup_append, if_neg (by decide), lookup_append, if_neg (by decide),
      lookup_field]

/-- The text of an object, with its quotes escaped, has no `NUL`. -/
theorem cstr_quoted (object : ResObject) :
    cstr (quoted (print .object object.fields)) = quoted (print .object object.fields) := by
  refine cstr_eq_self fun hzero => ?_
  rcases mem_of_mem_replaceAll hzero with hmem | hmem
  · exact textual_notMem_zero.printObject (fun text _ => zero_notMem_cstr text) hmem
  · exact absurd hmem (by decide)

/-- The string that is written is the text of the object with its quotes escaped. -/
theorem admRight_iff_visible (hbid : BidAt resp i j object) (hbodies : Bodies object) :
    AdmRight resp i j object ↔ Visible (print .object object.fields) := by
  obtain ⟨k₁, hadm⟩ := exists_toAdm object
  rw [← quoted_right_iff]
  constructor
  · rintro ⟨k, h⟩
    obtain ⟨resp', fields, text, adm, -, -, -, hadm', -, htext, hright, -⟩ :=
      h (max k k₁) (le_max_left k k₁)
    obtain ⟨htext', hadm''⟩ := hadm (max k k₁) (le_max_right k k₁)
    obtain rfl := Option.some.inj (htext.symm.trans htext')
    obtain rfl := Option.some.inj (hadm'.symm.trans hadm'')
    exact hright
  · intro hright
    obtain ⟨seat, bid, hseat, hbid, hobject⟩ := hbid
    obtain ⟨k₂, hresp⟩ := exists_withAdm resp
    obtain ⟨hbuilds, k₃, hstr⟩ := exists_toJsonStr resp.written
    have hat : AdmAt i j (quoted (print .object object.fields)) (responseFields resp.written) := by
      have hwritten : bid.written.adm = quoted (print .object object.fields) := by
        rw [BidObject.written, hobject]
        rfl
      rw [← cstr_quoted, ← hwritten]
      exact @admAt_responseFields i j resp.written (seat.map BidObject.written) _
        (by simp [MessageResponse.written, hseat]) (by simp [hbid])
    refine ⟨max k₁ (max k₂ k₃), fun fuel hfuel => ?_⟩
    rw [max_le_iff, max_le_iff] at hfuel
    exact ⟨_, _, _, _, hresp fuel hfuel.2.1, hbuilds, hstr fuel hfuel.2.2,
      (hadm fuel hfuel.1).2, hat, (hadm fuel hfuel.1).1, hright, describes_print hbodies⟩

/-- The text of an object has no other escapes than those of its texts. -/
theorem visible_print_iff (hbodies : Bodies object) :
    Visible (print .object object.fields) ↔ ∀ text ∈ object.texts, 92 ∉ text := by
  constructor
  · intro h text htext hmem
    rw [← hbodies.cstr_eq text htext] at hmem
    exact h.notMem (mem_printObject htext hmem)
  · intro h
    refine textual_visible.printObject fun text htext => ?_
    obtain ⟨s, hs⟩ := hbodies text htext
    rw [hbodies.cstr_eq text htext, ← hs]
    exact visible_renderPieces (hs ▸ h text htext)

/-- The `adm` of a bid stands for its object if and only if no text of the bid has an escape. -/
theorem adm_right_iff (hbid : BidAt resp i j object) (hbodies : Bodies object) :
    AdmRight resp i j object ↔ ∀ text ∈ object.texts, 92 ∉ text := by
  rw [admRight_iff_visible hbid hbodies, visible_print_iff hbodies]

/-- A title without escapes. -/
theorem adm_right_plain_title :
    let object : ResObject := .native ⟨[97], [], [], [], [], [[]], [[]]⟩
    AdmRight ⟨[49], [[⟨[49], bytes "1.000000", .inr object⟩]], [50], [51]⟩ 0 0 object := by
  intro object
  refine (adm_right_iff ⟨_, _, rfl, rfl, rfl⟩ fun text htext => ?_).mpr fun text htext => ?_
  · simp only [object, ResObject.texts, NativeResObject.texts, List.cons_append, List.nil_append,
      List.mem_cons, List.not_mem_nil, or_false] at htext
    rcases htext with rfl | htext
    · exact ⟨[.plain 'a' (by decide) (by decide) (by decide)], by decide⟩
    · exact ⟨[], by rcases htext with rfl | rfl | rfl | rfl | rfl | rfl <;> rfl⟩
  · revert text
    decide

/-- A quote in the title ends the string `adm`. -/
theorem quote_in_title :
    let object : ResObject := .native ⟨[97, 92, 34, 98], [], [], [], [], [[]], [[]]⟩
    let resp : MessageResponse (Bytes ⊕ ResObject) :=
      ⟨[49], [[⟨[49], bytes "1.000000", .inr object⟩]], [50], [51]⟩
    BidAt resp 0 0 object ∧ Bodies object ∧ ¬ AdmRight resp 0 0 object := by
  intro object resp
  have hbid : BidAt resp 0 0 object := ⟨_, _, rfl, rfl, rfl⟩
  have hbodies : Bodies object := fun text htext => by
    simp only [object, ResObject.texts, NativeResObject.texts, List.cons_append, List.nil_append,
      List.mem_cons, List.not_mem_nil, or_false] at htext
    rcases htext with rfl | htext
    · exact ⟨[.plain 'a' (by decide) (by decide) (by decide), .escape .quote,
        .plain 'b' (by decide) (by decide) (by decide)], by decide⟩
    · exact ⟨[], by rcases htext with rfl | rfl | rfl | rfl | rfl | rfl <;> rfl⟩
  refine ⟨hbid, hbodies, fun h => ?_⟩
  rw [admRight_iff_visible hbid hbodies, visible_print_iff hbodies] at h
  exact h [97, 92, 34, 98] List.mem_cons_self (by decide)

end

end IflytekAdm

end AdxDsp
