import AdxDsp.Bid.JsonTree
import AdxDsp.Lib.UnknownValues

/-!
# The request of iflytek

`MESSAGEREQUEST::Parse` reads a JSON tree, and `ToCom` hands what it has read to the bidder
(`iflytek_adapter.cpp`).  The variable `secure` of an impression has no initial value, and the
keywords of the user are put into a variable that hides the field of the same name.

* **The functions**: `ImpressionObject.parse`, `UserObject.parse`, `MessageRequest.parse`, `toCom`.
* `HandOverRight`: the bidder gets what the request says.
* `hand_over_right_iff`: the requests for which it does; `two_runs`: one for which it does not.
-/

namespace AdxDsp

open CText

namespace IflytekRequest

open LinkedTrees LinkedTrees.Trees JsonTree UnknownValues

/-! ## Reading JSON -/

/-- A value with what is in it. -/
abbrev Node := JsonValue × Trees JsonValue

/-- The first child with a text, which in an object is a label; its children are what it labels. -/
def firstLabel (textLabel : Bytes) : Trees JsonValue → Option (Trees JsonValue)
  | .nil => none
  | .cons v children siblings =>
    if v = .string textLabel then some children else firstLabel textLabel siblings

/-- `json_find_first_label`, which is aborted by an assertion if there is no object. -/
def jsonFindFirstLabel (object : Node) (textLabel : Bytes) : Option (Option (Trees JsonValue)) :=
  if object.1 = .object then some (firstLabel textLabel object.2) else none

/-- `label->child` -/
def childOf (label : Trees JsonValue) : Option Node := label.roots.head?

/-- The text of a value; those that are neither strings nor numbers have none. -/
def textOf : JsonValue → Option Bytes
  | .string text | .number text => some text
  | _ => none

/-- A field that is set to the text of a value; `none` if a text is missing. -/
def textField (object : Node) (textLabel old : Bytes) : Option Bytes := do
  match ← jsonFindFirstLabel object textLabel with
  | none => some old
  | some label => do
    let child ← childOf label
    textOf child.1

/-- A field that is set if the value is a number. -/
def numberField {β : Type} (object : Node) (textLabel : Bytes) (read : Bytes → β) (old : β) :
    Option β := do
  match ← jsonFindFirstLabel object textLabel with
  | none => some old
  | some label => do
    let child ← childOf label
    match child.1 with
    | .number text => some (read text)
    | _ => some old

/-- The texts of the elements of a value. -/
def textsField (object : Node) (textLabel : Bytes) : Option (List Bytes) := do
  match ← jsonFindFirstLabel object textLabel with
  | none => some []
  | some label => do
    let child ← childOf label
    child.2.roots.mapM fun temp => textOf temp.1

/-- A part of the request that is read by `parse` if it is there. -/
def partField {β : Type} (object : Node) (textLabel : Bytes) (parse : Node → Option β) :
    Option (Option β) := do
  match ← jsonFindFirstLabel object textLabel with
  | none => some none
  | some label =>
    match childOf label with
    | none => some none
    | some value => (parse value).map some

/-- `atoi` in an unsigned field. -/
def unsigned (bits : ℕ) (text : Bytes) : ℕ := (atoi text % 2 ^ bits).toNat

/-! ## The request -/

/-- What the functions make of the parts that have no influence on the others: `NATIVEOBJECT`,
`APPOBJECT` and `DEVICEOBJECT`, at first and behind their `Parse`, which may be aborted. -/
structure Parts (ν α δ : Type) where
  native : ν
  app : α
  device : δ
  parseNative : Node → Option ν
  parseApp : Node → Option α
  parseDevice : Node → Option δ

/-- The kinds of impressions. -/
inductive ImpType where
  | unknown
  | banner
  | video
  | native
  deriving DecidableEq

/-- A banner of the request. -/
structure BannerObject where
  w : ℕ
  h : ℕ
  deriving DecidableEq

/-- A video of the request. -/
structure VideoObject where
  protocol : ℕ
  w : ℕ
  h : ℕ
  minduration : ℕ
  maxduration : ℕ
  linearity : ℕ
  deriving DecidableEq

/-- `IMPRESSIONOBJECT`; `bidfloor` is the text that `atof` reads. -/
structure ImpressionObject (ν : Type) where
  id : Bytes
  type : ImpType
  banner : BannerObject
  video : VideoObject
  native : ν
  instl : ℕ
  lattr : List ℕ
  bidfloor : Bytes

/-- The user of the request. -/
structure UserObject where
  id : Bytes
  gender : Bytes
  yob : ℕ
  keywords : Bytes
  deriving DecidableEq

/-- `MESSAGEREQUEST` -/
structure MessageRequest (ν α δ : Type) where
  id : Bytes
  imp : List (ImpressionObject ν)
  app : α
  device : δ
  user : UserObject
  «at» : ℕ
  tmax : ℕ
  wseat : List Bytes
  cur : List Bytes
  bcat : List Bytes
  isSecure : ℤ

/-- The banner of an impression. -/
def BannerObject.parse (bannerValue : Node) : Option BannerObject := do
  let w ← numberField bannerValue (bytes "w") (unsigned 16) 0
  let h ← numberField bannerValue (bytes "h") (unsigned 16) 0
  let _ ← jsonFindFirstLabel bannerValue (bytes "ext")
  some ⟨w, h⟩

/-- The video of an impression. -/
def VideoObject.parse (videoValue : Node) : Option VideoObject := do
  let protocol ← numberField videoValue (bytes "protocol") (unsigned 16) 0
  let w ← numberField videoValue (bytes "w") (unsigned 16) 0
  let h ← numberField videoValue (bytes "h") (unsigned 16) 0
  let minduration ← numberField videoValue (bytes "minduration") (unsigned 32) 0
  let maxduration ← numberField videoValue (bytes "maxduration") (unsigned 32) 0
  let linearity ← numberField videoValue (bytes "linearity") (unsigned 8) 0
  let _ ← jsonFindFirstLabel videoValue (bytes "ext")
  some ⟨protocol, w, h, minduration, maxduration, linearity⟩

section

variable {ν α δ : Type} (parts : Parts ν α δ)

/-- `IMPRESSIONOBJECT::Parse`, with the argument `secure_` before and behind it. -/
def ImpressionObject.parse (impValue : Node) (secure : ℤ) : Option (ImpressionObject ν × ℤ) := do
  let id ← textField impValue (bytes "id") []
  let secure ← numberField impValue (bytes "secure") atoi secure
  let banner ← partField impValue (bytes "banner") BannerObject.parse
  let video ← partField impValue (bytes "video") VideoObject.parse
  let native ← partField impValue (bytes "native") parts.parseNative
  let instl ← numberField impValue (bytes "instl") (unsigned 8) 0
  let lattr ← textsField impValue (bytes "lattr")
  let bidfloor ← numberField impValue (bytes "bidfloor") (fun text => text) [48]
  let _ ← jsonFindFirstLabel impValue (bytes "ext")
  -- the last one that is there
  let type : ImpType :=
    if native.isSome then .native
    else if video.isSome then .video
    else if banner.isSome then .banner
    else .unknown
  some (⟨id, type, banner.getD ⟨0, 0⟩, video.getD ⟨0, 0, 0, 0, 0, 0⟩, native.getD parts.native, instl,
    lattr.map (unsigned 8), bidfloor⟩, secure)

/-- The loop over the keywords, up to the first one that is no string. -/
def keywordLoop : List Node → Bytes → Bytes
  | (.string text, _) :: temp, keywords => keywordLoop temp (keywords ++ text ++ [44])
  | _, keywords => keywords

/-- What `rfind` and `erase` do: the last byte of this kind is left out. -/
def eraseLast (b : UInt8) (t : Bytes) : Bytes := (t.reverse.erase b).reverse

/-- The two variables `keywords` in `USEROBJECT::Parse`. -/
structure Keywords where
  field : Bytes
  shadow : Bytes

/-- What is done with an array of keywords. -/
def readKeywords (field : Bytes) (temp : List Node) : Keywords :=
  let shadow := eraseLast 44 (keywordLoop temp [])
  -- `keywords = keywords`: both sides are the variable that hides the field
  ⟨field, shadow⟩

/-- `USEROBJECT::Parse` -/
def UserObject.parse (userChild : Node) : Option UserObject := do
  let id ← textField userChild (bytes "id") []
  let gender ← textField userChild (bytes "gender") []
  let yob ← numberField userChild (bytes "yob") (unsigned 32) (2 ^ 32 - 1)
  match ← jsonFindFirstLabel userChild (bytes "keywords") with
  | none => some ⟨id, gender, yob, []⟩
  | some label => do
    let child ← childOf label
    if child.1 = .array then some ⟨id, gender, yob, (readKeywords [] child.2.roots).field⟩
    else some ⟨id, gender, yob, []⟩

/-- The loop over the impressions, of which the first one has the number `i`. -/
def impLoop (garbage : ℕ → ℤ) : ℕ → List Node → List (ImpressionObject ν) → ℤ →
    Option (List (ImpressionObject ν) × ℤ)
  | _, [], imp, isSecure => some (imp, isSecure)
  | i, impValue :: next, imp, isSecure => do
    -- `int secure;` has no initial value
    let (one, secure) ← ImpressionObject.parse parts impValue (garbage i)
    impLoop garbage (i + 1) next (imp ++ [one]) (if secure ≠ 0 then secure else isSecure)

/-- The impressions in the array `imp`, if there is one. -/
def impValues (root : Node) : Option (List Node) := do
  match ← jsonFindFirstLabel root (bytes "imp") with
  | none => some []
  | some label => (childOf label).map fun child => child.2.roots

/-- `MESSAGEREQUEST::Parse` of a new request. -/
def MessageRequest.parse (garbage : ℕ → ℤ) (root : Node) : Option (MessageRequest ν α δ) := do
  let id ← textField root (bytes "id") []
  let nodes ← impValues root
  let (imp, isSecure) ← impLoop parts garbage 0 nodes [] 0
  let app ← partField root (bytes "app") parts.parseApp
  let device ← partField root (bytes "device") parts.parseDevice
  let user ← partField root (bytes "user") UserObject.parse
  let at' ← numberField root (bytes "at") (unsigned 8) (2 ^ 8 - 1)
  let tmax ← numberField root (bytes "tmax") (unsigned 8) 0
  let wseat ← textsField root (bytes "wseat")
  let cur ← textsField root (bytes "cur")
  let bcat ← textsField root (bytes "bcat")
  some ⟨id, imp, app.getD parts.app, device.getD parts.device, user.getD ⟨[], [], 2 ^ 32 - 1, []⟩,
    at', tmax, wseat, cur, bcat, isSecure⟩

end

/-- The genders. -/
inductive Gender where
  | unknown
  | male
  | female
  deriving DecidableEq

/-- `COM_USEROBJECT` -/
structure ComUser where
  id : Bytes
  gender : Gender
  yob : ℤ
  keywords : Bytes

/-- The fields of a `COM_REQUEST` that are not made of an impression, the app or the device. -/
structure ComRequest where
  id : Bytes
  isSecure : ℤ
  user : ComUser
  cur : Finset Bytes
  bcat : Finset ℕ

/-- `IflytekContext`, with the table of the categories. -/
structure IflytekContext where
  advCatTableAdx2com : Bytes → Option (List ℕ)

/-- `MESSAGEREQUEST::ToCom` -/
def toCom {ν α δ : Type} (request : MessageRequest ν α δ) (c : ComRequest)
    (context : Option IflytekContext) : ComRequest :=
  match context with
  | none => c
  | some context =>
    { id := request.id
      isSecure := request.isSecure
      user :=
        { id := request.user.id
          gender :=
            if request.user.gender = bytes "M" then .male
            else if request.user.gender = bytes "F" then .female
            else .unknown
          yob := toInt32 request.user.yob
          keywords := request.user.keywords }
      cur := c.cur ∪ request.cur.toFinset
      bcat := c.bcat ∪
        (request.bcat.flatMap fun cat => (context.advCatTableAdx2com cat).getD []).toFinset }

/-- What `ParseRequest` does with the tree of a request. -/
def handOver {ν α δ : Type} (parts : Parts ν α δ) (context : IflytekContext) (garbage : ℕ → ℤ)
    (root : Node) (c : ComRequest) : Option ComRequest := do
  let request ← MessageRequest.parse parts garbage root
  some (toCom request c (some context))

/-! ## What it should do -/

/-- The number in the member `secure` of an impression. -/
def secureOf (impValue : Node) : Option ℤ :=
  match (firstLabel (bytes "secure") impValue.2).bind childOf with
  | some (.number text, _) => some (atoi text)
  | _ => none

/-- The impressions of a request. -/
def impressions (root : Node) : List Node :=
  ((firstLabel (bytes "imp") root.2).bind childOf).elim [] fun child => child.2.roots

/-- The last `secure` that is not zero, or else the initial value. -/
def lastSecure (root : Node) : ℤ := lastKnown (· ≠ 0) 0 ((impressions root).map secureOf)

/-- The elements of the array of keywords, if the user has one. -/
def keywordArray (root : Node) : List Node :=
  match ((firstLabel (bytes "user") root.2).bind childOf).bind fun user =>
    (firstLabel (bytes "keywords") user.2).bind childOf with
  | some (.array, elements) => elements.roots
  | _ => []

/-- The strings at the beginning. -/
def leadingStrings : List Node → List Bytes
  | (.string text, _) :: nodes => text :: leadingStrings nodes
  | _ => []

/-- The keywords, with a comma between them. -/
def joinedKeywords (nodes : List Node) : Bytes := [44].intercalate (leadingStrings nodes)

/-- The values of an `int`. -/
def ints : Set ℤ := {z | -2 ^ 31 ≤ z ∧ z < 2 ^ 31}

/-- Whatever the variables without an initial value hold, the bidder gets the last `secure` that is
not zero, and the keywords. -/
def HandOverRight {ν α δ : Type} (parts : Parts ν α δ) (context : IflytekContext) (root : Node) :
    Prop :=
  ∀ garbage c com, (∀ i, garbage i ∈ ints) → handOver parts context garbage root c = some com →
    com.isSecure = lastSecure root ∧ com.user.keywords = joinedKeywords (keywordArray root)

/-! ## Where it does it -/

/-- The request can be read: nothing aborts the functions, with some values of the variables. -/
def Taken {ν α δ : Type} (parts : Parts ν α δ) (context : IflytekContext) (root : Node) : Prop :=
  ∃ garbage c com, (∀ i, garbage i ∈ ints) ∧ handOver parts context garbage root c = some com

/-- Behind each impression without a number `secure` comes one where it is not zero. -/
def SecureGiven (root : Node) : Prop := Covered (· ≠ 0) ((impressions root).map secureOf)

section

variable {ν α δ : Type} {parts : Parts ν α δ} {context : IflytekContext} {root impValue : Node}
  {garbage : ℕ → ℤ} {nodes : List Node} {c com : ComRequest}

/-! ## The impressions -/

/-- The variable keeps its value if there is no number. -/
theorem numberField_secure (impValue : Node) :
    (∀ s, numberField impValue (bytes "secure") atoi s = none) ∨
      ∀ s, numberField impValue (bytes "secure") atoi s = some ((secureOf impValue).getD s) := by
  by_cases hobject : impValue.1 = .object
  · cases hlabel : firstLabel (bytes "secure") impValue.2 with
    | none => exact .inr fun s => by simp [numberField, jsonFindFirstLabel, secureOf, hobject, hlabel]
    | some label =>
      cases hchild : childOf label with
      | none => exact .inl fun s => by simp [numberField, jsonFindFirstLabel, hobject, hlabel, hchild]
      | some child =>
        obtain ⟨v, children⟩ := child
        refine .inr fun s => ?_
        cases v <;>
          simp [numberField, jsonFindFirstLabel, secureOf, hobject, hlabel, hchild]
  · exact .inl fun s => by simp [numberField, jsonFindFirstLabel, hobject]

/-- Whether an impression can be read does not depend on the variable. -/
theorem impressionObject_parse (parts : Parts ν α δ) (impValue : Node) :
    (∀ s, ImpressionObject.parse parts impValue s = none) ∨
      ∃ one, ∀ s, ImpressionObject.parse parts impValue s =
        some (one, (secureOf impValue).getD s) := by
  rcases numberField_secure impValue with hsecure | hsecure
  · exact .inl fun s => by simp [ImpressionObject.parse, hsecure]
  · have hparse (s : ℤ) : ImpressionObject.parse parts impValue s =
        (ImpressionObject.parse parts impValue 0).map fun r => (r.1, (secureOf impValue).getD s) := by
      simp [ImpressionObject.parse, hsecure, Option.map_bind]
    cases hone : ImpressionObject.parse parts impValue 0 with
    | none => exact .inl fun s => by rw [hparse, hone, Option.map_none]
    | some r => exact .inr ⟨r.1, fun s => by rw [hparse, hone, Option.map_some]⟩

/-- The loop over the impressions keeps the last value that is not zero, with what the variable holds
where there is no number. -/
theorem impLoop_eq (parts : Parts ν α δ) (nodes : List Node) :
    (∀ garbage i imp s, impLoop parts garbage i nodes imp s = none) ∨
      ∃ ones, ∀ garbage i imp s, impLoop parts garbage i nodes imp s =
        some (imp ++ ones, lastKept (· ≠ 0) garbage i s (nodes.map secureOf)) := by
  induction nodes with
  | nil => exact .inr ⟨[], fun garbage i imp s => by simp [impLoop, lastKept]⟩
  | cons impValue nodes ih =>
    rcases impressionObject_parse parts impValue with hone | ⟨one, hone⟩
    · exact .inl fun garbage i imp s => by simp [impLoop, hone]
    · rcases ih with hrest | ⟨ones, hrest⟩
      · exact .inl fun garbage i imp s => by simp [impLoop, hone, hrest]
      · refine .inr ⟨one :: ones, fun garbage i imp s => ?_⟩
        rw [impLoop, hone, Option.bind_eq_bind, Option.bind_some]
        dsimp only
        rw [hrest, List.append_assoc]
        rfl

/-! ## The keywords -/

/-- The variable that hides the field gets the keywords with a comma between them. -/
theorem readKeywords_shadow (field : Bytes) (nodes : List Node) :
    (readKeywords field nodes).shadow = joinedKeywords nodes := by
  have hloop (keywords : Bytes) : keywordLoop nodes keywords =
      keywords ++ (leadingStrings nodes).flatMap (· ++ [44]) := by
    induction nodes generalizing keywords with
    | nil => simp [keywordLoop, leadingStrings]
    | cons node nodes ih =>
      obtain ⟨v, children⟩ := node
      cases v <;> simp [keywordLoop, leadingStrings, ih]
  have hend (texts : List Bytes) (htexts : texts ≠ []) :
      texts.flatMap (· ++ [44]) = [44].intercalate texts ++ [44] := by
    induction texts with
    | nil => exact absurd rfl htexts
    | cons text texts ih =>
      cases texts with
      | nil => simp [List.intercalate]
      | cons text' texts =>
        rw [List.flatMap_cons, ih (List.cons_ne_nil _ _)]
        simp [List.intercalate]
  rw [readKeywords, hloop, List.nil_append, joinedKeywords]
  rcases eq_or_ne (leadingStrings nodes) [] with hnil | hne
  · rw [hnil]
    rfl
  · rw [hend _ hne]
    simp [eraseLast]

/-- The field itself is not written. -/
theorem userObject_keywords {user : UserObject} (h : UserObject.parse impValue = some user) :
    user.keywords = [] := by
  obtain ⟨id, -, h⟩ := Option.bind_eq_some_iff.mp h
  obtain ⟨gender, -, h⟩ := Option.bind_eq_some_iff.mp h
  obtain ⟨yob, -, h⟩ := Option.bind_eq_some_iff.mp h
  obtain ⟨label, -, h⟩ := Option.bind_eq_some_iff.mp h
  cases label with
  | none =>
    obtain rfl := Option.some.inj h
    rfl
  | some label =>
    obtain ⟨child, -, h⟩ := Option.bind_eq_some_iff.mp h
    split_ifs at h with harray
    · obtain rfl := Option.some.inj h
      rfl
    · obtain rfl := Option.some.inj h
      rfl

/-! ## The whole request -/

/-- The impressions are read, or there are none. -/
theorem impValues_eq (root : Node) : impValues root = none ∨
    impValues root = some (impressions root) := by
  by_cases hobject : root.1 = .object
  · cases hlabel : firstLabel (bytes "imp") root.2 with
    | none => exact .inr (by simp [impValues, jsonFindFirstLabel, impressions, hobject, hlabel])
    | some label =>
      cases hchild : childOf label with
      | none => exact .inl (by simp [impValues, jsonFindFirstLabel, hobject, hlabel, hchild])
      | some child =>
        exact .inr (by simp [impValues, jsonFindFirstLabel, impressions, hobject, hlabel, hchild])
  · exact .inl (by simp [impValues, jsonFindFirstLabel, hobject])

/-- A part that was read was there. -/
theorem partField_some {β : Type} {object : Node} {textLabel : Bytes} {parse : Node → Option β}
    {r : β} (h : partField object textLabel parse = some (some r)) :
    ∃ value, parse value = some r := by
  obtain ⟨label, -, h⟩ := Option.bind_eq_some_iff.mp h
  cases label with
  | none => cases h
  | some label =>
    cases hchild : childOf label with
    | none => simp [hchild] at h
    | some value => exact ⟨value, by simpa [hchild] using h⟩

/-- The number in `isSecure` is all that the variables change. -/
theorem messageRequest_parse (parts : Parts ν α δ) (root : Node) :
    (∀ garbage, MessageRequest.parse parts garbage root = none) ∨
      ∃ request : MessageRequest ν α δ, request.user.keywords = [] ∧
        ∀ garbage, MessageRequest.parse parts garbage root = some { request with
          isSecure := lastKept (· ≠ 0) garbage 0 0 ((impressions root).map secureOf) } := by
  rcases impValues_eq root with himp | himp
  · exact .inl fun garbage => by simp [MessageRequest.parse, himp]
  rcases impLoop_eq parts (impressions root) with hloop | ⟨ones, hloop⟩
  · exact .inl fun garbage => by simp [MessageRequest.parse, himp, hloop]
  have hparse (garbage : ℕ → ℤ) : MessageRequest.parse parts garbage root =
      (MessageRequest.parse parts (fun _ => 0) root).map fun request => { request with
        isSecure := lastKept (· ≠ 0) garbage 0 0 ((impressions root).map secureOf) } := by
    simp [MessageRequest.parse, himp, hloop, Option.map_bind]
  -- the number is the last field, and nothing behind the loop looks at it
  cases hzero : MessageRequest.parse parts (fun _ => 0) root with
  | none => exact .inl fun garbage => by rw [hparse, hzero, Option.map_none]
  | some request =>
    refine .inr ⟨request, ?_, fun garbage => by rw [hparse, hzero, Option.map_some]⟩
    -- of what has been read, the user has the keywords
    obtain ⟨id, -, h⟩ := Option.bind_eq_some_iff.mp hzero
    obtain ⟨nodes, -, h⟩ := Option.bind_eq_some_iff.mp h
    obtain ⟨r, -, h⟩ := Option.bind_eq_some_iff.mp h
    obtain ⟨app, -, h⟩ := Option.bind_eq_some_iff.mp h
    obtain ⟨device, -, h⟩ := Option.bind_eq_some_iff.mp h
    obtain ⟨user, huser, h⟩ := Option.bind_eq_some_iff.mp h
    obtain ⟨at', -, h⟩ := Option.bind_eq_some_iff.mp h
    obtain ⟨tmax, -, h⟩ := Option.bind_eq_some_iff.mp h
    obtain ⟨wseat, -, h⟩ := Option.bind_eq_some_iff.mp h
    obtain ⟨cur, -, h⟩ := Option.bind_eq_some_iff.mp h
    obtain ⟨bcat, -, h⟩ := Option.bind_eq_some_iff.mp h
    obtain rfl := Option.some.inj h
    cases user with
    | none => rfl
    | some user =>
      obtain ⟨value, hvalue⟩ := partField_some huser
      exact userObject_keywords hvalue

/-- What the bidder gets. -/
theorem handOver_eq (parts : Parts ν α δ) (context : IflytekContext) (root : Node) :
    (∀ garbage c, handOver parts context garbage root c = none) ∨
      ∀ garbage c, ∃ com, handOver parts context garbage root c = some com ∧
        com.isSecure = lastKept (· ≠ 0) garbage 0 0 ((impressions root).map secureOf) ∧
        com.user.keywords = [] := by
  rcases messageRequest_parse parts root with hnone | ⟨request, hkeywords, hsome⟩
  · exact .inl fun garbage c => by rw [handOver, hnone]; rfl
  · refine .inr fun garbage c => ⟨_, by rw [handOver, hsome]; rfl, rfl, hkeywords⟩

/-- There is an `int` but zero and a given one. -/
theorem exists_int_ne (v : ℤ) : ∃ w ∈ ints, w ≠ 0 ∧ w ≠ v := by
  rcases eq_or_ne v 1 with rfl | hv
  · exact ⟨2, by norm_num [ints], by norm_num, by norm_num⟩
  · exact ⟨1, by norm_num [ints], by norm_num, hv.symm⟩

/-- The bidder gets what the request says if and only if the impressions without a number come before
one that decides, and there are no keywords. -/
theorem hand_over_right_iff : HandOverRight parts context root ↔ (Taken parts context root →
    SecureGiven root ∧ joinedKeywords (keywordArray root) = []) := by
  have hgiven : (∀ garbage : ℕ → ℤ, (∀ i, garbage i ∈ ints) →
      lastKept (· ≠ 0) garbage 0 0 ((impressions root).map secureOf) = lastSecure root) ↔
        SecureGiven root := forall_lastKept_eq_iff exists_int_ne
  rw [← hgiven]
  rcases handOver_eq parts context root with hnone | hsome
  · refine iff_of_true (fun garbage c com _ h => ?_) fun ⟨garbage, c, com, _, h⟩ => ?_
    · rw [hnone] at h
      cases h
    · rw [hnone] at h
      cases h
  · constructor
    · rintro hright ⟨-, c, -, -, -⟩
      have hread (garbage : ℕ → ℤ) (hgarbage : ∀ i, garbage i ∈ ints) :
          lastKept (· ≠ 0) garbage 0 0 ((impressions root).map secureOf) = lastSecure root ∧
            joinedKeywords (keywordArray root) = [] := by
        obtain ⟨com, hcom, hsecure, hkeywords⟩ := hsome garbage c
        obtain ⟨hsecure', hkeywords'⟩ := hright garbage c com hgarbage hcom
        exact ⟨hsecure.symm.trans hsecure', hkeywords'.symm.trans hkeywords⟩
      refine ⟨fun garbage hgarbage => (hread garbage hgarbage).1, (hread (fun _ => 0) fun _ => ?_).2⟩
      norm_num [ints]
    · intro h garbage c com hgarbage hcom
      obtain ⟨hlast, hnil⟩ := h ⟨garbage, c, com, hgarbage, hcom⟩
      obtain ⟨com', hcom', hsecure, hkeywords⟩ := hsome garbage c
      obtain rfl := Option.some.inj (hcom.symm.trans hcom')
      exact ⟨hsecure.trans (hlast garbage hgarbage), hkeywords.trans hnil.symm⟩

/-- An impression without `secure`, and one keyword: the bidder gets whatever the variable held, and
no keyword. -/
theorem two_runs :
    let parts : Parts Unit Unit Unit :=
      ⟨(), (), (), fun _ => some (), fun _ => some (), fun _ => some ()⟩
    let root : Node := (.object, (field (bytes "imp") .array (single .object .nil)).append
      (field (bytes "user") .object
        (field (bytes "keywords") .array (single (.string [97]) .nil))))
    let c : ComRequest := ⟨[], 0, ⟨[], .unknown, 0, []⟩, ∅, ∅⟩
    (∀ z, ∃ com, handOver parts ⟨fun _ => none⟩ (fun _ => z) root c = some com ∧
      com.isSecure = z ∧ com.user.keywords = []) ∧ ¬ HandOverRight parts ⟨fun _ => none⟩ root := by
  intro parts root c
  have hrun (z : ℤ) : ∃ com, handOver parts ⟨fun _ => none⟩ (fun _ => z) root c = some com ∧
      com.isSecure = z ∧ com.user.keywords = [] := by
    refine ⟨_, rfl, ?_, rfl⟩
    show (if z ≠ 0 then z else 0) = z
    split_ifs with hz
    · rfl
    · exact (not_not.mp hz).symm
  refine ⟨hrun, fun hright => ?_⟩
  obtain ⟨com, hcom, -, hkeywords⟩ := hrun 0
  have hexpected := (hright _ _ _ (fun _ => by norm_num [ints]) hcom).2
  rw [hkeywords] at hexpected
  exact absurd hexpected (by decide)

end

end IflytekRequest

end AdxDsp
