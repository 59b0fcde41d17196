import AdxDsp.Bid.Element
import AdxDsp.Lib.Redis

/-!
# Reading a device from the redis cluster

The bidder looks up the ids of a request one after the other, and takes the audiences of the first
one that it can read (`ad_control.cpp`, `BidWork::GetDeviceCount`).

* `explains_getDeviceCount`: a device that was read is the answer to a command for an id of the
  request, and otherwise no such command was answered.
* `advcats_getDeviceCount`: no device has categories that the user has clicked.
-/

namespace AdxDsp

open CText Redis

/-! ## The cluster -/

/-- What the bidder asks of the redis cluster. -/
inductive ClusterCmd where
  | command (c : Cmd)
  | reconnect
  deriving DecidableEq

/-- What comes back: `missing` is the null reply of a broken connection, `other` a reply of another
type, and `connected` the result of `ReConnectRedis`. -/
inductive ClusterReply where
  | array (elements : List Bytes)
  | error (text : Bytes)
  | other
  | missing
  | connected (done : Bool)
  deriving DecidableEq

/-- A function of the bidder, with its commands to the cluster. -/
abbrev ClusterProg (α : Type) := Prog ClusterCmd ClusterReply α

/-! ## Devices -/

/-- `DeviceCount`; `advcats` are the categories that the user has clicked. -/
structure DeviceCount where
  id : Bytes
  idType : ℤ
  blGlobal : Bool
  audiences : List Bytes
  advcats : List ℤ
  deriving DecidableEq

/-- `DeviceCount::Clear`. -/
def DeviceCount.clear : DeviceCount := ⟨[], 0, false, [], []⟩

/-- The outcome of a lookup; `crashed` stands for undefined behaviour. -/
inductive DeviceLookup where
  | crashed
  | unread
  | read (d : DeviceCount)
  deriving DecidableEq

/-- `arr_idtype`. -/
def arrIdtype : List (ℤ × Bytes × Bytes) :=
  [(0x10, bytes "imei", bytes "Clear"), (0x20, bytes "mac", bytes "Clear"),
    (0x11, bytes "imei", bytes "SHA1"), (0x21, bytes "mac", bytes "SHA1"),
    (0x12, bytes "imei", bytes "md5"), (0x22, bytes "mac", bytes "md5"),
    (0xFF, bytes "other", bytes "Clear"), (0x00, bytes "unknow", bytes "Clear"),
    (0x60, bytes "androidid", bytes "Clear"), (0x70, bytes "idfa", bytes "Clear"),
    (0x61, bytes "androidid", bytes "SHA1"), (0x71, bytes "idfa", bytes "SHA1"),
    (0x62, bytes "androidid", bytes "md5"), (0x72, bytes "idfa", bytes "md5"),
    (0x72, bytes "idfa", bytes "md5"), (0xFF, bytes "other", bytes "Clear"),
    (0x00, bytes "unknow", bytes "Clear")]

/-- `DeviceCount::SplitIdType`. -/
def splitIdType (idType : ℤ) : Option (Bytes × Bytes) := arrIdtype.lookup idType

/-- The key of a device; the buffer of the source has 256 bytes. -/
def deviceKey (id : Bytes) (idType : ℤ) : Option Bytes :=
  (splitIdType idType).map fun types =>
    bytes "did_" ++ types.1 ++ bytes "_" ++ types.2 ++ bytes "_" ++ cstr id

/-- The errors after which the bidder connects again: `GET_CONNECT_ERROR` and
`CONNECT_CLOSED_ERROR`. -/
def isConnectError (text : Bytes) : Bool :=
  tolower text = bytes "get connection error" || tolower text = bytes "redis connection be closed"

/-- The names of the fields of a hash, which come in turn with their values. -/
def fieldNames : List Bytes → List Bytes
  | [] => []
  | [f] => [cstr f]
  | f :: _ :: rest => cstr f :: fieldNames rest

/-- The field of an audience, `ap_(audienceid)`: the source looks at its first two bytes. -/
def isAudienceField (f : Bytes) : Bool := decide (2 < f.length) && f.take 2 = bytes "ap"

/-- The device that the fields of its hash describe: `construct` clears it first, and writes no
`advcats`. -/
def DeviceCount.ofFields (id : Bytes) (idType : ℤ) (fields : List Bytes) : DeviceCount :=
  { DeviceCount.clear with
    id := id
    idType := idType
    blGlobal := bytes "bl_global" ∈ fields
    audiences := (fields.filter isAudienceField).map (·.drop 3) }

/-- `DeviceCount::construct`, from a reply on. -/
def DeviceLookup.ofReply (id : Bytes) (idType : ℤ) : ClusterReply → DeviceLookup
  | .array elements => .read (.ofFields id idType (fieldNames elements))
  | _ => .unread

/-- The part of `DeviceCount::construct` after a connection error: the reply to the command that is
sent again replaces the error only if there is one. -/
def DeviceCount.reconnect (id : Bytes) (idType : ℤ) (key : Bytes) : ClusterProg DeviceLookup := do
  let connection ← Prog.call .reconnect
  if connection = .connected true then
    let again ← Prog.call (.command (.hgetall key))
    return .ofReply id idType again
  else return .unread

/-- `DeviceCount::construct`.  Without a reply, the source reads through a null pointer. -/
def DeviceCount.construct (id : Bytes) (idType : ℤ) : ClusterProg DeviceLookup :=
  match deviceKey id idType with
  | none => .ret .unread
  | some key =>
    if 256 ≤ key.length then .ret .crashed
    else do
      let reply ← Prog.call (.command (.hgetall key))
      match reply with
      | .missing => return .crashed
      | .error text =>
        if isConnectError text then DeviceCount.reconnect id idType key else return .unread
      | reply => return .ofReply id idType reply

/-- The loops of `BidWork::GetDeviceCount`: the first device that can be read. -/
def firstDevice : List (ℕ × Bytes) → ClusterProg DeviceLookup
  | [] => .ret .unread
  | r :: rest => do
    let lookup ← DeviceCount.construct r.2 r.1
    if lookup = .unread then firstDevice rest else return lookup

/-- `BidWork::GetDeviceCount`. -/
def getDeviceCount (req : ComRequest) : ClusterProg DeviceLookup :=
  firstDevice (req.device.dids ++ req.device.dpids)

/-- The `advcats` of the bidder's device after a lookup: those of the device that was read, and what
`Clear` has left otherwise. -/
def DeviceLookup.advcats : DeviceLookup → List ℤ
  | .read d => d.advcats
  | _ => DeviceCount.clear.advcats

/-! ## What a lookup has read -/

/-- The commands of a run with their replies. -/
abbrev ClusterTranscript := List (ClusterCmd × ClusterReply)

/-- The hash of some device was read. -/
def AnyRead (t : ClusterTranscript) : Prop :=
  ∃ key elements, (ClusterCmd.command (.hgetall key), ClusterReply.array elements) ∈ t

/-- The device `d` was read under an id and its type. -/
def ReadAs (t : ClusterTranscript) (r : ℕ × Bytes) (d : DeviceCount) : Prop :=
  ∃ key elements, deviceKey r.2 r.1 = some key ∧
    (ClusterCmd.command (.hgetall key), ClusterReply.array elements) ∈ t ∧
      d = .ofFields r.2 r.1 (fieldNames elements)

/-- What a lookup says is what its commands were answered. -/
def Explains (ids : List (ℕ × Bytes)) (t : ClusterTranscript) : DeviceLookup → Prop
  | .crashed => True
  | .unread => ¬AnyRead t
  | .read d => ∃ r ∈ ids, ReadAs t r d

section

variable {S : Type} {exec : S → ClusterCmd → S × ClusterReply}

/-- A read of a transcript is in one of its parts. -/
theorem AnyRead.of_append {t t' : ClusterTranscript} (h : AnyRead (t ++ t')) :
    AnyRead t ∨ AnyRead t' := by
  obtain ⟨key, elements, hmem⟩ := h
  rcases List.mem_append.mp hmem with hmem | hmem
  · exact .inl ⟨key, elements, hmem⟩
  · exact .inr ⟨key, elements, hmem⟩

/-- A read of the second part is one of the whole. -/
theorem ReadAs.append {t t' : ClusterTranscript} {r : ℕ × Bytes} {d : DeviceCount}
    (h : ReadAs t' r d) : ReadAs (t ++ t') r d := by
  obtain ⟨key, elements, hkey, hmem, hd⟩ := h
  exact ⟨key, elements, hkey, List.mem_append_right t hmem, hd⟩

/-- A reply explains the lookup it ends. -/
theorem explains_ofReply {r : ℕ × Bytes} {key : Bytes} (hkey : deviceKey r.2 r.1 = some key)
    {t : ClusterTranscript} (ht : ¬AnyRead t) (reply : ClusterReply) :
    Explains [r] (t ++ [(.command (.hgetall key), reply)]) (.ofReply r.2 r.1 reply) := by
  by_cases harray : ∃ elements, reply = .array elements
  · obtain ⟨elements, rfl⟩ := harray
    exact ⟨r, List.mem_singleton.mpr rfl, key, elements, hkey, by simp, rfl⟩
  · have hunread : DeviceLookup.ofReply r.2 r.1 reply = .unread := by
      cases reply with
      | array elements => exact absurd ⟨elements, rfl⟩ harray
      | error _ => rfl
      | other => rfl
      | missing => rfl
      | connected _ => rfl
    rw [hunread]
    intro hread
    rcases hread.of_append with h | ⟨key', elements, hmem⟩
    · exact ht h
    · rw [List.mem_singleton, Prod.mk.injEq] at hmem
      exact harray ⟨elements, hmem.2.symm⟩

/-- Without commands nothing is read. -/
theorem not_anyRead_nil : ¬AnyRead [] := by
  rintro ⟨key, elements, h⟩
  exact absurd h List.not_mem_nil

/-- The lookup after a connection error. -/
theorem explains_reconnect {r : ℕ × Bytes} {key : Bytes} (hkey : deviceKey r.2 r.1 = some key)
    {t : ClusterTranscript} (ht : ¬AnyRead t) (s : S) :
    Explains [r] (t ++ (DeviceCount.reconnect r.2 r.1 key).transcript exec s)
      ((DeviceCount.reconnect r.2 r.1 key).eval exec s).1 := by
  have ht' : ¬AnyRead (t ++ [(.reconnect, (exec s .reconnect).2)]) := by
    intro h
    rcases h.of_append with h | ⟨key', elements, h⟩
    · exact ht h
    · rw [List.mem_singleton, Prod.mk.injEq] at h
      exact absurd h.1 (by simp)
  rw [DeviceCount.reconnect, Prog.call_bind, Prog.transcript_send, Prog.eval_send,
    List.append_cons]
  split_ifs with hconnected
  · exact explains_ofReply hkey ht' _
  · rw [Prog.pure_eq_ret, Prog.transcript_ret, List.append_nil]
    exact ht'

/-- One lookup. -/
theorem explains_construct (exec : S → ClusterCmd → S × ClusterReply) (r : ℕ × Bytes) (s : S) :
    Explains [r] ((DeviceCount.construct r.2 r.1).transcript exec s)
      ((DeviceCount.construct r.2 r.1).eval exec s).1 := by
  rw [DeviceCount.construct]
  cases hkey : deviceKey r.2 r.1 with
  | none => exact not_anyRead_nil
  | some key =>
    show Explains [r] (Prog.transcript exec (if _ then _ else _) s)
      (Prog.eval exec (if _ then _ else _) s).1
    split_ifs with hlong
    · trivial
    · rw [Prog.call_bind, Prog.transcript_send, Prog.eval_send]
      cases hreply : (exec s (.command (.hgetall key))).2 with
      | missing => trivial
      | error text =>
        have hfirst : ¬AnyRead [(.command (.hgetall key), .error text)] := by
          rintro ⟨key', elements, h⟩
          simp at h
        show Explains [r] (_ :: Prog.transcript exec (if _ then _ else _) _)
          (Prog.eval exec (if _ then _ else _) _).1
        split_ifs with hconnect
        · exact explains_reconnect hkey hfirst _
        · exact hfirst
      | array elements => exact explains_ofReply hkey not_anyRead_nil (.array elements)
      | other => exact explains_ofReply hkey not_anyRead_nil .other
      | connected done => exact explains_ofReply hkey not_anyRead_nil (.connected done)

/-- The lookups of several ids: by induction over them, as the first device that is read ends the
loop. -/
theorem explains_firstDevice (ids : List (ℕ × Bytes)) (s : S) :
    Explains ids ((firstDevice ids).transcript exec s) ((firstDevice ids).eval exec s).1 := by
  -- by induction over the ids: the first one that is there ends the search
  induction ids generalizing s with
  | nil => exact not_anyRead_nil
  | cons r ids ih =>
    have hfirst := explains_construct exec r s
    rw [firstDevice, Prog.transcript_bind, Prog.eval_bind]
    cases hlookup : ((DeviceCount.construct r.2 r.1).eval exec s).1 with
    | crashed => trivial
    -- nothing was read for this id, so that the others are looked up
    | unread =>
      rw [hlookup] at hfirst
      have hrest := ih ((DeviceCount.construct r.2 r.1).eval exec s).2
      rw [if_pos rfl]
      cases hdevice : ((firstDevice ids).eval exec
          ((DeviceCount.construct r.2 r.1).eval exec s).2).1 with
      | crashed => trivial
      | unread =>
        rw [hdevice] at hrest
        intro h
        exact h.of_append.elim hfirst hrest
      | read d =>
        rw [hdevice] at hrest
        obtain ⟨r', hr', hread⟩ := hrest
        exact ⟨r', List.mem_cons_of_mem r hr', hread.append⟩
    -- the others are not looked up any more
    | read d =>
      rw [hlookup] at hfirst
      rw [if_neg (by simp), Prog.pure_eq_ret, Prog.transcript_ret, List.append_nil]
      obtain ⟨r', hr', hread⟩ := hfirst
      exact ⟨r', List.mem_cons.mpr (.inl (List.mem_singleton.mp hr')), hread⟩

/-- The device of a request is the answer to a command for one of its ids; without one, no such
command was answered. -/
theorem explains_getDeviceCount (req : ComRequest) (s : S) :
    Explains (req.device.dids ++ req.device.dpids) ((getDeviceCount req).transcript exec s)
      ((getDeviceCount req).eval exec s).1 :=
  explains_firstDevice _ s

/-- Whatever the cluster answers, the device of a request has no clicked categories: `Clear` empties
them, and nothing writes any. -/
theorem advcats_getDeviceCount (req : ComRequest) (s : S) :
    ((getDeviceCount req).eval exec s).1.advcats = [] := by
  have hexplains := @explains_getDeviceCount S exec req s
  cases hlookup : ((getDeviceCount req).eval exec s).1 with
  | crashed => rfl
  | unread => rfl
  | read d =>
    rw [hlookup] at hexplains
    obtain ⟨r, -, key, elements, -, -, rfl⟩ := hexplains
    rfl

end

end AdxDsp
