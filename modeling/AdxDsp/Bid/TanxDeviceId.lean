import AdxDsp.Lib.Buffers
import AdxDsp.Lib.Bytes

/-!
# The device ids of Tanx

Tanx encrypts the id of a device and puts a checksum behind it.  `decodeTanxDeviceId` decodes it for
`TanxBid::initialize_have_device`, which puts it into one of the maps of the device
(`DecodeDeviceId.cpp`, `tanx_bid.cpp`).

* **The format** (`encodeDeviceId`): version, length, encrypted id, checksum.
* **The decoder** (`decodeDeviceId_eq`): what it reads and writes, for all lengths.
* `initializeHaveDevice_iff`: when all accesses are inside and a used id has its checksum.
-/

namespace AdxDsp.TanxDeviceId

open CText Buffers

/-- What `MD5` writes. -/
structure Digest where
  bytes : Bytes
  length_bytes : bytes.length = 16

/-- `g_key` -/
def gKey : Bytes :=
  [0x13, 0x76, 0x59, 0x77, 0xec, 0x84, 0x52, 0xf5, 0xa3, 0xc6, 0x56, 0x87, 0xaf, 0x31, 0x58, 0x12]

section

variable (md5 : Bytes → Digest)

/-- Each byte with the one of the digest of the key, over and over. -/
def xorLoop (text : Bytes) : Bytes :=
  text.mapIdx fun i b => b ^^^ (md5 gKey).bytes.getD (i % 16) 0

/-- `decodeDeviceId`: its answer and the buffer of the caller, or `none` for an access outside of
the decoded bytes or of a buffer. -/
def decodeDeviceId (src realDeviceId : Bytes) : Option (Bool × Bytes) := do
  let v ← src[0]?
  if v ≠ 1 then some (false, realDeviceId)
  else
    let length ← src[1]?
    let len := length.toNat
    let buf ← writeAt (newBuffer 64) 0 gKey
    let encodeDeviceId ← readAt src 2 len
    let deviceId ← writeAt (newBuffer 64) 0 (xorLoop md5 encodeDeviceId)
    let realDeviceId ← writeAt realDeviceId 0 (← readAt deviceId 0 len)
    let buf ← writeAt buf 0 (← readAt src 0 2)
    let buf ← writeAt buf 2 (← readAt deviceId 0 len)
    let buf ← writeAt buf (2 + len) gKey
    let text ← readAt buf 0 (2 + len + 16)
    let crc ← readAt src (2 + len) 4
    some ((md5 text).bytes.take 4 = crc, realDeviceId)

variable (bioRead : Bytes → ℕ → Option Bytes)

/-- `base64Decode` of a text: the bytes that are there afterwards, none for a negative result. -/
def decodedText (text : Bytes) : Bytes :=
  (bioRead (cstr text) (((cstr text).length + 3) / 4 * 3)).getD []

/-- `decodeTanxDeviceId`: the buffer of the caller.  The id is printed when its checksum is right,
and the answer is 0 in any case. -/
def decodeTanxDeviceId (src deviceId : Bytes) : Option Bytes := do
  let (ok, deviceId) ← decodeDeviceId md5 (decodedText bioRead src) deviceId
  if ok then
    let _ ← readText deviceId
    some deviceId
  else some deviceId

/-- What is read of a request. -/
structure Mobile where
  deviceId : Option Bytes
  os : Bytes
  osVersion : Bytes

/-- The maps for the ids of a device. -/
inductive IdMap where
  | dids
  | dpids
  deriving DecidableEq

/-- The id that is found in the request, if there is one. -/
def foundId (strdeviceid : Option Bytes) : Option (Option Bytes) :=
  match strdeviceid with
  | none => some none
  | some text =>
    if 100 < text.length then some none
    else do
      let deviceid ← decodeTanxDeviceId md5 bioRead text (newBuffer 200)
      let id ← readText deviceid
      if id = [] ∨ id = bytes "unknown" then some none else some (some id)

/-- The map and the key for an id: `DID_IMEI`, `DID_MAC` or `DPID_IDFA`. -/
def idPlace (os : Bytes) (version : ℤ) (id : Bytes) : Option (IdMap × ℕ) :=
  if (find (bytes "android") os).isSome then some (.dids, 0x10)
  else if (find (bytes "ios") os).isSome then
    if version < 6 then some (.dids, 0x20)
    else if 50 < id.length then none
    else some (.dpids, 0x70)
  else none

/-- `TanxBid::initialize_have_device`: the id that is put into a map. -/
def initializeHaveDevice (mobile : Mobile) : Option (Option ((IdMap × ℕ) × Bytes)) := do
  let id ← foundId md5 bioRead mobile.deviceId
  some (id.bind fun id =>
    (idPlace (tolower mobile.os) (atoi (cstr mobile.osVersion)) id).map fun place => (place, id))

/-! ## The format -/

/-- An id with its version, its length and its checksum. -/
def encodeDeviceId (id : Bytes) : Bytes :=
  [1, UInt8.ofNat id.length] ++ xorLoop md5 id ++
    (md5 ([1, UInt8.ofNat id.length] ++ id ++ gKey)).bytes.take 4

/-- All accesses are inside, and the text that is put into a map is an id whose checksum is
there. -/
def Meets (mobile : Mobile) : Prop :=
  ∃ inserted, initializeHaveDevice md5 bioRead mobile = some inserted ∧
    ∀ place name, inserted = some (place, name) →
      ∃ text id, mobile.deviceId = some text ∧ name = cstr id ∧ id.length < 256 ∧
        encodeDeviceId md5 id <+: decodedText bioRead text

/-- The id in the decoded bytes. -/
def givenId (src : Bytes) : Bytes :=
  xorLoop md5 ((src.drop 2).take (src.getD 1 0).toNat)

/-- The bytes are there, and the ones that the buffers have room for. -/
def Fits (src : Bytes) : Prop :=
  src ≠ [] ∧ (src.head? = some 1 →
    1 < src.length ∧ (src.getD 1 0).toNat + 6 ≤ src.length ∧ (src.getD 1 0).toNat ≤ 46)

/-- The id is put into a map. -/
def Used (mobile : Mobile) (id : Bytes) : Prop :=
  cstr id ≠ [] ∧ cstr id ≠ bytes "unknown" ∧
    (bytes "android" <:+: tolower mobile.os ∨ bytes "ios" <:+: tolower mobile.os)

/-- An id that is to be used has its checksum. -/
def Checked (mobile : Mobile) (src : Bytes) : Prop :=
  src.head? = some 1 → Used mobile (givenId md5 src) → encodeDeviceId md5 (givenId md5 src) <+: src

end

/-- The key has sixteen bytes. -/
theorem gKey_length : gKey.length = 16 := rfl

section

variable {md5 : Bytes → Digest}

/-- The pad keeps the length. -/
theorem length_xorLoop (text : Bytes) : (xorLoop md5 text).length = text.length :=
  List.length_mapIdx

/-- The same pad twice changes nothing. -/
theorem xorLoop_xorLoop (text : Bytes) : xorLoop md5 (xorLoop md5 text) = text := by
  refine List.ext_getElem? fun i => ?_
  rw [xorLoop, xorLoop, List.getElem?_mapIdx, List.getElem?_mapIdx]
  cases text[i]? with
  | none => rfl
  | some b => simp

/-! ## The decoder -/

/-- A whole text, with a length for which there is room. -/
theorem decodeDeviceId_of_length {length : UInt8} {cipher crc rest real : Bytes}
    (hcipher : cipher.length = length.toNat) (hcrc : crc.length = 4) (hlength : length.toNat ≤ 46)
    (hreal : 200 ≤ real.length) :
    decodeDeviceId md5 ([1, length] ++ cipher ++ crc ++ rest) real =
      some (decide ((md5 ([1, length] ++ xorLoop md5 cipher ++ gKey)).bytes.take 4 = crc),
        xorLoop md5 cipher ++ real.drop length.toNat) := by
  obtain ⟨id, hid⟩ : ∃ id, xorLoop md5 cipher = id := ⟨_, rfl⟩
  have hidLength : id.length = length.toNat := by rw [← hid, length_xorLoop, hcipher]
  -- the parts of the text
  have hcipherRead :
      readAt ([1, length] ++ cipher ++ crc ++ rest) 2 length.toNat = some cipher := by
    rw [List.append_assoc ([1, length] ++ cipher)]
    exact readAt_append rfl hcipher
  have hhead : readAt ([1, length] ++ cipher ++ crc ++ rest) 0 2 = some [1, length] := by
    rw [List.append_assoc, List.append_assoc]
    exact readAt_zero rfl
  have hcrcRead :
      readAt ([1, length] ++ cipher ++ crc ++ rest) (2 + length.toNat) 4 = some crc := by
    refine readAt_append ?_ hcrc
    rw [List.length_append, hcipher]
    rfl
  -- the id in its buffer and in the one of the caller
  have hdevice : writeAt (newBuffer 64) 0 id = some (id ++ (newBuffer 64).drop id.length) :=
    writeAt_zero (by rw [length_newBuffer]; omega)
  have hidRead : readAt (id ++ (newBuffer 64).drop id.length) 0 length.toNat = some id :=
    readAt_zero hidLength
  have hrealWrite : writeAt real 0 id = some (id ++ real.drop length.toNat) := by
    rw [← hidLength]
    exact writeAt_zero (by omega)
  -- the text of the checksum
  have hkey : writeAt (newBuffer 64) 0 gKey = some (gKey ++ newBuffer 48) :=
    writeAt_zero (by decide)
  have hbuf : writeAt (gKey ++ newBuffer 48) 0 [1, length] =
      some ([1, length] ++ (gKey ++ newBuffer 48).drop 2) :=
    writeAt_zero (by simp [gKey_length, length_newBuffer])
  obtain ⟨buf, hbufLength, hbufEq⟩ : ∃ buf : Bytes, buf.length = 62 ∧
      (gKey ++ newBuffer 48).drop 2 = buf := ⟨_, by decide, rfl⟩
  have hbuf' : writeAt ([1, length] ++ buf) 2 id =
      some ([1, length] ++ id ++ buf.drop id.length) := writeAt_append rfl (by omega)
  have hbuf'' : writeAt ([1, length] ++ id ++ buf.drop id.length) (2 + length.toNat) gKey =
      some ([1, length] ++ id ++ gKey ++ (buf.drop id.length).drop gKey.length) := by
    refine writeAt_append ?_ ?_
    · rw [List.length_append, hidLength]
      rfl
    · rw [List.length_drop, gKey_length]
      omega
  have htext : readAt ([1, length] ++ id ++ gKey ++ (buf.drop id.length).drop gKey.length) 0
      (2 + length.toNat + 16) = some ([1, length] ++ id ++ gKey) := by
    refine readAt_zero ?_
    rw [List.length_append, List.length_append, hidLength]
    rfl
  have hfirst : ([1, length] ++ cipher ++ crc ++ rest)[0]? = some 1 := rfl
  have hsecond : ([1, length] ++ cipher ++ crc ++ rest)[1]? = some length := rfl
  simp only [decodeDeviceId, hfirst, hsecond, Option.bind_eq_bind, Option.bind_some, ne_eq,
    not_true_eq_false, if_false, hkey, hcipherRead, hid, hdevice, hidRead, hrealWrite, hhead, hbuf,
    hbufEq, hbuf', hbuf'', htext, hcrcRead]

/-- An access that fails stops the decoder. -/
theorem fits_of_decodeDeviceId {src real : Bytes} {out : Bool × Bytes}
    (h : decodeDeviceId md5 src real = some out) : Fits src := by
  unfold decodeDeviceId at h
  obtain ⟨v, hv, h⟩ := Option.bind_eq_some_iff.mp h
  have hne : src ≠ [] := by
    rintro rfl
    cases hv
  refine ⟨hne, fun hhead => ?_⟩
  obtain rfl : v = 1 := by
    rw [List.head?_eq_getElem?, hv] at hhead
    exact Option.some_inj.mp hhead
  rw [if_neg (not_not_intro rfl)] at h
  -- all of the copies and reads that come before the checksum have been made
  obtain ⟨length, hlength, h⟩ := Option.bind_eq_some_iff.mp h
  obtain ⟨buf, hbuf, h⟩ := Option.bind_eq_some_iff.mp h
  obtain ⟨cipher, -, h⟩ := Option.bind_eq_some_iff.mp h
  obtain ⟨deviceId, -, h⟩ := Option.bind_eq_some_iff.mp h
  obtain ⟨copied, -, h⟩ := Option.bind_eq_some_iff.mp h
  obtain ⟨real', -, h⟩ := Option.bind_eq_some_iff.mp h
  obtain ⟨head, -, h⟩ := Option.bind_eq_some_iff.mp h
  obtain ⟨buf', hbuf', h⟩ := Option.bind_eq_some_iff.mp h
  obtain ⟨id, -, h⟩ := Option.bind_eq_some_iff.mp h
  obtain ⟨buf'', hbuf'', h⟩ := Option.bind_eq_some_iff.mp h
  obtain ⟨full, hfull, h⟩ := Option.bind_eq_some_iff.mp h
  obtain ⟨text, -, h⟩ := Option.bind_eq_some_iff.mp h
  obtain ⟨crc, hcrc, -⟩ := Option.bind_eq_some_iff.mp h
  have hlen : src.getD 1 0 = length := by rw [List.getD_eq_getElem?_getD, hlength]; rfl
  -- the buffer has its 64 bytes all along
  have hsize : buf''.length = 64 := by
    rw [length_of_writeAt hbuf'', length_of_writeAt hbuf', length_of_writeAt hbuf, length_newBuffer]
  have hroom := le_of_writeAt hfull
  have hthere := le_of_readAt hcrc
  rw [hsize, gKey_length] at hroom
  rw [hlen]
  omega

/-- The parts of a text that fits. -/
theorem exists_parts {src : Bytes} (hfits : Fits src) (hhead : src.head? = some 1) :
    ∃ (length : UInt8) (cipher crc rest : Bytes), src = [1, length] ++ cipher ++ crc ++ rest ∧
      cipher.length = length.toNat ∧ crc.length = 4 ∧ length.toNat ≤ 46 := by
  obtain ⟨hlt, hthere, hroom⟩ := hfits.2 hhead
  obtain ⟨a, length, body, rfl⟩ : ∃ a length body, src = a :: length :: body := by
    cases src with
    | nil => cases hhead
    | cons a rest =>
      cases rest with
      | nil => simp at hlt
      | cons length body => exact ⟨a, length, body, rfl⟩
  obtain rfl := Option.some.inj hhead
  change length.toNat + 6 ≤ body.length + 2 at hthere
  refine ⟨length, body.take length.toNat, (body.drop length.toNat).take 4,
    (body.drop length.toNat).drop 4, ?_, ?_, ?_, hroom⟩
  · rw [List.append_assoc, List.take_append_drop, List.append_assoc, List.take_append_drop]
    rfl
  · rw [List.length_take]
    omega
  · rw [List.length_take, List.length_drop]
    omega

section

variable {length : UInt8} {cipher crc rest : Bytes}

/-- The id of a well-formed text. -/
theorem givenId_parts (hcipher : cipher.length = length.toNat) :
    givenId md5 ([1, length] ++ cipher ++ crc ++ rest) = xorLoop md5 cipher := by
  have htake : (cipher ++ crc ++ rest).take length.toNat = cipher := by
    rw [List.append_assoc, ← hcipher, List.take_left]
  exact congrArg (xorLoop md5) htake

/-- The text begins with the code of its id just if the check sum is right. -/
theorem encodeDeviceId_prefix_iff (hcipher : cipher.length = length.toNat) (hcrc : crc.length = 4) :
    encodeDeviceId md5 (xorLoop md5 cipher) <+: [1, length] ++ cipher ++ crc ++ rest ↔
      (md5 ([1, length] ++ xorLoop md5 cipher ++ gKey)).bytes.take 4 = crc := by
  have hsum : ((md5 ([1, length] ++ xorLoop md5 cipher ++ gKey)).bytes.take 4).length = 4 := by
    rw [List.length_take, Digest.length_bytes]
    rfl
  rw [encodeDeviceId, xorLoop_xorLoop, length_xorLoop, hcipher, UInt8.ofNat_toNat,
    List.append_assoc ([1, length] ++ cipher), List.prefix_append_right_inj,
    List.prefix_iff_eq_take, hsum, ← hcrc, List.take_left]

end

/-- The decoder of a text that fits. -/
theorem decodeDeviceId_eq {src : Bytes} (hfits : Fits src) :
    decodeDeviceId md5 src (newBuffer 200) =
      some (if src.head? = some 1 then
        (decide (encodeDeviceId md5 (givenId md5 src) <+: src),
          givenId md5 src ++ newBuffer (200 - (src.getD 1 0).toNat))
      else (false, newBuffer 200)) := by
  by_cases hhead : src.head? = some 1
  · rw [if_pos hhead]
    obtain ⟨length, cipher, crc, rest, rfl, hcipher, hcrc, hlength⟩ := exists_parts hfits hhead
    rw [decodeDeviceId_of_length hcipher hcrc hlength (length_newBuffer 200).ge,
      givenId_parts hcipher, newBuffer, List.drop_replicate]
    simp only [encodeDeviceId_prefix_iff hcipher hcrc]
    rfl
  · rw [if_neg hhead]
    obtain ⟨v, tail, rfl⟩ := List.exists_cons_of_ne_nil hfits.1
    have hv : v ≠ 1 := fun h => hhead (congrArg some h)
    exact if_pos hv

/-! ## The caller -/

variable {bioRead : Bytes → ℕ → Option Bytes} {text : Bytes}

/-- What is in the buffer afterwards, as a text. -/
theorem decodeTanxDeviceId_eq (hfits : Fits (decodedText bioRead text)) :
    (decodeTanxDeviceId md5 bioRead text (newBuffer 200)).bind readText =
      some (if (decodedText bioRead text).head? = some 1 then
        cstr (givenId md5 (decodedText bioRead text)) else []) := by
  rw [decodeTanxDeviceId, decodeDeviceId_eq hfits]
  by_cases hhead : (decodedText bioRead text).head? = some 1
  · obtain ⟨-, -, hlength⟩ := hfits.2 hhead
    have hread := @readText_append_newBuffer (givenId md5 (decodedText bioRead text))
      (200 - ((decodedText bioRead text).getD 1 0).toNat) (by omega)
    rw [if_pos hhead, if_pos hhead, Option.bind_eq_bind, Option.bind_some]
    dsimp only
    split_ifs
    · rw [hread, Option.bind_eq_bind, Option.bind_some, Option.bind_some, hread]
    · rw [Option.bind_some, hread]
  · have hread : readText (newBuffer 200) = some [] :=
      @readText_append_newBuffer [] 200 (by decide)
    rw [if_neg hhead, if_neg hhead]
    simp [hread]

/-- What is decoded without leaving the arrays fits. -/
theorem fits_of_foundId {found : Option Bytes} (hle : text.length ≤ 100)
    (h : foundId md5 bioRead (some text) = some found) : Fits (decodedText bioRead text) := by
  rw [foundId, if_neg (by omega)] at h
  obtain ⟨deviceid, hdecode, -⟩ := Option.bind_eq_some_iff.mp h
  obtain ⟨out, hout, -⟩ := Option.bind_eq_some_iff.mp hdecode
  exact fits_of_decodeDeviceId hout

/-- The id that is found, if the text fits. -/
theorem foundId_eq (hle : text.length ≤ 100) (hfits : Fits (decodedText bioRead text)) :
    foundId md5 bioRead (some text) =
      some (if (decodedText bioRead text).head? = some 1 ∧
          cstr (givenId md5 (decodedText bioRead text)) ≠ [] ∧
          cstr (givenId md5 (decodedText bioRead text)) ≠ bytes "unknown" then
        some (cstr (givenId md5 (decodedText bioRead text))) else none) := by
  have hassoc : foundId md5 bioRead (some text) =
      ((decodeTanxDeviceId md5 bioRead text (newBuffer 200)).bind readText).bind fun id =>
        if id = [] ∨ id = bytes "unknown" then some none else some (some id) := by
    rw [foundId, if_neg (by omega), Option.bind_assoc]
    rfl
  rw [hassoc, decodeTanxDeviceId_eq hfits, Option.bind_some]
  by_cases hhead : (decodedText bioRead text).head? = some 1
  · simp only [hhead, if_true, true_and, ← not_or]
    split_ifs <;> simp_all
  · simp [hhead]

/-- The operating system decides whether there is a place for the id. -/
theorem isSome_idPlace {os id : Bytes} {version : ℤ} (hid : id.length ≤ 50) :
    (idPlace os version id).isSome ↔ bytes "android" <:+: os ∨ bytes "ios" <:+: os := by
  have hfind : ∀ d : Bytes, (find d os).isSome ↔ d <:+: os := fun d => by
    rw [← not_iff_not, ← find_eq_none_iff, Option.not_isSome_iff_eq_none]
  simp only [idPlace, hfind, if_neg (by omega : ¬50 < id.length)]
  split_ifs <;> simp [*]

/-- An id that fits has 46 bytes at most. -/
theorem length_givenId_le {src : Bytes} (hfits : Fits src) (hhead : src.head? = some 1) :
    (givenId md5 src).length ≤ 46 := by
  obtain ⟨-, -, hroom⟩ := hfits.2 hhead
  rw [givenId, length_xorLoop]
  exact (List.length_take_le _ _).trans hroom

/-- The text that is put into a map with its checksum is the id in the decoded bytes. -/
theorem eq_givenId_of_encoded {src id : Bytes} (hid : id.length < 256)
    (hencoded : encodeDeviceId md5 id <+: src) : id = givenId md5 src := by
  obtain ⟨rest, rfl⟩ := hencoded
  have hlength : (UInt8.ofNat id.length).toNat = (xorLoop md5 id).length := by
    rw [length_xorLoop, UInt8.toNat_ofNat', Nat.mod_eq_of_lt hid]
  rw [encodeDeviceId, givenId_parts hlength.symm, xorLoop_xorLoop]

/-- What a call shows about its text. -/
theorem fits_and_checked_of_meets {mobile : Mobile} (h : Meets md5 bioRead mobile)
    (htext : mobile.deviceId = some text) (hle : text.length ≤ 100) :
    Fits (decodedText bioRead text) ∧ Checked md5 mobile (decodedText bioRead text) := by
  obtain ⟨inserted, hrun, hmeets⟩ := h
  obtain ⟨found, hfound, hinserted⟩ := Option.bind_eq_some_iff.mp hrun
  rw [htext] at hfound
  have hfits := fits_of_foundId hle hfound
  refine ⟨hfits, fun hhead ⟨hne, hunknown, hos⟩ => ?_⟩
  -- the id that is there is found, and there is a map for it
  rw [foundId_eq hle hfits, if_pos ⟨hhead, hne, hunknown⟩, Option.some_inj] at hfound
  subst hfound
  have hlength := (length_cstr_le _).trans (@length_givenId_le md5 _ hfits hhead)
  obtain ⟨place, hplace⟩ := Option.isSome_iff_exists.mp
    ((@isSome_idPlace _ _ (atoi (cstr mobile.osVersion)) (hlength.trans (by decide))).mpr hos)
  rw [Option.bind_some, hplace, Option.map_some, Option.some_inj] at hinserted
  obtain ⟨text', id, htext', hname, hid, hencoded⟩ := hmeets place _ hinserted.symm
  obtain rfl : text = text' := Option.some_inj.mp (htext.symm.trans htext')
  rwa [eq_givenId_of_encoded hid hencoded] at hencoded

/-- If what is decoded fits and is checked, the promise is kept. -/
theorem meets_of_fits_and_checked {mobile : Mobile}
    (h : ∀ text, mobile.deviceId = some text → text.length ≤ 100 →
      Fits (decodedText bioRead text) ∧ Checked md5 mobile (decodedText bioRead text)) :
    Meets md5 bioRead mobile := by
  cases htext : mobile.deviceId with
  | none => exact ⟨none, by rw [initializeHaveDevice, htext]; rfl, nofun⟩
  | some text =>
    by_cases hle : text.length ≤ 100
    · obtain ⟨hfits, hchecked⟩ := h text htext hle
      refine ⟨_, by rw [initializeHaveDevice, htext, foundId_eq hle hfits]; rfl, ?_⟩
      intro place name hinserted
      obtain ⟨id, hid, hplace⟩ := Option.bind_eq_some_iff.mp hinserted
      obtain ⟨place', hplace', hpair⟩ := Option.map_eq_some_iff.mp hplace
      obtain ⟨rfl, rfl⟩ := Prod.mk.inj hpair
      split_ifs at hid with hfound
      obtain ⟨hhead, hne, hunknown⟩ := hfound
      obtain rfl := Option.some_inj.mp hid
      have hlength := @length_givenId_le md5 _ hfits hhead
      have hcstr := (length_cstr_le _).trans hlength
      have hos := (isSome_idPlace (by omega)).mp (Option.isSome_of_eq_some hplace')
      exact ⟨text, _, htext, rfl, by omega, hchecked hhead ⟨hne, hunknown, hos⟩⟩
    · refine ⟨none, ?_, nofun⟩
      rw [initializeHaveDevice, htext, foundId, if_pos (by omega)]
      rfl

/-- The id of a request is handled inside all bounds, and none without its checksum is put into a
map, if and only if the decoded bytes are there for which there is room, and an id that would be
used has its checksum. -/
theorem initializeHaveDevice_iff (md5 : Bytes → Digest) (bioRead : Bytes → ℕ → Option Bytes)
    (mobile : Mobile) :
    Meets md5 bioRead mobile ↔ ∀ text, mobile.deviceId = some text → text.length ≤ 100 →
      Fits (decodedText bioRead text) ∧ Checked md5 mobile (decodedText bioRead text) :=
  ⟨fun h _ htext hle => fits_and_checked_of_meets h htext hle, meets_of_fits_and_checked⟩

end

/-- A text of two bytes whose length byte asks for 127 more, and an id of one byte that is put into
a map with a wrong checksum. -/
theorem short_text_and_wrong_checksum :
    ¬Meets (fun _ => ⟨List.replicate 16 1, rfl⟩)
        (fun text _ => if text = bytes "AX8=" then some [1, 127] else none)
        ⟨some (bytes "AX8="), bytes "Android", bytes "9"⟩ ∧
      ¬Meets (fun _ => ⟨List.replicate 16 1, rfl⟩)
        (fun text _ => if text = bytes "AQFkAAAAAA==" then some [1, 1, 0x64, 0, 0, 0, 0] else none)
        ⟨some (bytes "AQFkAAAAAA=="), bytes "Android", bytes "9"⟩ := by
  constructor
  · intro h
    obtain ⟨⟨-, hfits⟩, -⟩ := fits_and_checked_of_meets h rfl (by decide)
    exact absurd (hfits rfl) (by decide)
  · intro h
    obtain ⟨-, hchecked⟩ := fits_and_checked_of_meets h rfl (by decide)
    exact absurd (hchecked rfl ⟨by decide, by decide, Or.inl (by decide)⟩) (by decide)

end AdxDsp.TanxDeviceId
