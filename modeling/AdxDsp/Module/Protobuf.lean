import AdxDsp.Lib.Bytes
import AdxDsp.Lib.Varint

/-!
# The messages of the modules

The modules of nginx and the server talk in messages whose fields are numbered
(`adx_com_libs/ngx_protobuf.h`, `ngx_protobuf.c`).  The code of a message is generated from its
fields: `__size`, `__pack` and `__unpack` do the same for each field of a kind, so that `Message`
is made of `Field`s.

A reader moves a position through a buffer.  It checks against `last` before it reads, with two
gaps: a number may go on in the byte at `last` itself, and the length of a string is added to the
position without regard to the size of an address.  In the model such a read has no result where
there is no byte, and such an addition has none.

A reader of a fixed number of bytes does not read: `NGX_PROTOBUF_READ_COPY` gives the buffer as the
destination and `val` as the source, so that the bytes of the buffer are written over.  A reader
therefore leaves a memory too.  A string stays in the buffer; the readers only go forward, so that
what is written later leaves its bytes alone.

* **Values**: `readUint64`, `readString`, `readFixed`; `writeUint32`, `sizeUint32`.
* **Messages**: `Field`, `Message.unpack`, `Message.size`, `Message.pack`.
* `readUint64_of_varint`, `readUint32_writeUint32`, `readString_write`: what is written can be read.
-/

namespace AdxDsp

open CText ByteMemory

namespace NgxProtobuf

/-! ## Reading values -/

/-- `NGX_OK` and `NGX_ABORT`. -/
inductive Rc where
  | ok
  | abort
  deriving DecidableEq

/-- What a reader makes of `*val`, which it leaves alone when it aborts, and of `*buf`. -/
structure Scan (α : Type) where
  val : Option α
  pos : ℕ
  deriving DecidableEq

/-- What a reader returns. -/
def Scan.rc {α : Type} (r : Scan α) : Rc := if r.val.isSome then .ok else .abort

/-- The loop of `ngx_protobuf_read_uint64`.  The shift leaves 64 bits in ten turns. -/
def readLoop (m : ByteMemory) (last : ℕ) : ℕ → ℕ → ℕ → ℕ → Option (ℕ × ℕ)
  | 0, _, _, _ => none
  | turns + 1, p, s, v => (m p).bind fun b =>
    let v := v ||| (((b.toNat &&& 0x7f) <<< s) % 2 ^ 64)
    if b.toNat &&& 0x80 ≠ 0 ∧ p + 1 ≤ last ∧ s + 7 < 64 then
      readLoop m last turns (p + 1) (s + 7) v
    else some (p + 1, v)

/-- `ngx_protobuf_read_uint64` -/
def readUint64 (m : ByteMemory) (last pos : ℕ) : Option (Scan ℕ) :=
  if last ≤ pos then some ⟨none, pos⟩
  else (readLoop m last 10 pos 0 0).bind fun r => (m (r.1 - 1)).map fun b =>
    if b.toNat &&& 0x80 ≠ 0 then ⟨none, r.1⟩ else ⟨some r.2, r.1⟩

/-- `ngx_protobuf_read_uint32` -/
def readUint32 (m : ByteMemory) (last pos : ℕ) : Option (Scan ℕ) :=
  (readUint64 m last pos).map fun r => ⟨r.val.map fun v => v % 2 ^ 32, r.pos⟩

/-- `ngx_protobuf_read_string`, with `reuse_strings`: the string stays in the buffer.  An address
behind the last one has no meaning. -/
def readString (m : ByteMemory) (last pos : ℕ) : Option (Scan Bytes) :=
  if last ≤ pos then some ⟨none, pos⟩
  else (readUint64 m last pos).bind fun r => r.val.elim (some ⟨none, last⟩) fun v =>
    if 2 ^ 64 ≤ r.pos + v then none
    else if last < r.pos + v then some ⟨none, last⟩
    else (m.take r.pos v).map fun w => ⟨some w, r.pos + v⟩

/-- `ngx_protobuf_copy_endian4` and `ngx_protobuf_copy_endian8`, by the number of bytes: the bytes
of a number, its lowest one first. -/
def copyEndian : ℕ → ℕ → Bytes
  | 0, _ => []
  | size + 1, val => UInt8.ofNat val :: copyEndian size (val / 256)

/-- `ngx_protobuf_read_fixed32` and `ngx_protobuf_read_fixed64`, by the number of bytes.  `*val` is
copied over the buffer and stays what it was. -/
def readFixed (size val : ℕ) (m : ByteMemory) (last pos : ℕ) : Option (Scan ℕ × ByteMemory) :=
  if last < pos + size then some (⟨none, pos⟩, m)
  else (m.write pos (copyEndian size val)).map fun m => (⟨some val, pos + size⟩, m)

/-- What `ngx_protobuf_unpack_unknown_field` and `ngx_protobuf_skip` do by the wire type: eight bytes
of the union that a value is, which is `before` until it is read, and the bytes of a string. -/
def readValue (before : ℕ) (m : ByteMemory) (last pos : ℕ) :
    ℕ → Option (Scan (ℕ × Bytes) × ByteMemory)
  | 0 => (readUint64 m last pos).map fun r => (⟨r.val.map fun v => (v, []), r.pos⟩, m)
  | 1 => (readFixed 8 before m last pos).map fun r =>
    (⟨r.1.val.map fun v => (v, []), r.1.pos⟩, r.2)
  | 2 => (readString m last pos).map fun r => (⟨r.val.map fun w => (w.length, w), r.pos⟩, m)
  | 5 => (readFixed 4 before m last pos).map fun r =>
    (⟨r.1.val.map fun v => (v, []), r.1.pos⟩, r.2)
  | _ => some (⟨none, pos⟩, m)

/-- `ngx_protobuf_unknown_field_t`.  The length of a string is in the place of a number. -/
structure UnknownField where
  number : ℕ
  wireType : ℕ
  value : UInt64
  data : Bytes
  deriving DecidableEq

/-- An entry that was read: its number and its wire type stay as `ngx_protobuf_push_array` has them,
which fills it with zeros. -/
abbrev Unknown := { field : UnknownField // field.number = 0 ∧ field.wireType = 0 }

/-- The entry with a value. -/
def Unknown.ofValue (value : ℕ × Bytes) : Unknown :=
  ⟨⟨0, 0, UInt64.ofNat value.1, value.2⟩, rfl, rfl⟩

/-- The entry without the bytes of a string. -/
def Unknown.bare (unknown : Unknown) : Unknown := .ofValue (unknown.1.value.toNat, [])

/-! ## Writing values -/

/-- The loop of `NGX_PROTOBUF_WRITE_UINT`. -/
def writeLoop (val : ℕ) : Bytes :=
  UInt8.ofNat (val ||| 0x80) :: if val >>> 7 = 0 then [] else writeLoop (val >>> 7)
termination_by val
decreasing_by
  rw [Nat.shiftRight_eq_div_pow] at *
  omega

/-- `NGX_PROTOBUF_WRITE_UINT` -/
def writeUint (val : ℕ) : Bytes := (writeLoop val).modifyLast fun b => b &&& 0x7f

/-- `NGX_PROTOBUF_SIZE_UINT` -/
def sizeUint (val : ℕ) : ℕ := 1 + if val >>> 7 = 0 then 0 else sizeUint (val >>> 7)
termination_by val
decreasing_by
  rw [Nat.shiftRight_eq_div_pow] at *
  omega

/-- `ngx_protobuf_write_uint32` -/
def writeUint32 (val : ℕ) : Bytes := writeUint (val % 2 ^ 32)

/-- `ngx_protobuf_write_uint64` -/
def writeUint64 (val : ℕ) : Bytes := writeUint (val % 2 ^ 64)

/-- `ngx_protobuf_size_uint32` -/
def sizeUint32 (val : ℕ) : ℕ := sizeUint (val % 2 ^ 32)

/-- `ngx_protobuf_size_uint64` -/
def sizeUint64 (val : ℕ) : ℕ := sizeUint (val % 2 ^ 64)

/-- `ngx_protobuf_size_binary` -/
def sizeBinary (val : ℕ) : ℕ := sizeUint32 val + val

/-- `NGX_PROTOBUF_HEADER` -/
def header (number wire : ℕ) : ℕ := number <<< 3 ||| wire

/-- `ngx_protobuf_write_fixed32` and `ngx_protobuf_write_fixed64`, by the number of bytes. -/
def writeFixed (size val : ℕ) : Bytes := copyEndian size val

/-- `ngx_protobuf_size_unknown_field` -/
def sizeUnknownField (field : UnknownField) : ℕ :=
  match field.wireType with
  | 0 => sizeUint32 (header field.number 0) + sizeUint64 field.value.toNat
  | 1 => sizeUint32 (header field.number 1) + 8
  | 2 => sizeUint32 (header field.number 2) + sizeBinary field.value.toNat
  | 5 => sizeUint32 (header field.number 5) + 4
  | _ => 0

/-- `ngx_protobuf_pack_unknown_field` -/
def packUnknownField (field : UnknownField) : Bytes :=
  match field.wireType with
  | 0 => writeUint32 (header field.number 0) ++ writeUint64 field.value.toNat
  | 1 => writeUint32 (header field.number 1) ++ writeFixed 8 field.value.toNat
  | 2 => writeUint32 (header field.number 2) ++ (writeUint32 field.value.toNat ++ field.data)
  | 5 => writeUint32 (header field.number 5) ++ writeFixed 4 field.value.toNat
  | _ => []

/-! ## Messages -/

/-- What an unpacker returns, with the position, the object and the memory that it leaves. -/
structure Outcome (σ : Type) where
  rc : Rc
  pos : ℕ
  obj : σ
  mem : ByteMemory

/-- What the local of `ngx_protobuf_skip` holds before it is set, by the position it is called at. -/
abbrev Dirt := ℕ → ℕ

/-- The code that is generated for a field of a message: its case in `__unpack`, for its own wire
type, and its parts of `__size` and of `__pack`, which is given how many bytes are left.

`restore` says what it is for: another object gets the field that some object has. -/
structure Field (σ : Type) where
  number : ℕ
  wire : ℕ
  unpack : Dirt → ByteMemory → ℕ → ℕ → σ → Option (Outcome σ)
  size : σ → ℕ
  pack : ℕ → σ → Bytes
  restore : σ → σ → σ

/-- A message: the object that `__clear` makes, the fields and the place of the unknown ones. -/
structure Message (σ : Type) where
  zero : σ
  fields : List (Field σ)
  unknown : σ → List Unknown
  setUnknown : List Unknown → σ → σ

/-- Pack one part behind the other. -/
def packAll : List (ℕ → Bytes) → ℕ → Bytes
  | [], _ => []
  | part :: parts, room =>
    let w := part room
    w ++ packAll parts (room - w.length)

namespace Message

variable {σ : Type} (M : Message σ)

/-- The field that has a number. -/
def field (number : ℕ) : Option (Field σ) := M.fields.find? fun f => f.number = number

/-- The `switch` of `__unpack`.  The entry of an unknown field is filled with zeros before its value
is read; a field of another wire type is skipped. -/
def unpackField (dirt : Dirt) (m : ByteMemory) (last pos header : ℕ) (obj : σ) :
    Option (Outcome σ) :=
  (M.field (header >>> 3)).elim
    ((readValue 0 m last pos (header &&& 7)).map fun r =>
      ⟨r.1.rc, r.1.pos, M.setUnknown (M.unknown obj ++ [.ofValue (r.1.val.getD (0, []))]) obj, r.2⟩)
    fun f =>
      if header &&& 7 = f.wire then f.unpack dirt m last pos obj
      else (readValue (dirt pos) m last pos (header &&& 7)).map fun r => ⟨r.1.rc, r.1.pos, obj, r.2⟩

/-- A turn of the loop of `__unpack`. -/
def turn (dirt : Dirt) (m : ByteMemory) (last pos : ℕ) (obj : σ) : Option (Outcome σ) :=
  (readUint32 m last pos).bind fun r => r.val.elim (some ⟨.abort, r.pos, obj, m⟩) fun header =>
    if last ≤ r.pos then some ⟨.abort, r.pos, obj, m⟩
    else M.unpackField dirt m last r.pos header obj

/-- The loop of `__unpack`. -/
def loop (dirt : Dirt) (last : ℕ) : ℕ → ByteMemory → ℕ → σ → Option (Outcome σ)
  | 0, m, pos, obj => if pos < last then none else some ⟨.ok, pos, obj, m⟩
  | turns + 1, m, pos, obj =>
    if pos < last then
      (M.turn dirt m last pos obj).bind fun r =>
        if r.rc = .ok then loop dirt last turns r.mem r.pos r.obj else some r
    else some ⟨.ok, pos, obj, m⟩

/-- `__unpack`.  Every turn reads a byte. -/
def unpack (dirt : Dirt) (m : ByteMemory) (last pos : ℕ) (obj : σ) : Option (Outcome σ) :=
  M.loop dirt last (last - pos) m pos obj

/-- `__size` -/
def size (obj : σ) : ℕ :=
  (M.fields.map fun f => f.size obj).sum +
    ((M.unknown obj).map fun unknown => sizeUnknownField unknown.1).sum

/-- `__pack`, with what it writes. -/
def pack (room : ℕ) (obj : σ) : Rc × Bytes :=
  if M.size obj = 0 then (.ok, [])
  else if room < M.size obj then (.abort, [])
  else (.ok, packAll (M.fields.map fun f room => f.pack room obj) room ++
    (M.unknown obj).flatMap fun unknown => packUnknownField unknown.1)

/-- The object that has the fields of some object. -/
def restored (obj : σ) : σ :=
  let s := M.fields.foldl (fun s f => f.restore obj s) M.zero
  M.setUnknown (M.unknown s ++ (M.unknown obj).map Unknown.bare) s

/-- What comes of an object as a nested message: nothing of one that has no bytes. -/
def delivered (obj : σ) : Option σ := if M.size obj = 0 then none else some (M.restored obj)

/-- The functions `__unpack_*` of a nested message, up to the place where it goes.  There is no
object where its length is zero. -/
def unpackNested (dirt : Dirt) (m : ByteMemory) (last pos : ℕ) : Option (Outcome (Option σ)) :=
  (readUint32 m last pos).bind fun r => r.val.elim (some ⟨.abort, r.pos, none, m⟩) fun len =>
    if len = 0 then some ⟨.ok, r.pos, none, m⟩
    else if last < r.pos + len then some ⟨.abort, r.pos, none, m⟩
    else (M.unpack dirt m (r.pos + len) r.pos M.zero).map fun n =>
      ⟨n.rc, n.pos, some n.obj, n.mem⟩

/-- `ngx_protobuf_size_message_field` -/
def sizeNested (number : ℕ) (obj : σ) : ℕ :=
  sizeUint32 (header number 2) + sizeBinary (M.size obj)

/-- `ngx_protobuf_write_message_header` and the `__pack` of a nested message, whose result is not
looked at. -/
def packNested (number room : ℕ) (obj : σ) : Bytes :=
  let front := writeUint32 (header number 2) ++ writeUint32 (M.size obj)
  front ++ (M.pack (room - front.length) obj).2

end Message

section

variable {σ τ : Type}

/-- An `int32` or an enumeration, as the 32 bits that it is cast to. -/
def numberField (number : ℕ) (get : σ → Option UInt32) (set : Option UInt32 → σ → σ) : Field σ where
  number := number
  wire := 0
  unpack _ m last pos obj := (readUint32 m last pos).map fun r =>
    ⟨r.rc, r.pos, r.val.elim obj fun v => set (some (UInt32.ofNat v)) obj, m⟩
  size obj := (get obj).elim 0 fun v => sizeUint32 (header number 0) + sizeUint32 v.toNat
  pack _ obj := (get obj).elim [] fun v => writeUint32 (header number 0) ++ writeUint32 v.toNat
  restore obj s := set ((get obj).or (get s)) s

/-- A string. -/
def stringField (number : ℕ) (get : σ → Option Bytes) (set : Option Bytes → σ → σ) : Field σ where
  number := number
  wire := 2
  unpack _ m last pos obj := (readString m last pos).map fun r =>
    ⟨r.rc, r.pos, r.val.elim obj fun w => set (some w) obj, m⟩
  size obj := (get obj).elim 0 fun w => sizeUint32 (header number 2) + sizeBinary w.length
  pack _ obj := (get obj).elim [] fun w =>
    writeUint32 (header number 2) ++ (writeUint32 w.length ++ w)
  restore obj s := set ((get obj).or (get s)) s

/-- A message.  The object that was there is cleared; one that is new belongs to the field when it
has been unpacked. -/
def messageField (number : ℕ) (N : Message τ) (get : σ → Option τ) (set : Option τ → σ → σ) :
    Field σ where
  number := number
  wire := 2
  unpack dirt m last pos obj := (N.unpackNested dirt m last pos).map fun r =>
    ⟨r.rc, r.pos, r.obj.elim obj fun t =>
      if r.rc = .ok ∨ (get obj).isSome then set (some t) obj else obj, r.mem⟩
  size obj := (get obj).elim 0 (N.sizeNested number)
  pack room obj := (get obj).elim [] (N.packNested number room)
  restore obj s := set (((get obj).bind N.delivered).or (get s)) s

/-- A repeated message.  The new element is there before it is unpacked. -/
def repeatedField (number : ℕ) (N : Message τ) (get : σ → List τ) (set : List τ → σ → σ) :
    Field σ where
  number := number
  wire := 2
  unpack dirt m last pos obj := (N.unpackNested dirt m last pos).map fun r =>
    ⟨r.rc, r.pos, r.obj.elim obj fun t => set (get obj ++ [t]) obj, r.mem⟩
  size obj := ((get obj).map (N.sizeNested number)).sum
  pack room obj := packAll ((get obj).map fun t room => N.packNested number room t) room
  restore obj s := set (get s ++ (get obj).filterMap N.delivered) s

end

/-! ## Numbers -/

variable {m : ByteMemory} {last pos p q s v turns val : ℕ} {w : Bytes} {b : UInt8}

/-- The high bit is set from 128 on. -/
theorem and_high (b : UInt8) : b.toNat &&& 0x80 ≠ 0 ↔ 128 ≤ b.toNat := by
  have hall : ∀ n < 256, n &&& 0x80 ≠ 0 ↔ 128 ≤ n := by decide +kernel
  exact hall b.toNat b.toNat_lt

/-- The high bit in front of seven bits. -/
theorem or_high (n : ℕ) : UInt8.ofNat (n ||| 0x80) = UInt8.ofNat (n % 128 + 128) := by
  have hall : ∀ n < 256, (n ||| 0x80) % 256 = n % 128 + 128 := by decide +kernel
  rw [← UInt8.toNat_inj, UInt8.toNat_ofNat', UInt8.toNat_ofNat']
  have hmod : (n ||| 0x80) % 2 ^ 8 = (n % 256 ||| 0x80) % 2 ^ 8 := by
    rw [Nat.or_mod_two_pow, Nat.or_mod_two_pow, Nat.mod_mod]
  rw [hmod]
  have := hall (n % 256) (Nat.mod_lt n (by norm_num))
  omega

/-- The last digit without its high bit. -/
theorem or_high_and (h : val < 128) : UInt8.ofNat (val ||| 0x80) &&& 0x7f = UInt8.ofNat val := by
  rw [or_high, ← UInt8.toNat_inj, UInt8.toNat_and, UInt8.toNat_ofNat', UInt8.toNat_ofNat']
  change _ &&& (2 ^ 7 - 1) = _
  rw [Nat.and_two_pow_sub_one_eq_mod]
  omega

/-- The writer's loop is the encoding of a varint. -/
theorem writeUint_eq (val : ℕ) : writeUint val = Varint.encode val := by
  induction val using Varint.encode.induct with
  | case1 val h =>
    have hzero : val >>> 7 = 0 := by
      rw [Nat.shiftRight_eq_div_pow]
      omega
    rw [writeUint, writeLoop, if_pos hzero, Varint.encode_of_lt h, ← or_high_and h]
    rfl
  | case2 val h ih =>
    have hshift : val >>> 7 = val / 128 := Nat.shiftRight_eq_div_pow val 7
    have hne : writeLoop (val / 128) ≠ [] := by
      rw [writeLoop]
      exact List.cons_ne_nil _ _
    rw [writeUint, writeLoop, hshift, if_neg (by omega), Varint.encode_of_le (not_lt.mp h), ← ih,
      writeUint, or_high]
    exact List.modifyLast_append_of_right_ne_nil _ [_] _ hne

/-- The size is that of the varint. -/
theorem sizeUint_eq (val : ℕ) : sizeUint val = (Varint.encode val).length := by
  induction val using Varint.encode.induct with
  | case1 val h =>
    have hzero : val >>> 7 = 0 := by
      rw [Nat.shiftRight_eq_div_pow]
      omega
    rw [sizeUint, if_pos hzero, Varint.encode_of_lt h]
    rfl
  | case2 val h ih =>
    have hshift : val >>> 7 = val / 128 := Nat.shiftRight_eq_div_pow val 7
    rw [sizeUint, hshift, if_neg (by omega), Varint.encode_of_le (not_lt.mp h), ih,
      List.length_cons, Nat.add_comm]

/-- A digit is put above those that are there, and leaves the 64 bits at the top. -/
theorem or_digit (hv : v < 2 ^ s) (hs : s ≤ 64) (d : ℕ) :
    v ||| ((d <<< s) % 2 ^ 64) = (v + 2 ^ s * d) % 2 ^ 64 := by
  obtain ⟨k, hk⟩ := Nat.exists_eq_add_of_le hs
  have hpow : (2 : ℕ) ^ 64 = 2 ^ s * 2 ^ k := by rw [hk, pow_add]
  have hdigit : (d <<< s) % 2 ^ 64 = 2 ^ s * (d % 2 ^ k) := by
    rw [Nat.shiftLeft_eq, hpow, Nat.mul_comm d, Nat.mul_mod_mul_left]
  have hlt : v + 2 ^ s * (d % 2 ^ k) < 2 ^ s * 2 ^ k := by
    calc v + 2 ^ s * (d % 2 ^ k) < 2 ^ s + 2 ^ s * (d % 2 ^ k) := Nat.add_lt_add_right hv _
      _ = 2 ^ s * (d % 2 ^ k + 1) := by ring
      _ ≤ 2 ^ s * 2 ^ k := Nat.mul_le_mul_left _ (Nat.mod_lt d (by positivity))
  calc v ||| ((d <<< s) % 2 ^ 64) = 2 ^ s * (d % 2 ^ k) + v := by
        rw [hdigit, Nat.or_comm, Nat.two_pow_add_eq_or_of_lt hv]
    _ = (v + 2 ^ s * (d % 2 ^ k)) % (2 ^ s * 2 ^ k) := by rw [Nat.mod_eq_of_lt hlt, Nat.add_comm]
    _ = (v + 2 ^ s * d) % 2 ^ 64 := by
        rw [hpow, Nat.add_mod v, Nat.mul_mod_mul_left, Nat.mod_mod, ← Nat.mul_mod_mul_left,
          ← Nat.add_mod]

/-- A turn takes seven bits and goes on while there is a high bit, room and a next byte. -/
theorem readLoop_turn (h : m p = some b) (hv : v < 2 ^ s) (hs : s ≤ 64) :
    readLoop m last (turns + 1) p s v =
      if 128 ≤ b.toNat ∧ p + 1 ≤ last ∧ s + 7 < 64 then
        readLoop m last turns (p + 1) (s + 7) ((v + 2 ^ s * (b.toNat % 128)) % 2 ^ 64)
      else some (p + 1, (v + 2 ^ s * (b.toNat % 128)) % 2 ^ 64) := by
  have hdigit : b.toNat &&& 0x7f = b.toNat % 128 := Nat.and_two_pow_sub_one_eq_mod b.toNat 7
  simp only [readLoop, h, Option.bind_some, hdigit, or_digit hv hs, and_high]

/-- A digit more. -/
theorem add_digit_lt (hv : v < 2 ^ s) : v + 2 ^ s * (b.toNat % 128) < 2 ^ (s + 7) :=
  calc v + 2 ^ s * (b.toNat % 128) < 2 ^ s + 2 ^ s * (b.toNat % 128) := Nat.add_lt_add_right hv _
    _ = 2 ^ s * (b.toNat % 128 + 1) := by ring
    _ ≤ 2 ^ s * 2 ^ 7 := Nat.mul_le_mul_left _ (Nat.mod_lt _ (by norm_num))
    _ = 2 ^ (s + 7) := (pow_add 2 s 7).symm

/-- The loop reads a number to its end. -/
theorem readLoop_of_varint (hw : Varint.IsVarint w) (h : m.Holds p w) (hlast : p + w.length ≤ last)
    (hv : v < 2 ^ s) (hs : s + 7 * w.length ≤ 70) (hturns : w.length ≤ turns) :
    readLoop m last turns p s v = some (p + w.length, (v + 2 ^ s * Varint.value w) % 2 ^ 64) := by
  induction w generalizing p s v turns with
  | nil => exact absurd hw id
  | cons b w ih =>
    obtain ⟨turns, rfl⟩ := Nat.exists_eq_add_of_lt (Nat.lt_of_lt_of_le (Nat.succ_pos _) hturns)
    rw [List.length_cons] at hlast hs hturns ⊢
    rw [Nat.zero_add, readLoop_turn h.1 hv (by omega)]
    by_cases hnil : w = []
    · obtain rfl := hnil
      rw [if_neg (fun hand => absurd hw (not_lt.mpr hand.1))]
      rfl
    · obtain ⟨hb, hw⟩ := (Varint.isVarint_cons hnil).mp hw
      have hpos := List.length_pos_iff.mpr hnil
      have hlt := add_digit_lt (b := b) hv
      have hmod : (2 : ℕ) ^ (s + 7) ≤ 2 ^ 64 := Nat.pow_le_pow_right (by norm_num) (by omega)
      rw [if_pos ⟨hb, by omega, by omega⟩, Nat.mod_eq_of_lt (hlt.trans_le hmod),
        ih hw h.2 (by omega) hlt (by omega) (by omega), Varint.value, pow_add]
      congr 2
      · omega
      · ring_nf

/-- A varint of ten bytes at most is read as its value, cut to 64 bits. -/
theorem readUint64_of_varint (hw : Varint.IsVarint w) (hlen : w.length ≤ 10) (h : m.Holds pos w)
    (hlast : pos + w.length ≤ last) :
    readUint64 m last pos = some ⟨some (Varint.value w % 2 ^ 64), pos + w.length⟩ := by
  obtain ⟨w', b, rfl, hb⟩ := hw.exists_last
  have hread := readLoop_of_varint hw h hlast (show 0 < 2 ^ 0 by norm_num) (by omega) hlen
  rw [pow_zero, Nat.one_mul, Nat.zero_add] at hread
  have hbyte : m (pos + (w' ++ [b]).length - 1) = some b := by
    rw [List.length_append, List.length_singleton]
    exact (holds_append.mp h).2.1
  rw [List.length_append, List.length_singleton] at hlast
  rw [readUint64, if_neg (by omega), hread, Option.bind_some, hbyte, Option.map_some,
    if_neg (by rw [and_high]; omega)]

/-- What is written can be read. -/
theorem readUint64_writeUint (hval : val < 2 ^ 64) (h : m.Holds pos (writeUint val))
    (hlast : pos + (writeUint val).length ≤ last) :
    readUint64 m last pos = some ⟨some val, pos + (writeUint val).length⟩ := by
  rw [writeUint_eq] at h hlast ⊢
  rw [readUint64_of_varint (Varint.isVarint_encode val) (Varint.length_encode_le_ten hval) h hlast,
    Varint.value_encode, Nat.mod_eq_of_lt hval]

/-- A written number reads back, cut to 32 bits. -/
theorem readUint32_writeUint32 (h : m.Holds pos (writeUint32 val))
    (hlast : pos + (writeUint32 val).length ≤ last) :
    readUint32 m last pos = some ⟨some (val % 2 ^ 32), pos + (writeUint32 val).length⟩ := by
  have hval : val % 2 ^ 32 < 2 ^ 64 := (Nat.mod_lt val (by norm_num)).trans (by norm_num)
  rw [readUint32, readUint64_writeUint hval h hlast, Option.map_some, Option.map_some, Nat.mod_mod]
  rfl

/-- A written string reads back. -/
theorem readString_write (hlen : w.length < 2 ^ 32)
    (h : m.Holds pos (writeUint32 w.length ++ w))
    (hlast : pos + (writeUint32 w.length ++ w).length ≤ last) (haddress : last < 2 ^ 64) :
    readString m last pos = some ⟨some w, pos + (writeUint32 w.length ++ w).length⟩ := by
  have hpos : 0 < (writeUint32 w.length).length := by
    rw [writeUint32, writeUint_eq]
    exact Varint.length_encode_pos _
  obtain ⟨hnumber, hw⟩ := holds_append.mp h
  rw [List.length_append] at hlast ⊢
  have hval : w.length % 2 ^ 32 < 2 ^ 64 := (Nat.mod_lt _ (by norm_num)).trans (by norm_num)
  have hread := readUint64_writeUint hval hnumber (le_trans (by simp [writeUint32]) hlast)
  rw [Nat.mod_eq_of_lt hlen] at hread
  rw [readString, if_neg (by omega), hread]
  rw [writeUint32, Nat.mod_eq_of_lt hlen] at hlast hw ⊢
  change (if 2 ^ 64 ≤ pos + (writeUint w.length).length + w.length then none
    else if last < pos + (writeUint w.length).length + w.length then _ else _) = _
  rw [if_neg (by omega), if_neg (by omega), take_of_holds hw, Option.map_some, Nat.add_assoc]

/-- The writer needs the size that was computed. -/
@[simp] theorem length_writeUint32 (val : ℕ) : (writeUint32 val).length = sizeUint32 val := by
  rw [writeUint32, sizeUint32, writeUint_eq, sizeUint_eq]

/-- The writer needs the size that was computed. -/
@[simp] theorem length_writeUint64 (val : ℕ) : (writeUint64 val).length = sizeUint64 val := by
  rw [writeUint64, sizeUint64, writeUint_eq, sizeUint_eq]

/-- Every number needs a byte. -/
theorem sizeUint32_pos (val : ℕ) : 0 < sizeUint32 val := by
  rw [sizeUint32, sizeUint_eq]
  exact Varint.length_encode_pos _

end NgxProtobuf

end AdxDsp
