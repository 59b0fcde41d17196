import AdxDsp.Module.Protobuf

/-!
# What the generated code does for any message

The code of a message is right where the code of each of its fields is, and a field that is a
message is right where that message is.

* `Readable`: a buffer of any content that the unpackers can be given; `Within`: where a reader goes
  and what it may write over.
* `Packs`, `Message.Takes`: what a part of `__pack` writes, and what the loop makes of such bytes.
* `Field.Lawful`, `Message.Lawful`: the conditions on fields and on messages.
* `Message.Lawful.exists_bytes`: a message is packed into bytes of its size, and unpacked from them.
* `Message.Lawful.exists_unpack`: the unpacker ends, and stays in the buffer but for one byte.
* `Message.unpackField_fixed`: an unknown field of a fixed number of bytes is written over.
* `Message.Lawful.unpack_behind`, `Message.Lawful.unpack_wraps`: where it does not.
-/

namespace AdxDsp

open CText ByteMemory

namespace NgxProtobuf

variable {m m' m'' : ByteMemory} {last last' pos pos' pos'' p s v turns val : ℕ} {w w' : Bytes}
  {b : UInt8}

/-! ## Buffers of any content -/

/-- A buffer that is there, with a byte behind it unless its last byte ends a number.  A number
of nine bytes without an end would be a length that leads out of the addresses. -/
structure Readable (m : ByteMemory) (pos last : ℕ) : Prop where
  bytes : ∀ a, pos ≤ a → a < last → ∃ b, m a = some b
  ends : pos < last → (∃ b, m last = some b) ∨ ∃ b, m (last - 1) = some b ∧ b.toNat < 128
  short : ∀ a, pos ≤ a → a + 9 ≤ last → ∃ i < 9, ∃ b, m (a + i) = some b ∧ b.toNat < 128
  low : last < 2 ^ 63

/-- A later part of the buffer. -/
theorem Readable.mono (h : Readable m pos last) (hpos : pos ≤ pos') : Readable m pos' last where
  bytes a ha := h.bytes a (hpos.trans ha)
  ends hlt := h.ends (hpos.trans_lt hlt)
  short a ha := h.short a (hpos.trans ha)
  low := h.low

/-- Behind a nested message there is the rest of the message around it. -/
theorem Readable.inner (h : Readable m pos last) (hpos : pos ≤ last') (hlast : last' ≤ last) :
    Readable m pos last' where
  bytes a ha hlt := h.bytes a ha (hlt.trans_le hlast)
  ends hlt := by
    rcases hlast.lt_or_eq with hlt' | rfl
    · exact .inl (h.bytes last' hpos hlt')
    · exact h.ends hlt
  short a ha hle := h.short a ha (hle.trans hlast)
  low := hlast.trans_lt h.low

/-- Where a reader goes, and the memory that it leaves: it only goes forward, at most one byte
behind the buffer, and may write over what it has passed of the buffer. -/
structure Within (m : ByteMemory) (pos last pos' : ℕ) (m' : ByteMemory) : Prop where
  pos_le : pos ≤ pos'
  le_last : pos' ≤ last + 1
  same : ∀ a, a < pos ∨ pos' ≤ a ∨ last ≤ a → m' a = m a

/-- A reader that writes nothing. -/
theorem Within.of_le (hpos : pos ≤ pos') (hlast : pos' ≤ last + 1) : Within m pos last pos' m :=
  ⟨hpos, hlast, fun _ _ => rfl⟩

/-- One reader after the other. -/
theorem Within.trans (h : Within m pos last pos' m') (h' : Within m' pos' last pos'' m'') :
    Within m pos last pos'' m'' where
  pos_le := h.pos_le.trans h'.pos_le
  le_last := h'.le_last
  same a ha := by
    have hpos := h.pos_le
    have hpos' := h'.pos_le
    rw [h'.same a (by omega), h.same a (by omega)]

/-- A reader of a part of the buffer that ends earlier. -/
theorem Within.outer (h : Within m pos last' pos' m') (hlast : last' ≤ last) :
    Within m pos last pos' m' where
  pos_le := h.pos_le
  le_last := h.le_last.trans (Nat.succ_le_succ hlast)
  same a ha := h.same a (by omega)

/-- What is written lies behind a reader, so that what is left can still be read. -/
theorem Readable.within (h : Readable m pos last) (hw : Within m pos last pos' m') :
    Readable m' pos' last := by
  have hm := h.mono hw.pos_le
  have hsame : ∀ a, pos' ≤ a → m' a = m a := fun a ha => hw.same a (.inr (.inl ha))
  refine ⟨fun a ha hlt => ?_, fun hlt => ?_, fun a ha hle => ?_, h.low⟩
  · rw [hsame a ha]
    exact hm.bytes a ha hlt
  · rw [hsame last hlt.le, hsame (last - 1) (by omega)]
    exact hm.ends hlt
  · obtain ⟨i, hi, b, hb, hlow⟩ := hm.short a ha hle
    exact ⟨i, hi, b, by rw [hsame (a + i) (by omega), hb], hlow⟩

/-- By induction on the turns; where the loop comes to `last`, the byte before it goes on. -/
theorem exists_readLoop (h : Readable m pos last) (hpos : pos ≤ p)
    (hp : p < last ∨ (p = last ∧ ∃ b, m last = some b)) (hv : v < 2 ^ s) (hs : s ≤ 63)
    (hturns : 64 ≤ s + 7 * turns) :
    ∃ q v', readLoop m last turns p s v = some (q, v') ∧ p < q ∧ q ≤ last + 1 ∧ q ≤ p + turns ∧
      (∃ b, m (q - 1) = some b) ∧ v' < 2 ^ (s + 7 * (q - p)) ∧
      ∀ a, p ≤ a → a + 1 < q → ∃ b, m a = some b ∧ 128 ≤ b.toNat := by
  induction turns generalizing p s v with
  | zero => omega
  | succ turns ih =>
    obtain ⟨b, hb⟩ : ∃ b, m p = some b := by
      rcases hp with hlt | ⟨rfl, hb⟩
      · exact h.bytes p hpos hlt
      · exact hb
    have hv' : (v + 2 ^ s * (b.toNat % 128)) % 2 ^ 64 < 2 ^ (s + 7) :=
      (Nat.mod_le _ _).trans_lt (add_digit_lt hv)
    rw [readLoop_turn hb hv (by omega)]
    -- the number goes on behind this byte, or it ends here
    by_cases hgo : 128 ≤ b.toNat ∧ p + 1 ≤ last ∧ s + 7 < 64
    · obtain ⟨hhigh, hle, hs'⟩ := hgo
      have hp' : p + 1 < last ∨ (p + 1 = last ∧ ∃ b, m last = some b) := by
        rcases hle.lt_or_eq with hlt | rfl
        · exact .inl hlt
        -- behind the last byte there is one more, unless it has ended the number
        · rcases h.ends (by omega) with hbyte | ⟨b', hb', hlow⟩
          · exact .inr ⟨rfl, hbyte⟩
          · rw [Nat.add_sub_cancel, hb] at hb'
            obtain rfl := Option.some.inj hb'
            omega
      obtain ⟨q, v', hread, hpq, hq, hqt, hbyte, hbound, hhighs⟩ :=
        ih (hpos.trans (Nat.le_succ p)) hp' hv' (by omega) (by omega)
      refine ⟨q, v', by rw [if_pos ⟨hhigh, hle, hs'⟩, hread], by omega, hq, by omega, hbyte, ?_, ?_⟩
      · rwa [show s + 7 * (q - p) = s + 7 + 7 * (q - (p + 1)) by omega]
      · intro a ha hlt
        rcases ha.lt_or_eq with hlt' | rfl
        · exact hhighs a hlt' hlt
        · exact ⟨b, hb, hhigh⟩
    · refine ⟨p + 1, _, by rw [if_neg hgo], by omega, by omega, by omega, ⟨b, hb⟩, ?_, ?_⟩
      · rwa [Nat.add_sub_cancel_left]
      · intro a ha hlt
        omega

/-- A number is read, at most with the byte behind the buffer, and is not too large. -/
theorem exists_readUint64 (h : Readable m pos last) (hlt : pos < last) :
    ∃ r, readUint64 m last pos = some r ∧ pos < r.pos ∧ r.pos ≤ last + 1 ∧
      ∀ v ∈ r.val, v < 2 ^ 63 := by
  obtain ⟨q, v, hread, hpq, hq, hten, ⟨b, hb⟩, hv, hhighs⟩ :=
    exists_readLoop h le_rfl (.inl hlt) (show 0 < 2 ^ 0 by norm_num) (Nat.zero_le 63)
      (show 64 ≤ 0 + 7 * 10 by norm_num)
  rw [Nat.zero_add] at hv
  have hnine : q ≤ pos + 9 := by
    by_contra hnot
    obtain ⟨i, hi, b', hb', hlow⟩ := h.short pos le_rfl (by omega)
    obtain ⟨b'', hb'', hhigh⟩ := hhighs (pos + i) (by omega) (by omega)
    obtain rfl := Option.some.inj (hb'.symm.trans hb'')
    omega
  refine ⟨_, by rw [readUint64, if_neg hlt.not_ge, hread, Option.bind_some, hb, Option.map_some],
    ?_⟩
  split
  · exact ⟨hpq, hq, by simp⟩
  · refine ⟨hpq, hq, fun v' hv' => ?_⟩
    obtain rfl := Option.some.inj hv'
    exact hv.trans_le (Nat.pow_le_pow_right (by norm_num) (by omega))

/-- The same for a number of 32 bits. -/
theorem exists_readUint32 (h : Readable m pos last) (hlt : pos < last) :
    ∃ r, readUint32 m last pos = some r ∧ pos < r.pos ∧ r.pos ≤ last + 1 ∧
      ∀ v ∈ r.val, v < 2 ^ 32 := by
  obtain ⟨r, hread, hpos, hlast, -⟩ := exists_readUint64 h hlt
  refine ⟨⟨r.val.map fun v => v % 2 ^ 32, r.pos⟩, by rw [readUint32, hread, Option.map_some], hpos,
    hlast, fun v hv => ?_⟩
  obtain ⟨v', -, rfl⟩ := Option.map_eq_some_iff.mp hv
  exact Nat.mod_lt v' (by norm_num)

/-- The bytes of the buffer can be taken. -/
theorem Readable.exists_take (h : Readable m pos last) {n : ℕ} (hn : pos + n ≤ last) :
    ∃ w, m.take pos n = some w :=
  ByteMemory.exists_take fun i hi => h.bytes (pos + i) (by omega) (by omega)

/-- A string is there, or the reader aborts. -/
theorem exists_readString (h : Readable m pos last) (hlt : pos < last) :
    ∃ r, readString m last pos = some r ∧ pos ≤ r.pos ∧ r.pos ≤ last + 1 := by
  obtain ⟨r, hread, hpos, hlast, hv⟩ := exists_readUint64 h hlt
  have hlow := h.low
  rw [readString, if_neg hlt.not_ge, hread, Option.bind_some]
  cases hval : r.val with
  | none => exact ⟨_, rfl, by simp only; omega, by simp⟩
  | some v =>
    have hv := hv v hval
    rw [Option.elim_some, if_neg (by omega)]
    by_cases hend : last < r.pos + v
    · exact ⟨_, if_pos hend, by simp only; omega, by simp⟩
    · obtain ⟨w, hw⟩ := (h.mono hpos.le).exists_take (not_lt.mp hend)
      exact ⟨_, by rw [if_neg hend, hw, Option.map_some], by simp only; omega, by simp only; omega⟩

/-- The copy has as many bytes as were asked for. -/
@[simp] theorem length_copyEndian (size val : ℕ) : (copyEndian size val).length = size := by
  induction size generalizing val with
  | zero => rfl
  | succ size ih => rw [copyEndian, List.length_cons, ih]

/-- Where there is room for a value of a fixed number of bytes, the bytes of the buffer become those
of the value before, and the value is what it was. -/
theorem exists_readFixed (h : Readable m pos last) {size : ℕ} (hend : pos + size ≤ last)
    (before : ℕ) :
    ∃ m', readFixed size before m last pos = some (⟨some before, pos + size⟩, m') ∧
      m'.Holds pos (copyEndian size before) ∧ Within m pos last (pos + size) m' := by
  have hbytes : ∀ i < (copyEndian size before).length, ∃ b, m (pos + i) = some b := by
    intro i hi
    rw [length_copyEndian] at hi
    exact h.bytes (pos + i) (by omega) (by omega)
  obtain ⟨m', hwrite, hholds, hsame⟩ := exists_write hbytes
  rw [length_copyEndian] at hsame
  refine ⟨m', by rw [readFixed, if_neg (by omega), hwrite, Option.map_some], hholds,
    Nat.le_add_right pos size, by omega, fun a ha => hsame a (by omega)⟩

/-- The copy of zero is zero bytes. -/
theorem copyEndian_zero (size : ℕ) : copyEndian size 0 = List.replicate size 0 := by
  induction size with
  | zero => rfl
  | succ size ih => exact congrArg (List.cons 0) ih

/-- A reader of a fixed number of bytes stays in the buffer, in either case. -/
theorem exists_readFixed_within (h : Readable m pos last) (hlt : pos < last) (size before : ℕ) :
    ∃ r, readFixed size before m last pos = some r ∧ Within m pos last r.1.pos r.2 := by
  by_cases hend : last < pos + size
  · exact ⟨_, if_pos hend, .of_le le_rfl (by simp only; omega)⟩
  · obtain ⟨m', hread, -, hwithin⟩ := exists_readFixed h (not_lt.mp hend) before
    exact ⟨_, hread, hwithin⟩

/-- Values of every wire type. -/
theorem exists_readValue (h : Readable m pos last) (hlt : pos < last) (before wire : ℕ) :
    ∃ r, readValue before m last pos wire = some r ∧ Within m pos last r.1.pos r.2 := by
  obtain ⟨r₀, hread₀, hpos₀, hlast₀, -⟩ := exists_readUint64 h hlt
  obtain ⟨r₁, hread₁, hwithin₁⟩ := exists_readFixed_within h hlt 8 before
  obtain ⟨r₂, hread₂, hpos₂, hlast₂⟩ := exists_readString h hlt
  obtain ⟨r₅, hread₅, hwithin₅⟩ := exists_readFixed_within h hlt 4 before
  fun_cases readValue before m last pos wire with
  | case1 => exact ⟨_, by rw [hread₀, Option.map_some], .of_le hpos₀.le hlast₀⟩
  | case2 => exact ⟨_, by rw [hread₁, Option.map_some], hwithin₁⟩
  | case3 => exact ⟨_, by rw [hread₂, Option.map_some], .of_le hpos₂ hlast₂⟩
  | case4 => exact ⟨_, by rw [hread₅, Option.map_some], hwithin₅⟩
  | case5 => exact ⟨_, rfl, .of_le le_rfl (by simp only; omega)⟩

section

variable {σ τ : Type} {M : Message σ} {N : Message τ} {dirt : Dirt} {m : ByteMemory} {f : Field σ}
  {last pos turns number wire start : ℕ} {w w' : Bytes} {b : UInt8} {obj obj' obj'' : σ} {t : τ}

/-! ## Parts of what is packed -/

/-- Every number has a byte. -/
theorem writeUint_ne_nil (val : ℕ) : writeUint val ≠ [] := by
  rw [writeUint_eq]
  exact Varint.encode_ne_nil val

/-- Also of 32 bits. -/
theorem writeUint32_ne_nil (val : ℕ) : writeUint32 val ≠ [] := writeUint_ne_nil (val % 2 ^ 32)

/-- Also of 64 bits. -/
theorem writeUint64_ne_nil (val : ℕ) : writeUint64 val ≠ [] := writeUint_ne_nil (val % 2 ^ 64)

/-- The part writes these bytes wherever they fit. -/
def Packs (part : ℕ → Bytes) (w : Bytes) : Prop := ∀ room, w.length ≤ room → part room = w

/-- Parts that each pack their bytes pack all of them in a row. -/
theorem packs_packAll {parts : List (ℕ → Bytes)} {ws : List Bytes}
    (h : List.Forall₂ Packs parts ws) : Packs (packAll parts) ws.flatten := by
  induction h with
  | nil => exact fun room _ => rfl
  | @cons part w parts ws hpart _ ih =>
    intro room hroom
    rw [List.flatten_cons, List.length_append] at hroom
    rw [packAll, hpart room (by omega), List.flatten_cons]
    exact congrArg (w ++ ·) (ih _ (by omega))

/-! ## Turns of the loop -/

/-- The loop takes these bytes, and makes of one object the other. -/
def Message.Takes (M : Message σ) (w : Bytes) (obj obj' : σ) : Prop :=
  ∀ (dirt : Dirt) ⦃m : ByteMemory⦄ ⦃last pos : ℕ⦄, m.Holds pos w → pos + w.length ≤ last →
    last < 2 ^ 64 → ∃ k ≤ w.length, ∀ turns,
      M.loop dirt last (turns + k) m pos obj = M.loop dirt last turns m (pos + w.length) obj'

/-- No bytes change nothing. -/
theorem Message.takes_nil (M : Message σ) (obj : σ) : M.Takes [] obj obj :=
  fun _ _ _ _ _ _ _ => ⟨0, le_rfl, fun _ => rfl⟩

/-- Bytes in two parts are taken one after the other. -/
theorem Message.Takes.append (h : M.Takes w obj obj') (h' : M.Takes w' obj' obj'') :
    M.Takes (w ++ w') obj obj'' := by
  intro dirt m last pos hholds hlast haddress
  obtain ⟨hw, hw'⟩ := holds_append.mp hholds
  rw [List.length_append] at hlast ⊢
  obtain ⟨k, hk, hloop⟩ := h dirt hw (by omega) haddress
  obtain ⟨k', hk', hloop'⟩ := h' dirt hw' (by omega) haddress
  refine ⟨k' + k, by omega, fun turns => ?_⟩
  rw [← Nat.add_assoc, hloop, hloop', Nat.add_assoc pos]

/-- What a single turn takes. -/
theorem Message.takes_of_turn (hw : w ≠ [])
    (h : ∀ dirt m last pos, ByteMemory.Holds m pos w → pos + w.length ≤ last → last < 2 ^ 64 →
      M.turn dirt m last pos obj = some ⟨.ok, pos + w.length, obj', m⟩) : M.Takes w obj obj' := by
  intro dirt m last pos hholds hlast haddress
  have hpos := List.length_pos_iff.mpr hw
  refine ⟨1, hpos, fun turns => ?_⟩
  rw [loop, if_pos (by omega), h dirt m last pos hholds hlast haddress]
  rfl

/-- The loop ends at the end of the buffer. -/
theorem Message.loop_end (h : last ≤ pos) :
    M.loop dirt last turns m pos obj = some ⟨.ok, pos, obj, m⟩ := by
  cases turns with
  | zero => exact if_neg h.not_gt
  | succ turns => exact if_neg h.not_gt

/-- A buffer with no other bytes. -/
theorem Message.Takes.unpack (h : M.Takes w obj obj') (dirt : Dirt) (hholds : m.Holds pos w)
    (haddress : pos + w.length < 2 ^ 64) :
    M.unpack dirt m (pos + w.length) pos obj = some ⟨.ok, pos + w.length, obj', m⟩ := by
  obtain ⟨k, hk, hloop⟩ := h dirt hholds le_rfl haddress
  have hturns := hloop (w.length - k)
  rw [Nat.sub_add_cancel hk] at hturns
  rw [Message.unpack, Nat.add_sub_cancel_left, hturns]
  exact loop_end le_rfl

/-- The number and the wire type in the header. -/
theorem header_eq (hwire : wire < 8) : header number wire = number * 8 + wire := by
  rw [header, Nat.shiftLeft_eq, Nat.mul_comm]
  exact (Nat.two_pow_add_eq_or_of_lt (i := 3) hwire number).symm

/-- A turn at a field reads its header. -/
theorem Message.turn_of_header (hwire : wire < 8) (hnumber : number < 2 ^ 29)
    (h : m.Holds pos (writeUint32 (header number wire) ++ w)) (hw : w ≠ [])
    (hlast : pos + (writeUint32 (header number wire) ++ w).length ≤ last) :
    M.turn dirt m last pos obj =
      M.unpackField dirt m last (pos + sizeUint32 (header number wire)) (header number wire)
        obj := by
  obtain ⟨hheader, -⟩ := holds_append.mp h
  have hpos := List.length_pos_iff.mpr hw
  rw [List.length_append] at hlast
  have hmod : header number wire % 2 ^ 32 = header number wire := by
    rw [header_eq hwire]
    exact Nat.mod_eq_of_lt (by omega)
  rw [turn, readUint32_writeUint32 hheader (by omega), hmod, length_writeUint32]
  rw [length_writeUint32] at hlast
  change (if last ≤ pos + sizeUint32 (header number wire) then _ else _) = _
  rw [if_neg (by omega)]

/-- A turn at a field of the message, with its own wire type. -/
theorem Message.turn_of_field (hf : M.field f.number = some f) (hwire : f.wire < 8)
    (hnumber : f.number < 2 ^ 29) (h : m.Holds pos (writeUint32 (header f.number f.wire) ++ w))
    (hw : w ≠ []) (hlast : pos + (writeUint32 (header f.number f.wire) ++ w).length ≤ last) :
    M.turn dirt m last pos obj =
      f.unpack dirt m last (pos + sizeUint32 (header f.number f.wire)) obj := by
  have hshift : header f.number f.wire >>> 3 = f.number := by
    rw [header_eq hwire, Nat.shiftRight_eq_div_pow]
    omega
  have hand : header f.number f.wire &&& 7 = f.wire := by
    rw [show (7 : ℕ) = 2 ^ 3 - 1 from rfl, Nat.and_two_pow_sub_one_eq_mod, header_eq hwire]
    omega
  rw [turn_of_header hwire hnumber h hw hlast, unpackField, hshift, hand, hf]
  exact if_pos rfl

/-- An unknown field of four or eight bytes, whatever these are: they become zeros in the buffer,
and the value that is kept is zero. -/
theorem Message.unpackField_fixed (h : Readable m pos last) {size header : ℕ}
    (hwire : size = 8 ∧ header &&& 7 = 1 ∨ size = 4 ∧ header &&& 7 = 5) (hend : pos + size ≤ last)
    (hf : M.field (header >>> 3) = none) :
    ∃ m', M.unpackField dirt m last pos header obj = some ⟨.ok, pos + size,
        M.setUnknown (M.unknown obj ++ [.ofValue (0, [])]) obj, m'⟩ ∧
      m'.Holds pos (List.replicate size 0) ∧ Within m pos last (pos + size) m' := by
  obtain ⟨m', hread, hholds, hwithin⟩ := exists_readFixed h hend 0
  rw [copyEndian_zero] at hholds
  refine ⟨m', ?_, hholds, hwithin⟩
  rw [unpackField, hf, Option.elim_none]
  rcases hwire with ⟨rfl, hand⟩ | ⟨rfl, hand⟩
  · rw [hand, readValue, hread]
    rfl
  · rw [hand, readValue, hread]
    rfl

/-! ## Lawful fields and messages -/

/-- What is needed of the code of a field: what it packs has its size, and a message that has the
field takes it; and it can read a buffer of any content. -/
structure Field.Lawful (f : Field σ) : Prop where
  packs : ∀ obj, ∃ w, w.length = f.size obj ∧ Packs (fun room => f.pack room obj) w ∧
    (f.size obj < 2 ^ 32 → ∀ (M : Message σ) (obj' : σ), M.field f.number = some f →
      M.Takes w obj' (f.restore obj obj'))
  unpack : ∀ dirt {m last pos obj}, Readable m pos last → pos < last →
    ∃ r, f.unpack dirt m last pos obj = some r ∧ Within m pos last r.pos r.mem

/-- A place for a list that can be read and written. -/
structure ListPlace (get : σ → List τ) (set : List τ → σ → σ) : Prop where
  set_get : ∀ s, set (get s) s = s
  get_set : ∀ l s, get (set l s) = l
  set_set : ∀ l l' s, set l (set l' s) = set l s

/-- What is needed of a message: its fields can be told apart, and the place of the unknown fields
keeps what is put there. -/
structure Message.Lawful (M : Message σ) : Prop where
  fields : ∀ f ∈ M.fields, f.Lawful ∧ M.field f.number = some f
  field_zero : M.field 0 = none
  unknown : ListPlace M.unknown M.setUnknown

namespace Message.Lawful

/-- The fields one behind the other. -/
theorem exists_fields (h : M.Lawful) (obj : σ) {fs : List (Field σ)} (hfs : fs ⊆ M.fields) :
    ∃ ws, List.Forall₂ Packs (fs.map fun f room => f.pack room obj) ws ∧
      ws.flatten.length = (fs.map fun f => f.size obj).sum ∧
      ((fs.map fun f => f.size obj).sum < 2 ^ 32 → ∀ obj',
        M.Takes ws.flatten obj' (fs.foldl (fun s f => f.restore obj s) obj')) := by
  induction fs with
  | nil => exact ⟨[], .nil, rfl, fun _ obj' => M.takes_nil obj'⟩
  | cons f fs ih =>
    obtain ⟨hf, hfield⟩ := h.fields f (hfs List.mem_cons_self)
    obtain ⟨ws, hws, hlength, htakes⟩ := ih fun g hg => hfs (List.mem_cons_of_mem f hg)
    obtain ⟨w, hw, hpacks, htake⟩ := hf.packs obj
    refine ⟨w :: ws, .cons hpacks hws, by simp [hw, hlength], fun hsize obj' => ?_⟩
    rw [List.map_cons, List.sum_cons] at hsize
    exact (htake (by omega) M obj' hfield).append (htakes (by omega) _)

/-- An unknown field comes back as it is written. -/
theorem takes_unknown (h : M.Lawful) (unknown : Unknown) (obj : σ) :
    M.Takes (packUnknownField unknown.1) obj
      (M.setUnknown (M.unknown obj ++ [unknown.bare]) obj) := by
  obtain ⟨⟨number, wireType, value, data⟩, hnumber, hwire⟩ := unknown
  obtain rfl : number = 0 := hnumber
  obtain rfl : wireType = 0 := hwire
  have hne := writeUint64_ne_nil value.toNat
  change M.Takes (writeUint32 (header 0 0) ++ writeUint64 value.toNat) obj _
  refine Message.takes_of_turn (List.append_ne_nil_of_right_ne_nil _ hne) ?_
  intro dirt m last pos hholds hlast haddress
  obtain ⟨-, hvalue⟩ := holds_append.mp hholds
  have hlt : value.toNat < 2 ^ 64 := value.toNat_lt
  rw [Message.turn_of_header (by norm_num) (by norm_num) hholds hne hlast, Message.unpackField]
  rw [length_writeUint32, writeUint64, Nat.mod_eq_of_lt hlt] at hvalue
  rw [List.length_append, length_writeUint32, writeUint64, Nat.mod_eq_of_lt hlt] at hlast ⊢
  rw [show header 0 0 = 0 from rfl] at hvalue hlast ⊢
  rw [Nat.zero_shiftRight, Nat.zero_and, h.field_zero, Option.elim_none, readValue,
    readUint64_writeUint hlt hvalue (by omega), Nat.add_assoc]
  rfl

/-- Unknown fields one behind the other. -/
theorem takes_unknowns (h : M.Lawful) (l : List Unknown) (obj : σ) :
    M.Takes (l.flatMap fun unknown => packUnknownField unknown.1) obj
      (M.setUnknown (M.unknown obj ++ l.map Unknown.bare) obj) := by
  induction l generalizing obj with
  | nil =>
    rw [List.map_nil, List.append_nil, h.unknown.set_get]
    exact M.takes_nil obj
  | cons unknown l ih =>
    have hl := ih (M.setUnknown (M.unknown obj ++ [unknown.bare]) obj)
    rw [h.unknown.get_set, h.unknown.set_set, List.append_assoc] at hl
    exact (h.takes_unknown unknown obj).append hl

/-- An unknown field needs the size that was computed. -/
theorem length_packUnknownField (unknown : Unknown) :
    (packUnknownField unknown.1).length = sizeUnknownField unknown.1 := by
  obtain ⟨⟨number, wireType, value, data⟩, hnumber, hwire⟩ := unknown
  obtain rfl : number = 0 := hnumber
  obtain rfl : wireType = 0 := hwire
  simp [packUnknownField, sizeUnknownField]

/-- A message is packed into as many bytes as its size says, wherever they fit, and is unpacked
from them. -/
theorem exists_bytes (h : M.Lawful) (obj : σ) :
    ∃ w, w.length = M.size obj ∧ (∀ room, M.size obj ≤ room → M.pack room obj = (.ok, w)) ∧
      (M.size obj < 2 ^ 32 → M.Takes w M.zero (M.restored obj)) := by
  obtain ⟨ws, hws, hlength, htakes⟩ := h.exists_fields obj (List.Subset.refl M.fields)
  have hunknown : ((M.unknown obj).flatMap fun unknown => packUnknownField unknown.1).length =
      ((M.unknown obj).map fun unknown => sizeUnknownField unknown.1).sum := by
    rw [List.length_flatMap]
    exact congrArg List.sum (List.map_congr_left fun unknown _ => length_packUnknownField unknown)
  have hsize : (ws.flatten ++ (M.unknown obj).flatMap fun unknown =>
      packUnknownField unknown.1).length = M.size obj := by
    rw [List.length_append, hlength, hunknown, Message.size]
  refine ⟨_, hsize, fun room hroom => ?_, fun hlt => ?_⟩
  · rw [Message.pack]
    split_ifs with hzero hfull
    · rw [hzero] at hsize
      rw [List.eq_nil_of_length_eq_zero hsize]
    · exact absurd hroom (not_le.mpr hfull)
    · rw [packs_packAll hws room (by rw [hlength]; exact le_trans (Nat.le_add_right _ _) hroom)]
  · exact (htakes (lt_of_le_of_lt (Nat.le_add_right _ _) hlt) M.zero).append
      (h.takes_unknowns (M.unknown obj) _)

/-- A turn ends behind the place where it began, at most one byte behind the buffer. -/
theorem exists_turn (h : M.Lawful) (dirt : Dirt) (hr : Readable m pos last) (hlt : pos < last)
    (obj : σ) :
    ∃ r, M.turn dirt m last pos obj = some r ∧ pos < r.pos ∧ Within m pos last r.pos r.mem := by
  obtain ⟨r, hread, hpos, hlast, -⟩ := exists_readUint32 hr hlt
  have hheader : Within m pos last r.pos m := .of_le hpos.le hlast
  rw [Message.turn, hread, Option.bind_some]
  cases r.val with
  | none => exact ⟨_, rfl, hpos, hheader⟩
  | some header =>
    rw [Option.elim_some]
    by_cases hend : last ≤ r.pos
    · exact ⟨_, if_pos hend, hpos, hheader⟩
    · rw [if_neg hend, Message.unpackField]
      have hr' := hr.mono hpos.le
      have hvalue := fun before => exists_readValue hr' (not_le.mp hend) before (header &&& 7)
      -- an unknown field is kept; a known one is read, or skipped with a wrong wire type
      cases hf : M.field (header >>> 3) with
      | none =>
        obtain ⟨v, hread', hwithin⟩ := hvalue 0
        rw [Option.elim_none, hread']
        exact ⟨_, rfl, hpos.trans_le hwithin.pos_le, hheader.trans hwithin⟩
      | some f =>
        rw [Option.elim_some]
        by_cases hwire : header &&& 7 = f.wire
        · obtain ⟨hlawful, -⟩ := h.fields f (List.mem_of_find?_eq_some hf)
          obtain ⟨r', hunpack, hwithin⟩ :
              ∃ r', f.unpack dirt m last r.pos obj = some r' ∧ Within m r.pos last r'.pos r'.mem :=
            hlawful.unpack dirt hr' (not_le.mp hend)
          exact ⟨r', by rw [if_pos hwire, hunpack], hpos.trans_le hwithin.pos_le,
            hheader.trans hwithin⟩
        · obtain ⟨v, hread', hwithin⟩ := hvalue (dirt r.pos)
          rw [if_neg hwire, hread']
          exact ⟨_, rfl, hpos.trans_le hwithin.pos_le, hheader.trans hwithin⟩

/-- By induction on the turns: what a turn leaves can be read by the next one. -/
theorem exists_loop (h : M.Lawful) (dirt : Dirt) (hr : Readable m pos last) (hpos : pos ≤ last + 1)
    (hturns : last - pos ≤ turns) (obj : σ) :
    ∃ r, M.loop dirt last turns m pos obj = some r ∧ Within m pos last r.pos r.mem ∧
      (r.rc = .ok → last ≤ r.pos) := by
  induction turns generalizing m pos obj with
  | zero => exact ⟨_, if_neg (by omega), .of_le le_rfl hpos, fun _ => by simp only; omega⟩
  | succ turns ih =>
    rw [Message.loop]
    by_cases hlt : pos < last
    · obtain ⟨r, hturn, hrpos, hwithin⟩ := h.exists_turn dirt hr hlt obj
      rw [if_pos hlt, hturn, Option.bind_some]
      by_cases hok : r.rc = .ok
      · obtain ⟨r', hloop, hwithin', hend⟩ :=
          ih (hr.within hwithin) hwithin.le_last (by omega) r.obj
        exact ⟨r', by rw [if_pos hok, hloop], hwithin.trans hwithin', hend⟩
      · exact ⟨r, if_neg hok, hwithin, fun hr => absurd hr hok⟩
    · exact ⟨_, if_neg hlt, .of_le le_rfl hpos, fun _ => not_lt.mp hlt⟩

/-- The unpacker ends for a buffer of any content; where it is content, it has come to the end. -/
theorem exists_unpack (h : M.Lawful) (dirt : Dirt) (hr : Readable m pos last)
    (hpos : pos ≤ last + 1) (obj : σ) :
    ∃ r, M.unpack dirt m last pos obj = some r ∧ Within m pos last r.pos r.mem ∧
      (r.rc = .ok → last ≤ r.pos) :=
  h.exists_loop dirt hr hpos le_rfl obj

/-! ## Nested messages -/

/-- A nested message with its length is taken by a field of it. -/
theorem exists_nested (h : N.Lawful) (number : ℕ) (t : τ) :
    ∃ w, w ≠ [] ∧ (writeUint32 (header number 2) ++ w).length = N.sizeNested number t ∧
      Packs (fun room => N.packNested number room t) (writeUint32 (header number 2) ++ w) ∧
      (N.sizeNested number t < 2 ^ 32 → ∀ dirt m last pos, ByteMemory.Holds m pos w →
        pos + w.length ≤ last → last < 2 ^ 64 → N.unpackNested dirt m last pos =
          some ⟨.ok, pos + w.length, N.delivered t, m⟩) := by
  obtain ⟨w, hw, hpack, htakes⟩ := h.exists_bytes t
  refine ⟨writeUint32 (N.size t) ++ w, ?_, ?_, fun room hroom => ?_, ?_⟩
  · exact List.append_ne_nil_of_left_ne_nil (writeUint32_ne_nil _) _
  · simp [Message.sizeNested, sizeBinary, hw]
  -- the header and the length are written together
  · rw [← List.append_assoc, List.length_append] at hroom
    have hfits := hpack (room - (writeUint32 (header number 2) ++ writeUint32 (N.size t)).length)
      (by omega)
    change (writeUint32 (header number 2) ++ writeUint32 (N.size t)) ++ (N.pack _ t).2 = _
    rw [hfits, List.append_assoc]
  · intro hsize dirt m last pos hholds hlast haddress
    rw [Message.sizeNested, sizeBinary] at hsize
    obtain ⟨hlen, hbytes⟩ := holds_append.mp hholds
    rw [List.length_append, length_writeUint32, hw] at hlast ⊢
    rw [length_writeUint32] at hbytes
    rw [Message.unpackNested, readUint32_writeUint32 hlen (by rw [length_writeUint32]; omega),
      length_writeUint32, Nat.mod_eq_of_lt (by omega)]
    change (if N.size t = 0 then _ else if last < pos + sizeUint32 (N.size t) + N.size t then _
      else (N.unpack dirt m (pos + sizeUint32 (N.size t) + N.size t) _ _).map _) = _
    -- an empty message is not unpacked
    rw [Message.delivered]
    by_cases hzero : N.size t = 0
    · rw [if_pos hzero, if_pos hzero, hzero, Nat.add_zero]
    · have hunpack := (htakes (by omega)).unpack dirt hbytes (by omega)
      rw [hw] at hunpack
      rw [if_neg hzero, if_neg hzero, if_neg (by omega), hunpack, Option.map_some, Nat.add_assoc]

/-- The unpacker of a nested message ends for a buffer of any content. -/
theorem exists_unpackNested (h : N.Lawful) (dirt : Dirt) (hr : Readable m pos last)
    (hlt : pos < last) :
    ∃ r, N.unpackNested dirt m last pos = some r ∧ Within m pos last r.pos r.mem := by
  obtain ⟨r, hread, hpos, hlast, -⟩ := exists_readUint32 hr hlt
  have hnumber : Within m pos last r.pos m := .of_le hpos.le hlast
  rw [Message.unpackNested, hread, Option.bind_some]
  cases r.val with
  | none => exact ⟨_, rfl, hnumber⟩
  | some len =>
    rw [Option.elim_some]
    by_cases hzero : len = 0
    · exact ⟨_, if_pos hzero, hnumber⟩
    · rw [if_neg hzero]
      by_cases hend : last < r.pos + len
      · exact ⟨_, if_pos hend, hnumber⟩
      · have hinner := (hr.mono hpos.le).inner (Nat.le_add_right r.pos len) (not_lt.mp hend)
        obtain ⟨n, hunpack, hwithin, -⟩ :=
          h.exists_unpack dirt hinner (by omega) N.zero
        rw [if_neg hend, hunpack]
        exact ⟨_, rfl, hnumber.trans (hwithin.outer (not_lt.mp hend))⟩

end Message.Lawful

/-! ## The kinds of fields -/

/-- A header, and what follows it. -/
theorem Field.takes (hwire : f.wire < 8) (hnumber : f.number < 2 ^ 29)
    (hf : M.field f.number = some f) (hw : w ≠ [])
    (h : ∀ dirt m last pos, ByteMemory.Holds m pos w → pos + w.length ≤ last → last < 2 ^ 64 →
      f.unpack dirt m last pos obj = some ⟨.ok, pos + w.length, obj', m⟩) :
    M.Takes (writeUint32 (header f.number f.wire) ++ w) obj obj' := by
  refine Message.takes_of_turn (List.append_ne_nil_of_right_ne_nil _ hw) ?_
  intro dirt m last pos hholds hlast haddress
  rw [Message.turn_of_field hf hwire hnumber hholds hw hlast]
  obtain ⟨-, hholds'⟩ := holds_append.mp hholds
  rw [length_writeUint32] at hholds'
  rw [List.length_append, length_writeUint32] at hlast ⊢
  rw [h dirt m last _ hholds' (by omega) haddress, Nat.add_assoc]

/-- A field with a number is lawful. -/
theorem lawful_numberField (hnumber : number < 2 ^ 29) {get : σ → Option UInt32}
    {set : Option UInt32 → σ → σ} (hset : ∀ s, set (get s) s = s) :
    (numberField number get set).Lawful where
  packs obj := by
    cases hget : get obj with
    | none =>
      refine ⟨[], ?_, fun _ _ => ?_, fun _ M obj' _ => ?_⟩
      · simp [numberField, hget]
      · simp [numberField, hget]
      · simpa [numberField, hget, hset] using M.takes_nil obj'
    | some v =>
      refine ⟨writeUint32 (header number 0) ++ writeUint32 v.toNat, ?_, fun _ _ => ?_,
        fun _ M obj' hf => ?_⟩
      · simp [numberField, hget]
      · simp [numberField, hget]
      · have hwire : (numberField number get set).wire < 8 := by simp [numberField]
        refine Field.takes hwire hnumber hf (writeUint32_ne_nil _) ?_
        intro dirt m last pos hholds hlast haddress
        simp only [numberField, hget, readUint32_writeUint32 hholds hlast, Option.map_some,
          Option.elim_some, Option.some_or, Scan.rc, Option.isSome_some, if_true]
        rw [Nat.mod_eq_of_lt v.toNat_lt, UInt32.ofNat_toNat]
  unpack _ {m last pos obj} hr hlt := by
    obtain ⟨r, hread, hpos, hlast, -⟩ := exists_readUint32 hr hlt
    simp only [numberField, hread]
    exact ⟨_, rfl, .of_le hpos.le hlast⟩

/-- A field with a string is lawful. -/
theorem lawful_stringField (hnumber : number < 2 ^ 29) {get : σ → Option Bytes}
    {set : Option Bytes → σ → σ} (hset : ∀ s, set (get s) s = s) :
    (stringField number get set).Lawful where
  packs obj := by
    cases hget : get obj with
    | none =>
      refine ⟨[], ?_, fun _ _ => ?_, fun _ M obj' _ => ?_⟩
      · simp [stringField, hget]
      · simp [stringField, hget]
      · simpa [stringField, hget, hset] using M.takes_nil obj'
    | some text =>
      refine ⟨writeUint32 (header number 2) ++ (writeUint32 text.length ++ text), ?_, fun _ _ => ?_,
        fun hsize M obj' hf => ?_⟩
      · simp [stringField, hget, sizeBinary]
      · simp [stringField, hget]
      · have hwire : (stringField number get set).wire < 8 := by simp [stringField]
        have hne := List.append_ne_nil_of_left_ne_nil (writeUint32_ne_nil text.length) text
        simp only [stringField, hget, Option.elim_some, sizeBinary] at hsize
        refine Field.takes hwire hnumber hf hne ?_
        intro dirt m last pos hholds hlast haddress
        simp only [stringField, hget, readString_write (by omega) hholds hlast haddress]
        rfl
  unpack _ {m last pos obj} hr hlt := by
    obtain ⟨r, hread, hpos, hlast⟩ := exists_readString hr hlt
    simp only [stringField, hread]
    exact ⟨_, rfl, .of_le hpos hlast⟩

/-- A field with a lawful message is lawful. -/
theorem lawful_messageField (hnumber : number < 2 ^ 29) (h : N.Lawful) {get : σ → Option τ}
    {set : Option τ → σ → σ} (hset : ∀ s, set (get s) s = s) :
    (messageField number N get set).Lawful where
  packs obj := by
    cases hget : get obj with
    | none =>
      refine ⟨[], ?_, fun _ _ => ?_, fun _ M obj' _ => ?_⟩
      · simp [messageField, hget]
      · simp [messageField, hget]
      · simpa [messageField, hget, hset] using M.takes_nil obj'
    | some t =>
      obtain ⟨w, hw, hlength, hpacks, hunpack⟩ := h.exists_nested number t
      refine ⟨writeUint32 (header number 2) ++ w, ?_, ?_, fun hsize M obj' hf => ?_⟩
      · simpa [messageField, hget] using hlength
      · simpa [messageField, hget] using hpacks
      · have hwire : (messageField number N get set).wire < 8 := by simp [messageField]
        simp only [messageField, hget, Option.elim_some] at hsize
        refine Field.takes hwire hnumber hf hw ?_
        intro dirt m last pos hholds hlast haddress
        simp only [messageField, hget, hunpack hsize dirt m last pos hholds hlast haddress,
          Option.map_some, Option.bind_some]
        -- what is empty leaves the field as it was
        cases N.delivered t with
        | none => simp [hset]
        | some t' => simp
  unpack dirt {m last pos obj} hr hlt := by
    obtain ⟨r, hread, hwithin⟩ := h.exists_unpackNested dirt hr hlt
    simp only [messageField, hread]
    exact ⟨_, rfl, hwithin⟩

/-- The elements of a repeated field, one behind the other. -/
theorem exists_elements (hnumber : number < 2 ^ 29) (h : N.Lawful) {get : σ → List τ}
    {set : List τ → σ → σ} (hplace : ListPlace get set) (l : List τ) : ∃ ws,
      List.Forall₂ Packs (l.map fun t room => N.packNested number room t) ws ∧
      ws.flatten.length = (l.map (N.sizeNested number)).sum ∧
      ((l.map (N.sizeNested number)).sum < 2 ^ 32 → ∀ (M : Message σ) obj,
        M.field number = some (repeatedField number N get set) → M.Takes ws.flatten obj
          (set (get obj ++ l.filterMap N.delivered) obj)) := by
  induction l with
  | nil =>
    refine ⟨[], .nil, rfl, fun _ M obj _ => ?_⟩
    rw [List.filterMap_nil, List.append_nil, hplace.set_get]
    exact M.takes_nil obj
  | cons t l ih =>
    obtain ⟨w, hw, hlength, hpacks, hunpack⟩ := h.exists_nested number t
    obtain ⟨ws, hws, hlengths, htakes⟩ := ih
    refine ⟨(writeUint32 (header number 2) ++ w) :: ws, .cons hpacks hws, ?_,
      fun hsize M obj hf => ?_⟩
    · rw [List.flatten_cons, List.length_append, hlength, hlengths, List.map_cons, List.sum_cons]
    · rw [List.map_cons, List.sum_cons] at hsize
      have hwire : (repeatedField number N get set).wire < 8 := by simp [repeatedField]
      -- the element is there when the others come
      have hrest := htakes (by omega) M (set (get obj ++ (N.delivered t).toList) obj) hf
      rw [hplace.get_set, hplace.set_set, List.append_assoc] at hrest
      have hlist : (t :: l).filterMap N.delivered =
          (N.delivered t).toList ++ l.filterMap N.delivered := by
        cases hd : N.delivered t <;> simp [hd]
      rw [hlist]
      refine Message.Takes.append (Field.takes hwire hnumber hf hw ?_) hrest
      intro dirt m last pos hholds hlast haddress
      simp only [repeatedField, hunpack (by omega) dirt m last pos hholds hlast haddress,
        Option.map_some]
      cases N.delivered t with
      | none => simp [hplace.set_get]
      | some t' => simp

/-- A repeated field with a lawful message is lawful. -/
theorem lawful_repeatedField (hnumber : number < 2 ^ 29) (h : N.Lawful) {get : σ → List τ}
    {set : List τ → σ → σ} (hplace : ListPlace get set) :
    (repeatedField number N get set).Lawful where
  packs obj := by
    obtain ⟨ws, hws, hlength, htakes⟩ := exists_elements hnumber h hplace (get obj)
    exact ⟨ws.flatten, hlength, packs_packAll hws, fun hsize M obj' hf => htakes hsize M obj' hf⟩
  unpack dirt {m last pos obj} hr hlt := by
    obtain ⟨r, hread, hwithin⟩ := h.exists_unpackNested dirt hr hlt
    simp only [repeatedField, hread]
    exact ⟨_, rfl, hwithin⟩

/-! ## Fields without bytes -/

/-- A number needs room just if it is there. -/
@[simp] theorem size_numberField {get : σ → Option UInt32} {set : Option UInt32 → σ → σ} :
    (numberField number get set).size obj = 0 ↔ get obj = none := by
  cases hget : get obj with
  | none => simp [numberField, hget]
  | some v => simp [numberField, hget, (sizeUint32_pos _).ne']

/-- A string needs room just if it is there. -/
@[simp] theorem size_stringField {get : σ → Option Bytes} {set : Option Bytes → σ → σ} :
    (stringField number get set).size obj = 0 ↔ get obj = none := by
  cases hget : get obj with
  | none => simp [stringField, hget]
  | some text => simp [stringField, hget, (sizeUint32_pos _).ne']

/-- A message needs room just if it is there. -/
@[simp] theorem size_messageField {get : σ → Option τ} {set : Option τ → σ → σ} :
    (messageField number N get set).size obj = 0 ↔ get obj = none := by
  cases hget : get obj with
  | none => simp [messageField, hget]
  | some t => simp [messageField, hget, Message.sizeNested, (sizeUint32_pos _).ne']

/-- A list of messages needs room just if it has one. -/
@[simp] theorem size_repeatedField {get : σ → List τ} {set : List τ → σ → σ} :
    (repeatedField number N get set).size obj = 0 ↔ get obj = [] := by
  cases hget : get obj with
  | nil => simp [repeatedField, hget]
  | cons t l => simp [repeatedField, hget, Message.sizeNested, (sizeUint32_pos _).ne']

/-- A message has no bytes if no field of it has, and there are no unknown fields. -/
theorem Message.size_eq_zero_iff :
    M.size obj = 0 ↔ (∀ f ∈ M.fields, f.size obj = 0) ∧ M.unknown obj = [] := by
  have hunknown : ∀ unknown : Unknown, sizeUnknownField unknown.1 ≠ 0 := by
    rintro ⟨⟨number, wireType, value, data⟩, hnumber, hwire⟩
    obtain rfl : wireType = 0 := hwire
    simp [sizeUnknownField, (sizeUint32_pos _).ne']
  rw [size, Nat.add_eq_zero_iff, List.sum_eq_zero_iff, List.sum_eq_zero_iff]
  refine and_congr (by simp) ⟨fun h => List.eq_nil_iff_forall_not_mem.mpr fun u hu => ?_, ?_⟩
  · exact hunknown u (h _ (List.mem_map_of_mem hu))
  · intro h
    simp [h]

/-! ## Whole buffers -/

/-- A buffer by its bytes. -/
theorem readable_of_holds (h : m.Holds start w)
    (hends : (∃ b, m (start + w.length) = some b) ∨ ∀ b ∈ w.getLast?, b.toNat < 128)
    (hshort : ∀ v, v <:+: w → v.length = 9 → ∃ b ∈ v, b.toNat < 128)
    (hlow : start + w.length < 2 ^ 63) : Readable m start (start + w.length) where
  bytes a ha hlt := by
    have hi : a - start < w.length := by omega
    have hget := h.getElem? hi
    rw [Nat.add_sub_cancel' ha, List.getElem?_eq_getElem hi] at hget
    exact ⟨_, hget⟩
  ends hlt := by
    refine hends.imp_right fun hlast => ?_
    have hpos : 0 < w.length := by omega
    have hget := h.getElem? (show w.length - 1 < w.length by omega)
    rw [← List.getLast?_eq_getElem?, ← Nat.add_sub_assoc hpos] at hget
    rw [hget]
    cases hb : w.getLast? with
    | none => exact absurd hpos (by simp [List.getLast?_eq_none_iff.mp hb])
    | some b => exact ⟨b, rfl, hlast b hb⟩
  short a ha hle := by
    obtain ⟨i, rfl⟩ := Nat.exists_eq_add_of_le ha
    -- nine bytes in a row are a part of the buffer
    have hinfix : (w.drop i).take 9 <:+: w :=
      (List.take_prefix 9 _).isInfix.trans (List.drop_suffix i w).isInfix
    obtain ⟨b, hmem, hb⟩ := hshort _ hinfix (by simp; omega)
    obtain ⟨j, hj, hget⟩ := List.mem_iff_getElem.mp hmem
    rw [List.length_take, List.length_drop] at hj
    refine ⟨j, by omega, b, ?_, hb⟩
    rw [Nat.add_assoc, h.getElem? (by omega), List.getElem?_eq_getElem (by omega), ← hget]
    simp
  low := hlow

namespace Message.Lawful

/-- A message is packed into a buffer of its size, and unpacked from it at any address. -/
theorem unpack_pack (h : M.Lawful) (obj : σ) (hsize : M.size obj < 2 ^ 32)
    (hstart : start + M.size obj < 2 ^ 64) :
    ∃ w, w.length = M.size obj ∧ M.pack (M.size obj) obj = (.ok, w) ∧
      ∀ dirt, M.unpack dirt (ofBytes start w) (start + w.length) start M.zero =
        some ⟨.ok, start + w.length, M.restored obj, ofBytes start w⟩ := by
  obtain ⟨w, hw, hpack, htakes⟩ := h.exists_bytes obj
  refine ⟨w, hw, hpack _ le_rfl, fun dirt => ?_⟩
  exact (htakes hsize).unpack dirt (holds_ofBytes start w) (by rwa [hw])

/-- The bytes of a message with something behind them, which a turn goes wrong at. -/
theorem unpack_append_eq_none (h : M.Lawful) (dirt : Dirt) (hsize : M.size obj < 2 ^ 32)
    (hpack : M.pack (M.size obj) obj = (.ok, w)) (hw' : w' ≠ [])
    (hlast : start + (w ++ w').length < 2 ^ 64)
    (hturn : M.turn dirt (ofBytes start (w ++ w')) (start + (w ++ w').length) (start + w.length)
      (M.restored obj) = none) :
    M.unpack dirt (ofBytes start (w ++ w')) (start + (w ++ w').length) start M.zero = none := by
  obtain ⟨w₀, -, hpack₀, htakes⟩ := h.exists_bytes obj
  obtain rfl : w₀ = w := (Prod.mk.inj ((hpack₀ _ le_rfl).symm.trans hpack)).2
  have hpos := List.length_pos_iff.mpr hw'
  have hlength : (w₀ ++ w').length = w₀.length + w'.length := List.length_append
  have hholds := (holds_append.mp (holds_ofBytes start (w₀ ++ w'))).1
  obtain ⟨k, hk, hloop⟩ := htakes hsize dirt hholds (by omega) hlast
  have hturns := hloop ((w₀ ++ w').length - k - 1 + 1)
  rw [show (w₀ ++ w').length - k - 1 + 1 + k = (w₀ ++ w').length by omega] at hturns
  rw [Message.unpack, Nat.add_sub_cancel_left, hturns, Message.loop, if_pos (by omega), hturn]
  rfl

/-- A number that goes on at the end of the buffer is read from behind it. -/
theorem unpack_behind (h : M.Lawful) (dirt : Dirt) (hsize : M.size obj < 2 ^ 32)
    (hpack : M.pack (M.size obj) obj = (.ok, w)) {get : σ → Option UInt32}
    {set : Option UInt32 → σ → σ} (hf : M.field number = some (numberField number get set))
    (hnumber : number < 2 ^ 29) (hb : 128 ≤ b.toNat)
    (hlast : start + (w ++ (writeUint32 (header number 0) ++ [b])).length < 2 ^ 64) :
    M.unpack dirt (ofBytes start (w ++ (writeUint32 (header number 0) ++ [b])))
      (start + (w ++ (writeUint32 (header number 0) ++ [b])).length) start M.zero = none := by
  have hholds := (holds_append.mp
    (holds_ofBytes start (w ++ (writeUint32 (header number 0) ++ [b])))).2
  have hbyte := (holds_append.mp hholds).2.1
  refine h.unpack_append_eq_none dirt hsize hpack (by simp) hlast ?_
  have hwire : (numberField number get set).wire < 8 := by simp [numberField]
  rw [Message.turn_of_field hf hwire hnumber hholds (by simp)
    (by simp [numberField, Nat.add_assoc])]
  have hend : ofBytes start (w ++ (writeUint32 (header number 0) ++ [b]))
      (start + w.length + (writeUint32 (header number 0)).length + 1) = none := by
    rw [ofBytes, if_pos (by omega), List.getElem?_eq_none (by simp; omega)]
  have hread : readUint32 (ofBytes start (w ++ (writeUint32 (header number 0) ++ [b])))
      (start + (w ++ (writeUint32 (header number 0) ++ [b])).length)
      (start + w.length + (writeUint32 (header number 0)).length) = none := by
    rw [readUint32, readUint64, if_neg (by simp; omega),
      readLoop_turn hbyte (show 0 < 2 ^ 0 by norm_num) (by norm_num),
      if_pos ⟨hb, by simp; omega, by norm_num⟩, readLoop, hend]
    rfl
  rw [length_writeUint32] at hread
  change (readUint32 _ _ _).map _ = none
  exact (congrArg _ hread).trans rfl

/-- The length of a string that leads out of the addresses. -/
theorem unpack_wraps (h : M.Lawful) (dirt : Dirt) (hsize : M.size obj < 2 ^ 32)
    (hpack : M.pack (M.size obj) obj = (.ok, w)) {get : σ → Option Bytes}
    {set : Option Bytes → σ → σ} (hf : M.field number = some (stringField number get set))
    (hnumber : number < 2 ^ 29) {v : ℕ} (hv : v < 2 ^ 64)
    (hlast : start + (w ++ (writeUint32 (header number 2) ++ writeUint64 v)).length < 2 ^ 64)
    (hwraps : 2 ^ 64 ≤ start + (w ++ (writeUint32 (header number 2) ++ writeUint64 v)).length + v) :
    M.unpack dirt (ofBytes start (w ++ (writeUint32 (header number 2) ++ writeUint64 v)))
      (start + (w ++ (writeUint32 (header number 2) ++ writeUint64 v)).length) start M.zero =
        none := by
  have hholds := (holds_append.mp
    (holds_ofBytes start (w ++ (writeUint32 (header number 2) ++ writeUint64 v)))).2
  obtain ⟨-, hlen⟩ := holds_append.mp hholds
  have hne := writeUint64_ne_nil v
  have hpos := List.length_pos_iff.mpr hne
  refine h.unpack_append_eq_none dirt hsize hpack (by simp [hne]) hlast ?_
  have hwire : (stringField number get set).wire < 8 := by simp [stringField]
  rw [Message.turn_of_field hf hwire hnumber hholds hne
    (by simp [stringField, Nat.add_assoc])]
  rw [length_writeUint32] at hlen
  rw [List.length_append, List.length_append, length_writeUint32] at hlast hwraps ⊢
  rw [writeUint64, Nat.mod_eq_of_lt hv] at *
  -- the length itself is inside the buffer
  have hend : start + w.length + sizeUint32 (header number 2) + (writeUint v).length ≤
      start + (w.length + (sizeUint32 (header number 2) + (writeUint v).length)) := by omega
  change (readString _ _ _).map _ = none
  have hstring : readString (ofBytes start (w ++ (writeUint32 (header number 2) ++ writeUint v)))
      (start + (w.length + (sizeUint32 (header number 2) + (writeUint v).length)))
      (start + w.length + sizeUint32 (header number 2)) = none := by
    rw [readString, if_neg (by omega), readUint64_writeUint hv hlen hend]
    exact if_pos (by simp only; omega)
  exact (congrArg _ hstring).trans rfl

end Message.Lawful

end

end NgxProtobuf

end AdxDsp
