import AdxDsp.Lib.Bytes

/-!
# Block ciphers without chaining

A text is filled up to whole blocks with bytes that say how many they are, and each block is
encrypted on its own (ECB with the padding of PKCS#7).  The decryption is the one that a program
does in two steps, which keeps the last block back until the end is known: when that block is not
there or has no padding, the text of the first step is what is left.

* `decrypt_encrypt`: the text comes back.
* `decrypt_take`: what comes of a code that was cut.
-/

namespace BlockCipher

open CText

/-- A permutation of the blocks of `size` bytes, and its inverse. -/
structure Cipher (size : ℕ) where
  enc : Bytes → Bytes
  dec : Bytes → Bytes
  length_enc : ∀ b, b.length = size → (enc b).length = size
  dec_enc : ∀ b, b.length = size → dec (enc b) = b

variable {size : ℕ}

/-- The first `n` blocks of a text, one by one. -/
def overBlocks (size : ℕ) (f : Bytes → Bytes) : ℕ → Bytes → Bytes
  | 0, _ => []
  | n + 1, t => f (t.take size) ++ overBlocks size f n (t.drop size)

/-- How many bytes a text lacks; a text of whole blocks gets another one. -/
def lack (size : ℕ) (text : Bytes) : ℕ := size - text.length % size

/-- A text with its padding: as many bytes as are lacking, each with their number. -/
def pad (size : ℕ) (text : Bytes) : Bytes :=
  text ++ List.replicate (lack size text) (UInt8.ofNat (lack size text))

/-- The text of a block with padding. -/
def unpad (size : ℕ) (block : Bytes) : Option Bytes :=
  let n := (block.getLastD 0).toNat
  if 0 < n ∧ n ≤ size ∧ block.drop (size - n) = List.replicate n (UInt8.ofNat n) then
    some (block.take (size - n))
  else none

/-- Whole blocks of the padded text, each encrypted by itself. -/
def encrypt (cipher : Cipher size) (text : Bytes) : Bytes :=
  overBlocks size cipher.enc (text.length / size + 1) (pad size text)

/-- The blocks that the first step decrypts: of whole blocks the last one is kept back. -/
def firstBlocks (size length : ℕ) : ℕ :=
  if length % size = 0 then length / size - 1 else length / size

/-- The first step. -/
def update (cipher : Cipher size) (code : Bytes) : Bytes :=
  overBlocks size cipher.dec (firstBlocks size code.length) code

/-- The second step: the text of the block that was kept back. -/
def final (cipher : Cipher size) (code : Bytes) : Option Bytes :=
  if code.length % size = 0 ∧ code ≠ [] then
    unpad size (cipher.dec (code.drop (firstBlocks size code.length * size)))
  else none

/-- Both steps; the text of the first one stays when the second one fails. -/
def decrypt (cipher : Cipher size) (code : Bytes) : Bytes :=
  update cipher code ++ (final cipher code).getD []

/-! ## Blocks -/

section

variable {f : Bytes → Bytes} (hf : ∀ b, b.length = size → (f b).length = size)

/-- The first blocks need no more than their bytes. -/
theorem overBlocks_take {n k : ℕ} (hk : n * size ≤ k) (t : Bytes) :
    overBlocks size f n (t.take k) = overBlocks size f n t := by
  induction n generalizing t k with
  | zero => rfl
  | succ n ih =>
    rw [Nat.succ_mul] at hk
    rw [overBlocks, overBlocks, List.take_take, Nat.min_eq_left (by omega), List.drop_take,
      ih (by omega)]

include hf

/-- A block for a block. -/
theorem length_overBlocks {n : ℕ} {t : Bytes} (ht : n * size ≤ t.length) :
    (overBlocks size f n t).length = n * size := by
  induction n generalizing t with
  | zero => simp [overBlocks]
  | succ n ih =>
    rw [Nat.succ_mul] at ht
    rw [overBlocks, List.length_append, ih (by rw [List.length_drop]; omega),
      hf _ (by rw [List.length_take]; omega), Nat.succ_mul, Nat.add_comm]

/-- The blocks from one on. -/
theorem drop_overBlocks {n m : ℕ} {t : Bytes} (ht : (n + m) * size ≤ t.length) :
    (overBlocks size f (n + m) t).drop (n * size) = overBlocks size f m (t.drop (n * size)) := by
  induction n generalizing t with
  | zero => simp
  | succ n ih =>
    rw [Nat.add_right_comm, Nat.succ_mul] at ht
    have hfirst : (f (t.take size)).length = size := hf _ (by rw [List.length_take]; omega)
    rw [Nat.add_right_comm, overBlocks, Nat.succ_mul, Nat.add_comm (n * size), ← List.drop_drop,
      List.drop_left' hfirst, ih (by rw [List.length_drop]; omega), List.drop_drop]

end

/-- Blocks that were encrypted are decrypted; by induction on their number. -/
theorem overBlocks_dec_enc (cipher : Cipher size) {n m : ℕ} {t : Bytes}
    (ht : (n + m) * size ≤ t.length) :
    overBlocks size cipher.dec n (overBlocks size cipher.enc (n + m) t) = t.take (n * size) := by
  induction n generalizing t with
  | zero => simp [overBlocks]
  | succ n ih =>
    rw [Nat.add_right_comm, Nat.succ_mul] at ht
    have hfirst : (cipher.enc (t.take size)).length = size :=
      cipher.length_enc _ (by rw [List.length_take]; omega)
    rw [Nat.add_right_comm, overBlocks, overBlocks, List.take_left' hfirst, List.drop_left' hfirst,
      cipher.dec_enc _ (by rw [List.length_take]; omega), ih (by rw [List.length_drop]; omega),
      Nat.succ_mul, Nat.add_comm, List.take_add]

/-! ## Padding -/

section

variable (text : Bytes)

/-- The last block of a text with padding. -/
theorem drop_pad : (pad size text).drop (text.length / size * size) =
    text.drop (text.length / size * size) ++
      List.replicate (lack size text) (UInt8.ofNat (lack size text)) := by
  have hdiv := Nat.div_add_mod' text.length size
  rw [pad, List.drop_append_of_le_length (by omega)]

variable (hsize : 0 < size)
include hsize

/-- The padding has between one byte and a whole block. -/
theorem lack_pos : 0 < lack size text ∧ lack size text ≤ size := by
  have hlt := Nat.mod_lt text.length hsize
  rw [lack]
  omega

/-- The padded text fills whole blocks, one more than the text fills. -/
theorem length_pad : (pad size text).length = (text.length / size + 1) * size := by
  have hlt := Nat.mod_lt text.length hsize
  have hdiv := Nat.div_add_mod' text.length size
  rw [pad, List.length_append, List.length_replicate, lack, Nat.succ_mul]
  omega

/-- The padding of the last block is taken off, if its length is a byte. -/
theorem unpad_pad (hbyte : size < 256) :
    unpad size ((pad size text).drop (text.length / size * size)) =
      some (text.drop (text.length / size * size)) := by
  obtain ⟨hpos, hle⟩ := lack_pos text hsize
  have hlength : (text.drop (text.length / size * size)).length = size - lack size text := by
    have hdiv := Nat.div_add_mod' text.length size
    have hlt := Nat.mod_lt text.length hsize
    rw [List.length_drop, lack]
    omega
  have hlast : (text.drop (text.length / size * size) ++
      List.replicate (lack size text) (UInt8.ofNat (lack size text))).getLastD 0 =
        UInt8.ofNat (lack size text) := by
    obtain ⟨n, hn⟩ : ∃ n, lack size text = n + 1 := ⟨lack size text - 1, by omega⟩
    rw [hn, List.replicate_succ', ← List.append_assoc]
    simp
  have hnat : (UInt8.ofNat (lack size text)).toNat = lack size text := by
    rw [UInt8.toNat_ofNat', Nat.mod_eq_of_lt (by omega)]
  rw [drop_pad, unpad, hlast, hnat]
  rw [if_pos ⟨hpos, hle, List.drop_left' hlength⟩, List.take_left' hlength]

end

/-- A block with a last byte above the size has no padding. -/
theorem unpad_eq_none {block : Bytes} (h : size < (block.getLastD 0).toNat) :
    unpad size block = none := by
  rw [unpad, if_neg]
  omega

/-! ## Round trips -/

section

variable (cipher : Cipher size) (text : Bytes) (hsize : 0 < size)
include hsize

/-- The cipher text is as long as the padded text. -/
theorem length_encrypt : (encrypt cipher text).length = (text.length / size + 1) * size :=
  length_overBlocks cipher.length_enc (length_pad text hsize).ge

/-- The first blocks of a code. -/
theorem overBlocks_encrypt {n : ℕ} (hn : n ≤ text.length / size) :
    overBlocks size cipher.dec n (encrypt cipher text) = text.take (n * size) := by
  have hle : n * size ≤ text.length :=
    (Nat.mul_le_mul_right size hn).trans (Nat.div_mul_le_self _ _)
  have hsum : text.length / size + 1 = n + (text.length / size + 1 - n) := by omega
  rw [encrypt, hsum, overBlocks_dec_enc cipher (by rw [← hsum, length_pad text hsize]), pad,
    List.take_append_of_le_length hle]

/-- The block that starts at a place, in the code and in the text. -/
theorem dec_block {n : ℕ} (hn : n ≤ text.length / size) :
    cipher.dec (((encrypt cipher text).drop (n * size)).take size) =
      ((pad size text).drop (n * size)).take size := by
  have hsum : text.length / size + 1 = n + (text.length / size - n + 1) := by omega
  have hroom : n * size + size ≤ (pad size text).length := by
    rw [length_pad text hsize, ← Nat.succ_mul]
    exact Nat.mul_le_mul_right size (by omega)
  have hblock : (((pad size text).drop (n * size)).take size).length = size := by
    rw [List.length_take, List.length_drop]
    omega
  rw [encrypt, hsum, drop_overBlocks cipher.length_enc (by rw [← hsum, length_pad text hsize]),
    overBlocks, List.take_left' (cipher.length_enc _ hblock), cipher.dec_enc _ hblock]

/-- The text comes back. -/
theorem decrypt_encrypt (hbyte : size < 256) : decrypt cipher (encrypt cipher text) = text := by
  have hlength := length_encrypt cipher text hsize
  have hmod : (encrypt cipher text).length % size = 0 := hlength ▸ Nat.mul_mod_left _ _
  have hfirst : firstBlocks size (encrypt cipher text).length = text.length / size := by
    rw [firstBlocks, if_pos hmod, hlength, Nat.mul_div_cancel _ hsize, Nat.add_sub_cancel]
  have hne : encrypt cipher text ≠ [] := by
    rw [← List.length_pos_iff, hlength]
    exact Nat.mul_pos (Nat.succ_pos _) hsize
  -- the block that was kept back is all that is left
  have hrest : ∀ t : Bytes, t.length = (text.length / size + 1) * size →
      (t.drop (text.length / size * size)).take size = t.drop (text.length / size * size) := by
    intro t ht
    rw [List.take_of_length_le (by rw [List.length_drop, ht, Nat.succ_mul]; omega)]
  have hblock := dec_block cipher text hsize le_rfl
  rw [hrest _ hlength, hrest _ (length_pad text hsize)] at hblock
  rw [decrypt, update, final, if_pos ⟨hmod, hne⟩, hfirst, hblock, unpad_pad text hsize hbyte,
    overBlocks_encrypt cipher text hsize le_rfl]
  exact List.take_append_drop _ _

/-- Of a code that was cut, the first blocks come back: all whole ones, but the last one only if a
part of another one follows.  No byte of the text is taken for padding. -/
theorem decrypt_take (hbytes : ∀ b ∈ text, size < b.toNat) {k : ℕ}
    (hk : k < (encrypt cipher text).length) :
    decrypt cipher ((encrypt cipher text).take k) = text.take (firstBlocks size k * size) := by
  have hlength : ((encrypt cipher text).take k).length = k := by
    rw [List.length_take]
    omega
  rw [length_encrypt cipher text hsize] at hk
  have hwhole : k / size ≤ text.length / size :=
    Nat.lt_succ_iff.mp (Nat.div_lt_of_lt_mul (by rwa [Nat.mul_comm] at hk))
  have hle : firstBlocks size k ≤ k / size := by
    rw [firstBlocks]
    split_ifs
    · exact Nat.sub_le _ _
    · exact le_rfl
  -- the blocks that the text has are decrypted
  have hupdate : update cipher ((encrypt cipher text).take k) =
      text.take (firstBlocks size k * size) := by
    have hcut : firstBlocks size k * size ≤ k :=
      (Nat.mul_le_mul_right size hle).trans (Nat.div_mul_le_self k size)
    rw [update, hlength, overBlocks_take hcut,
      overBlocks_encrypt cipher text hsize (hle.trans hwhole)]
  -- the end has no padding, so that it is left out
  have hfinal : final cipher ((encrypt cipher text).take k) = none := by
    unfold final
    split_ifs with h
    · -- a whole block, and of the text
      obtain ⟨hmod, hne⟩ := h
      rw [hlength] at hmod ⊢
      have hpos : 0 < k := by
        rw [← hlength]
        exact List.length_pos_iff.mpr hne
      obtain ⟨m, hm⟩ : ∃ m, k / size = m + 1 :=
        Nat.exists_eq_succ_of_ne_zero (Nat.div_pos (Nat.le_of_dvd hpos
          (Nat.dvd_of_mod_eq_zero hmod)) hsize).ne'
      have hfirst : firstBlocks size k = m := by rw [firstBlocks, if_pos hmod, hm]; rfl
      have hcut : k = m * size + size := by
        have hdiv := Nat.div_mul_cancel (Nat.dvd_of_mod_eq_zero hmod)
        rw [hm, Nat.succ_mul] at hdiv
        exact hdiv.symm
      have hroom : m * size + size ≤ text.length := by
        have hdiv := (Nat.mul_le_mul_right size hwhole).trans (Nat.div_mul_le_self _ _)
        rwa [hm, Nat.succ_mul] at hdiv
      have hblock : ((pad size text).drop (m * size)).take size =
          (text.drop (m * size)).take size := by
        rw [pad, List.drop_append_of_le_length (by omega),
          List.take_append_of_le_length (by rw [List.length_drop]; omega)]
      rw [hfirst, List.drop_take, hcut, Nat.add_sub_cancel_left,
        dec_block cipher text hsize (by omega), hblock]
      -- a byte of the text is too large to be a length of padding
      refine unpad_eq_none (hbytes _ ?_)
      have hne : (text.drop (m * size)).take size ≠ [] := by
        refine List.ne_nil_of_length_pos ?_
        rw [List.length_take, List.length_drop]
        omega
      rw [List.getLastD_eq_getLast?, List.getLast?_eq_some_getLast hne]
      exact List.mem_of_mem_drop (List.mem_of_mem_take (List.getLast_mem hne))
    · rfl
  rw [decrypt, hupdate, hfinal]
  exact List.append_nil _

end

end BlockCipher
