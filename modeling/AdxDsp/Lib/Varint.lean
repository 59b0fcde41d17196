import Mathlib

/-!
# Numbers of variable length

A number is written in base 128, its lowest digit first; every byte but the last one has its high
bit set.  Where such numbers lie in a memory is said byte by byte.

* `encode`: the bytes of a number; `value`: the number of some bytes.
* `IsVarint`: bytes with the high bits that a reader stops at (`isVarint_encode`).
* `value_encode`, `length_encode_le`: nothing is lost, and how many bytes there are.
* **Memories** (`Holds`, `take`, `write`): bytes that lie at an address, a part that is read, and a
  part that is written over.
-/

/-! ## Memories -/

/-- The bytes at the addresses; where there is none, a read goes wrong. -/
abbrev ByteMemory := ℕ → Option UInt8

namespace ByteMemory

variable {m : ByteMemory} {a n : ℕ} {w w' : List UInt8} {b : UInt8}

/-- A memory with these bytes alone. -/
def ofBytes (start : ℕ) (w : List UInt8) : ByteMemory := fun a =>
  if start ≤ a then w[a - start]? else none

/-- The bytes lie at the address. -/
def Holds (m : ByteMemory) : ℕ → List UInt8 → Prop
  | _, [] => True
  | a, b :: w => m a = some b ∧ m.Holds (a + 1) w

/-- The bytes at an address, of a number that is given. -/
def take (m : ByteMemory) (a : ℕ) : ℕ → Option (List UInt8)
  | 0 => some []
  | n + 1 => (m a).bind fun b => (m.take (a + 1) n).map fun w => b :: w

/-- The memory with other bytes at an address, where there is a byte for each of them. -/
def write (m : ByteMemory) (a : ℕ) : List UInt8 → Option ByteMemory
  | [] => some m
  | b :: w => (m a).bind fun _ => write (Function.update m a (some b)) (a + 1) w

/-- No bytes lie anywhere. -/
@[simp] theorem holds_nil : m.Holds a [] := trivial

@[simp] theorem holds_cons : m.Holds a (b :: w) ↔ m a = some b ∧ m.Holds (a + 1) w := Iff.rfl

/-- Bytes in two parts lie one behind the other. -/
@[simp] theorem holds_append : m.Holds a (w ++ w') ↔ m.Holds a w ∧ m.Holds (a + w.length) w' := by
  induction w generalizing a with
  | nil => simp
  | cons b w ih =>
    rw [List.cons_append, holds_cons, holds_cons, ih, and_assoc, List.length_cons]
    rw [show a + 1 + w.length = a + (w.length + 1) by omega]

/-- A byte of those that the memory holds. -/
theorem Holds.getElem? (h : m.Holds a w) {i : ℕ} (hi : i < w.length) : m (a + i) = w[i]? := by
  induction w generalizing a i with
  | nil => exact absurd hi (Nat.not_lt_zero i)
  | cons b w ih =>
    cases i with
    | zero => exact h.1
    | succ i =>
      rw [Nat.add_comm i 1, ← Nat.add_assoc, ih h.2 (Nat.lt_of_succ_lt_succ hi), Nat.add_comm 1 i,
        List.getElem?_cons_succ]

/-- Reading as many bytes yields them. -/
theorem take_of_holds (h : m.Holds a w) : m.take a w.length = some w := by
  induction w generalizing a with
  | nil => rfl
  | cons b w ih => simp [take, h.1, ih h.2]

/-- A part whose bytes are all there is read. -/
theorem exists_take (h : ∀ i < n, ∃ b, m (a + i) = some b) : ∃ w, m.take a n = some w := by
  induction n generalizing a with
  | zero => exact ⟨[], rfl⟩
  | succ n ih =>
    obtain ⟨b, hb⟩ := h 0 n.succ_pos
    obtain ⟨w, hw⟩ := ih (a := a + 1) fun i hi => by
      rw [add_assoc, add_comm 1 i]
      exact h (i + 1) (Nat.succ_lt_succ hi)
    rw [Nat.add_zero] at hb
    exact ⟨b :: w, by simp [take, hb, hw]⟩

/-- Bytes that are all there can be written over, and no others change. -/
theorem exists_write (h : ∀ i < w.length, ∃ b, m (a + i) = some b) :
    ∃ m', m.write a w = some m' ∧ m'.Holds a w ∧
      ∀ x, x < a ∨ a + w.length ≤ x → m' x = m x := by
  induction w generalizing m a with
  | nil => exact ⟨m, rfl, trivial, fun _ _ => rfl⟩
  | cons b w ih =>
    obtain ⟨b', hb'⟩ := h 0 (Nat.succ_pos _)
    rw [Nat.add_zero] at hb'
    have hrest : ∀ i < w.length, ∃ c, Function.update m a (some b) (a + 1 + i) = some c := by
      intro i hi
      rw [Function.update_of_ne (by omega), Nat.add_assoc, Nat.add_comm 1 i]
      exact h (i + 1) (Nat.succ_lt_succ hi)
    obtain ⟨m', hwrite, hholds, hsame⟩ := ih hrest
    refine ⟨m', by rw [write, hb', Option.bind_some, hwrite], ⟨?_, hholds⟩, fun x hx => ?_⟩
    · rw [hsame a (.inl (Nat.lt_succ_self a)), Function.update_self]
    · rw [List.length_cons] at hx
      rw [hsame x (by omega), Function.update_of_ne (by omega)]

/-- A memory that is made of bytes holds them. -/
theorem holds_ofBytes (start : ℕ) (w : List UInt8) : (ofBytes start w).Holds start w := by
  have hdrop : ∀ i, (ofBytes start w).Holds (start + i) (w.drop i) := by
    intro i
    induction hn : w.length - i generalizing i with
    | zero =>
      rw [List.drop_eq_nil_of_le (by omega)]
      exact holds_nil
    | succ n ih =>
      have hi : i < w.length := by omega
      rw [List.drop_eq_getElem_cons hi, holds_cons]
      refine ⟨?_, ih (i + 1) (by omega)⟩
      rw [ofBytes, if_pos (Nat.le_add_right start i), Nat.add_sub_cancel_left]
      exact List.getElem?_eq_getElem hi
  exact hdrop 0

end ByteMemory

/-! ## Numbers -/

namespace Varint

variable {n k : ℕ} {w : List UInt8} {b : UInt8}

/-- The bytes of a number. -/
def encode (n : ℕ) : List UInt8 :=
  if n < 128 then [UInt8.ofNat n] else UInt8.ofNat (n % 128 + 128) :: encode (n / 128)

/-- The number of some bytes, whose high bits do not matter. -/
def value : List UInt8 → ℕ
  | [] => 0
  | b :: w => b.toNat % 128 + 128 * value w

/-- The last byte is the only one without its high bit. -/
def IsVarint : List UInt8 → Prop
  | [] => False
  | [b] => b.toNat < 128
  | b :: w => 128 ≤ b.toNat ∧ IsVarint w

/-- Seven bits are one byte. -/
theorem encode_of_lt (h : n < 128) : encode n = [UInt8.ofNat n] := by
  rw [encode, if_pos h]

/-- A larger number has a byte with the high bit first. -/
theorem encode_of_le (h : 128 ≤ n) :
    encode n = UInt8.ofNat (n % 128 + 128) :: encode (n / 128) := by
  rw [encode, if_neg h.not_gt]

/-- Every number has a byte. -/
theorem encode_ne_nil (n : ℕ) : encode n ≠ [] := by
  rw [encode]
  split <;> exact List.cons_ne_nil _ _

/-- Every number has a byte. -/
@[simp] theorem length_encode_pos (n : ℕ) : 0 < (encode n).length :=
  List.length_pos_iff.mpr (encode_ne_nil n)

/-- Every byte but the last has the high bit. -/
theorem isVarint_cons (h : w ≠ []) : IsVarint (b :: w) ↔ 128 ≤ b.toNat ∧ IsVarint w := by
  cases w with
  | nil => exact absurd rfl h
  | cons => rfl

/-- The byte that a reader stops at. -/
theorem IsVarint.exists_last (h : IsVarint w) : ∃ w' b, w = w' ++ [b] ∧ b.toNat < 128 := by
  induction w with
  | nil => exact absurd h id
  | cons b w ih =>
    cases w with
    | nil => exact ⟨[], b, rfl, h⟩
    | cons b' w =>
      obtain ⟨w', b'', hw', hb''⟩ := ih h.2
      exact ⟨b :: w', b'', by rw [hw', List.cons_append], hb''⟩

/-- An encoded number is a varint. -/
theorem isVarint_encode (n : ℕ) : IsVarint (encode n) := by
  induction n using encode.induct with
  | case1 n h =>
    rw [encode_of_lt h]
    change (UInt8.ofNat n).toNat < 128
    rw [UInt8.toNat_ofNat']
    omega
  | case2 n h ih =>
    rw [encode_of_le (not_lt.mp h), isVarint_cons (encode_ne_nil _), UInt8.toNat_ofNat']
    exact ⟨by omega, ih⟩

/-- Decoding yields the number that was encoded. -/
@[simp] theorem value_encode (n : ℕ) : value (encode n) = n := by
  induction n using encode.induct with
  | case1 n h =>
    rw [encode_of_lt h, value, value, UInt8.toNat_ofNat']
    omega
  | case2 n h ih =>
    rw [encode_of_le (not_lt.mp h), value, ih, UInt8.toNat_ofNat']
    omega

/-- Seven bits for a byte. -/
theorem length_encode_le (hk : 0 < k) (h : n < 128 ^ k) : (encode n).length ≤ k := by
  induction k generalizing n with
  | zero => exact absurd hk (lt_irrefl 0)
  | succ k ih =>
    by_cases hn : n < 128
    · rw [encode_of_lt hn]
      exact hk
    · have hdiv : n / 128 < 128 ^ k := Nat.div_lt_of_lt_mul (by rwa [← pow_succ'])
      have hk' : 0 < k := by
        by_contra hzero
        rw [Nat.eq_zero_of_not_pos hzero] at hdiv
        omega
      rw [encode_of_le (not_lt.mp hn), List.length_cons]
      exact Nat.succ_le_succ (ih hk' hdiv)

/-- A number of 64 bits takes ten bytes at most. -/
theorem length_encode_le_ten (h : n < 2 ^ 64) : (encode n).length ≤ 10 :=
  length_encode_le (by norm_num) (h.trans (by norm_num))

end Varint
