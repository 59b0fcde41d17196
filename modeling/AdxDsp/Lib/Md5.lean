import Mathlib.Algebra.Ring.Nat
import Mathlib.Data.List.Basic
import Mathlib.Data.Nat.Init
import Mathlib.Tactic.Common

/-!
# MD5

The digest of a message, and the context with which a library computes it piece by piece.

* `HashContext.final_update`: what a context whose buffer is empty gives for one piece, whatever it
  has seen before.  It keeps its chaining value and its count, and only its buffer is emptied.
* `HashContext.digest_eq`: a context that has just been made gives the digest of the message.

The contexts are those of any hash function that works on blocks of 64 bytes and ends them with the
count of the bits, its low word first.
-/

/-! ## Blocks and contexts -/

namespace HashContext

variable {σ : Type} (block : σ → List UInt8 → σ)

/-- The four bytes of a word, the low one first. -/
def le32 (w : UInt32) : List UInt8 :=
  [w.toUInt8, (w >>> 8).toUInt8, (w >>> 16).toUInt8, (w >>> 24).toUInt8]

/-- Work on a number of blocks. -/
def blockDataOrder : ℕ → σ → List UInt8 → σ
  | 0, h, _ => h
  | n + 1, h, data => blockDataOrder n (block h (data.take 64)) (data.drop 64)

/-- A context: the chaining value, the count of the bits in two words, and the bytes that wait for
the rest of their block. -/
structure Ctx (σ : Type) where
  h : σ
  nl : UInt32
  nh : UInt32
  data : List UInt8

/-- A context that has just been made. -/
def init (iv : σ) : Ctx σ := ⟨iv, 0, 0, []⟩

/-- Count the bits of `len` more bytes. -/
def count (len : ℕ) (c : Ctx σ) : Ctx σ :=
  let l := c.nl + UInt32.ofNat len <<< 3
  -- the low word overflows
  let nh := if l < c.nl then c.nh + 1 else c.nh
  { c with nl := l, nh := nh + UInt32.ofNat (len >>> 29) }

/-- Take a piece of the message. -/
def update (c : Ctx σ) (piece : List UInt8) : Ctx σ :=
  if piece.length = 0 then c
  else
    let c := count piece.length c
    let n := c.data.length
    if n ≠ 0 ∧ piece.length < 64 ∧ piece.length + n < 64 then { c with data := c.data ++ piece }
    else
      -- complete the block that waits, if there is one
      let h := if n ≠ 0 then block c.h (c.data ++ piece.take (64 - n)) else c.h
      let rest := if n ≠ 0 then piece.drop (64 - n) else piece
      let blocks := rest.length / 64
      { c with h := blockDataOrder block blocks h rest, data := rest.drop (64 * blocks) }

/-- End the message: the bit after it, zeros up to the count, and the count.  The chaining value and
the count stay. -/
def final (output : σ → List UInt8) (c : Ctx σ) : List UInt8 × Ctx σ :=
  let p := c.data ++ [0x80]
  let counted := le32 c.nl ++ le32 c.nh
  let h :=
    if 56 < p.length then
      let h := block c.h (p ++ List.replicate (64 - p.length) 0)
      block h (List.replicate 56 0 ++ counted)
    else block c.h (p ++ List.replicate (56 - p.length) 0 ++ counted)
  (output h, { c with h := h, data := [] })

/-! ## Whole messages -/

/-- What follows the last byte of a message of this length, with the count of the bits. -/
def padding (len : ℕ) (nl nh : UInt32) : List UInt8 :=
  0x80 :: List.replicate ((119 - len % 64) % 64) 0 ++ (le32 nl ++ le32 nh)

/-- The blocks of a message, from a chaining value on. -/
def absorb (h : σ) (padded : List UInt8) : σ := blockDataOrder block (padded.length / 64) h padded

/-- The digest of a message: its blocks, the last of which have the count of its bits. -/
def digest (output : σ → List UInt8) (iv : σ) (message : List UInt8) : List UInt8 :=
  let bits := 8 * message.length
  output (absorb block iv (message ++
    padding message.length (UInt32.ofNat bits) (UInt32.ofNat (bits / 2 ^ 32))))

variable {block}

/-- Blocks in two parts. -/
theorem blockDataOrder_append (m n : ℕ) (h : σ) (a b : List UInt8) (ha : a.length = 64 * m) :
    blockDataOrder block (m + n) h (a ++ b) =
      blockDataOrder block n (blockDataOrder block m h a) b := by
  induction m generalizing h a with
  | zero =>
    obtain rfl := List.length_eq_zero_iff.mp ha
    rw [Nat.zero_add, List.nil_append, blockDataOrder]
  | succ m ih =>
    have hle : 64 ≤ a.length := by omega
    rw [Nat.succ_add, blockDataOrder, blockDataOrder, List.take_append_of_le_length hle,
      List.drop_append_of_le_length hle]
    apply ih
    rw [List.length_drop]
    omega

/-- The blocks that are complete without the bytes of `b`. -/
theorem blockDataOrder_take (h : σ) (piece b : List UInt8) (n : ℕ) :
    blockDataOrder block (piece.length / 64 + n) h (piece ++ b) =
      blockDataOrder block n (blockDataOrder block (piece.length / 64) h piece)
        (piece.drop (64 * (piece.length / 64)) ++ b) := by
  have hlen : (piece.take (64 * (piece.length / 64))).length = 64 * (piece.length / 64) := by
    rw [List.length_take]
    omega
  have hpiece := List.take_append_drop (64 * (piece.length / 64)) piece
  have hwhole := @blockDataOrder_append _ block (piece.length / 64) 0 h _
    (piece.drop (64 * (piece.length / 64))) hlen
  rw [Nat.add_zero, hpiece, blockDataOrder] at hwhole
  rw [hwhole, ← blockDataOrder_append _ _ _ _ _ hlen, ← List.append_assoc, hpiece]

/-- One block alone. -/
theorem blockDataOrder_one (h : σ) (data : List UInt8) (hlen : data.length = 64) :
    blockDataOrder block 1 h data = block h data := by
  rw [blockDataOrder, blockDataOrder, List.take_of_length_le (Nat.le_of_eq hlen)]

/-- The blocks of a message from a chaining value on: those that are complete, and the end of the
message in one block or two. -/
theorem absorb_padding (h : σ) (piece : List UInt8) (nl nh : UInt32) :
    absorb block h (piece ++ padding piece.length nl nh) =
      (final block (fun _ => []) ⟨blockDataOrder block (piece.length / 64) h piece, nl, nh,
        piece.drop (64 * (piece.length / 64))⟩).2.h := by
  -- what is left of the piece is less than a block
  have hrest : (piece.drop (64 * (piece.length / 64))).length = piece.length % 64 := by
    rw [List.length_drop]
    omega
  have hcounted : (le32 nl ++ le32 nh).length = 8 := rfl
  unfold absorb final
  rw [List.length_append, padding, List.length_append, List.length_cons, List.length_replicate,
    hcounted]
  dsimp only
  rw [List.length_append, hrest, List.length_singleton]
  split_ifs with hlong
  · -- the count does not fit into the block of the last byte
    have hzeros : (119 - piece.length % 64) % 64 = (64 - (piece.length % 64 + 1)) + 56 := by omega
    have hblocks : (piece.length + ((119 - piece.length % 64) % 64 + 1 + 8)) / 64 =
        piece.length / 64 + (1 + 1) := by omega
    rw [hblocks, blockDataOrder_take, hzeros, List.replicate_add]
    have hsplit : piece.drop (64 * (piece.length / 64)) ++
        (0x80 :: (List.replicate (64 - (piece.length % 64 + 1)) 0 ++ List.replicate 56 0) ++
          (le32 nl ++ le32 nh)) =
        (piece.drop (64 * (piece.length / 64)) ++ [0x80] ++
          List.replicate (64 - (piece.length % 64 + 1)) 0) ++
          (List.replicate 56 0 ++ (le32 nl ++ le32 nh)) := by simp
    have hfirst : (piece.drop (64 * (piece.length / 64)) ++ [0x80] ++
        List.replicate (64 - (piece.length % 64 + 1)) 0).length = 64 := by
      rw [List.length_append, List.length_append, List.length_replicate, hrest,
        List.length_singleton]
      omega
    have hsecond : (List.replicate 56 0 ++ (le32 nl ++ le32 nh)).length = 64 := by
      rw [List.length_append, List.length_replicate, hcounted]
    rw [hsplit, blockDataOrder_append 1 1 _ _ _ hfirst, blockDataOrder_one _ _ hsecond,
      blockDataOrder_one _ _ hfirst]
  -- all of it fits into one block
  · have hzeros : (119 - piece.length % 64) % 64 = 56 - (piece.length % 64 + 1) := by omega
    have hblocks : (piece.length + ((119 - piece.length % 64) % 64 + 1 + 8)) / 64 =
        piece.length / 64 + 1 := by omega
    rw [hblocks, blockDataOrder_take, hzeros]
    have hsplit : piece.drop (64 * (piece.length / 64)) ++
        (0x80 :: List.replicate (56 - (piece.length % 64 + 1)) 0 ++ (le32 nl ++ le32 nh)) =
        piece.drop (64 * (piece.length / 64)) ++ [0x80] ++
          List.replicate (56 - (piece.length % 64 + 1)) 0 ++ (le32 nl ++ le32 nh) := by simp
    have hlast : (piece.drop (64 * (piece.length / 64)) ++ [0x80] ++
        List.replicate (56 - (piece.length % 64 + 1)) 0 ++ (le32 nl ++ le32 nh)).length = 64 := by
      rw [List.length_append, List.length_append, List.length_append, List.length_replicate,
        hcounted, hrest, List.length_singleton]
      omega
    rw [hsplit, blockDataOrder_one _ _ hlast]

/-- Adding no bytes leaves the counters. -/
theorem count_zero (c : Ctx σ) : count 0 c = c := by
  obtain ⟨h, nl, nh, data⟩ := c
  simp [count]

/-- A piece that is taken while no byte waits. -/
theorem update_eq {c : Ctx σ} (hc : c.data = []) (piece : List UInt8) :
    update block c piece =
      { count piece.length c with
        h := blockDataOrder block (piece.length / 64) c.h piece
        data := piece.drop (64 * (piece.length / 64)) } := by
  unfold update
  split_ifs with hzero
  · obtain rfl := List.length_eq_zero_iff.mp hzero
    rw [List.length_nil, count_zero]
    obtain ⟨h, nl, nh, data⟩ := c
    obtain rfl := hc
    rfl
  · have hn : (count piece.length c).data.length = 0 := by
      rw [count, hc]
      rfl
    dsimp only
    rw [hn]
    simp only [ne_eq, not_true_eq_false, false_and, if_false]
    rfl

/-- Whatever a context has seen, if no byte waits, it gives the output of the blocks of the next
piece, from the chaining value that it has reached and with the count of all bits so far. -/
theorem final_update {c : Ctx σ} (hc : c.data = []) (output : σ → List UInt8)
    (piece : List UInt8) :
    final block output (update block c piece) =
      let c' := count piece.length c
      let h := absorb block c.h (piece ++ padding piece.length c'.nl c'.nh)
      (output h, { c' with h := h, data := [] }) := by
  rw [update_eq hc]
  dsimp only
  rw [absorb_padding]
  rfl

/-- A context that has just been made gives the digest. -/
theorem digest_eq (output : σ → List UInt8) (iv : σ) (message : List UInt8) :
    (final block output (update block (init iv) message)).1 = digest block output iv message := by
  have hlow : UInt32.ofNat message.length <<< 3 = UInt32.ofNat (8 * message.length) := by
    apply UInt32.toNat_inj.mp
    simp [UInt32.toNat_shiftLeft, Nat.shiftLeft_eq, Nat.mul_comm]
  have hhigh : message.length >>> 29 = 8 * message.length / 2 ^ 32 := by
    rw [Nat.shiftRight_eq_div_pow]
    omega
  rw [final_update rfl]
  unfold digest count init
  simp [hlow, hhigh]

end HashContext

/-! ## The blocks of MD5 -/

namespace Md5

/-- The four words of the chaining value. -/
structure State where
  a : UInt32
  b : UInt32
  c : UInt32
  d : UInt32
  deriving DecidableEq

/-- The chaining value of an empty message. -/
def iv : State := ⟨0x67452301, 0xefcdab89, 0x98badcfe, 0x10325476⟩

/-- The integer part of `2 ^ 32 * |sin (i + 1)|`. -/
def sines : List UInt32 :=
  [0xd76aa478, 0xe8c7b756, 0x242070db, 0xc1bdceee, 0xf57c0faf, 0x4787c62a, 0xa8304613, 0xfd469501,
    0x698098d8, 0x8b44f7af, 0xffff5bb1, 0x895cd7be, 0x6b901122, 0xfd987193, 0xa679438e, 0x49b40821,
    0xf61e2562, 0xc040b340, 0x265e5a51, 0xe9b6c7aa, 0xd62f105d, 0x02441453, 0xd8a1e681, 0xe7d3fbc8,
    0x21e1cde6, 0xc33707d6, 0xf4d50d87, 0x455a14ed, 0xa9e3e905, 0xfcefa3f8, 0x676f02d9, 0x8d2a4c8a,
    0xfffa3942, 0x8771f681, 0x6d9d6122, 0xfde5380c, 0xa4beea44, 0x4bdecfa9, 0xf6bb4b60, 0xbebfbc70,
    0x289b7ec6, 0xeaa127fa, 0xd4ef3085, 0x04881d05, 0xd9d4d039, 0xe6db99e5, 0x1fa27cf8, 0xc4ac5665,
    0xf4292244, 0x432aff97, 0xab9423a7, 0xfc93a039, 0x655b59c3, 0x8f0ccc92, 0xffeff47d, 0x85845dd1,
    0x6fa87e4f, 0xfe2ce6e0, 0xa3014314, 0x4e0811a1, 0xf7537e82, 0xbd3af235, 0x2ad7d2bb, 0xeb86d391]

/-- How far the turns rotate, four turns a line in each round. -/
def shifts : List UInt32 :=
  [7, 12, 17, 22, 7, 12, 17, 22, 7, 12, 17, 22, 7, 12, 17, 22,
    5, 9, 14, 20, 5, 9, 14, 20, 5, 9, 14, 20, 5, 9, 14, 20,
    4, 11, 16, 23, 4, 11, 16, 23, 4, 11, 16, 23, 4, 11, 16, 23,
    6, 10, 15, 21, 6, 10, 15, 21, 6, 10, 15, 21, 6, 10, 15, 21]

/-- The rotation of a word to the left. -/
def rotateLeft (x s : UInt32) : UInt32 := (x <<< s) ||| (x >>> (32 - s))

/-- The functions of the four rounds. -/
def mix (i : ℕ) (b c d : UInt32) : UInt32 :=
  if i < 16 then (b &&& c) ||| (~~~b &&& d)
  else if i < 32 then (b &&& d) ||| (c &&& ~~~d)
  else if i < 48 then b ^^^ c ^^^ d
  else c ^^^ (b ||| ~~~d)

/-- The word of the block that a turn uses. -/
def wordIndex (i : ℕ) : ℕ :=
  if i < 16 then i
  else if i < 32 then (5 * i + 1) % 16
  else if i < 48 then (3 * i + 5) % 16
  else 7 * i % 16

/-- A word of a block, its low byte first. -/
def word (data : List UInt8) (k : ℕ) : UInt32 :=
  (data.getD (4 * k) 0).toUInt32 ||| (data.getD (4 * k + 1) 0).toUInt32 <<< 8 |||
    (data.getD (4 * k + 2) 0).toUInt32 <<< 16 ||| (data.getD (4 * k + 3) 0).toUInt32 <<< 24

/-- One of the 64 turns. -/
def turn (data : List UInt8) (s : State) (i : ℕ) : State where
  a := s.d
  b := s.b + rotateLeft (s.a + mix i s.b s.c s.d + word data (wordIndex i) + sines.getD i 0)
    (shifts.getD i 0)
  c := s.b
  d := s.c

/-- One block. -/
def block (s : State) (data : List UInt8) : State :=
  let t := (List.range 64).foldl (turn data) s
  ⟨s.a + t.a, s.b + t.b, s.c + t.c, s.d + t.d⟩

/-- The 16 bytes of the digest. -/
def output (s : State) : List UInt8 :=
  HashContext.le32 s.a ++ HashContext.le32 s.b ++ HashContext.le32 s.c ++ HashContext.le32 s.d

/-- The MD5 digest of a message. -/
def digest (message : List UInt8) : List UInt8 := HashContext.digest block output iv message

/-- The digest of the empty message. -/
example : digest [] = [0xd4, 0x1d, 0x8c, 0xd9, 0x8f, 0x00, 0xb2, 0x04, 0xe9, 0x80, 0x09, 0x98, 0xec,
    0xf8, 0x42, 0x7e] := by decide +kernel

end Md5
