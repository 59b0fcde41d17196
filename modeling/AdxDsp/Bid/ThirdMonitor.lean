import AdxDsp.Lib.Bytes
import AdxDsp.Lib.Md5

/-!
# Digests for the monitors of third parties

`ThirdMonitorReplace` (`util.cpp`) replaces the macros of all monitor URLs of a bid and digests the
device ids for them.  It makes its MD5 context once, in its constructor, and never again.

* `ThirdMonitorReplace.md5String_eq`: what a call returns, and what it leaves for the next one.
* `ThirdMonitorReplace.md5Strings_eq`: the first call returns the digest of its argument.
* `second_digest_wrong`: the second call on one object does not.
-/

namespace AdxDsp

open CText HashContext

/-- The hexadecimal form of bytes, in capitals. -/
def upperHex (t : Bytes) : Bytes :=
  t.flatMap fun byte : UInt8 =>
    [hexDigit 65 ((byte >>> 4) &&& 0xf).toNat, hexDigit 65 (byte &&& 0xf).toNat]

/-- `ThirdMonitorReplace` -/
structure ThirdMonitorReplace where
  hashCtx : Ctx Md5.State

namespace ThirdMonitorReplace

/-- `ThirdMonitorReplace::ThirdMonitorReplace`. -/
def new : ThirdMonitorReplace := ⟨init Md5.iv⟩

/-- The loop of `md5String` over `i`, which it increments in the middle of each turn, too. -/
def printLoop (hashRet : Bytes) : Bytes :=
  (List.range 16).flatMap fun turn =>
    let i := 2 * turn
    -- the upper half of a byte at the even `i`, the lower one at the odd `i` behind it
    let a := (hashRet.getD (i / 2) 0 >>> 4) &&& 0xf
    let b := hashRet.getD ((i + 1) / 2) 0 &&& 0xf
    [hexDigit 65 a.toNat, hexDigit 65 b.toNat]

/-- `ThirdMonitorReplace::md5String`, and the object that it leaves. -/
def md5String (r : ThirdMonitorReplace) (original : Bytes) : Bytes × ThirdMonitorReplace :=
  let hash := final Md5.block Md5.output (update Md5.block r.hashCtx original)
  -- `MD5_Final` leaves the context as it is, and no `MD5_Init` follows
  (printLoop hash.1, ⟨hash.2⟩)

/-- Calls one after the other. -/
def md5Strings : ThirdMonitorReplace → List Bytes → List Bytes
  | _, [] => []
  | r, original :: rest => (r.md5String original).1 :: (r.md5String original).2.md5Strings rest

/-- The loop prints all bytes of the digest. -/
theorem printLoop_eq {hashRet : Bytes} (hlen : hashRet.length = 16) :
    printLoop hashRet = upperHex hashRet := by
  have hbytes : hashRet = (List.range 16).map fun k => hashRet.getD k 0 := by
    apply List.ext_getElem
    · rw [hlen, List.length_map, List.length_range]
    · intro k hk hk'
      simp [hk]
  -- both places of a turn are in the same byte
  have hturn : ∀ turn, 2 * turn / 2 = turn ∧ (2 * turn + 1) / 2 = turn := by
    intro turn
    omega
  conv_rhs => rw [upperHex, hbytes, List.flatMap_map]
  unfold printLoop
  simp only [hturn]

/-- A call returns the digits of the blocks of its argument, from the chaining value that the calls
before it have reached and with the count of all their bits, and leaves both to the next one. -/
theorem md5String_eq {r : ThirdMonitorReplace} (hr : r.hashCtx.data = []) (original : Bytes) :
    r.md5String original =
      let counted := count original.length r.hashCtx
      let h := absorb Md5.block r.hashCtx.h
        (original ++ padding original.length counted.nl counted.nh)
      (upperHex (Md5.output h), ⟨{ counted with h := h, data := [] }⟩) := by
  unfold md5String
  rw [final_update hr]
  dsimp only
  rw [printLoop_eq rfl]

/-- Where an object is used for one string at most, each call returns the digest of its argument. -/
theorem md5Strings_eq {originals : List Bytes} (h : originals.length ≤ 1) :
    new.md5Strings originals = originals.map fun original => upperHex (Md5.digest original) := by
  cases originals with
  | nil => rfl
  | cons original rest =>
    obtain rfl : rest = [] := by
      rw [List.length_cons] at h
      exact List.length_eq_zero_iff.mp (by omega)
    rw [md5Strings, md5Strings, List.map_singleton, md5String]
    dsimp only
    rw [new, digest_eq, printLoop_eq rfl]
    rfl

end ThirdMonitorReplace

/-- The digest of `a`. -/
theorem first_digest :
    ThirdMonitorReplace.new.md5Strings [bytes "a"] = [bytes "0CC175B9C0F1B6A831C399E269772661"] :=
  (ThirdMonitorReplace.md5Strings_eq (by decide)).trans (by decide +kernel)

/-- The second digest of `a` on one object is not the one of `a`. -/
theorem second_digest_wrong :
    ThirdMonitorReplace.new.md5Strings [bytes "a", bytes "a"] =
        [bytes "0CC175B9C0F1B6A831C399E269772661", bytes "F67AE9DFACCA859BB2FC5725EEF95A32"] ∧
      [bytes "a", bytes "a"].map (fun original => upperHex (Md5.digest original)) =
        [bytes "0CC175B9C0F1B6A831C399E269772661", bytes "0CC175B9C0F1B6A831C399E269772661"] := by
  constructor <;> decide +kernel

end AdxDsp
