import Mathlib.Data.Nat.Size
import Mathlib.Algebra.Order.Ring.Int

/-! # 256-bit integers and the compact difficulty encoding

`uint256` is a fixed-width bit vector: hashes are compared and used as keys, and
the difficulty arithmetic of `uint256.cpp` is arithmetic modulo `2 ^ 256`.
Narrower unsigned integers of the source (`nBits`, `nTime`, an output index) are
natural numbers.
-/

namespace Agouti

abbrev Uint256 := BitVec 256

/-- `uint160`, the type of a key identifier. -/
abbrev Uint160 := BitVec 160

/-- `uint256` is ordered as a number. -/
instance Uint256.instLinearOrder : LinearOrder Uint256 where
  le_refl _ := BitVec.le_refl _
  le_trans _ _ _ := BitVec.le_trans
  le_antisymm _ _ := BitVec.le_antisymm
  le_total := BitVec.le_total
  lt_iff_le_not_ge _ _ := by
    rw [BitVec.not_le]
    exact ⟨fun below => ⟨BitVec.le_of_lt below, below⟩, And.right⟩
  toDecidableLE := inferInstance
  toDecidableEq := inferInstance

namespace Uint256

/-- `base_uint::bits`: the position of the highest set bit plus one. -/
def bits (value : Uint256) : Nat := value.toNat.size

/-- The mantissa of a compact encoding after the shift for short sizes. -/
def compactWord (nCompact : Nat) : Nat :=
  let nSize := nCompact >>> 24
  let nWord := nCompact &&& 0x007fffff
  if nSize ≤ 3 then nWord >>> (8 * (3 - nSize)) else nWord

/-- `uint256::SetCompact`, the value. -/
def setCompact (nCompact : Nat) : Uint256 :=
  let nSize := nCompact >>> 24
  if nSize ≤ 3 then BitVec.ofNat 256 (compactWord nCompact)
  else BitVec.ofNat 256 (compactWord nCompact) <<< (8 * (nSize - 3))

/-- The flag `*pfNegative` of `uint256::SetCompact`. -/
def compactNegative (nCompact : Nat) : Bool :=
  compactWord nCompact != 0 && (nCompact &&& 0x00800000) != 0

/-- The flag `*pfOverflow` of `uint256::SetCompact`. -/
def compactOverflow (nCompact : Nat) : Bool :=
  let nSize := nCompact >>> 24
  let nWord := compactWord nCompact
  nWord != 0 && (decide (34 < nSize) || (decide (0xff < nWord) && decide (33 < nSize)) ||
    (decide (0xffff < nWord) && decide (32 < nSize)))

/-- `uint256::GetCompact` with `fNegative = false`. -/
def getCompact (value : Uint256) : Nat :=
  let nSize := (value.bits + 7) / 8
  let nCompact :=
    if nSize ≤ 3 then (value.toNat % 2 ^ 64) <<< (8 * (3 - nSize)) % 2 ^ 32
    else (value >>> (8 * (nSize - 3))).toNat % 2 ^ 32
  if nCompact &&& 0x00800000 ≠ 0 then (nCompact >>> 8) ||| ((nSize + 1) <<< 24)
  else nCompact ||| (nSize <<< 24)

end Uint256

end Agouti
