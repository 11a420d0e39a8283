import Agouti.Library.Watch
import Agouti.Script.Standard
import Mathlib.Algebra.Order.Ring.Nat

/-! # Bloom filters

`CBloomFilter` of `bloom.h` and `MurmurHash3` of `hash.cpp`. An index computation that divides by
zero, or an index behind the array, is no value. The shortcut flags stand beside the array: a full
filter contains everything and an empty one nothing. The bits of a filter and the indices of a key
are a filter of `Bloom` (`contains_iff`, `insert_spec`).
-/

namespace Agouti

open List

/-- `MAX_BLOOM_FILTER_SIZE`, in bytes. -/
def maxBloomFilterSize : Nat := 36000

def maxHashFuncs : Nat := 50

def BLOOM_UPDATE_NONE : UInt8 := 0
def BLOOM_UPDATE_ALL : UInt8 := 1
def BLOOM_UPDATE_P2PUBKEY_ONLY : UInt8 := 2
def BLOOM_UPDATE_MASK : UInt8 := 3

namespace MurmurHash3

def rotl32 (x r : UInt32) : UInt32 := (x <<< r) ||| (x >>> (32 - r))

def scramble (k1 : UInt32) : UInt32 := rotl32 (k1 * 0xcc9e2d51) 15 * 0x1b873593

/-- The body of four bytes at a time, and the tail. -/
def absorb : UInt32 → List UInt8 → UInt32
  | h1, byte0 :: byte1 :: byte2 :: byte3 :: rest =>
    let k1 := byte0.toUInt32 ||| (byte1.toUInt32 <<< 8) ||| (byte2.toUInt32 <<< 16) |||
      (byte3.toUInt32 <<< 24)
    absorb (rotl32 (h1 ^^^ scramble k1) 13 * 5 + 0xe6546b64) rest
  | h1, [byte0, byte1, byte2] =>
    h1 ^^^ scramble ((byte2.toUInt32 <<< 16) ^^^ (byte1.toUInt32 <<< 8) ^^^ byte0.toUInt32)
  | h1, [byte0, byte1] => h1 ^^^ scramble ((byte1.toUInt32 <<< 8) ^^^ byte0.toUInt32)
  | h1, [byte0] => h1 ^^^ scramble byte0.toUInt32
  | h1, [] => h1

def finish (h1 : UInt32) : UInt32 :=
  let h1 := (h1 ^^^ (h1 >>> 16)) * 0x85ebca6b
  let h1 := (h1 ^^^ (h1 >>> 13)) * 0xc2b2ae35
  h1 ^^^ (h1 >>> 16)

end MurmurHash3

def murmurHash3 (nHashSeed : UInt32) (vDataToHash : List UInt8) : UInt32 :=
  MurmurHash3.finish (MurmurHash3.absorb nHashSeed vDataToHash ^^^
    UInt32.ofNat vDataToHash.length)

example : murmurHash3 0 [0x00, 0x11, 0x22, 0x33, 0x44, 0x55, 0x66, 0x77, 0x88] = 0xb4698def := by
  decide +kernel

/-- A Bloom filter. -/
structure CBloomFilter where
  vData : List UInt8 := []
  isFull : Bool := true
  isEmpty : Bool := false
  nHashFuncs : Nat := 0
  nTweak : UInt32 := 0
  nFlags : UInt8 := 0
  deriving DecidableEq, Repr

namespace CBloomFilter

def bitMask (nIndex : Nat) : UInt8 := 1 <<< UInt8.ofNat (7 &&& nIndex)

/-- `vData[nIndex >> 3] |= (1 << (7 & nIndex))`. -/
def setBit (vData : List UInt8) (nIndex : Nat) : Option (List UInt8) :=
  (vData[nIndex >>> 3]?).map fun byte => vData.set (nIndex >>> 3) (byte ||| bitMask nIndex)

/-- `vData[nIndex >> 3] & (1 << (7 & nIndex))`. -/
def getBit (vData : List UInt8) (nIndex : Nat) : Option Bool :=
  (vData[nIndex >>> 3]?).map fun byte => byte &&& bitMask nIndex != 0

variable (filter : CBloomFilter)

def hash (nHashNum : Nat) (vDataToHash : List UInt8) : Option Nat :=
  if filter.vData.length * 8 = 0 then none
  else some ((murmurHash3 (UInt32.ofNat nHashNum * 0xFBA4C795 + filter.nTweak) vDataToHash).toNat %
    (filter.vData.length * 8))

/-- The loop of `CBloomFilter::insert`. -/
def setBits (vKey : List UInt8) : List Nat → List UInt8 → Option (List UInt8)
  | [], vData => some vData
  | i :: rest, vData => do
      let nIndex ← filter.hash i vKey
      let vData ← setBit vData nIndex
      setBits vKey rest vData

def insert (vKey : List UInt8) : Option CBloomFilter :=
  if filter.isFull then some filter
  else do
    let vData ← filter.setBits vKey (List.range filter.nHashFuncs) filter.vData
    some { filter with vData := vData, isEmpty := false }

/-- The loop of `CBloomFilter::contains`. -/
def checkBits (vKey : List UInt8) : List Nat → Option Bool
  | [] => some true
  | i :: rest => do
      let nIndex ← filter.hash i vKey
      let bit ← getBit filter.vData nIndex
      if !bit then some false else checkBits vKey rest

def contains (vKey : List UInt8) : Option Bool :=
  if filter.isFull then some true
  else if filter.isEmpty then some false
  else filter.checkBits vKey (List.range filter.nHashFuncs)

def isWithinSizeConstraints : Bool :=
  decide (filter.vData.length ≤ maxBloomFilterSize) && decide (filter.nHashFuncs ≤ maxHashFuncs)

def updateEmptyFull : CBloomFilter :=
  { filter with
    isFull := filter.vData.all (· == 0xff), isEmpty := filter.vData.all (· == 0) }

/-- The filter that the message `filterload` leaves: the fields are read into a default filter. -/
def filterload (vData : List UInt8) (nHashFuncs : Nat) (nTweak : UInt32) (nFlags : UInt8) :
    Option CBloomFilter :=
  let filter : CBloomFilter :=
    { vData := vData, nHashFuncs := nHashFuncs, nTweak := nTweak, nFlags := nFlags }
  if !filter.isWithinSizeConstraints then none else some filter.updateEmptyFull

end CBloomFilter

/-! ## Bits -/

namespace CBloomFilter

theorem bitMask_ne_zero (nIndex : Nat) : bitMask nIndex ≠ 0 := by
  have every : ∀ low < 8, (1 : UInt8) <<< UInt8.ofNat low ≠ 0 := by decide
  exact every _ (Nat.lt_succ_of_le Nat.and_le_left)

theorem bitMask_and {nIndex other : Nat} (differ : 7 &&& nIndex ≠ 7 &&& other) :
    bitMask nIndex &&& bitMask other = 0 := by
  have every : ∀ low < 8, ∀ high < 8, low ≠ high →
      ((1 : UInt8) <<< UInt8.ofNat low) &&& (1 <<< UInt8.ofNat high) = 0 := by decide
  exact every _ (Nat.lt_succ_of_le Nat.and_le_left) _ (Nat.lt_succ_of_le Nat.and_le_left) differ

theorem index_eq {nIndex other : Nat} (byte : nIndex >>> 3 = other >>> 3)
    (bit : 7 &&& nIndex = 7 &&& other) : nIndex = other := by
  have low (n : Nat) : 7 &&& n = n % 8 := by
    rw [Nat.and_comm]
    exact Nat.and_two_pow_sub_one_eq_mod n 3
  rw [low, low] at bit
  rw [Nat.shiftRight_eq_div_pow, Nat.shiftRight_eq_div_pow] at byte
  rw [← Nat.div_add_mod nIndex 8, ← Nat.div_add_mod other 8, bit]
  exact congrArg (fun quotient => 8 * quotient + other % 8) byte

theorem and_or_bitMask {byte : UInt8} {nIndex other : Nat} :
    (byte ||| bitMask nIndex) &&& bitMask other ≠ 0 ↔
      byte &&& bitMask other ≠ 0 ∨ 7 &&& nIndex = 7 &&& other := by
  have split : (byte ||| bitMask nIndex) &&& bitMask other =
      (byte &&& bitMask other) ||| (bitMask nIndex &&& bitMask other) :=
    UInt8.toBitVec_inj.mp BitVec.and_or_distrib_right
  rw [split, ne_eq, UInt8.or_eq_zero_iff, not_and_or]
  refine or_congr_right ⟨fun meets => ?_, fun same => ?_⟩
  · by_contra differ
    exact meets (bitMask_and differ)
  · have masks : bitMask nIndex = bitMask other := by rw [bitMask, same, bitMask]
    rw [masks, UInt8.and_self]
    exact bitMask_ne_zero other

variable {vData : List UInt8} {nIndex other : Nat}

theorem byte_lt (inside : nIndex < vData.length * 8) : nIndex >>> 3 < vData.length := by
  rw [Nat.shiftRight_eq_div_pow]
  exact Nat.div_lt_of_lt_mul (by rwa [Nat.mul_comm] at inside)

theorem getBit_eq_true : getBit vData nIndex = some true ↔
    ∃ byte, vData[nIndex >>> 3]? = some byte ∧ byte &&& bitMask nIndex ≠ 0 := by
  rw [getBit, Option.map_eq_some_iff]
  exact exists_congr fun byte => and_congr_right fun _ => bne_iff_ne

theorem getBit_isSome (inside : nIndex < vData.length * 8) : ∃ bit, getBit vData nIndex = some bit :=
  ⟨_, by rw [getBit, List.getElem?_eq_getElem (byte_lt inside)]; rfl⟩

theorem setBit_spec (inside : nIndex < vData.length * 8) :
    ∃ next, setBit vData nIndex = some next ∧ next.length = vData.length ∧
      ∀ other, getBit next other = some true ↔ getBit vData other = some true ∨ other = nIndex := by
  have here : vData[nIndex >>> 3]? = some vData[nIndex >>> 3] :=
    List.getElem?_eq_getElem (byte_lt inside)
  refine ⟨_, by rw [setBit, here]; rfl, length_set, fun other => ?_⟩
  rw [getBit_eq_true, getBit_eq_true]
  by_cases byte : other >>> 3 = nIndex >>> 3
  · rw [byte, List.getElem?_set_self (byte_lt inside), here]
    constructor
    · rintro ⟨_, read, set⟩
      obtain rfl := Option.some.inj read
      rcases and_or_bitMask.mp set with old | same
      · exact .inl ⟨_, rfl, old⟩
      · exact .inr (index_eq byte same.symm)
    · rintro (⟨_, read, old⟩ | rfl)
      · obtain rfl := Option.some.inj read
        exact ⟨_, rfl, and_or_bitMask.mpr (.inl old)⟩
      · exact ⟨_, rfl, and_or_bitMask.mpr (.inr rfl)⟩
  · rw [List.getElem?_set_ne (Ne.symm byte)]
    refine ⟨.inl, ?_⟩
    rintro (old | rfl)
    · exact old
    · exact absurd rfl byte

end CBloomFilter

/-! ## The filter and its set of bits -/

namespace CBloomFilter

/-- Only the full filter has no bytes. -/
def Sized (filter : CBloomFilter) : Prop := filter.vData = [] → filter.isFull = true

def bits (filter : CBloomFilter) : Set Nat := {nIndex | getBit filter.vData nIndex = some true}

def probes (filter : CBloomFilter) (vKey : List UInt8) : Set Nat :=
  {nIndex | ∃ i < filter.nHashFuncs, filter.hash i vKey = some nIndex}

variable {filter next : CBloomFilter} {vKey other : List UInt8}

theorem hash_spec (data : filter.vData ≠ []) (i : Nat) (vKey : List UInt8) :
    ∃ nIndex, filter.hash i vKey = some nIndex ∧ nIndex < filter.vData.length * 8 := by
  have sized : 0 < filter.vData.length * 8 :=
    Nat.mul_pos (length_pos_iff.mpr data) (by decide)
  refine ⟨_, by rw [hash, if_neg sized.ne'], ?_⟩
  exact Nat.mod_lt _ sized

theorem setBits_spec (data : filter.vData ≠ []) (vKey : List UInt8) (nums : List Nat)
    {vData : List UInt8} (sized : vData.length = filter.vData.length) :
    ∃ final, filter.setBits vKey nums vData = some final ∧
      final.length = filter.vData.length ∧
      ∀ nIndex, getBit final nIndex = some true ↔ getBit vData nIndex = some true ∨
        ∃ i ∈ nums, filter.hash i vKey = some nIndex := by
  induction nums generalizing vData with
  | nil =>
    refine ⟨vData, rfl, sized, fun nIndex => (or_iff_left ?_).symm⟩
    rintro ⟨i, member, _⟩
    exact nomatch member
  | cons i rest ih =>
    obtain ⟨nIndex, hashed, inside⟩ := hash_spec data i vKey
    rw [← sized] at inside
    obtain ⟨middle, wrote, length, written⟩ := setBit_spec inside
    obtain ⟨final, further, sizedFinal, set⟩ := ih (length.trans sized)
    refine ⟨final, ?_, sizedFinal, fun probe => ?_⟩
    · rw [setBits, hashed]
      change (setBit vData nIndex).bind _ = _
      rw [wrote]
      exact further
    · rw [set, written, or_assoc]
      refine or_congr_right ?_
      constructor
      · rintro (rfl | ⟨later, member, found⟩)
        · exact ⟨i, mem_cons_self, hashed⟩
        · exact ⟨later, mem_cons_of_mem i member, found⟩
      · rintro ⟨later, member, found⟩
        rcases mem_cons.mp member with rfl | member
        · exact .inl (Option.some.inj (found.symm.trans hashed))
        · exact .inr ⟨later, member, found⟩

theorem checkBits_spec (data : filter.vData ≠ []) (vKey : List UInt8) (nums : List Nat) :
    ∃ found, filter.checkBits vKey nums = some found ∧ (found = true ↔
      ∀ i ∈ nums, ∀ nIndex, filter.hash i vKey = some nIndex → nIndex ∈ filter.bits) := by
  induction nums with
  | nil => exact ⟨true, rfl, iff_of_true rfl fun i member => (nomatch member)⟩
  | cons i rest ih =>
    obtain ⟨nIndex, hashed, inside⟩ := hash_spec data i vKey
    obtain ⟨bit, read⟩ := getBit_isSome inside
    obtain ⟨found, further, all⟩ := ih
    have here : (∀ probe, filter.hash i vKey = some probe → probe ∈ filter.bits) ↔ bit = true := by
      constructor
      · exact fun every => Option.some.inj (read.symm.trans (every nIndex hashed))
      · rintro rfl probe found
        obtain rfl := Option.some.inj (hashed.symm.trans found)
        exact read
    rw [checkBits, hashed]
    change ∃ found, (getBit filter.vData nIndex).bind _ = some found ∧ _
    rw [read, forall_mem_cons, here]
    cases bit with
    | false => exact ⟨false, rfl, iff_of_false Bool.false_ne_true fun both => nomatch both.1⟩
    | true => exact ⟨found, further, all.trans (and_iff_right rfl).symm⟩

/-- The filter answers yes. -/
def Holds (filter : CBloomFilter) (vKey : List UInt8) : Prop :=
  filter.isFull = true ∨ filter.isEmpty = false ∧ Bloom.Contains filter.probes filter.bits vKey

theorem contains_spec (sized : filter.Sized) (vKey : List UInt8) :
    ∃ found, filter.contains vKey = some found ∧ (found = true ↔ filter.Holds vKey) := by
  unfold contains Holds
  cases full : filter.isFull with
  | true => exact ⟨true, rfl, iff_of_true rfl (.inl rfl)⟩
  | false =>
    have data : filter.vData ≠ [] := fun nothing => nomatch full.symm.trans (sized nothing)
    cases filter.isEmpty with
    | true => exact ⟨false, rfl, iff_of_false Bool.false_ne_true (by simp)⟩
    | false =>
      obtain ⟨found, checked, all⟩ :=
        checkBits_spec data vKey (List.range filter.nHashFuncs)
      refine ⟨found, checked, all.trans ?_⟩
      rw [or_iff_right Bool.false_ne_true, and_iff_right rfl]
      constructor
      · rintro every nIndex ⟨i, few, hashed⟩
        exact every i (List.mem_range.mpr few) nIndex hashed
      · exact fun every i few nIndex hashed => every ⟨i, List.mem_range.mp few, hashed⟩

theorem contains_iff (sized : filter.Sized) :
    filter.contains vKey = some true ↔ filter.Holds vKey := by
  obtain ⟨found, checked, all⟩ := contains_spec sized vKey
  rw [checked, Option.some.injEq, all]

/-- What an insertion changes. -/
structure Inserted (filter : CBloomFilter) (vKey : List UInt8) (next : CBloomFilter) : Prop where
  isFull : next.isFull = filter.isFull
  length : next.vData.length = filter.vData.length
  nHashFuncs : next.nHashFuncs = filter.nHashFuncs
  nTweak : next.nTweak = filter.nTweak
  nFlags : next.nFlags = filter.nFlags
  isEmpty : filter.isFull = false → next.isEmpty = false
  bits : filter.isFull = false → next.bits = Bloom.insert filter.probes filter.bits vKey

/-- An insertion succeeds: no index computation divides by zero or leaves the array. -/
theorem insert_spec (sized : filter.Sized) (vKey : List UInt8) :
    ∃ next, filter.insert vKey = some next ∧ filter.Inserted vKey next := by
  unfold insert
  cases full : filter.isFull with
  | true =>
    have never : filter.isFull ≠ false := fun partly => nomatch full.symm.trans partly
    exact ⟨filter, rfl, rfl, rfl, rfl, rfl, rfl, fun partly => absurd partly never,
      fun partly => absurd partly never⟩
  | false =>
    have data : filter.vData ≠ [] := fun nothing => nomatch full.symm.trans (sized nothing)
    obtain ⟨final, wrote, length, set⟩ :=
      setBits_spec data vKey (List.range filter.nHashFuncs) rfl
    refine ⟨{ filter with vData := final, isEmpty := false }, ?_, rfl, length, rfl, rfl, rfl,
      fun _ => rfl, fun _ => Set.ext fun nIndex => (set nIndex).trans (or_congr_right ?_)⟩
    · rw [wrote, full]
      rfl
    · exact exists_congr fun i => and_congr_left fun _ => List.mem_range

namespace Inserted

variable (inserted : filter.Inserted vKey next)
include inserted

theorem sized (before : filter.Sized) : next.Sized := by
  intro nothing
  have empty : filter.vData.length = 0 := by rw [← inserted.length, nothing, length_nil]
  exact inserted.isFull.trans (before (length_eq_zero_iff.mp empty))

theorem probes : next.probes = filter.probes := by
  funext key
  simp only [CBloomFilter.probes, hash, inserted.length, inserted.nHashFuncs, inserted.nTweak]

theorem holds_self : next.Holds vKey := by
  cases full : filter.isFull with
  | true => exact .inl (inserted.isFull.trans full)
  | false =>
    refine .inr ⟨inserted.isEmpty full, ?_⟩
    rw [inserted.probes, inserted.bits full]
    exact Bloom.contains_insert_self

theorem holds (before : filter.Holds other) : next.Holds other := by
  rcases before with full | ⟨_, contained⟩
  · exact .inl (inserted.isFull.trans full)
  · cases full : filter.isFull with
    | true => exact .inl (inserted.isFull.trans full)
    | false =>
      refine .inr ⟨inserted.isEmpty full, ?_⟩
      rw [inserted.probes, inserted.bits full]
      exact contained.insert

end Inserted

theorem sized_filterload {vData : List UInt8} {nHashFuncs : Nat} {nTweak : UInt32} {nFlags : UInt8}
    (accepted : filterload vData nHashFuncs nTweak nFlags = some filter) : filter.Sized := by
  unfold filterload at accepted
  dsimp only at accepted
  split at accepted
  · exact nomatch accepted
  · obtain rfl := Option.some.inj accepted
    intro nothing
    have empty : vData = [] := nothing
    rw [empty]
    rfl

end CBloomFilter

end Agouti
