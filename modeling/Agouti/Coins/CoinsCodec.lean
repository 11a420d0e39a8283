import Agouti.Coins.Coins
import Agouti.Coins.Compressor

/-! # The stored form of coins

`CCoins::Serialize` and `CCoins::Unserialize` of `coins.h`. One header number
packs the flags, the availability of the first two outputs and the number of mask
bytes that are not zero; the mask bytes follow up to the last one that is not
zero, then the unspent outputs and the height.

**Round trip (`coins_readBack`).** Every entry with an unspent output whose fields
are in the ranges the chain gives them (`CCoins.Storable`) is read back up to spent
outputs at its end, and exactly its bytes are consumed, whatever its flags and
whichever of its outputs are spent.
-/

namespace Agouti

open Reader Function Option

namespace CCoins

/-- Some output of byte `b` of the bitmask is unspent (`!fZero`). -/
def maskByteUsed (coins : CCoins) (b : Nat) : Bool :=
  (List.range 8).any fun i => coins.isAvailable (2 + b * 8 + i)

/-- `CCoins::CalcMaskSize`: the mask bytes up to the last one in use, and how many
of them are in use. -/
def calcMaskSize (coins : CCoins) : Nat × Nat :=
  (List.range ((coins.vout.length + 5) / 8)).foldl
    (fun (nLastUsedByte, nNonzeroBytes) b =>
      if coins.maskByteUsed b then (b + 1, nNonzeroBytes + 1) else (nLastUsedByte, nNonzeroBytes))
    (0, 0)

/-- `chAvail` of mask byte `b`. -/
def availByte (coins : CCoins) (b : Nat) : UInt8 :=
  (List.range 8).foldl
    (fun chAvail i =>
      if coins.isAvailable (2 + b * 8 + i) then chAvail ||| (1 <<< UInt8.ofNat i) else chAvail) 0

def maskBits (chAvail : UInt8) : List Bool :=
  (List.range 8).map fun p => chAvail &&& (1 <<< UInt8.ofNat p) != 0

/-- The header code of `CCoins::Serialize`. -/
def headerCode (coins : CCoins) (nMaskCode : Nat) : Nat :=
  let fFirst := coins.isAvailable 0
  let fSecond := coins.isAvailable 1
  (16 * (nMaskCode - if fFirst || fSecond then 0 else 1) + (if coins.fCoinBase then 1 else 0) +
    (if coins.fCoinStake then 2 else 0) + (if fFirst then 4 else 0) + if fSecond then 8 else 0) %
      2 ^ 32

/-- What `CalcMaskSize` computes: the last byte counted is in use, no byte behind
it is, and the bytes in use are counted. -/
structure MaskSize (coins : CCoins) (nBytes nNonzeroBytes : Nat) : Prop where
  last : ∀ b, nBytes = b + 1 → coins.maskByteUsed b = true
  behind : ∀ b, nBytes ≤ b → coins.maskByteUsed b = false
  count : nNonzeroBytes = (List.range nBytes).countP coins.maskByteUsed

variable {coins : CCoins} {nBytes nNonzeroBytes : Nat}

theorem isAvailable_outside {nPos : Nat} (outside : coins.vout.length ≤ nPos) :
    coins.isAvailable nPos = false := by
  rw [isAvailable, List.getElem?_eq_none outside]
  rfl

theorem maskByteUsed_outside {b : Nat}
    (outside : (coins.vout.length + 5) / 8 ≤ b) : coins.maskByteUsed b = false := by
  rw [maskByteUsed, List.any_eq_false]
  intro i _
  rw [isAvailable_outside (by omega)]
  exact Bool.false_ne_true

theorem calcMaskSize_spec (coins : CCoins) :
    MaskSize coins coins.calcMaskSize.1 coins.calcMaskSize.2 := by
  -- the state of the loop after `n` bytes
  have loop : ∀ n, ∃ nBytes nNonzeroBytes,
      (List.range n).foldl
        (fun (nLastUsedByte, nNonzeroBytes) b =>
          if coins.maskByteUsed b then (b + 1, nNonzeroBytes + 1)
          else (nLastUsedByte, nNonzeroBytes)) (0, 0) = (nBytes, nNonzeroBytes) ∧ nBytes ≤ n ∧
      (∀ b, nBytes = b + 1 → coins.maskByteUsed b = true) ∧
      (∀ b, nBytes ≤ b → b < n → coins.maskByteUsed b = false) ∧
      nNonzeroBytes = (List.range nBytes).countP coins.maskByteUsed ∧
      nNonzeroBytes = (List.range n).countP coins.maskByteUsed := by
    intro n
    induction n with
    | zero =>
      refine ⟨0, 0, rfl, le_rfl, ?_, ?_, rfl, rfl⟩
      · intro b positive
        contradiction
      · intro b _ below
        contradiction
    | succ n ih =>
      obtain ⟨nBytes, nNonzeroBytes, state, within, last, behind, counted, all⟩ := ih
      rw [List.range_succ, List.foldl_append, state, List.countP_append, ← all]
      cases used : coins.maskByteUsed n with
      | true =>
        refine ⟨n + 1, nNonzeroBytes + 1, by simp [used], le_rfl, ?_, ?_, ?_, by simp [used]⟩
        · intro b same
          rwa [← Nat.succ_injective same]
        · intro b above below
          omega
        · rw [List.range_succ, List.countP_append, ← all]
          simp [used]
      | false =>
        refine ⟨nBytes, nNonzeroBytes, by simp [used], by omega, last, ?_, counted,
          by simp [used]⟩
        intro b above below
        by_cases here : b = n
        · rwa [here]
        · exact behind b above (by omega)
  obtain ⟨nBytes, nNonzeroBytes, state, within, last, behind, counted, -⟩ :=
    loop ((coins.vout.length + 5) / 8)
  rw [calcMaskSize, state]
  refine ⟨last, fun b above => ?_, counted⟩
  by_cases inside : b < (coins.vout.length + 5) / 8
  · exact behind b above inside
  · exact maskByteUsed_outside (Nat.not_lt.mp inside)

theorem maskBits_or (a₀ a₁ a₂ a₃ a₄ a₅ a₆ a₇ : Bool) :
    let chAvail : UInt8 :=
      (List.range 8).foldl
        (fun chAvail i =>
          if [a₀, a₁, a₂, a₃, a₄, a₅, a₆, a₇].getD i false then
            chAvail ||| (1 <<< UInt8.ofNat i)
          else chAvail) 0
    maskBits chAvail = [a₀, a₁, a₂, a₃, a₄, a₅, a₆, a₇] ∧
      (chAvail != 0) = [a₀, a₁, a₂, a₃, a₄, a₅, a₆, a₇].any id := by
  revert a₀ a₁ a₂ a₃ a₄ a₅ a₆ a₇
  decide +kernel

theorem availByte_spec (coins : CCoins) (b : Nat) :
    maskBits (coins.availByte b) =
        (List.range 8).map (fun i => coins.isAvailable (2 + b * 8 + i)) ∧
      (coins.availByte b != 0) = coins.maskByteUsed b :=
  maskBits_or (coins.isAvailable (2 + b * 8)) (coins.isAvailable (2 + b * 8 + 1))
    (coins.isAvailable (2 + b * 8 + 2)) (coins.isAvailable (2 + b * 8 + 3))
    (coins.isAvailable (2 + b * 8 + 4)) (coins.isAvailable (2 + b * 8 + 5))
    (coins.isAvailable (2 + b * 8 + 6)) (coins.isAvailable (2 + b * 8 + 7))

theorem maskBits_range (coins : CCoins) (nBytes : Nat) :
    ((List.range nBytes).map coins.availByte).flatMap maskBits =
      (List.range (nBytes * 8)).map fun i => coins.isAvailable (2 + i) := by
  induction nBytes with
  | zero => rfl
  | succ nBytes ih =>
    rw [List.range_succ, List.map_append, List.flatMap_append, ih, Nat.succ_mul,
      List.range_add, List.map_append, List.map_map]
    simp only [List.map_cons, List.map_nil, List.flatMap_cons, List.flatMap_nil, List.append_nil,
      (availByte_spec coins nBytes).1, comp_def, Nat.add_assoc]

theorem headerFlags (count : Nat) (coinBase coinStake first second : Bool) :
    let nCode := 16 * count + (if coinBase then 1 else 0) + (if coinStake then 2 else 0) +
      (if first then 4 else 0) + if second then 8 else 0
    nCode / 16 = count ∧ (nCode &&& 1 != 0) = coinBase ∧ (nCode &&& 2 != 0) = coinStake ∧
      (nCode &&& 4 != 0) = first ∧ (nCode &&& 8 != 0) = second ∧
        (nCode &&& 12 != 0) = (first || second) := by
  -- only the four lowest bits matter to a mask below 16
  have low : ∀ flags mask, flags < 16 → mask < 16 →
      (16 * count + flags) &&& mask = flags &&& mask := by
    intro flags mask small below
    have bits : ((16 * count + flags) &&& mask) % 2 ^ 4 = (flags &&& mask) % 2 ^ 4 := by
      rw [Nat.and_mod_two_pow, Nat.and_mod_two_pow]
      congr 1
      omega
    have bound : ∀ n, n &&& mask < 2 ^ 4 := fun n => lt_of_le_of_lt Nat.and_le_right below
    rwa [Nat.mod_eq_of_lt (bound _), Nat.mod_eq_of_lt (bound _)] at bits
  have none : ∀ mask, mask < 16 → 16 * count &&& mask = 0 := by
    intro mask below
    simpa using low 0 mask (by decide) below
  cases coinBase <;> cases coinStake <;> cases first <;> cases second <;>
    simp [Nat.add_assoc, low, none] <;> omega

variable [Secp256k1]

/-- `CCoins::Serialize`; nothing when its assertion fails. -/
def serialize (coins : CCoins) : Option (List UInt8) :=
  let (nMaskSize, nMaskCode) := coins.calcMaskSize
  if coins.isAvailable 0 || coins.isAvailable 1 || nMaskCode != 0 then
    some (writeVarIntSigned coins.nVersion ++ (writeVarInt (coins.headerCode nMaskCode) ++
      ((List.range nMaskSize).map coins.availByte ++
        ((coins.vout.flatMap fun txout =>
          if txout.isNull then [] else CTxOutCompressor.serialize txout) ++
            writeVarIntSigned coins.nHeight))))
  else none

def unserialize : Reader UInt8 CCoins := do
  let nVersion ← readVarIntSigned
  let nCode ← readVarInt 32
  let nMaskCode := nCode / 16 + if nCode &&& 12 != 0 then 0 else 1
  let mask ← (untilMarked (fun chAvail => chAvail != 0) nMaskCode : Reader UInt8 (List UInt8))
  let vAvail := [nCode &&& 4 != 0, nCode &&& 8 != 0] ++ mask.flatMap maskBits
  let vout ← vAvail.mapM fun available =>
    if available then CTxOutCompressor.unserialize else pure .null
  let nHeight ← readVarIntSigned
  return CCoins.cleanup
    { fCoinBase := nCode &&& 1 != 0, fCoinStake := nCode &&& 2 != 0, vout := vout,
      nHeight := nHeight, nVersion := nVersion }

def outputBytes (coins : CCoins) (nPos : Nat) : List UInt8 :=
  (coins.unspent nPos).elim [] CTxOutCompressor.serialize

def rereadOutput (txout : CTxOut) : CTxOut :=
  if txout.isNull then .null else CTxOutCompressor.reread txout

omit [Secp256k1] in
theorem flatMap_positions {β : Type} (vout : List CTxOut) (written : CTxOut → List β)
    (count : Nat)
    (behind : ∀ i txout, count ≤ i → vout[i]? = some txout → written txout = []) :
    vout.flatMap written =
      (List.range count).flatMap fun i => (vout[i]?).elim [] written := by
  induction vout generalizing count with
  | nil => simp
  | cons head vout ih =>
    cases count with
    | zero =>
      rw [List.range_zero, List.flatMap_nil, List.flatMap_eq_nil_iff]
      intro txout member
      obtain ⟨i, found⟩ := List.getElem?_of_mem member
      exact behind i txout (Nat.zero_le i) found
    | succ count =>
      rw [List.range_succ_eq_map, List.flatMap_cons, List.flatMap_cons, List.flatMap_map]
      congr 1
      apply ih
      intro i txout above found
      exact behind (i + 1) txout (Nat.succ_le_succ above) found

omit [Secp256k1] in
theorem rdropWhile_positions (vout : List CTxOut) (count : Nat)
    (behind : ∀ i txout, count ≤ i → vout[i]? = some txout → txout.isNull = true) :
    ((List.range count).map fun i => (vout[i]?).getD .null).rdropWhile CTxOut.isNull =
      vout.rdropWhile CTxOut.isNull := by
  have dropped : ∀ front back : List CTxOut, (∀ txout ∈ back, txout.isNull = true) →
      (front ++ back).rdropWhile CTxOut.isNull = front.rdropWhile CTxOut.isNull := by
    intro front back null
    rw [List.rdropWhile, List.reverse_append, List.dropWhile_append_of_pos, List.rdropWhile]
    intro txout member
    exact null txout (List.mem_reverse.mp member)
  have padded : ((List.range count).map fun i => (vout[i]?).getD .null) =
      vout.take count ++ List.replicate (count - vout.length) CTxOut.null := by
    apply List.ext_getElem?
    intro i
    by_cases below : i < count
    · rw [List.getElem?_map, List.getElem?_range below, map_some]
      by_cases inside : i < vout.length
      · rw [List.getElem?_append_left (by rw [List.length_take]; omega),
          List.getElem?_take_of_lt below, List.getElem?_eq_getElem inside, getD_some]
      · rw [List.getElem?_eq_none (Nat.not_lt.mp inside), getD_none,
          List.getElem?_append_right (by rw [List.length_take]; omega), List.length_take,
          List.getElem?_replicate, if_pos (by omega)]
    · rw [List.getElem?_eq_none (by simpa using below),
        List.getElem?_eq_none (by simp only [List.length_append, List.length_take,
          List.length_replicate]; omega)]
  have split := List.take_append_drop count vout
  rw [padded, dropped _ _ fun txout member => by rw [List.eq_of_mem_replicate member]; rfl]
  conv_rhs => rw [← split]
  refine (dropped _ _ fun txout member => ?_).symm
  obtain ⟨i, found⟩ := List.getElem?_of_mem member
  rw [List.getElem?_drop] at found
  exact behind (count + i) txout (Nat.le_add_right _ _) found

def reread (coins : CCoins) : CCoins :=
  CCoins.cleanup { coins with vout := coins.vout.map rereadOutput }

/-- The ranges of the metadata and the sizes of an entry. -/
structure Sized (coins : CCoins) : Prop where
  version : 0 ≤ coins.nVersion ∧ coins.nVersion < 2 ^ 31
  height : 0 ≤ coins.nHeight ∧ coins.nHeight < 2 ^ 31
  outputs : coins.vout.length + 5 < 2 ^ 31
  scripts : ∀ txout ∈ coins.vout,
    txout.scriptPubKey.length + CScriptCompressor.nSpecialScripts < 2 ^ 32

omit [Secp256k1] in
theorem MaskSize.unspent_behind (mask : MaskSize coins nBytes nNonzeroBytes) {nPos : Nat}
    (behind : 2 + nBytes * 8 ≤ nPos) :
    coins.unspent nPos = none := by
  have unused := mask.behind ((nPos - 2) / 8) (by omega)
  rw [maskByteUsed, List.any_eq_false] at unused
  have here := unused ((nPos - 2) % 8) (List.mem_range.mpr (Nat.mod_lt _ (by decide)))
  have same : 2 + (nPos - 2) / 8 * 8 + (nPos - 2) % 8 = nPos := by omega
  rw [same, isAvailable_eq] at here
  exact not_isSome_iff_eq_none.mp here

omit [Secp256k1] in
/-- The assertion of `Serialize` holds when an output is unspent. -/
theorem maskCode_of_live (live : coins.isPruned = false)
    (mask : MaskSize coins nBytes nNonzeroBytes) :
    (coins.isAvailable 0 || coins.isAvailable 1 || nNonzeroBytes != 0) = true := by
  by_contra none
  simp only [Bool.or_eq_true, bne_iff_ne, not_or, not_not, Bool.not_eq_true] at none
  obtain ⟨⟨first, second⟩, zero⟩ := none
  have empty : nBytes = 0 := by
    cases size : nBytes with
    | zero => rfl
    | succ b =>
      have counted := mask.count
      rw [zero, eq_comm, List.countP_eq_zero] at counted
      exact absurd (mask.last b size) (counted b (List.mem_range.mpr (by omega)))
  have pruned : coins.isPruned = true := by
    rw [isPruned_iff]
    intro nPos
    by_cases behind : 2 ≤ nPos
    · exact mask.unspent_behind (by omega)
    · rw [isAvailable_eq] at first second
      have cases : nPos = 0 ∨ nPos = 1 := by omega
      rcases cases with rfl | rfl
      · exact not_isSome_iff_eq_none.mp (by rw [first]; exact Bool.false_ne_true)
      · exact not_isSome_iff_eq_none.mp (by rw [second]; exact Bool.false_ne_true)
  rw [live] at pruned
  exact Bool.noConfusion pruned

omit [Secp256k1] in
theorem reads_mask (coins : CCoins) (mask : MaskSize coins nBytes nNonzeroBytes) :
    Reads (untilMarked (fun chAvail => chAvail != 0) nNonzeroBytes)
      ((List.range nBytes).map coins.availByte) ((List.range nBytes).map coins.availByte) := by
  have counted : ((List.range nBytes).map coins.availByte).countP (fun chAvail => chAvail != 0) =
      nNonzeroBytes := by
    rw [List.countP_map, mask.count]
    congr 1
    funext b
    exact (availByte_spec coins b).2
  rw [← counted]
  apply reads_untilMarked
  intro chAvail found
  cases size : nBytes with
  | zero =>
    rw [size] at found
    contradiction
  | succ b =>
    rw [size, List.range_succ, List.map_append, List.map_singleton, List.getLast?_concat] at found
    rw [← some.inj found, (availByte_spec coins b).2]
    exact mask.last b size

theorem reads_outputs (curve : Secp256k1.Decompresses) (sized : coins.Sized) (count : Nat) :
    Reads
      (((List.range count).map coins.isAvailable).mapM fun available =>
        if available then CTxOutCompressor.unserialize else pure .null)
      ((List.range count).flatMap coins.outputBytes)
      ((List.range count).map fun i => ((coins.vout.map rereadOutput)[i]?).getD .null) := by
  rw [List.mapM_map]
  apply Reads.mapM
  intro i _
  rw [comp_apply, isAvailable_eq, outputBytes, List.getElem?_map]
  cases found : coins.unspent i with
  | none =>
    have absent := unspent_eq_none.mp found
    have null : ((coins.vout[i]?).map rereadOutput).getD .null = .null := by
      cases entry : coins.vout[i]? with
      | none => rfl
      | some txout => simp only [map_some, getD_some, rereadOutput, absent txout entry,
          ↓reduceIte]
    rw [null]
    exact reads_pure _
  | some txout =>
    obtain ⟨entry, live⟩ := unspent_eq_some.mp found
    rw [entry, map_some, getD_some, rereadOutput, live]
    exact CTxOutCompressor.reads_reread curve (sized.scripts txout (List.mem_of_getElem? entry))

omit [Secp256k1] in
theorem headerCode_spec (mask : MaskSize coins nBytes nNonzeroBytes)
    (outputs : coins.vout.length + 5 < 2 ^ 31) (live : coins.isPruned = false) :
    let nCode := coins.headerCode nNonzeroBytes
    nCode < 2 ^ 32 ∧ (nCode / 16 + if nCode &&& 12 != 0 then 0 else 1) = nNonzeroBytes ∧
      (nCode &&& 1 != 0) = coins.fCoinBase ∧ (nCode &&& 2 != 0) = coins.fCoinStake ∧
        (nCode &&& 4 != 0) = coins.isAvailable 0 ∧ (nCode &&& 8 != 0) = coins.isAvailable 1 := by
  have within : nBytes ≤ (coins.vout.length + 5) / 8 := by
    cases size : nBytes with
    | zero => exact Nat.zero_le _
    | succ b =>
      by_contra beyond
      have used := mask.last b size
      rw [maskByteUsed_outside (by omega)] at used
      exact Bool.noConfusion used
  have counted : nNonzeroBytes ≤ nBytes := by
    have bound : (List.range nBytes).countP coins.maskByteUsed ≤ (List.range nBytes).length :=
      List.countP_le_length
    rwa [List.length_range, ← mask.count] at bound
  have asserted := maskCode_of_live live mask
  unfold headerCode
  generalize coins.isAvailable 0 = first at asserted ⊢
  generalize coins.isAvailable 1 = second at asserted ⊢
  have small : ∀ (flag : Bool) (n : Nat), (if flag then n else 0) ≤ n := by
    intro flag n
    cases flag <;> simp
  have flags := headerFlags (nNonzeroBytes - if first || second then 0 else 1) coins.fCoinBase
    coins.fCoinStake first second
  have one := small coins.fCoinBase 1
  have two := small coins.fCoinStake 2
  have four := small first 4
  have eight := small second 8
  have fewer : nNonzeroBytes - (if first || second then 0 else 1) ≤ nNonzeroBytes :=
    Nat.sub_le _ _
  rw [Nat.mod_eq_of_lt (by omega)]
  obtain ⟨count, coinBase, coinStake, isFirst, isSecond, either⟩ := flags
  refine ⟨by omega, ?_, coinBase, coinStake, isFirst, isSecond⟩
  rw [count, either]
  cases pair : (first || second) with
  | true => simp
  | false =>
    rw [pair, Bool.false_or, bne_iff_ne] at asserted
    simp only [Bool.false_eq_true, ↓reduceIte]
    omega

omit [Secp256k1] in
theorem vAvail_eq (coins : CCoins) (nBytes : Nat) :
    [coins.isAvailable 0, coins.isAvailable 1] ++
        ((List.range nBytes).map coins.availByte).flatMap maskBits =
      (List.range (2 + nBytes * 8)).map coins.isAvailable := by
  rw [maskBits_range, List.range_add, List.map_append, List.map_map]
  rfl

/-- What is read back for any entry with an unspent output: its flags, its metadata
and its outputs as the compact form keeps them. -/
theorem reads_reread (curve : Secp256k1.Decompresses) (live : coins.isPruned = false)
    (sized : coins.Sized) :
    ∃ bytes, coins.serialize = some bytes ∧ Reads unserialize bytes coins.reread := by
  have mask := calcMaskSize_spec coins
  unfold serialize
  generalize coins.calcMaskSize = computed at mask
  obtain ⟨nMaskSize, nMaskCode⟩ := computed
  simp only at mask ⊢
  rw [if_pos (maskCode_of_live live mask)]
  refine ⟨_, rfl, ?_⟩
  obtain ⟨fits, count, coinBase, coinStake, first, second⟩ :=
    headerCode_spec mask sized.outputs live
  -- positions behind the mask are spent, so writer and reader agree on the positions
  have behind : ∀ i txout, 2 + nMaskSize * 8 ≤ i → coins.vout[i]? = some txout →
      txout.isNull = true := fun i txout beyond found =>
    unspent_eq_none.mp (mask.unspent_behind beyond) txout found
  have written : (coins.vout.flatMap fun txout =>
      if txout.isNull then [] else CTxOutCompressor.serialize txout) =
        (List.range (2 + nMaskSize * 8)).flatMap coins.outputBytes := by
    rw [flatMap_positions _ _ (2 + nMaskSize * 8)
      fun i txout beyond found => if_pos (behind i txout beyond found)]
    congr 1
    funext i
    rw [outputBytes, unspent]
    cases coins.vout[i]? with
    | none => rfl
    | some txout => cases null : txout.isNull <;> simp [Option.filter, null]
  have kept : ((List.range (2 + nMaskSize * 8)).map fun i =>
      ((coins.vout.map rereadOutput)[i]?).getD .null).rdropWhile CTxOut.isNull =
        (coins.vout.map rereadOutput).rdropWhile CTxOut.isNull := by
    apply rdropWhile_positions
    intro i txout beyond found
    rw [List.getElem?_map, map_eq_some_iff] at found
    obtain ⟨old, entry, rfl⟩ := found
    rw [rereadOutput, if_pos (behind i old beyond entry)]
    rfl
  unfold unserialize
  refine (reads_varIntSigned sized.version.1 sized.version.2).bind ?_
  refine (reads_varInt fits).bind ?_
  simp only [count, coinBase, coinStake, first, second]
  refine (reads_mask coins mask).bind ?_
  rw [vAvail_eq, written]
  refine (reads_outputs curve sized (2 + nMaskSize * 8)).bind ?_
  rw [← List.append_nil (writeVarIntSigned coins.nHeight)]
  refine (reads_varIntSigned sized.height.1 sized.height.2).bind ?_
  rw [reread, cleanup, cleanup]
  simp only [kept]
  exact reads_pure _

/-- An entry as the node makes them: its outputs are spent and null, or compressible. -/
structure Storable (coins : CCoins) : Prop extends Sized coins where
  spent : ∀ txout ∈ coins.vout, txout.isNull = true → txout = .null
  unspent : ∀ txout ∈ coins.vout, txout.isNull = false → txout.Compressible

omit [Secp256k1] in
theorem Storable.reread (storable : coins.Storable) :
    coins.reread = coins.cleanup := by
  have same : coins.vout.map rereadOutput = coins.vout := by
    refine (List.map_congr_left fun txout member => ?_).trans (List.map_id coins.vout)
    rw [rereadOutput]
    cases null : txout.isNull with
    | true => exact (storable.spent txout member null).symm
    | false => exact (storable.unspent txout member null).reread
  rw [CCoins.reread, same]

/-- The entry is written, and reading the written bytes gives it back without spent
outputs at its end, whatever bytes follow. -/
def ReadBack (coins : CCoins) : Prop :=
  ∃ bytes, coins.serialize = some bytes ∧
    ∀ rest, unserialize.run (bytes ++ rest) = some (coins.cleanup, rest)

end CCoins

/-- **Coins are read back.** Whatever the flags and whichever outputs are spent, an
entry with an unspent output is written, reading the bytes consumes exactly them,
and the result is the entry up to spent outputs at its end. -/
theorem coins_readBack [Secp256k1] (curve : Secp256k1.Decompresses) (coins : CCoins)
    (live : coins.isPruned = false) (storable : coins.Storable) : coins.ReadBack := by
  obtain ⟨bytes, written, read⟩ := CCoins.reads_reread curve live storable.toSized
  rw [storable.reread] at read
  exact ⟨bytes, written, read⟩

/-- A curve without points: no script of the entries below holds a key. -/
@[reducible] def noKeys : Secp256k1 where
  isFullyValid _ := false
  decompress _ := none

theorem noKeys_decompresses : noKeys.Decompresses := fun _ _ _ _ _ valid => Bool.noConfusion valid

/-- A coinstake whose outputs 0, 1, 2 and 4 are spent. -/
def partlySpent : CCoins :=
  { fCoinStake := true, nHeight := 120891, nVersion := 1,
    vout := [.null, .null, .null, ⟨250 * COIN, [CScript.OP_1], -10⟩, .null] }

theorem coins_readBack_partlySpent : @CCoins.ReadBack noKeys partlySpent := by
  refine @coins_readBack noKeys noKeys_decompresses partlySpent (by decide) ?_
  refine ⟨⟨by decide, by decide, by decide, by decide⟩, by decide, fun txout member live => ?_⟩
  have only : txout = ⟨250 * COIN, [CScript.OP_1], -10⟩ := by
    revert live
    revert txout
    decide
  rw [only]
  exact ⟨by decide, by decide, by decide, rfl⟩

/-- One output of an amount whose compressed form does not fit 64 bits. -/
def hugeAmount : CCoins := { vout := [⟨2 ^ 63 - 1, [], -10⟩] }

/-- An entry of `count` unspent outputs. -/
def manyOutputs (count : Nat) : CCoins := { vout := List.replicate count ⟨0, [], -10⟩ }

namespace CCoins

theorem manyOutputs_isAvailable (count nPos : Nat) :
    (manyOutputs count).isAvailable nPos = decide (nPos < count) := by
  rw [isAvailable, manyOutputs, List.getElem?_replicate]
  by_cases inside : nPos < count
  · simp only [inside, ↓reduceIte]
    rfl
  · simp only [inside, ↓reduceIte]
    rfl

theorem manyOutputs_cleanup (count : Nat) : (manyOutputs count).cleanup = manyOutputs count := by
  unfold cleanup manyOutputs
  rw [List.rdropWhile_eq_self_iff.mpr]
  intro nonempty
  rw [List.getLast_replicate]
  exact Bool.false_ne_true

theorem manyOutputs_maskSize (nBytes : Nat) :
    (manyOutputs (2 + nBytes * 8)).calcMaskSize = (nBytes, nBytes) := by
  have used : ∀ b, (manyOutputs (2 + nBytes * 8)).maskByteUsed b = decide (b < nBytes) := by
    intro b
    rw [maskByteUsed, Bool.eq_iff_iff, List.any_eq_true, decide_eq_true_eq]
    constructor
    · intro ⟨i, member, available⟩
      rw [manyOutputs_isAvailable, decide_eq_true_eq] at available
      omega
    · intro below
      refine ⟨0, List.mem_range.mpr (by decide), ?_⟩
      rw [manyOutputs_isAvailable, decide_eq_true_eq]
      omega
  obtain ⟨last, behind, count⟩ := calcMaskSize_spec (manyOutputs (2 + nBytes * 8))
  generalize (manyOutputs (2 + nBytes * 8)).calcMaskSize = computed at last behind count
  obtain ⟨size, code⟩ := computed
  simp only [used, decide_eq_true_eq, decide_eq_false_iff_not] at last behind count
  have same : size = nBytes := by
    have least : nBytes ≤ size := by
      by_contra fewer
      exact behind size le_rfl (by omega)
    cases size with
    | zero => omega
    | succ b =>
      have below := last b rfl
      omega
  rw [same] at count
  have counted : code = nBytes := by
    rw [count, List.countP_eq_length.mpr, List.length_range]
    intro b member
    rw [used]
    exact decide_eq_true (List.mem_range.mp member)
  rw [same, counted]

variable [Secp256k1]

theorem unserialize_twelve {stream left : List UInt8} {result : CCoins}
    (read : unserialize.run (writeVarIntSigned 0 ++ (writeVarInt 12 ++ stream)) =
      some (result, left)) : result.vout.length ≤ 2 := by
  unfold unserialize at read
  rw [(reads_varIntSigned le_rfl (by decide)).run_bind,
    (reads_varInt (by decide)).run_bind] at read
  simp only [show 12 / 16 + (if (12 &&& 12 != 0) = true then 0 else 1) = 0 from rfl] at read
  obtain ⟨mask, middle, masked, read⟩ := of_run_bind read
  rw [StateT.run, untilMarked] at masked
  have empty : [] = mask := congrArg Prod.fst (some.inj masked)
  obtain ⟨vout, later, outputs, read⟩ := of_run_bind read
  obtain ⟨nHeight, last, -, read⟩ := of_run_bind read
  have two := length_of_mapM outputs
  rw [← empty, List.flatMap_nil] at two
  rw [StateT.run_pure] at read
  have entry := congrArg (fun pair => pair.1.vout.length) (some.inj read)
  refine le_of_eq_of_le entry.symm ?_
  exact le_of_le_of_eq (List.rdropWhile_prefix CTxOut.isNull vout).length_le two

/-- From a full count of `2 ^ 28` mask bytes on, the header code is that of an entry of
two outputs. -/
theorem manyOutputs_not_readBack : ¬(manyOutputs (2 + 2 ^ 28 * 8)).ReadBack := by
  intro ⟨bytes, written, read⟩
  have available : ∀ nPos < 2, (manyOutputs (2 + 2 ^ 28 * 8)).isAvailable nPos = true := by
    intro nPos below
    rw [manyOutputs_isAvailable]
    exact decide_eq_true (by omega)
  have code : (manyOutputs (2 + 2 ^ 28 * 8)).headerCode (2 ^ 28) = 12 := by
    rw [headerCode, available 0 (by decide), available 1 (by decide)]
    rfl
  rw [serialize, manyOutputs_maskSize, available 0 (by decide)] at written
  simp only [Bool.true_or, ↓reduceIte, code, some.injEq] at written
  have same := read []
  rw [List.append_nil, ← written, manyOutputs_cleanup] at same
  have short := unserialize_twelve same
  rw [manyOutputs, List.length_replicate] at short
  omega

theorem hugeAmount_not_readBack (curve : Secp256k1.Decompresses) : ¬hugeAmount.ReadBack := by
  intro ⟨bytes, written, read⟩
  have sized : hugeAmount.Sized := ⟨by decide, by decide, by decide, by decide⟩
  obtain ⟨again, same, reread⟩ := reads_reread curve (by decide) sized
  rw [written] at same
  have equal := (read []).symm.trans ((some.inj same) ▸ reread [])
  have amounts : hugeAmount.cleanup = hugeAmount.reread :=
    congrArg Prod.fst (some.inj equal)
  revert amounts
  decide +kernel

end CCoins

/-- Neither every number of outputs nor every amount is read back: the count of mask
bytes wraps in the 32-bit header code, and the compressed amount in 64 bits. -/
theorem coins_not_readBack :
    ¬(∀ coins : CCoins, coins.isPruned = false → 0 ≤ coins.nVersion → 0 ≤ coins.nHeight →
        (∀ txout ∈ coins.vout, txout.nValue = 0) → @CCoins.ReadBack noKeys coins) ∧
      ¬(∀ coins : CCoins, coins.isPruned = false → 0 ≤ coins.nVersion → 0 ≤ coins.nHeight →
        coins.vout.length = 1 → @CCoins.ReadBack noKeys coins) := by
  constructor
  · intro all
    refine @CCoins.manyOutputs_not_readBack noKeys (all _ ?_ le_rfl le_rfl ?_)
    · rw [CCoins.isPruned, manyOutputs, List.all_eq_false]
      exact ⟨_, List.mem_replicate.mpr ⟨by omega, rfl⟩, Bool.false_ne_true⟩
    · intro txout member
      rw [List.eq_of_mem_replicate member]
  · intro all
    exact @CCoins.hugeAmount_not_readBack noKeys noKeys_decompresses
      (all hugeAmount (by decide) le_rfl le_rfl rfl)

end Agouti
