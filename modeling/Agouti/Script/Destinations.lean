import Agouti.Primitives.TransactionCodec
import Agouti.Script.Solver

/-! # Destinations of output scripts

What `Solver` returns for every script (`Solver.solver_solves`), and with it the destinations: a
destination is found in its own script again. The scripts with which the functions do not do what is
asked of them are the single byte `OP_ZEROCOINMINT` and those that `IsNormalPaymentScript` takes for
payments although the push of the hash has another form (`Solver.OddPush`).
-/

namespace Agouti

open List Option Serialize

namespace Solver

open CScript TxnOutType Outcome

/-- What `Solver` returns and writes, by the kind of script. -/
inductive Solves (script : CScript) (before : List Valtype) : Solved → Prop
  | scriptHash {vch : Valtype} (sized : vch.length = 20) :
      Solves script before ⟨true, TX_SCRIPTHASH, before ++ [vch]⟩
  | mint (result : Bool) (solutions : List Valtype) :
      Solves script before ⟨result, TX_ZEROCOINMINT, solutions⟩
  | data : Solves script before ⟨true, TX_NULL_DATA, before⟩
  | pubKey {vch : Valtype} (sized : KeySized vch) : Solves script before ⟨true, TX_PUBKEY, [vch]⟩
  | pubKeyHash {vch : Valtype} (sized : vch.length = 20) :
      Solves script before ⟨true, TX_PUBKEYHASH, [vch]⟩
  | multisig {result : Bool} {m n : Nat} {keys : List Valtype} (shape : IsMultisig script m keys n)
      (sized : ∀ key ∈ keys, KeySized key)
      (valid : result = true ↔ 1 ≤ m ∧ m ≤ n ∧ keys.length = n) :
      Solves script before ⟨result, TX_MULTISIG, [UInt8.ofNat m] :: (keys ++ [[UInt8.ofNat n]])⟩
  | nonstandard : Solves script before ⟨false, TX_NONSTANDARD, []⟩

theorem toNat_small {n : Nat} (small : n ≤ 16) : (UInt8.ofNat n).toNat = n := by
  rw [UInt8.toNat_ofNat']
  omega

theorem matched_multisig {m n : Nat} {keys : List Valtype} (mSmall : m ≤ 16) (nSmall : n ≤ 16) :
    ∃ result, matched TX_MULTISIG ([UInt8.ofNat m] :: (keys ++ [[UInt8.ofNat n]])) =
        .ok ⟨result, TX_MULTISIG, [UInt8.ofNat m] :: (keys ++ [[UInt8.ofNat n]])⟩ ∧
      (result = true ↔ 1 ≤ m ∧ m ≤ n ∧ keys.length = n) := by
  have back : readBack ([UInt8.ofNat m] :: (keys ++ [[UInt8.ofNat n]])) = .ok [UInt8.ofNat n] := by
    apply readAt_eq
    simp
  have done : matched TX_MULTISIG ([UInt8.ofNat m] :: (keys ++ [[UInt8.ofNat n]])) =
      .ok ⟨!(decide (UInt8.ofNat m < 1) || decide (UInt8.ofNat n < 1) ||
        decide (UInt8.ofNat n < UInt8.ofNat m) ||
        ([UInt8.ofNat m] :: (keys ++ [[UInt8.ofNat n]])).length - 2 != (UInt8.ofNat n).toNat),
        TX_MULTISIG, [UInt8.ofNat m] :: (keys ++ [[UInt8.ofNat n]])⟩ := by
    rw [matched, if_pos rfl, readAt_eq rfl, ok_bind, readAt_eq rfl, ok_bind, back, ok_bind,
      readAt_eq rfl, ok_bind]
  refine ⟨_, done, ?_⟩
  · simp only [Bool.not_eq_true', Bool.or_eq_false_iff, decide_eq_false_iff_not, bne_eq_false_iff_eq,
      UInt8.lt_iff_toNat_lt, toNat_small mSmall, toNat_small nSmall, length_cons,
      length_append, length_nil, UInt8.toNat_one]
    omega

theorem scan_solves (script : CScript) (before : List Valtype) :
    ∃ solved, scan script mTemplates = .ok solved ∧ Solves script before solved := by
  unfold mTemplates
  rw [scan]
  cases key : compare [OP_PUBKEY, OP_CHECKSIG] script [] with
  | some solutions =>
    obtain ⟨opcode, vch, -, sized, rfl⟩ := compare_pubKey.mp key
    exact ⟨_, rfl, .pubKey sized⟩
  | none =>
    dsimp only
    rw [scan]
    cases keyHash : compare [OP_DUP, OP_HASH160, OP_PUBKEYHASH, OP_EQUALVERIFY, OP_CHECKSIG]
        script [] with
    | some solutions =>
      obtain ⟨tail, opcode, vch, -, -, sized, rfl⟩ := compare_pubKeyHash.mp keyHash
      exact ⟨_, rfl, .pubKeyHash sized⟩
    | none =>
      dsimp only
      rw [scan]
      cases keys : compare [OP_SMALLINTEGER, OP_PUBKEYS, OP_SMALLINTEGER, OP_CHECKMULTISIG]
          script [] with
      | some solutions =>
        obtain ⟨m, keys, n, shape, sized, mSmall, nSmall, rfl⟩ := compare_multisig keys
        obtain ⟨result, done, valid⟩ := matched_multisig mSmall nSmall
        exact ⟨_, done, .multisig shape sized valid⟩
      | none => exact ⟨_, rfl, .nonstandard⟩

theorem solver_eq (script : CScript) (before : List Valtype) :
    solver script before =
      if script.isPayToScriptHash then do
        let hashBytes ← vectorOf script 2 22
        .ok ⟨true, TX_SCRIPTHASH, before ++ [hashBytes]⟩
      else if script.isZerocoinMint then
        if 150 < script.length then .ok ⟨false, TX_ZEROCOINMINT, before⟩
        else do
          let hashBytes ← vectorOf script 2 script.length
          .ok ⟨true, TX_ZEROCOINMINT, before ++ [hashBytes]⟩
      else if script.startsWith OP_RETURN && isPushOnly (script.drop 1) then
        .ok ⟨true, TX_NULL_DATA, before⟩
      else scan script mTemplates := by
  rw [solver, isPayToScriptHash_eq, ok_bind, beginsWith_eq, beginsWith_eq]
  rfl

variable {script : CScript}

/-- **`Solver` returns for every script but the single byte of a mint.** -/
theorem solver_solves (other : script ≠ [OP_ZEROCOINMINT]) (before : List Valtype) :
    ∃ solved, solver script before = .ok solved ∧ Solves script before solved := by
  rw [solver_eq]
  split
  · rename_i toScriptHash
    have size : script.length = 23 := by
      unfold CScript.isPayToScriptHash at toScriptHash
      simp only [Bool.and_eq_true, beq_iff_eq] at toScriptHash
      exact toScriptHash.1.1.1
    rw [vectorOf, if_pos (by omega), ok_bind]
    refine ⟨_, rfl, .scriptHash ?_⟩
    rw [length_drop, length_take_of_le (by omega)]
  split
  · rename_i mint
    split
    · exact ⟨_, rfl, .mint _ _⟩
    · have two : 2 ≤ script.length := by
        match script with
        | [] => cases mint
        | [byte] =>
          obtain rfl : byte = OP_ZEROCOINMINT := some.inj (beq_iff_eq.mp mint)
          exact absurd rfl other
        | first :: second :: rest => simp
      rw [vectorOf, if_pos ⟨two, le_rfl⟩, ok_bind]
      exact ⟨_, rfl, .mint _ _⟩
  split
  · exact ⟨_, rfl, .data⟩
  · exact scan_solves script before

theorem solver_mint (before : List Valtype) :
    solver [OP_ZEROCOINMINT] before = .error .badRange := rfl

theorem uint160_eq {vch : Valtype} (sized : vch.length = 20) :
    uint160 vch = .ok (BitVec.ofNat 160 (littleEndian vch)) := if_neg (not_not.mpr sized)

/-! ## Scripts of destinations -/

theorem getOp_hash (id : Uint160) (rest : CScript) :
    getOp (pushData (le 20 id.toNat) ++ rest) =
      some (20, le 20 id.toNat, rest) := by
  have length : (le 20 id.toNat).length = 20 := length_le 20 id.toNat
  rw [pushData, length, if_pos (by decide), cons_append]
  exact getOp_short (by decide) length rest

theorem hash_roundTrip (id : Uint160) :
    BitVec.ofNat 160 (littleEndian (le 20 id.toNat)) = id := by
  rw [littleEndian_le, Nat.mod_eq_of_lt id.isLt, BitVec.ofNat_toNat, BitVec.setWidth_eq]

theorem keyID_length (id : Uint160) : (getScriptForDestination (.keyID id)).length = 25 := by
  have length : (le 20 id.toNat).length = 20 := length_le 20 id.toNat
  rw [getScriptForDestination, pushData, length, if_pos (by decide)]
  simp [length]

/-! ## Destinations -/

section

variable [Crypto]

variable {script : CScript}

theorem extractDestination_keyHash {vch : Valtype}
    (done : solver script [] = .ok ⟨true, TX_PUBKEYHASH, [vch]⟩) (sized : vch.length = 20) :
    extractDestination script = .ok (some (.keyID (BitVec.ofNat 160 (littleEndian vch)))) := by
  rw [extractDestination, done, ok_bind]
  show (do let id ← uint160 vch; .ok (some (CTxDestination.keyID id))) = _
  rw [uint160_eq sized]
  rfl

theorem extractDestination_scriptHash {vch : Valtype}
    (done : solver script [] = .ok ⟨true, TX_SCRIPTHASH, [vch]⟩) (sized : vch.length = 20) :
    extractDestination script = .ok (some (.scriptID (BitVec.ofNat 160 (littleEndian vch)))) := by
  rw [extractDestination, done, ok_bind]
  show (do let id ← uint160 vch; .ok (some (CTxDestination.scriptID id))) = _
  rw [uint160_eq sized]
  rfl

theorem extractDestination_returns (other : script ≠ [OP_ZEROCOINMINT]) :
    ∃ address, extractDestination script = .ok address := by
  obtain ⟨solved, done, solves⟩ := solver_solves other []
  cases solves with
  | scriptHash sized => exact ⟨_, extractDestination_scriptHash done sized⟩
  | pubKeyHash sized => exact ⟨_, extractDestination_keyHash done sized⟩
  | mint result solutions =>
    rw [extractDestination, done]
    cases result <;> exact ⟨_, rfl⟩
  | @multisig result =>
    rw [extractDestination, done]
    cases result <;> exact ⟨_, rfl⟩
  | _ =>
    rw [extractDestination, done]
    exact ⟨_, rfl⟩

theorem extractDestinations_returns (other : script ≠ [OP_ZEROCOINMINT])
    (nRequiredRet : Int) : ∃ extracted, extractDestinations script nRequiredRet = .ok extracted := by
  obtain ⟨solved, done, solves⟩ := solver_solves other []
  obtain ⟨address, found⟩ := extractDestination_returns other
  rw [extractDestinations, done, ok_bind, found]
  cases solves with
  | @multisig result => cases result <;> exact ⟨_, rfl⟩
  | mint result solutions => cases result <;> cases address <;> exact ⟨_, rfl⟩
  | _ => cases address <;> exact ⟨_, rfl⟩

/-- **The destination of a key hash is found in its script.** -/
theorem extractDestination_keyID (id : Uint160) :
    extractDestination (getScriptForDestination (.keyID id)) = .ok (some (.keyID id)) := by
  have length : (le 20 id.toNat).length = 20 := length_le 20 id.toNat
  have notHash : (getScriptForDestination (.keyID id)).isPayToScriptHash = false := by
    rw [CScript.isPayToScriptHash, keyID_length]
    rfl
  have split : getScriptForDestination (.keyID id) =
      OP_DUP :: OP_HASH160 :: (pushData (le 20 id.toNat) ++ [OP_EQUALVERIFY, OP_CHECKSIG]) :=
    rfl
  have noKey : compare [OP_PUBKEY, OP_CHECKSIG] (getScriptForDestination (.keyID id)) [] = none := by
    rw [eq_none_iff_forall_ne_some]
    intro solutions found
    obtain ⟨opcode, vch, read, sized, -⟩ := compare_pubKey.mp found
    rw [split, getOp_plain (by decide)] at read
    cases read
  have found : compare [OP_DUP, OP_HASH160, OP_PUBKEYHASH, OP_EQUALVERIFY, OP_CHECKSIG]
      (getScriptForDestination (.keyID id)) [] = some [le 20 id.toNat] :=
    compare_pubKeyHash.mpr ⟨_, _, _, split, getOp_hash id _, length, rfl⟩
  have solved : solver (getScriptForDestination (.keyID id)) [] =
      .ok ⟨true, TX_PUBKEYHASH, [le 20 id.toNat]⟩ := by
    rw [solver_eq, notHash, split]
    unfold mTemplates
    rw [scan, scan, ← split, noKey, found]
    rfl
  rw [extractDestination_keyHash solved length, hash_roundTrip]

/-- **The destination of a script hash is found in its script.** -/
theorem extractDestination_scriptID (id : Uint160) :
    extractDestination (getScriptForDestination (.scriptID id)) = .ok (some (.scriptID id)) := by
  have length : (le 20 id.toNat).length = 20 := length_le 20 id.toNat
  have split : getScriptForDestination (.scriptID id) =
      OP_HASH160 :: 20 :: (le 20 id.toNat ++ [OP_EQUAL]) := by
    rw [getScriptForDestination, pushData, length, if_pos (by decide)]
    rfl
  have isHash : (getScriptForDestination (.scriptID id)).isPayToScriptHash = true := by
    rw [split, CScript.isPayToScriptHash]
    simp [length]
  have solved : solver (getScriptForDestination (.scriptID id)) [] =
      .ok ⟨true, TX_SCRIPTHASH, [le 20 id.toNat]⟩ := by
    rw [solver_eq, isHash, if_pos rfl, split, vectorOf, if_pos (by simp [length]), ok_bind]
    have hashBytes : ((OP_HASH160 :: 20 :: (le 20 id.toNat ++ [OP_EQUAL])).take 22).drop 2 =
        le 20 id.toNat := take_left' length
    rw [hashBytes]
    rfl
  rw [extractDestination_scriptHash solved length, hash_roundTrip]

end

/-! ## Normal payments -/

/-- The instruction in the place of the hash leaves the rest of a payment, or the script ends early. -/
def Ends (rest : CScript) : Prop :=
  rest = [] ∨ rest = [OP_EQUALVERIFY] ∨ rest = [OP_EQUALVERIFY, OP_CHECKSIG]

/-- A script of 25 bytes with another push than that of twenty bytes in the place of the hash. -/
def OddPush (script : CScript) : Prop :=
  script.length = 25 ∧ ∃ tail opcode data rest, script = OP_DUP :: OP_HASH160 :: tail ∧
    getOp tail = some (opcode, data, rest) ∧ opcode ≠ 20 ∧ Ends rest

theorem normalOps_cons {expected : UInt8} (above : OP_PUSHDATA4 < expected)
    {others : List (Option UInt8)} :
    normalOps (some expected :: others) script = true ↔
      script = [] ∨ ∃ rest, script = expected :: rest ∧ normalOps others rest = true := by
  cases script with
  | nil => exact iff_of_true rfl (.inl rfl)
  | cons byte pc =>
    rw [normalOps, or_iff_right (cons_ne_nil byte pc)]
    cases read : getOp (byte :: pc) with
    | none =>
      refine iff_of_false Bool.false_ne_true ?_
      rintro ⟨rest, same, -⟩
      rw [same, getOp_plain above] at read
      cases read
    | some found =>
      obtain ⟨opcode, data, rest⟩ := found
      dsimp only [Option.getD]
      rw [Bool.and_eq_true, beq_iff_eq]
      constructor
      · rintro ⟨rfl, later⟩
        exact ⟨rest, (of_getOp_plain read above).1, later⟩
      · rintro ⟨other, same, later⟩
        rw [same, getOp_plain above] at read
        cases read
        exact ⟨rfl, later⟩

theorem normalOps_end {rest : CScript} :
    normalOps [some OP_EQUALVERIFY, some OP_CHECKSIG] rest = true ↔ Ends rest := by
  rw [normalOps_cons (by decide)]
  refine or_congr_right ?_
  constructor
  · rintro ⟨tail, rfl, later⟩
    rcases (normalOps_cons (by decide)).mp later with rfl | ⟨behind, rfl, ends⟩
    · exact .inl rfl
    · cases behind with
      | nil => exact .inr rfl
      | cons byte behind => cases ends
  · rintro (rfl | rfl)
    · exact ⟨[], rfl, rfl⟩
    · exact ⟨[OP_CHECKSIG], rfl, (normalOps_cons (by decide)).mpr (.inr ⟨[], rfl, rfl⟩)⟩

theorem isNormalPaymentScript_iff :
    script.isNormalPaymentScript = true ↔ script.length = 25 ∧ ∃ tail opcode data rest,
      script = OP_DUP :: OP_HASH160 :: tail ∧ getOp tail = some (opcode, data, rest) ∧ Ends rest := by
  rw [isNormalPaymentScript, Bool.and_eq_true, beq_iff_eq]
  refine and_congr_right fun size => ?_
  rw [normalOps_cons (by decide), or_iff_right fun empty => by rw [empty] at size; cases size]
  constructor
  · rintro ⟨rest, rfl, later⟩
    rcases (normalOps_cons (by decide)).mp later with rfl | ⟨tail, rfl, push⟩
    · cases size
    · cases tail with
      | nil => cases size
      | cons byte pc =>
        rw [normalOps] at push
        split at push
        · cases push
        · rename_i opcode data rest read
          rw [Bool.and_eq_true] at push
          exact ⟨_, opcode, data, rest, rfl, read, normalOps_end.mp push.2⟩
  · rintro ⟨tail, opcode, data, rest, rfl, read, ends⟩
    refine ⟨_, rfl, (normalOps_cons (by decide)).mpr (.inr ⟨tail, rfl, ?_⟩)⟩
    cases tail with
    | nil => rfl
    | cons byte pc =>
      rw [normalOps, read]
      dsimp only [Option.getD]
      rw [beq_self_eq_true, Bool.true_and]
      exact normalOps_end.mpr ends

theorem keyID_iff :
    (∃ id, script = getScriptForDestination (.keyID id)) ↔ script.length = 25 ∧ ∃ tail data rest,
      script = OP_DUP :: OP_HASH160 :: tail ∧ getOp tail = some (20, data, rest) ∧ Ends rest := by
  constructor
  · rintro ⟨id, rfl⟩
    exact ⟨keyID_length id, _, _, _, rfl, getOp_hash id _, .inr (.inr rfl)⟩
  · rintro ⟨size, tail, data, rest, rfl, read, ends⟩
    obtain ⟨byte, pc, rfl⟩ : ∃ byte pc, tail = byte :: pc := by
      cases tail with
      | nil => cases read
      | cons byte pc => exact ⟨byte, pc, rfl⟩
    obtain rfl : byte = 20 := some.inj (getOp_head read)
    have sized : pushSize 20 pc = some (20, pc) := rfl
    have long : pc.length = 22 := by simpa using size
    rw [getOp, sized] at read
    dsimp only at read
    rw [if_neg (by omega)] at read
    obtain ⟨-, same⟩ := Prod.mk.inj (some.inj read)
    obtain ⟨rfl, rfl⟩ := Prod.mk.inj same
    have two : (pc.drop 20).length = 2 := by rw [length_drop, long]
    have last : pc.drop 20 = [OP_EQUALVERIFY, OP_CHECKSIG] := by
      rcases ends with none | one | both
      · rw [none] at two
        cases two
      · rw [one] at two
        cases two
      · exact both
    have length : (pc.take 20).length = 20 := length_take_of_le (by omega)
    have bytes : le 20 (BitVec.ofNat 160 (littleEndian (pc.take 20))).toNat = pc.take 20 := by
      have bound := Script.littleEndian_lt (pc.take 20)
      have small : littleEndian (pc.take 20) < 2 ^ 160 :=
        lt_of_lt_of_eq bound (by rw [length]; norm_num)
      rw [BitVec.toNat_ofNat, Nat.mod_eq_of_lt small]
      have back := le_littleEndian (pc.take 20)
      rwa [length] at back
    refine ⟨BitVec.ofNat 160 (littleEndian (pc.take 20)), ?_⟩
    rw [getScriptForDestination, bytes, pushData, length, if_pos (by decide), ← last]
    simp

/-- **A script is taken for a payment to a key hash and is none exactly if its push is odd.** -/
theorem isNormalPaymentScript_keyID :
    (script.isNormalPaymentScript = true ↔ ∃ id, script = getScriptForDestination (.keyID id)) ↔
      ¬OddPush script := by
  rw [isNormalPaymentScript_iff, keyID_iff]
  constructor
  · rintro same ⟨size, tail, opcode, data, rest, rfl, read, odd, ends⟩
    obtain ⟨-, other, otherData, otherRest, shape, twenty, -⟩ :=
      same.mp ⟨size, tail, opcode, data, rest, rfl, read, ends⟩
    obtain rfl : tail = other := List.cons.inj (List.cons.inj shape).2 |>.2
    rw [read] at twenty
    cases twenty
    exact odd rfl
  · intro plain
    constructor
    · rintro ⟨size, tail, opcode, data, rest, rfl, read, ends⟩
      by_cases twenty : opcode = 20
      · exact ⟨size, tail, data, rest, rfl, twenty ▸ read, ends⟩
      · exact absurd ⟨size, tail, opcode, data, rest, rfl, read, twenty, ends⟩ plain
    · rintro ⟨size, tail, data, rest, shape, read, ends⟩
      exact ⟨size, tail, 20, data, rest, shape, read, ends⟩

/-! ## What is promised of a script -/

/-- The functions return for the script, a multisig script has its shape, and a normal payment is one
to a key hash. -/
structure Promise [Crypto] (script : CScript) : Prop where
  solver : ∀ before, ∃ solved, solver script before = .ok solved
  extractDestination : ∃ address, extractDestination script = .ok address
  extractDestinations : ∀ nRequiredRet, ∃ extracted,
    extractDestinations script nRequiredRet = .ok extracted
  multisig : ∀ before solutions, Solver.solver script before = .ok ⟨true, TX_MULTISIG, solutions⟩ →
    ∃ m n keys, IsMultisig script m keys n ∧ 1 ≤ m ∧ m ≤ n ∧ keys.length = n ∧
      solutions = [UInt8.ofNat m] :: (keys ++ [[UInt8.ofNat n]])
  normal : script.isNormalPaymentScript = true ↔ ∃ id, script = getScriptForDestination (.keyID id)

/-- **What is promised holds of every script but the single byte `OP_ZEROCOINMINT` and those with an
odd push, and a destination is found in its script.** -/
theorem solver_promise_iff [Crypto] :
    (∀ script, Promise script ↔ script ≠ [OP_ZEROCOINMINT] ∧ ¬OddPush script) ∧
      (∀ id, extractDestination (getScriptForDestination (.keyID id)) = .ok (some (.keyID id))) ∧
      ∀ id, extractDestination (getScriptForDestination (.scriptID id)) =
        .ok (some (.scriptID id)) := by
  refine ⟨fun script => ⟨fun promise => ⟨?_, isNormalPaymentScript_keyID.mp promise.normal⟩, ?_⟩,
    extractDestination_keyID, extractDestination_scriptID⟩
  · rintro rfl
    obtain ⟨solved, done⟩ := promise.solver []
    rw [solver_mint] at done
    cases done
  · rintro ⟨other, plain⟩
    refine ⟨fun before => ?_, extractDestination_returns other, extractDestinations_returns other, ?_,
      isNormalPaymentScript_keyID.mpr plain⟩
    · obtain ⟨solved, done, -⟩ := solver_solves other before
      exact ⟨solved, done⟩
    · intro before solutions found
      obtain ⟨solved, done, solves⟩ := solver_solves other before
      obtain rfl := Except.ok.inj (done.symm.trans found)
      cases solves with
      | multisig shape sized valid =>
        obtain ⟨least, most, count⟩ := valid.mp rfl
        exact ⟨_, _, _, shape, least, most, count, rfl⟩

local instance OddPush.instCrypto : Crypto := checksumCrypto

/-- `Solver` throws on the byte of a mint, and a payment with a push of twenty-two bytes is taken for
one to a key hash. -/
theorem solver_not_promised : Solver.solver [OP_ZEROCOINMINT] [] = .error .badRange ∧
    ¬Promise [OP_ZEROCOINMINT] ∧
    CScript.isNormalPaymentScript (OP_DUP :: OP_HASH160 :: 22 :: List.replicate 22 0) = true ∧
    ¬Promise (OP_DUP :: OP_HASH160 :: 22 :: List.replicate 22 0) := by
  refine ⟨rfl, fun promise => ?_, by decide, fun promise => ?_⟩
  · obtain ⟨solved, done⟩ := promise.solver []
    rw [solver_mint] at done
    cases done
  · have odd : OddPush (OP_DUP :: OP_HASH160 :: 22 :: List.replicate 22 0) :=
      ⟨by decide, _, 22, List.replicate 22 0, [], rfl, by decide, by decide, .inl rfl⟩
    exact isNormalPaymentScript_keyID.mp promise.normal odd

end Solver

end Agouti
