import Agouti.Primitives.Block

/-! # Destinations of scripts

The templates of `Solver` in `script/standard.cpp` that lead to a key identifier.
`ExtractDestination` gives a `CKeyID` both for a key hash and for a full public
key, and a template accepts every push opcode for its operands.
-/

namespace Agouti

namespace CScript

def isOpcodes : List UInt8 → CScript → Bool
  | [], script => script == []
  | opcode :: rest, script =>
    match getOp script with
    | some (read, [], tail) => read == opcode && isOpcodes rest tail
    | _ => false

/-- The template `OP_PUBKEY OP_CHECKSIG`: the pushed key. -/
def solvePubKey (script : CScript) : Option (List UInt8) :=
  match getOp script with
  | some (_, vch, rest) =>
    if 33 ≤ vch.length ∧ vch.length ≤ 65 ∧ isOpcodes [OP_CHECKSIG] rest then some vch else none
  | none => none

/-- The template `OP_DUP OP_HASH160 OP_PUBKEYHASH OP_EQUALVERIFY OP_CHECKSIG`: the
pushed hash. -/
def solvePubKeyHash (script : CScript) : Option (List UInt8) :=
  match getOp script with
  | some (first, [], rest) =>
    match getOp rest with
    | some (second, [], rest) =>
      match getOp rest with
      | some (_, vch, rest) =>
        if first = OP_DUP ∧ second = OP_HASH160 ∧ vch.length = 20 ∧
          isOpcodes [OP_EQUALVERIFY, OP_CHECKSIG] rest then some vch
        else none
      | none => none
    | _ => none
  | _ => none

end CScript

/-- `CPubKey(const std::vector<unsigned char>&)`. -/
def CPubKey.ofBytes (vch : List UInt8) : CPubKey :=
  let key : CPubKey := ⟨vch⟩
  if key.size ≠ 0 ∧ key.size = vch.length then key else .invalid

/-- The key identifier of a script: `boost::get<CKeyID>` of the destination that
`ExtractDestination` finds. -/
def extractKeyID [Crypto] (scriptPubKey : CScript) : Option Uint160 :=
  match scriptPubKey.solvePubKey with
  | some vch =>
    let pubKey := CPubKey.ofBytes vch
    if pubKey.isValid then some pubKey.getID else none
  | none => (scriptPubKey.solvePubKeyHash).map fun vch => BitVec.ofNat 160 (CScript.littleEndian vch)

/-- `GetScriptForDestination(const CKeyID&)`. -/
def getScriptForKeyID (keyID : Uint160) : CScript :=
  [CScript.OP_DUP, CScript.OP_HASH160, 20] ++ Serialize.le 20 keyID.toNat ++
    [CScript.OP_EQUALVERIFY, CScript.OP_CHECKSIG]

end Agouti
