import Agouti.Primitives.Uint256

/-! # Scripts

A script is its byte string. The instruction reader `getOp` returns the opcode, the pushed data and
the rest of the script; every reader below walks a script with it.
-/

namespace Agouti

abbrev CScript := List UInt8

namespace CScript

def OP_0 : UInt8 := 0x00
def OP_PUSHDATA1 : UInt8 := 0x4c
def OP_PUSHDATA2 : UInt8 := 0x4d
def OP_PUSHDATA4 : UInt8 := 0x4e
def OP_1 : UInt8 := 0x51
def OP_16 : UInt8 := 0x60
def OP_RETURN : UInt8 := 0x6a
def OP_DUP : UInt8 := 0x76
def OP_EQUAL : UInt8 := 0x87
def OP_EQUALVERIFY : UInt8 := 0x88
def OP_HASH160 : UInt8 := 0xa9
def OP_CHECKSIG : UInt8 := 0xac
def OP_CHECKSIGVERIFY : UInt8 := 0xad
def OP_CHECKMULTISIG : UInt8 := 0xae
def OP_CHECKMULTISIGVERIFY : UInt8 := 0xaf
def OP_PROOFOFSTAKE : UInt8 := 0xc0
def OP_ZEROCOINMINT : UInt8 := 0xc1
def OP_ZEROCOINSPEND : UInt8 := 0xc2
def OP_INVALIDOPCODE : UInt8 := 0xff

def littleEndian (bytes : List UInt8) : Nat :=
  bytes.foldr (fun byte rest => byte.toNat + 256 * rest) 0

/-- The operand length of a push opcode and the script behind the length bytes;
nothing when the length bytes are cut off. Other opcodes push nothing. -/
def pushSize (opcode : UInt8) (pc : CScript) : Option (Nat × CScript) :=
  if opcode < OP_PUSHDATA1 then some (opcode.toNat, pc)
  else if opcode = OP_PUSHDATA1 then
    if pc.length < 1 then none else some (littleEndian (pc.take 1), pc.drop 1)
  else if opcode = OP_PUSHDATA2 then
    if pc.length < 2 then none else some (littleEndian (pc.take 2), pc.drop 2)
  else if opcode = OP_PUSHDATA4 then
    if pc.length < 4 then none else some (littleEndian (pc.take 4), pc.drop 4)
  else some (0, pc)

/-- `CScript::GetOp2`: the opcode, the pushed data and the rest of the script. -/
def getOp : CScript → Option (UInt8 × List UInt8 × CScript)
  | [] => none
  | opcode :: pc =>
    match pushSize opcode pc with
    | none => none
    | some (nSize, pc) =>
      if pc.length < nSize then none else some (opcode, pc.take nSize, pc.drop nSize)

/-- The first byte of a script, when there is one, is `opcode`. -/
def startsWith (opcode : UInt8) (script : CScript) : Bool := script.head? == some opcode

def isUnspendable (script : CScript) : Bool := script.startsWith OP_RETURN

def isZerocoinMint (script : CScript) : Bool := script.startsWith OP_ZEROCOINMINT

def isZerocoinSpend (script : CScript) : Bool := script.startsWith OP_ZEROCOINSPEND

def isProofOfStakeMarker (script : CScript) : Bool := script.startsWith OP_PROOFOFSTAKE

def isPayToScriptHash (script : CScript) : Bool :=
  script.length == 23 && script[0]? == some OP_HASH160 && script[1]? == some 0x14 &&
    script[22]? == some OP_EQUAL

/-- The loop of `CScript::IsNormalPaymentScript`, with the opcodes it asks for. An instruction
that is cut off is only passed over where the push is expected, and then leaves bytes behind
the last opcode. -/
def normalOps : List (Option UInt8) → CScript → Bool
  | _, [] => true
  | [], _ :: _ => false
  | expected :: others, byte :: pc =>
    match getOp (byte :: pc) with
    | none => false
    | some (opcode, _, rest) => (expected.getD opcode == opcode) && normalOps others rest

def isNormalPaymentScript (script : CScript) : Bool :=
  script.length == 25 &&
    normalOps [some OP_DUP, some OP_HASH160, none, some OP_EQUALVERIFY, some OP_CHECKSIG] script

def decodeOpN (opcode : UInt8) : Nat :=
  if opcode = OP_0 then 0 else opcode.toNat - (OP_1.toNat - 1)

def sigOps (fAccurate : Bool) (lastOpcode opcode : UInt8) : Nat :=
  if opcode = OP_CHECKSIG ∨ opcode = OP_CHECKSIGVERIFY then 1
  else if opcode = OP_CHECKMULTISIG ∨ opcode = OP_CHECKMULTISIGVERIFY then
    if fAccurate ∧ OP_1 ≤ lastOpcode ∧ lastOpcode ≤ OP_16 then decodeOpN lastOpcode else 20
  else 0

/-- The loop of `CScript::GetSigOpCount`; every instruction consumes a byte, so
the length of the script is enough fuel. -/
def countSigOps (fAccurate : Bool) : Nat → CScript → UInt8 → Nat
  | 0, _, _ => 0
  | fuel + 1, pc, lastOpcode =>
    match getOp pc with
    | none => 0
    | some (opcode, _, rest) =>
      sigOps fAccurate lastOpcode opcode + countSigOps fAccurate fuel rest opcode

/-- `CScript::GetSigOpCount(bool fAccurate)`. -/
def getSigOpCount (fAccurate : Bool) (script : CScript) : Nat :=
  countSigOps fAccurate script.length script OP_INVALIDOPCODE

/-- The last item a push-only script pushes; nothing when an instruction is cut
off or is not a push. -/
def lastPush : Nat → CScript → List UInt8 → Option (List UInt8)
  | 0, _, data => some data
  | fuel + 1, pc, data =>
    if pc = [] then some data
    else
      match getOp pc with
      | none => none
      | some (opcode, pushed, rest) =>
        if OP_16 < opcode then none else lastPush fuel rest pushed

/-- `CScript::GetSigOpCount(const CScript& scriptSig)`: the count of a
pay-to-script-hash output is that of the redeem script. -/
def getP2SHSigOps (scriptPubKey scriptSig : CScript) : Nat :=
  if !scriptPubKey.isPayToScriptHash then getSigOpCount true scriptPubKey
  else
    match lastPush scriptSig.length scriptSig [] with
    | none => 0
    | some subscript => getSigOpCount true subscript

end CScript

end Agouti
