import Agouti.Library.Outcome
import Agouti.Script.Push
import Agouti.Script.SignatureHash

/-! # The script interpreter

`EvalScript` of `script/interpreter.cpp` as a step on a machine. Stacks have their top first. Where
the source reads the stack relative to its top or pops it, the model has a computation that can
fail (`stacktop`, `popstack`), and the assertions of `CScriptNum` are failures too, so that a guard
that is missing shows as a failure of its own kind (`Stop`).
-/

namespace Agouti

open Outcome

/-- The errors of `script_error.h` that `EvalScript` sets. -/
inductive ScriptError where
  | UNKNOWN_ERROR
  | OP_RETURN
  | SCRIPT_SIZE
  | PUSH_SIZE
  | OP_COUNT
  | STACK_SIZE
  | SIG_COUNT
  | PUBKEY_COUNT
  | VERIFY
  | EQUALVERIFY
  | CHECKMULTISIGVERIFY
  | CHECKSIGVERIFY
  | NUMEQUALVERIFY
  | BAD_OPCODE
  | DISABLED_OPCODE
  | INVALID_STACK_OPERATION
  | INVALID_ALTSTACK_OPERATION
  | UNBALANCED_CONDITIONAL
  | SIG_HASHTYPE
  | SIG_DER
  | MINIMALDATA
  | SIG_HIGH_S
  | SIG_NULLDUMMY
  | PUBKEYTYPE
  | DISCOURAGE_UPGRADABLE_NOPS
  deriving DecidableEq, Repr

/-- How a script stops. -/
inductive Stop where
  /-- `set_error` -/
  | error (serror : ScriptError)
  /-- `scriptnum_error` -/
  | numFormat
  /-- `std::out_of_range` of `at`, or an iterator or an end of a vector that is not there -/
  | outOfRange
  /-- `popstack` of an empty stack -/
  | stackEmpty
  /-- `assert` -/
  | assertion
  deriving DecidableEq, Repr

abbrev EvalM := Except Stop

abbrev Valtype := List UInt8

abbrev Stack := List Valtype

/-- `set_error` under a condition. -/
abbrev failIf (condition : Prop) [Decidable condition] (serror : ScriptError) : EvalM Unit :=
  refuseIf condition (.error serror)

/-- `set_error`. -/
abbrev fail {α : Type} (serror : ScriptError) : EvalM α := throw (.error serror)

namespace CScript

def OP_1NEGATE : UInt8 := 0x4f
def OP_NOP : UInt8 := 0x61
def OP_IF : UInt8 := 0x63
def OP_NOTIF : UInt8 := 0x64
def OP_ELSE : UInt8 := 0x67
def OP_ENDIF : UInt8 := 0x68
def OP_VERIFY : UInt8 := 0x69
def OP_TOALTSTACK : UInt8 := 0x6b
def OP_FROMALTSTACK : UInt8 := 0x6c
def OP_2DROP : UInt8 := 0x6d
def OP_2DUP : UInt8 := 0x6e
def OP_3DUP : UInt8 := 0x6f
def OP_2OVER : UInt8 := 0x70
def OP_2ROT : UInt8 := 0x71
def OP_2SWAP : UInt8 := 0x72
def OP_IFDUP : UInt8 := 0x73
def OP_DEPTH : UInt8 := 0x74
def OP_DROP : UInt8 := 0x75
def OP_NIP : UInt8 := 0x77
def OP_OVER : UInt8 := 0x78
def OP_PICK : UInt8 := 0x79
def OP_ROLL : UInt8 := 0x7a
def OP_ROT : UInt8 := 0x7b
def OP_SWAP : UInt8 := 0x7c
def OP_TUCK : UInt8 := 0x7d
def OP_CAT : UInt8 := 0x7e
def OP_SUBSTR : UInt8 := 0x7f
def OP_LEFT : UInt8 := 0x80
def OP_RIGHT : UInt8 := 0x81
def OP_SIZE : UInt8 := 0x82
def OP_INVERT : UInt8 := 0x83
def OP_AND : UInt8 := 0x84
def OP_OR : UInt8 := 0x85
def OP_XOR : UInt8 := 0x86
def OP_1ADD : UInt8 := 0x8b
def OP_1SUB : UInt8 := 0x8c
def OP_2MUL : UInt8 := 0x8d
def OP_2DIV : UInt8 := 0x8e
def OP_NEGATE : UInt8 := 0x8f
def OP_ABS : UInt8 := 0x90
def OP_NOT : UInt8 := 0x91
def OP_0NOTEQUAL : UInt8 := 0x92
def OP_ADD : UInt8 := 0x93
def OP_SUB : UInt8 := 0x94
def OP_MUL : UInt8 := 0x95
def OP_DIV : UInt8 := 0x96
def OP_MOD : UInt8 := 0x97
def OP_LSHIFT : UInt8 := 0x98
def OP_RSHIFT : UInt8 := 0x99
def OP_BOOLAND : UInt8 := 0x9a
def OP_BOOLOR : UInt8 := 0x9b
def OP_NUMEQUAL : UInt8 := 0x9c
def OP_NUMEQUALVERIFY : UInt8 := 0x9d
def OP_NUMNOTEQUAL : UInt8 := 0x9e
def OP_LESSTHAN : UInt8 := 0x9f
def OP_GREATERTHAN : UInt8 := 0xa0
def OP_LESSTHANOREQUAL : UInt8 := 0xa1
def OP_GREATERTHANOREQUAL : UInt8 := 0xa2
def OP_MIN : UInt8 := 0xa3
def OP_MAX : UInt8 := 0xa4
def OP_WITHIN : UInt8 := 0xa5
def OP_RIPEMD160 : UInt8 := 0xa6
def OP_SHA1 : UInt8 := 0xa7
def OP_SHA256 : UInt8 := 0xa8
def OP_HASH256 : UInt8 := 0xaa
def OP_NOP1 : UInt8 := 0xb0
def OP_NOP10 : UInt8 := 0xb9

end CScript

namespace Script

open CScript

def castToBool : Valtype → Bool
  | [] => false
  | byte :: rest => if byte ≠ 0 then !(rest.isEmpty && byte == 0x80) else castToBool rest

/-- `stacktop(-i)`. -/
def stacktop (stack : Stack) (i : Nat) : EvalM Valtype :=
  if i = 0 then throw .outOfRange
  else
    match stack[i - 1]? with
    | some vch => pure vch
    | none => throw .outOfRange

def popstack : Stack → EvalM Stack
  | [] => throw .stackEmpty
  | _ :: stack => pure stack

/-- `stack.erase(stack.end() - i)`. -/
def eraseAt (stack : Stack) (i : Nat) : EvalM Stack :=
  if i = 0 ∨ stack.length < i then throw .outOfRange else pure (stack.eraseIdx (i - 1))

/-- `swap(stacktop(-i), stacktop(-j))`. -/
def swapTops (stack : Stack) (i j : Nat) : EvalM Stack := do
  let vch1 ← stacktop stack i
  let vch2 ← stacktop stack j
  pure ((stack.set (i - 1) vch2).set (j - 1) vch1)

/-- `vchTrue` or `vchFalse`. -/
def boolElement (value : Bool) : Valtype := if value then [1] else []

/-! ## `CScriptNum` -/

/-- `std::numeric_limits<int64_t>::max()`. -/
def int64Max : Int := 2 ^ 63 - 1

/-- `std::numeric_limits<int64_t>::min()`. -/
def int64Min : Int := -2 ^ 63

/-- `CScriptNum::set_vch`: the sign is the highest bit of the last byte. -/
def setVch (vch : Valtype) : Int :=
  let result := CScript.littleEndian vch
  if CScript.highBit vch then -(result % (0x80 * 2 ^ (8 * (vch.length - 1))) : Nat) else result

/-- A number whose last byte has no value bits, which a sign bit below does not excuse. -/
def notMinimal (vch : Valtype) : Bool :=
  match vch.reverse with
  | [] => false
  | [last] => last &&& 0x7f == 0
  | last :: second :: _ => last &&& 0x7f == 0 && second &&& 0x80 == 0

/-- The constructor of `CScriptNum` from a vector; `nMaxNumSize` is 4. -/
def scriptNum (vch : Valtype) (fRequireMinimal : Bool) : EvalM Int := do
  refuseIf (4 < vch.length) Stop.numFormat
  refuseIf (fRequireMinimal = true ∧ notMinimal vch = true) Stop.numFormat
  pure (setVch vch)

/-- `operator-`. -/
def negNum (value : Int) : EvalM Int := do
  refuseIf (value = int64Min) Stop.assertion
  pure (-value)

/-- `operator+=`. -/
def addNum (value rhs : Int) : EvalM Int := do
  refuseIf (¬(rhs = 0 ∨ (0 < rhs ∧ value ≤ int64Max - rhs) ∨ (rhs < 0 ∧ int64Min - rhs ≤ value)))
    Stop.assertion
  pure (value + rhs)

/-- `operator-=`. -/
def subNum (value rhs : Int) : EvalM Int := do
  refuseIf (¬(rhs = 0 ∨ (0 < rhs ∧ int64Min + rhs ≤ value) ∨ (rhs < 0 ∧ value ≤ int64Max + rhs)))
    Stop.assertion
  pure (value - rhs)

/-- A 64-bit result of `operator+` and `operator-`, which assert nothing. -/
def wrapNum (value : Int) : Int := value.bmod (2 ^ 64)

def getint (value : Int) : Int :=
  if 2 ^ 31 - 1 < value then 2 ^ 31 - 1 else if value < -2 ^ 31 then -2 ^ 31 else value

def getvch (value : Int) : Valtype := CScript.serializeNum value

def boolNum (value : Bool) : Int := if value then 1 else 0

def disabledOpcodes : List UInt8 :=
  [OP_CAT, OP_SUBSTR, OP_LEFT, OP_RIGHT, OP_INVERT, OP_AND, OP_OR, OP_XOR, OP_2MUL, OP_2DIV,
    OP_MUL, OP_DIV, OP_MOD, OP_LSHIFT, OP_RSHIFT]

/-! ## Signature encodings -/

/-- What a script is evaluated with: the flags, the signature checker and the hash functions. -/
structure EvalEnv where
  flags : BitVec 32
  /-- `BaseSignatureChecker::CheckSig` -/
  checkSig : Valtype → Valtype → CScript → Bool
  RIPEMD160 : Valtype → Uint160
  SHA1 : Valtype → Uint160
  Hash160 : Valtype → Uint160
  SHA256 : Valtype → Uint256
  Hash256 : Valtype → Uint256

def SCRIPT_VERIFY_STRICTENC : BitVec 32 := 0x02
def SCRIPT_VERIFY_DERSIG : BitVec 32 := 0x04
def SCRIPT_VERIFY_LOW_S : BitVec 32 := 0x08
def SCRIPT_VERIFY_NULLDUMMY : BitVec 32 := 0x10
def SCRIPT_VERIFY_MINIMALDATA : BitVec 32 := 0x40
def SCRIPT_VERIFY_DISCOURAGE_UPGRADABLE_NOPS : BitVec 32 := 0x80

def EvalEnv.has (env : EvalEnv) (mask : BitVec 32) : Bool := env.flags &&& mask != 0

def EvalEnv.fRequireMinimal (env : EvalEnv) : Bool := env.has SCRIPT_VERIFY_MINIMALDATA

def isCompressedOrUncompressedPubKey (vchPubKey : Valtype) : Bool :=
  if vchPubKey.length < 33 then false
  else
    match vchPubKey.headD 0 with
    | 0x04 => vchPubKey.length == 65
    | 0x02 | 0x03 => vchPubKey.length == 33
    | _ => false

def isValidSignatureEncoding (sig : Valtype) : Bool :=
  let at' := fun i => (sig.getD i 0).toNat
  let lenR := at' 3
  let lenS := at' (5 + lenR)
  !decide (sig.length < 9) && !decide (73 < sig.length) && at' 0 == 0x30 &&
    at' 1 == sig.length - 3 && !decide (sig.length ≤ 5 + lenR) && lenR + lenS + 7 == sig.length &&
    at' 2 == 0x02 && lenR != 0 && !(at' 4).testBit 7 &&
    !(decide (1 < lenR) && at' 4 == 0 && !(at' 5).testBit 7) && at' (lenR + 4) == 0x02 &&
    lenS != 0 && !(at' (lenR + 6)).testBit 7 &&
    !(decide (1 < lenS) && at' (lenR + 6) == 0 && !(at' (lenR + 7)).testBit 7)

/-- Half of the order of the generator of secp256k1 minus 1: `vchMaxModHalfOrder`. -/
def maxModHalfOrder : Nat := 0x7fffffffffffffffffffffffffffffff5d576e7357a4501ddfe92f46681b20a0

/-- `eccrypto::CheckSignatureElement` of a big-endian number, for half of the order. -/
def checkSignatureElement (vch : Valtype) : Bool :=
  let value := littleEndian vch.reverse
  decide (0 < value) && decide (value ≤ maxModHalfOrder)

/-- `IsLowDERSignature`: the error, if there is one. -/
def lowDERError (vchSig : Valtype) : Option ScriptError :=
  if !isValidSignatureEncoding vchSig then some .SIG_DER
  else
    let nLenR := (vchSig.getD 3 0).toNat
    let nLenS := (vchSig.getD (5 + nLenR) 0).toNat
    if !checkSignatureElement ((vchSig.drop (6 + nLenR)).take nLenS) then some .SIG_HIGH_S
    else none

def isDefinedHashtypeSignature (vchSig : Valtype) : Bool :=
  match vchSig.getLast? with
  | none => false
  | some last =>
    let nHashType := last &&& 0x7f
    !(decide (nHashType < 1) || decide (3 < nHashType))

/-- `CheckSignatureEncoding`: the error, if there is one. -/
def signatureError (env : EvalEnv) (vchSig : Valtype) : Option ScriptError :=
  if vchSig.length = 0 then none
  else if env.has (SCRIPT_VERIFY_DERSIG ||| SCRIPT_VERIFY_LOW_S ||| SCRIPT_VERIFY_STRICTENC) ∧
      !isValidSignatureEncoding vchSig then
    some .SIG_DER
  else if env.has SCRIPT_VERIFY_LOW_S ∧ (lowDERError vchSig).isSome then lowDERError vchSig
  else if env.has SCRIPT_VERIFY_STRICTENC ∧ !isDefinedHashtypeSignature vchSig then
    some .SIG_HASHTYPE
  else none

/-- `CheckPubKeyEncoding`: the error, if there is one. -/
def pubKeyError (env : EvalEnv) (vchPubKey : Valtype) : Option ScriptError :=
  if env.has SCRIPT_VERIFY_STRICTENC ∧ !isCompressedOrUncompressedPubKey vchPubKey then
    some .PUBKEYTYPE
  else none

def checkEncodings (env : EvalEnv) (vchSig vchPubKey : Valtype) : EvalM Unit :=
  match signatureError env vchSig with
  | some serror => fail serror
  | none =>
    match pubKeyError env vchPubKey with
    | some serror => fail serror
    | none => pure ()

def checkMinimalPush (data : Valtype) (opcode : UInt8) : Bool :=
  match data with
  | [] => opcode == OP_0
  | [byte] =>
    if 1 ≤ byte ∧ byte ≤ 16 then opcode == OP_1 + (byte - 1)
    else if byte = 0x81 then opcode == OP_1NEGATE
    else opcode == 1
  | _ =>
    if data.length ≤ 75 then opcode.toNat == data.length
    else if data.length ≤ 255 then opcode == OP_PUSHDATA1
    else if data.length ≤ 65535 then opcode == OP_PUSHDATA2
    else true

/-! ## Operations on the stack -/

section

variable (env : EvalEnv) (opcode : UInt8) (stack : Stack)

/-- `OP_1NEGATE` and `OP_1` to `OP_16`. -/
def opNumber : EvalM Stack := pure (getvch ((opcode.toNat : Int) - (OP_1.toNat - 1)) :: stack)

/-- `OP_NOP1` to `OP_NOP10`. -/
def opUpgradable : EvalM Stack := do
  failIf (env.has SCRIPT_VERIFY_DISCOURAGE_UPGRADABLE_NOPS = true) .DISCOURAGE_UPGRADABLE_NOPS
  pure stack

def opVerify : EvalM Stack := do
  failIf (stack.length < 1) .INVALID_STACK_OPERATION
  let vch ← stacktop stack 1
  if castToBool vch then popstack stack else fail .VERIFY

def op2Drop : EvalM Stack := do
  failIf (stack.length < 2) .INVALID_STACK_OPERATION
  let stack ← popstack stack
  popstack stack

def op2Dup : EvalM Stack := do
  failIf (stack.length < 2) .INVALID_STACK_OPERATION
  let vch1 ← stacktop stack 2
  let vch2 ← stacktop stack 1
  pure (vch2 :: vch1 :: stack)

def op3Dup : EvalM Stack := do
  failIf (stack.length < 3) .INVALID_STACK_OPERATION
  let vch1 ← stacktop stack 3
  let vch2 ← stacktop stack 2
  let vch3 ← stacktop stack 1
  pure (vch3 :: vch2 :: vch1 :: stack)

def op2Over : EvalM Stack := do
  failIf (stack.length < 4) .INVALID_STACK_OPERATION
  let vch1 ← stacktop stack 4
  let vch2 ← stacktop stack 3
  pure (vch2 :: vch1 :: stack)

def op2Rot : EvalM Stack := do
  failIf (stack.length < 6) .INVALID_STACK_OPERATION
  let vch1 ← stacktop stack 6
  let vch2 ← stacktop stack 5
  let stack ← eraseAt stack 6
  let stack ← eraseAt stack 5
  pure (vch2 :: vch1 :: stack)

def op2Swap : EvalM Stack := do
  failIf (stack.length < 4) .INVALID_STACK_OPERATION
  let stack ← swapTops stack 4 2
  swapTops stack 3 1

def opIfDup : EvalM Stack := do
  failIf (stack.length < 1) .INVALID_STACK_OPERATION
  let vch ← stacktop stack 1
  pure (if castToBool vch then vch :: stack else stack)

def opDepth : EvalM Stack := pure (getvch stack.length :: stack)

def opDrop : EvalM Stack := do
  failIf (stack.length < 1) .INVALID_STACK_OPERATION
  popstack stack

def opDup : EvalM Stack := do
  failIf (stack.length < 1) .INVALID_STACK_OPERATION
  let vch ← stacktop stack 1
  pure (vch :: stack)

def opNip : EvalM Stack := do
  failIf (stack.length < 2) .INVALID_STACK_OPERATION
  eraseAt stack 2

def opOver : EvalM Stack := do
  failIf (stack.length < 2) .INVALID_STACK_OPERATION
  let vch ← stacktop stack 2
  pure (vch :: stack)

/-- `OP_PICK` and `OP_ROLL`. -/
def opPick : EvalM Stack := do
  failIf (stack.length < 2) .INVALID_STACK_OPERATION
  let top ← stacktop stack 1
  let value ← scriptNum top env.fRequireMinimal
  let n := getint value
  let stack ← popstack stack
  failIf (n < 0 ∨ (stack.length : Int) ≤ n) .INVALID_STACK_OPERATION
  let vch ← stacktop stack (n.toNat + 1)
  let stack ← if opcode = OP_ROLL then eraseAt stack (n.toNat + 1) else pure stack
  pure (vch :: stack)

def opRot : EvalM Stack := do
  failIf (stack.length < 3) .INVALID_STACK_OPERATION
  let stack ← swapTops stack 3 2
  swapTops stack 2 1

def opSwap : EvalM Stack := do
  failIf (stack.length < 2) .INVALID_STACK_OPERATION
  swapTops stack 2 1

/-- `stack.insert(stack.end() - 2, vch)`. -/
def insertBelowTwo (vch : Valtype) : EvalM Stack :=
  if stack.length < 2 then throw .outOfRange else pure (stack.take 2 ++ vch :: stack.drop 2)

def opTuck : EvalM Stack := do
  failIf (stack.length < 2) .INVALID_STACK_OPERATION
  let vch ← stacktop stack 1
  insertBelowTwo stack vch

def opSize : EvalM Stack := do
  failIf (stack.length < 1) .INVALID_STACK_OPERATION
  let vch ← stacktop stack 1
  pure (getvch vch.length :: stack)

/-- What a comparison leaves: its result, or nothing for a `VERIFY` that passes. -/
def verified (isVerify result : Bool) (serror : ScriptError) (stack : Stack) : EvalM Stack := do
  let stack := boolElement result :: stack
  if isVerify then
    if result then popstack stack else fail serror
  else pure stack

/-- `OP_EQUAL` and `OP_EQUALVERIFY`. -/
def opEqual : EvalM Stack := do
  failIf (stack.length < 2) .INVALID_STACK_OPERATION
  let vch1 ← stacktop stack 2
  let vch2 ← stacktop stack 1
  let stack ← popstack stack
  let stack ← popstack stack
  verified (opcode == OP_EQUALVERIFY) (vch1 == vch2) .EQUALVERIFY stack

def unaryNum (bn : Int) : EvalM Int :=
  if opcode = OP_1ADD then addNum bn 1
  else if opcode = OP_1SUB then subNum bn 1
  else if opcode = OP_NEGATE then negNum bn
  else if opcode = OP_ABS then if bn < 0 then negNum bn else pure bn
  else if opcode = OP_NOT then pure (boolNum (bn == 0))
  else if opcode = OP_0NOTEQUAL then pure (boolNum (bn != 0))
  else throw .assertion

def opUnary : EvalM Stack := do
  failIf (stack.length < 1) .INVALID_STACK_OPERATION
  let vch ← stacktop stack 1
  let bn ← scriptNum vch env.fRequireMinimal
  let bn ← unaryNum opcode bn
  let stack ← popstack stack
  pure (getvch bn :: stack)

def binaryNum (bn1 bn2 : Int) : EvalM Int :=
  if opcode = OP_ADD then pure (wrapNum (bn1 + bn2))
  else if opcode = OP_SUB then pure (wrapNum (bn1 - bn2))
  else if opcode = OP_BOOLAND then pure (boolNum (bn1 != 0 && bn2 != 0))
  else if opcode = OP_BOOLOR then pure (boolNum (bn1 != 0 || bn2 != 0))
  else if opcode = OP_NUMEQUAL then pure (boolNum (bn1 == bn2))
  else if opcode = OP_NUMEQUALVERIFY then pure (boolNum (bn1 == bn2))
  else if opcode = OP_NUMNOTEQUAL then pure (boolNum (bn1 != bn2))
  else if opcode = OP_LESSTHAN then pure (boolNum (decide (bn1 < bn2)))
  else if opcode = OP_GREATERTHAN then pure (boolNum (decide (bn2 < bn1)))
  else if opcode = OP_LESSTHANOREQUAL then pure (boolNum (decide (bn1 ≤ bn2)))
  else if opcode = OP_GREATERTHANOREQUAL then pure (boolNum (decide (bn2 ≤ bn1)))
  else if opcode = OP_MIN then pure (if bn1 < bn2 then bn1 else bn2)
  else if opcode = OP_MAX then pure (if bn2 < bn1 then bn1 else bn2)
  else throw .assertion

def opBinary : EvalM Stack := do
  failIf (stack.length < 2) .INVALID_STACK_OPERATION
  let vch1 ← stacktop stack 2
  let bn1 ← scriptNum vch1 env.fRequireMinimal
  let vch2 ← stacktop stack 1
  let bn2 ← scriptNum vch2 env.fRequireMinimal
  let bn ← binaryNum opcode bn1 bn2
  let stack ← popstack stack
  let stack ← popstack stack
  let stack := getvch bn :: stack
  if opcode = OP_NUMEQUALVERIFY then do
    let top ← stacktop stack 1
    if castToBool top then popstack stack else fail .NUMEQUALVERIFY
  else pure stack

def opWithin : EvalM Stack := do
  failIf (stack.length < 3) .INVALID_STACK_OPERATION
  let vch1 ← stacktop stack 3
  let bn1 ← scriptNum vch1 env.fRequireMinimal
  let vch2 ← stacktop stack 2
  let bn2 ← scriptNum vch2 env.fRequireMinimal
  let vch3 ← stacktop stack 1
  let bn3 ← scriptNum vch3 env.fRequireMinimal
  let stack ← popstack stack
  let stack ← popstack stack
  let stack ← popstack stack
  pure (boolElement (decide (bn2 ≤ bn1) && decide (bn1 < bn3)) :: stack)

open Serialize

def hashBytes (vch : Valtype) : Valtype :=
  if opcode = OP_RIPEMD160 then le 20 (env.RIPEMD160 vch).toNat
  else if opcode = OP_SHA1 then le 20 (env.SHA1 vch).toNat
  else if opcode = OP_HASH160 then le 20 (env.Hash160 vch).toNat
  else if opcode = OP_SHA256 then le 32 (env.SHA256 vch).toNat
  else le 32 (env.Hash256 vch).toNat

/-- `OP_RIPEMD160`, `OP_SHA1`, `OP_SHA256`, `OP_HASH160` and `OP_HASH256`. -/
def opHash : EvalM Stack := do
  failIf (stack.length < 1) .INVALID_STACK_OPERATION
  let vch ← stacktop stack 1
  let stack ← popstack stack
  pure (hashBytes env opcode vch :: stack)

end

end Script

end Agouti
