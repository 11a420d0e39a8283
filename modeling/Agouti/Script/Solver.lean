import Agouti.Net.FilteredBlock

/-! # The solver of output scripts

`Solver`, `ExtractDestination`, `ExtractDestinations` and `GetScriptForDestination` of
`script/standard.cpp`. A read at a fixed offset and a vector of a range of the script are checked,
and a fault is what the language leaves undefined or answers with an exception. The shortcut for
zerocoin mints begins its range two bytes behind the start of a script that may have one byte.
`IsNormalPaymentScript` does not look at the push of the hash, and takes a script that ends early.
The two slips are all that is wrong (`solver_promise_iff`).
-/

namespace Agouti

open Outcome List Option

/-- How a function ends that does not return. -/
inductive SolverFault where
  /-- a read behind the end -/
  | outOfRange
  /-- a vector of a range whose end stands in front of its begin: `std::length_error` -/
  | badRange
  /-- `uint_error`: "Converting vector of wrong size to base_uint" -/
  | uintError
  deriving DecidableEq, Repr

/-- The kinds of output scripts. -/
inductive TxnOutType where
  | TX_NONSTANDARD
  | TX_PUBKEY
  | TX_PUBKEYHASH
  | TX_SCRIPTHASH
  | TX_MULTISIG
  | TX_NULL_DATA
  | TX_ZEROCOINMINT
  deriving DecidableEq, Repr

/-- Whom a script pays. -/
inductive CTxDestination where
  | noDestination
  | keyID (id : Uint160)
  | scriptID (id : Uint160)
  deriving DecidableEq

namespace Solver

open CScript TxnOutType

def OP_SMALLINTEGER : UInt8 := 0xfa
def OP_PUBKEYS : UInt8 := 0xfb
def OP_PUBKEYHASH : UInt8 := 0xfd
def OP_PUBKEY : UInt8 := 0xfe

/-- `at`, `front` and `[]`. -/
def readAt {α : Type} (values : List α) (i : Nat) : Except SolverFault α :=
  match values[i]? with
  | some value => .ok value
  | none => .error .outOfRange

/-- `back`. -/
def readBack {α : Type} (values : List α) : Except SolverFault α := readAt values (values.length - 1)

/-- `vector(begin() + first, begin() + last)`. -/
def vectorOf (script : CScript) (first last : Nat) : Except SolverFault Valtype :=
  if first ≤ last ∧ last ≤ script.length then .ok ((script.take last).drop first)
  else .error .badRange

/-- `CScript::IsPayToScriptHash` with its reads. -/
def isPayToScriptHash (script : CScript) : Except SolverFault Bool :=
  if script.length ≠ 23 then .ok false
  else do
    let first ← readAt script 0
    if first ≠ OP_HASH160 then .ok false
    else do
      let second ← readAt script 1
      if second ≠ 0x14 then .ok false
      else do
        let last ← readAt script 22
        .ok (last == OP_EQUAL)

/-- `size() > 0 && at(0) == opcode`: `CScript::IsZerocoinMint`, and the test for `OP_RETURN`. -/
def beginsWith (opcode : UInt8) (script : CScript) : Except SolverFault Bool :=
  if script.length = 0 then .ok false
  else do
    let first ← readAt script 0
    .ok (first == opcode)

/-- Keys in the place of `OP_PUBKEYS`: what was read last, the rest of the script, and the solutions.
An instruction that is cut off is read as `OP_INVALIDOPCODE`, which no template goes on with. -/
def passPubKeys : Nat → UInt8 → Valtype → CScript → List Valtype →
    UInt8 × Valtype × CScript × List Valtype
  | 0, opcode1, vch1, pc1, vSolutionsRet => (opcode1, vch1, pc1, vSolutionsRet)
  | fuel + 1, opcode1, vch1, pc1, vSolutionsRet =>
    if 33 ≤ vch1.length ∧ vch1.length ≤ 65 then
      match getOp pc1 with
      | none => (OP_INVALIDOPCODE, [], pc1, vSolutionsRet ++ [vch1])
      | some (opcode1, vch, pc1) => passPubKeys fuel opcode1 vch pc1 (vSolutionsRet ++ [vch1])
    else (opcode1, vch1, pc1, vSolutionsRet)

/-- An instruction against an opcode of a template: the solutions, or nothing for a break. -/
def matchOp (opcode1 : UInt8) (vch1 : Valtype) (vSolutionsRet : List Valtype) (opcode2 : UInt8) :
    Option (List Valtype) :=
  if opcode2 = OP_PUBKEY then
    if vch1.length < 33 ∨ 65 < vch1.length then none else some (vSolutionsRet ++ [vch1])
  else if opcode2 = OP_PUBKEYHASH then
    if vch1.length ≠ 20 then none else some (vSolutionsRet ++ [vch1])
  else if opcode2 = OP_SMALLINTEGER then
    -- single-byte small integer pushed onto vSolutions
    (smallInteger opcode1).map fun n => vSolutionsRet ++ [[UInt8.ofNat n]]
  -- others must match exactly
  else if opcode1 ≠ opcode2 ∨ vch1 ≠ [] then none
  else some vSolutionsRet

/-- The comparison of a script, the second argument, with a template: the solutions of a match. -/
def compare : CScript → CScript → List Valtype → Option (List Valtype)
  | [], pc1, vSolutionsRet => if pc1 = [] then some vSolutionsRet else none
  | opcode2 :: pc2, pc1, vSolutionsRet =>
    match getOp pc1 with
    | none => none
    | some (opcode1, vch1, pc1) =>
      if opcode2 = OP_PUBKEYS then
        let (opcode1, vch1, pc1, vSolutionsRet) :=
          passPubKeys (pc1.length + 1) opcode1 vch1 pc1 vSolutionsRet
        match pc2 with
        | [] => none
        | opcode2 :: pc2 => do
            let vSolutionsRet ← matchOp opcode1 vch1 vSolutionsRet opcode2
            compare pc2 pc1 vSolutionsRet
      else do
        let vSolutionsRet ← matchOp opcode1 vch1 vSolutionsRet opcode2
        compare pc2 pc1 vSolutionsRet

/-- `mTemplates`, in the order of the types. -/
def mTemplates : List (TxnOutType × CScript) :=
  [ -- standard tx, sender provides pubkey, receiver adds signature
    (TX_PUBKEY, [OP_PUBKEY, OP_CHECKSIG]),
    -- address tx, sender provides hash of pubkey, receiver provides signature and pubkey
    (TX_PUBKEYHASH, [OP_DUP, OP_HASH160, OP_PUBKEYHASH, OP_EQUALVERIFY, OP_CHECKSIG]),
    -- sender provides N pubkeys, receivers provides M signatures
    (TX_MULTISIG, [OP_SMALLINTEGER, OP_PUBKEYS, OP_SMALLINTEGER, OP_CHECKMULTISIG])]

/-- The result of `Solver`, and what it has written. -/
structure Solved where
  result : Bool
  typeRet : TxnOutType
  vSolutionsRet : List Valtype
  deriving DecidableEq, Repr

def matched (typeRet : TxnOutType) (vSolutionsRet : List Valtype) : Except SolverFault Solved :=
  if typeRet = TX_MULTISIG then do
    -- additional checks for TX_MULTISIG
    let front ← readAt vSolutionsRet 0
    let m ← readAt front 0
    let back ← readBack vSolutionsRet
    let n ← readAt back 0
    .ok ⟨!(decide (m < 1) || decide (n < 1) || decide (n < m) ||
      vSolutionsRet.length - 2 != n.toNat), typeRet, vSolutionsRet⟩
  else .ok ⟨true, typeRet, vSolutionsRet⟩

def scan (script1 : CScript) : List (TxnOutType × CScript) → Except SolverFault Solved
  | [] => .ok ⟨false, TX_NONSTANDARD, []⟩
  | (typeRet, script2) :: templates =>
    match compare script2 script1 [] with
    | some vSolutionsRet => matched typeRet vSolutionsRet
    | none => scan script1 templates

def solver (scriptPubKey : CScript) (vSolutionsRet : List Valtype) : Except SolverFault Solved := do
  -- shortcut for pay-to-script-hash, which are more constrained than the other types
  let toScriptHash ← isPayToScriptHash scriptPubKey
  if toScriptHash then do
    let hashBytes ← vectorOf scriptPubKey 2 22
    .ok ⟨true, TX_SCRIPTHASH, vSolutionsRet ++ [hashBytes]⟩
  else do
    let mint ← beginsWith OP_ZEROCOINMINT scriptPubKey
    if mint then
      if 150 < scriptPubKey.length then .ok ⟨false, TX_ZEROCOINMINT, vSolutionsRet⟩
      else do
        let hashBytes ← vectorOf scriptPubKey 2 scriptPubKey.length
        .ok ⟨true, TX_ZEROCOINMINT, vSolutionsRet ++ [hashBytes]⟩
    else do
      -- provably prunable, data-carrying output
      let data ← beginsWith OP_RETURN scriptPubKey
      if data && isPushOnly (scriptPubKey.drop 1) then .ok ⟨true, TX_NULL_DATA, vSolutionsRet⟩
      else scan scriptPubKey mTemplates

/-- `uint160(vch)`. -/
def uint160 (vch : Valtype) : Except SolverFault Uint160 :=
  if vch.length ≠ 20 then .error .uintError else .ok (BitVec.ofNat 160 (littleEndian vch))

section

variable [Crypto]

/-- `ExtractDestination`: the address, or nothing when it returns false. -/
def extractDestination (scriptPubKey : CScript) : Except SolverFault (Option CTxDestination) := do
  let solved ← solver scriptPubKey []
  if !solved.result then .ok none
  else
    match solved.typeRet with
    | TX_PUBKEY => do
        let vch ← readAt solved.vSolutionsRet 0
        let pubKey := CPubKey.ofBytes vch
        .ok (if pubKey.isValid then some (.keyID pubKey.getID) else none)
    | TX_PUBKEYHASH => do
        let vch ← readAt solved.vSolutionsRet 0
        let id ← uint160 vch
        .ok (some (.keyID id))
    | TX_SCRIPTHASH => do
        let vch ← readAt solved.vSolutionsRet 0
        let id ← uint160 vch
        .ok (some (.scriptID id))
    -- multisig txns have more than one address
    | _ => .ok none

/-- What `ExtractDestinations` writes. -/
structure Extracted where
  result : Bool
  typeRet : TxnOutType
  addressRet : List CTxDestination
  nRequiredRet : Int
  deriving DecidableEq

def addressesOf : List Valtype → List CTxDestination
  | [] => []
  | vch :: keys =>
    let pubKey := CPubKey.ofBytes vch
    if pubKey.isValid then .keyID pubKey.getID :: addressesOf keys else addressesOf keys

def extractDestinations (scriptPubKey : CScript) (nRequiredRet : Int) :
    Except SolverFault Extracted := do
  let solved ← solver scriptPubKey []
  if !solved.result then .ok ⟨false, solved.typeRet, [], nRequiredRet⟩
  else if solved.typeRet = TX_NULL_DATA then .ok ⟨false, solved.typeRet, [], nRequiredRet⟩
  else if solved.typeRet = TX_MULTISIG then do
    let front ← readAt solved.vSolutionsRet 0
    let nRequired ← readAt front 0
    let addressRet := addressesOf ((solved.vSolutionsRet.drop 1).dropLast)
    .ok ⟨addressRet != [], solved.typeRet, addressRet, nRequired.toNat⟩
  else do
    match ← extractDestination scriptPubKey with
    | none => .ok ⟨false, solved.typeRet, [], 1⟩
    | some address => .ok ⟨true, solved.typeRet, [address], 1⟩

def getScriptForDestination : CTxDestination → CScript
  | .noDestination => []
  | .keyID keyID => [OP_DUP, OP_HASH160] ++ pushData (Serialize.le 20 keyID.toNat) ++
      [OP_EQUALVERIFY, OP_CHECKSIG]
  | .scriptID scriptID => [OP_HASH160] ++ pushData (Serialize.le 20 scriptID.toNat) ++ [OP_EQUAL]

end

/-! ## Reads -/

theorem readAt_eq {α : Type} {values : List α} {i : Nat} {value : α}
    (here : values[i]? = some value) : readAt values i = .ok value := by
  rw [readAt, here]

theorem isPayToScriptHash_eq (script : CScript) :
    isPayToScriptHash script = .ok script.isPayToScriptHash := by
  unfold isPayToScriptHash CScript.isPayToScriptHash
  by_cases size : script.length = 23
  · have read (i : Nat) (inside : i < 23) : ∃ byte, script[i]? = some byte :=
      ⟨_, List.getElem?_eq_getElem (by omega)⟩
    obtain ⟨first, atFirst⟩ := read 0 (by norm_num)
    obtain ⟨second, atSecond⟩ := read 1 (by norm_num)
    obtain ⟨last, atLast⟩ := read 22 (by norm_num)
    rw [if_neg (not_not.mpr size), readAt_eq atFirst, readAt_eq atSecond, readAt_eq atLast, atFirst,
      atSecond, atLast]
    simp only [ok_bind, size, beq_self_eq_true, Bool.true_and]
    split_ifs with other another
    · simp [other]
    · simp [another]
    · rw [not_not] at other another
      simp [other, another]
  · rw [if_pos size, beq_eq_false_iff_ne.mpr size]
    rfl

theorem beginsWith_eq (opcode : UInt8) (script : CScript) :
    beginsWith opcode script = .ok (script.startsWith opcode) := by
  cases script with
  | nil => rfl
  | cons byte script => rfl

/-! ## Instructions -/

variable {opcode : UInt8} {script : CScript} {solutions : List Valtype}

theorem pushSize_plain (above : OP_PUSHDATA4 < opcode) (pc : CScript) :
    pushSize opcode pc = some (0, pc) := by
  have number : 78 < opcode.toNat := UInt8.lt_iff_toNat_lt.mp above
  have other {low : UInt8} (small : low.toNat ≤ 78) : opcode ≠ low := by
    rintro rfl
    omega
  have large : ¬opcode < OP_PUSHDATA1 := by
    rw [UInt8.lt_iff_toNat_lt, show OP_PUSHDATA1.toNat = 76 from rfl]
    omega
  rw [pushSize, if_neg large, if_neg (other (by decide)), if_neg (other (by decide)),
    if_neg (other (by decide))]

theorem getOp_plain (above : OP_PUSHDATA4 < opcode) (pc : CScript) :
    getOp (opcode :: pc) = some (opcode, [], pc) := by
  rw [getOp, pushSize_plain above]
  exact if_neg (Nat.not_lt_zero _)

theorem getOp_head {rest : CScript} {data : Valtype}
    (read : getOp script = some (opcode, data, rest)) : script.head? = some opcode := by
  cases script with
  | nil => cases read
  | cons byte pc =>
    rw [getOp] at read
    split at read
    · cases read
    · split at read
      · cases read
      · cases read
        rfl

theorem of_getOp_plain {rest : CScript} {data : Valtype}
    (read : getOp script = some (opcode, data, rest)) (above : OP_PUSHDATA4 < opcode) :
    script = opcode :: rest ∧ data = [] := by
  cases script with
  | nil => cases read
  | cons byte pc =>
    obtain rfl : byte = opcode := some.inj (getOp_head read)
    rw [getOp_plain above] at read
    cases read
    exact ⟨rfl, rfl⟩

theorem getOp_short (short : opcode < OP_PUSHDATA1) {data : Valtype}
    (sized : data.length = opcode.toNat) (rest : CScript) :
    getOp (opcode :: (data ++ rest)) = some (opcode, data, rest) := by
  have size : pushSize opcode (data ++ rest) = some (data.length, data ++ rest) := by
    rw [pushSize, if_pos short, sized]
  rw [getOp, size]
  dsimp only
  rw [if_neg (by simp), take_left, drop_left]

/-! ## Templates -/

/-- A list of opcodes that are neither pushes nor special to templates. -/
def Plain (ops : CScript) : Prop := ∀ opcode ∈ ops, OP_PUSHDATA4 < opcode ∧ opcode < OP_SMALLINTEGER

theorem plain_ne {special : UInt8} (low : opcode < OP_SMALLINTEGER)
    (high : OP_SMALLINTEGER ≤ special) : opcode ≠ special := by
  rintro rfl
  exact absurd low (UInt8.not_lt.mpr high)

theorem matchOp_plain {opcode1 opcode2 : UInt8} (low : opcode2 < OP_SMALLINTEGER) (vch1 : Valtype)
    (vSolutionsRet : List Valtype) : matchOp opcode1 vch1 vSolutionsRet opcode2 =
      if opcode1 ≠ opcode2 ∨ vch1 ≠ [] then none else some vSolutionsRet := by
  rw [matchOp, if_neg (plain_ne low (by decide)), if_neg (plain_ne low (by decide)),
    if_neg (plain_ne low (by decide))]

theorem compare_cons {opcode2 : UInt8} (one : opcode2 ≠ OP_PUBKEYS) (pc2 pc1 : CScript)
    (vSolutionsRet : List Valtype) : compare (opcode2 :: pc2) pc1 vSolutionsRet =
      (getOp pc1).bind fun read => (matchOp read.1 read.2.1 vSolutionsRet opcode2).bind fun after =>
        compare pc2 read.2.2 after := by
  rw [compare]
  cases getOp pc1 with
  | none => rfl
  | some read => exact if_neg one

theorem compare_plain_cons {opcode2 : UInt8} (above : OP_PUSHDATA4 < opcode2)
    (low : opcode2 < OP_SMALLINTEGER) {pc2 pc1 : CScript} {before after : List Valtype} :
    compare (opcode2 :: pc2) pc1 before = some after ↔
      ∃ rest, pc1 = opcode2 :: rest ∧ compare pc2 rest before = some after := by
  rw [compare_cons (plain_ne low (by decide))]
  constructor
  · intro found
    obtain ⟨⟨opcode1, vch1, rest⟩, read, passed⟩ := bind_eq_some_iff.mp found
    obtain ⟨kept, same, later⟩ := bind_eq_some_iff.mp passed
    rw [matchOp_plain low] at same
    split at same
    · cases same
    · rename_i exactly
      rw [not_or, not_not, not_not] at exactly
      obtain ⟨rfl, -⟩ := exactly
      cases same
      exact ⟨rest, (of_getOp_plain read above).1, later⟩
  · rintro ⟨rest, rfl, later⟩
    rw [getOp_plain above, bind_some, matchOp_plain low, if_neg (by simp)]
    exact later

theorem compare_plain {ops pc1 : CScript} (plain : Plain ops) {before after : List Valtype} :
    compare ops pc1 before = some after ↔ pc1 = ops ∧ after = before := by
  induction ops generalizing pc1 with
  | nil =>
    rw [compare]
    split
    · rename_i ends
      exact ⟨fun same => ⟨ends, (some.inj same).symm⟩, fun same => congrArg _ same.2.symm⟩
    · rename_i goes
      exact iff_of_false nofun fun same => goes same.1
  | cons opcode ops ih =>
    obtain ⟨⟨above, low⟩, later⟩ := forall_mem_cons.mp plain
    rw [compare_plain_cons above low]
    constructor
    · rintro ⟨rest, rfl, found⟩
      obtain ⟨rfl, rfl⟩ := (ih later).mp found
      exact ⟨rfl, rfl⟩
    · rintro ⟨rfl, rfl⟩
      exact ⟨ops, rfl, (ih later).mpr ⟨rfl, rfl⟩⟩

instance (ops : CScript) : Decidable (Plain ops) :=
  List.decidableBAll (fun opcode => OP_PUSHDATA4 < opcode ∧ opcode < OP_SMALLINTEGER) ops

/-- Instructions with data, one behind the other. -/
inductive Pushes : CScript → List Valtype → CScript → Prop
  | nil (pc : CScript) : Pushes pc [] pc
  | cons {pc rest last : CScript} {opcode : UInt8} {vch : Valtype} {keys : List Valtype}
      (read : getOp pc = some (opcode, vch, rest)) (later : Pushes rest keys last) :
      Pushes pc (vch :: keys) last

/-- The size of a public key. -/
def KeySized (vch : Valtype) : Prop := 33 ≤ vch.length ∧ vch.length ≤ 65

/-- Keys are passed up to an instruction of another kind, or one that is cut off. -/
theorem passPubKeys_spec {fuel : Nat} {pc0 pc1 : CScript} {opcode1 : UInt8} {vch1 : Valtype}
    (enough : pc1.length < fuel) (read : getOp pc0 = some (opcode1, vch1, pc1))
    (before : List Valtype) :
    ∃ keys opcode vch pc, passPubKeys fuel opcode1 vch1 pc1 before =
        (opcode, vch, pc, before ++ keys) ∧ (∀ key ∈ keys, KeySized key) ∧
      (opcode = OP_INVALIDOPCODE ∨
        ∃ middle, Pushes pc0 keys middle ∧ getOp middle = some (opcode, vch, pc)) := by
  induction fuel generalizing pc0 pc1 opcode1 vch1 before with
  | zero => exact absurd enough (Nat.not_lt_zero _)
  | succ fuel ih =>
    rw [passPubKeys]
    by_cases key : 33 ≤ vch1.length ∧ vch1.length ≤ 65
    · rw [if_pos key]
      cases next : getOp pc1 with
      | none =>
        exact ⟨[vch1], _, _, _, rfl, forall_mem_singleton.mpr key, .inl rfl⟩
      | some found =>
        obtain ⟨opcode2, vch2, pc2⟩ := found
        have shorter := Script.getOp_shorter next
        obtain ⟨keys, opcode, vch, pc, passed, sized, ends⟩ :=
          ih (by omega) next (before ++ [vch1])
        refine ⟨vch1 :: keys, opcode, vch, pc, ?_, forall_mem_cons.mpr ⟨key, sized⟩, ?_⟩
        · rw [append_cons before vch1 keys]
          exact passed
        · refine ends.imp_right fun ⟨middle, pushes, last⟩ => ⟨middle, .cons read pushes, last⟩
    · rw [if_neg key]
      refine ⟨[], opcode1, vch1, pc1, ?_, forall_mem_nil _, .inr ⟨pc0, .nil pc0, read⟩⟩
      rw [append_nil]

/-- The script is `m`, keys, `n` and `OP_CHECKMULTISIG`. -/
def IsMultisig (script : CScript) (m : Nat) (keys : List Valtype) (n : Nat) : Prop :=
  ∃ first last data dataLast behind middle, getOp script = some (first, data, behind) ∧
    smallInteger first = some m ∧ Pushes behind keys middle ∧
    getOp middle = some (last, dataLast, [OP_CHECKMULTISIG]) ∧ smallInteger last = some n

theorem smallInteger_le {n : Nat} (small : smallInteger opcode = some n) :
    n ≤ 16 := by
  unfold smallInteger at small
  split at small
  · rename_i range
    have value := some.inj small
    rcases range with rfl | ⟨-, most⟩
    · rw [← value]
      decide
    · have bound := UInt8.le_iff_toNat_le.mp most
      have top : OP_16.toNat = 96 := rfl
      have one : OP_1.toNat = 81 := rfl
      unfold decodeOpN at value
      split at value <;> omega
  · cases small

/-! ## The templates -/

theorem compare_pubKey :
    compare [OP_PUBKEY, OP_CHECKSIG] script [] = some solutions ↔
      ∃ opcode vch, getOp script = some (opcode, vch, [OP_CHECKSIG]) ∧ KeySized vch ∧
        solutions = [vch] := by
  rw [compare_cons (by decide)]
  constructor
  · intro found
    obtain ⟨⟨opcode, vch, rest⟩, read, passed⟩ := bind_eq_some_iff.mp found
    obtain ⟨kept, same, later⟩ := bind_eq_some_iff.mp passed
    rw [matchOp, if_pos rfl] at same
    split at same
    · cases same
    · rename_i sized
      cases same
      obtain ⟨rfl, rfl⟩ := (compare_plain (by decide)).mp later
      exact ⟨opcode, vch, read, ⟨not_lt.mp fun short => sized (.inl short),
        not_lt.mp fun long => sized (.inr long)⟩, rfl⟩
  · rintro ⟨opcode, vch, read, sized, rfl⟩
    have inside : ¬(vch.length < 33 ∨ 65 < vch.length) := by
      unfold KeySized at sized
      omega
    rw [read, bind_some, matchOp, if_pos rfl, if_neg inside]
    exact (compare_plain (by decide)).mpr ⟨rfl, rfl⟩

theorem compare_pubKeyHash :
    compare [OP_DUP, OP_HASH160, OP_PUBKEYHASH, OP_EQUALVERIFY, OP_CHECKSIG] script [] =
        some solutions ↔
      ∃ tail opcode vch, script = OP_DUP :: OP_HASH160 :: tail ∧
        getOp tail = some (opcode, vch, [OP_EQUALVERIFY, OP_CHECKSIG]) ∧ vch.length = 20 ∧
        solutions = [vch] := by
  rw [compare_plain_cons (by decide) (by decide)]
  constructor
  · rintro ⟨rest, rfl, found⟩
    obtain ⟨tail, rfl, later⟩ := (compare_plain_cons (by decide) (by decide)).mp found
    rw [compare_cons (by decide)] at later
    obtain ⟨⟨opcode, vch, rest⟩, read, passed⟩ := bind_eq_some_iff.mp later
    obtain ⟨kept, same, ends⟩ := bind_eq_some_iff.mp passed
    rw [matchOp, if_neg (by decide), if_pos rfl] at same
    split at same
    · cases same
    · rename_i sized
      cases same
      obtain ⟨rfl, rfl⟩ := (compare_plain (by decide)).mp ends
      exact ⟨tail, opcode, vch, rfl, read, not_not.mp sized, rfl⟩
  · rintro ⟨tail, opcode, vch, rfl, read, sized, rfl⟩
    refine ⟨_, rfl, (compare_plain_cons (by decide) (by decide)).mpr ⟨_, rfl, ?_⟩⟩
    rw [compare_cons (by decide), read, bind_some, matchOp, if_neg (by decide), if_pos rfl,
      if_neg (not_not.mpr sized)]
    exact (compare_plain (by decide)).mpr ⟨rfl, rfl⟩

theorem compare_multisig
    (found : compare [OP_SMALLINTEGER, OP_PUBKEYS, OP_SMALLINTEGER, OP_CHECKMULTISIG] script [] =
      some solutions) :
    ∃ m keys n, IsMultisig script m keys n ∧ (∀ key ∈ keys, KeySized key) ∧ m ≤ 16 ∧ n ≤ 16 ∧
      solutions = [UInt8.ofNat m] :: (keys ++ [[UInt8.ofNat n]]) := by
  rw [compare_cons (by decide)] at found
  obtain ⟨⟨first, data, behind⟩, read, passed⟩ := bind_eq_some_iff.mp found
  obtain ⟨kept, same, later⟩ := bind_eq_some_iff.mp passed
  have small : matchOp first data [] OP_SMALLINTEGER =
      (smallInteger first).map fun n => [[UInt8.ofNat n]] := by
    rw [matchOp, if_neg (by decide), if_neg (by decide), if_pos rfl]
    rfl
  rw [small] at same
  obtain ⟨m, decoded, rfl⟩ := map_eq_some_iff.mp same
  rw [compare] at later
  cases next : getOp behind with
  | none =>
    rw [next] at later
    cases later
  | some found =>
    obtain ⟨opcode1, vch1, pc1⟩ := found
    rw [next] at later
    dsimp only at later
    rw [if_pos rfl] at later
    obtain ⟨keys, opcode, vch, pc, keysPassed, sized, ends⟩ :=
      passPubKeys_spec (Nat.lt_succ_self pc1.length) next [[UInt8.ofNat m]]
    rw [keysPassed] at later
    obtain ⟨after, number, last⟩ := bind_eq_some_iff.mp later
    rw [matchOp, if_neg (by decide), if_neg (by decide), if_pos rfl] at number
    obtain ⟨n, decodedLast, rfl⟩ := map_eq_some_iff.mp number
    obtain ⟨rfl, rfl⟩ := (compare_plain (by decide)).mp last
    rcases ends with rfl | ⟨middle, pushes, readLast⟩
    · have none : smallInteger OP_INVALIDOPCODE = none := by decide
      have some : smallInteger OP_INVALIDOPCODE = some n := decodedLast
      rw [none] at some
      cases some
    · refine ⟨m, keys, n, ⟨first, opcode, data, vch, behind, middle, read, decoded, pushes,
        readLast, decodedLast⟩, sized, smallInteger_le decoded, smallInteger_le decodedLast, ?_⟩
      simp

end Solver

end Agouti
