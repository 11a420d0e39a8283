import Agouti.Primitives.Serialize
import Mathlib.Data.List.GetD
import Mathlib.Data.Set.Function

/-! # Signature hashes

`SignatureHash` of `script/interpreter.cpp` serializes a transaction in place with the changes that
the hash type asks for (`serializeForSignature`). The reference of the tests copies the transaction,
deletes the code separators from the script and blanks the other inputs and outputs
(`signatureCopy`). Both write the same bytes but for the script: the serializer writes what
`GetOp2` has read when it stops, under the size of the whole script, and the reference writes the
whole script. The two hashes are equal exactly when `GetOp2` reads the script
to its end, or the input index is refused (`signatureHash_eq_old`).
-/

namespace Agouti

open List Option Serialize

namespace CScript

def OP_CODESEPARATOR : UInt8 := 0xab

/-- `CScript::GetOp2` without the operand: the opcode, if an instruction could be read, and where
the iterator stands. -/
def getOp2 : CScript → Option UInt8 × CScript
  | [] => (none, [])
  | opcode :: pc =>
    match pushSize opcode pc with
    | none => (none, pc)
    | some (nSize, pc) =>
      if pc.length < nSize then (none, pc) else (some opcode, pc.drop nSize)

/-- The bytes between an iterator and a later one. -/
def upTo (itBegin it : CScript) : List UInt8 := itBegin.take (itBegin.length - it.length)

/-- The first loop of `SerializeScriptCode`: the number of code separators. -/
def countSeparators : Nat → CScript → Nat
  | 0, _ => 0
  | fuel + 1, it =>
    match getOp2 it with
    | (none, _) => 0
    | (some opcode, it) =>
      countSeparators fuel it + if opcode = OP_CODESEPARATOR then 1 else 0

/-- The second loop of `SerializeScriptCode`: the pieces between the code separators. -/
def writePieces : Nat → CScript → CScript → List UInt8
  | 0, _, _ => []
  | fuel + 1, itBegin, it =>
    match getOp2 it with
    | (none, it) => if itBegin ≠ [] then upTo itBegin it else []
    | (some opcode, it) =>
      if opcode = OP_CODESEPARATOR then
        itBegin.take (itBegin.length - it.length - 1) ++ writePieces fuel it it
      else writePieces fuel itBegin it

/-- `SerializeScriptCode`. Every instruction has a byte, so that the fuel is enough. -/
def serializeScriptCode (scriptCode : CScript) : List UInt8 :=
  let nCodeSeparators := countSeparators (scriptCode.length + 1) scriptCode
  compactSize (scriptCode.length - nCodeSeparators) ++
    writePieces (scriptCode.length + 1) scriptCode scriptCode

/-- The loop of `CScript::FindAndDelete`. -/
def deleteLoop (b : CScript) : Nat → CScript → CScript
  | 0, pc => pc
  | fuel + 1, pc =>
    if b.isPrefixOf pc then deleteLoop b fuel (pc.drop b.length)
    else
      match getOp2 pc with
      | (none, _) => pc
      | (some _, next) => upTo pc next ++ deleteLoop b fuel next

/-- `CScript::FindAndDelete`: the script afterwards. -/
def findAndDelete (script b : CScript) : CScript :=
  if b = [] then script else deleteLoop b (script.length + 1) script

end CScript

def SIGHASH_ANYONECANPAY : BitVec 32 := 0x80
def SIGHASH_NONE : BitVec 32 := 2
def SIGHASH_SINGLE : BitVec 32 := 3

def fAnyoneCanPay (nHashType : BitVec 32) : Bool := nHashType &&& SIGHASH_ANYONECANPAY != 0

def fHashSingle (nHashType : BitVec 32) : Bool := nHashType &&& 0x1f == SIGHASH_SINGLE

def fHashNone (nHashType : BitVec 32) : Bool := nHashType &&& 0x1f == SIGHASH_NONE

/-- What is outside of a vector is not read. -/
instance : Inhabited CTxIn := ⟨⟨.null, [], 0xffffffff⟩⟩

instance : Inhabited CTxOut := ⟨.null⟩

section

variable (script : List UInt8) (txTo : CTransaction) (nIn : Nat) (nHashType : BitVec 32)

/-- `SerializeInput`; `script` stands for what `SerializeScriptCode` writes. -/
def serializeInput (nInput : Nat) : List UInt8 :=
  let nInput := if fAnyoneCanPay nHashType then nIn else nInput
  outpoint (txTo.vin.getD nInput default).prevout ++
    (if nInput ≠ nIn then bytes [] else script) ++
    (if nInput ≠ nIn ∧ (fHashSingle nHashType || fHashNone nHashType) then le 4 0
      else le 4 (txTo.vin.getD nInput default).nSequence)

def serializeOutput (nOutput : Nat) : List UInt8 :=
  if fHashSingle nHashType ∧ nOutput ≠ nIn then txout .null
  else txout (txTo.vout.getD nOutput default)

/-- The inputs that `CTransactionSignatureSerializer::Serialize` writes. -/
def serializeInputs : List UInt8 :=
  let nInputs := if fAnyoneCanPay nHashType then 1 else txTo.vin.length
  compactSize nInputs ++
    (List.range nInputs).flatMap (serializeInput script txTo nIn nHashType)

def serializeOutputs : List UInt8 :=
  let nOutputs :=
    if fHashNone nHashType then 0 else if fHashSingle nHashType then nIn + 1 else txTo.vout.length
  compactSize nOutputs ++
    (List.range nOutputs).flatMap (serializeOutput txTo nIn nHashType)

/-- `CTransactionSignatureSerializer::Serialize`. -/
def serializeForSignature : List UInt8 :=
  leInt 4 txTo.nVersion ++ serializeInputs script txTo nIn nHashType ++
    serializeOutputs txTo nIn nHashType ++ le 4 txTo.nLockTime

end

section

variable (scriptCode : CScript) (txTo : CTransaction) (nIn : Nat) (nHashType : BitVec 32)

/-- The input index is out of range, of the inputs or for `SIGHASH_SINGLE` of the outputs. -/
def signsNothing : Bool :=
  decide (txTo.vin.length ≤ nIn) || (fHashSingle nHashType && decide (txTo.vout.length ≤ nIn))

def signatureHash [Crypto] : Uint256 :=
  if txTo.vin.length ≤ nIn then 1
  else if fHashSingle nHashType ∧ txTo.vout.length ≤ nIn then 1
  else
    Hash (serializeForSignature scriptCode.serializeScriptCode txTo nIn nHashType ++
      le 4 nHashType.toNat)

/-- The inputs but one are free to be replaced. -/
def freeSequences (vin : List CTxIn) : List CTxIn :=
  vin.mapIdx fun i txin => if i ≠ nIn then { txin with nSequence := 0 } else txin

/-- The inputs of the copy: the script of the signed one, no script of the others. -/
def blankInputs (vin : List CTxIn) : List CTxIn :=
  let vin := vin.map fun txin => { txin with scriptSig := [] }
  vin.set nIn { vin.getD nIn default with
    scriptSig := scriptCode.findAndDelete [CScript.OP_CODESEPARATOR] }

def blankOutputs (vout : List CTxOut) : List CTxOut :=
  if fHashNone nHashType then []
  else if fHashSingle nHashType then
    (vout.take (nIn + 1)).mapIdx fun i txout => if i < nIn then .null else txout
  else vout

def signatureCopy : CTransaction :=
  let vin := blankInputs scriptCode nIn txTo.vin
  let vin := if fHashNone nHashType || fHashSingle nHashType then freeSequences nIn vin else vin
  let vin :=
    if fAnyoneCanPay nHashType then (vin.set 0 (vin.getD nIn default)).take 1 else vin
  { txTo with
    vin := vin
    vout := blankOutputs nIn nHashType txTo.vout }

/-- `SignatureHashOld` of the tests. -/
def signatureHashOld [Crypto] : Uint256 :=
  if txTo.vin.length ≤ nIn then 1
  else if fHashSingle nHashType ∧ txTo.vout.length ≤ nIn then 1
  else
    Hash (transaction (signatureCopy scriptCode txTo nIn nHashType) ++
      le 4 nHashType.toNat)

end

/-! ## Reading a script -/

namespace CScript

/-- What `GetOp2` has read of a script where it stops, without the code separators. -/
def keptBytes : Nat → CScript → List UInt8
  | 0, _ => []
  | fuel + 1, it =>
    match getOp2 it with
    | (none, stop) => upTo it stop
    | (some opcode, next) =>
      (if opcode = OP_CODESEPARATOR then [] else upTo it next) ++ keptBytes fuel next

/-- What is behind the point where `GetOp2` stops. -/
def unreadBytes : Nat → CScript → CScript
  | 0, it => it
  | fuel + 1, it =>
    match getOp2 it with
    | (none, stop) => stop
    | (some _, next) => unreadBytes fuel next

/-- What `GetOp2` leaves of a script: nothing, unless an instruction is cut off, and then what it
has not read of it. -/
def unread (script : CScript) : CScript := unreadBytes (script.length + 1) script

theorem upTo_append (front it : CScript) : upTo (front ++ it) it = front := by
  rw [upTo, length_append, Nat.add_sub_cancel, take_left]

variable {opcode : UInt8} {it next : CScript}

theorem pushSize_suffix {pc rest : CScript} {nSize : Nat}
    (sized : pushSize opcode pc = some (nSize, rest)) : ∃ lead, pc = lead ++ rest := by
  have behind : ∀ count : Nat, ∃ lead, pc = lead ++ pc.drop count := fun count =>
    ⟨pc.take count, (take_append_drop count pc).symm⟩
  unfold pushSize at sized
  split_ifs at sized
  all_goals
    rw [some.injEq, Prod.mk.injEq] at sized
    obtain ⟨-, rfl⟩ := sized
  · exact behind 0
  · exact behind 1
  · exact behind 2
  · exact behind 4
  · exact behind 0

theorem getOp2_cut {pc : CScript} (sized : pushSize opcode pc = none) :
    getOp2 (opcode :: pc) = (none, pc) := by
  simp only [getOp2, sized]

theorem getOp2_sized {pc rest : CScript} {nSize : Nat}
    (sized : pushSize opcode pc = some (nSize, rest)) : getOp2 (opcode :: pc) =
      if rest.length < nSize then (none, rest) else (some opcode, rest.drop nSize) := by
  simp only [getOp2, sized]

/-- The iterator moves forward; over a byte at least, when an instruction was read. -/
theorem getOp2_read (it : CScript) :
    ∃ read, it = read ++ (getOp2 it).2 ∧ ((getOp2 it).1 ≠ none → read ≠ []) := by
  cases it with
  | nil => exact ⟨[], rfl, fun absent => absurd rfl absent⟩
  | cons opcode pc =>
    cases sized : pushSize opcode pc with
    | none =>
      rw [getOp2_cut sized]
      exact ⟨[opcode], rfl, fun _ => cons_ne_nil _ _⟩
    | some operand =>
      obtain ⟨nSize, rest⟩ := operand
      rw [getOp2_sized sized]
      obtain ⟨lead, rfl⟩ := pushSize_suffix sized
      split
      · exact ⟨opcode :: lead, rfl, fun _ => cons_ne_nil _ _⟩
      · refine ⟨opcode :: (lead ++ rest.take nSize), ?_, fun _ => cons_ne_nil _ _⟩
        rw [cons_append, append_assoc, take_append_drop]

theorem getOp2_upTo {opcode : Option UInt8}
    (read : getOp2 it = (opcode, next)) : it = upTo it next ++ next := by
  obtain ⟨bytes, whole, -⟩ := getOp2_read it
  rw [read] at whole
  have front := upTo_append bytes next
  rw [← whole] at front
  rw [front]
  exact whole

theorem getOp2_shorter (read : getOp2 it = (some opcode, next)) : next.length < it.length := by
  obtain ⟨bytes, whole, nonempty⟩ := getOp2_read it
  rw [read] at whole nonempty
  change it = bytes ++ next at whole
  have positive := length_pos_iff.mpr (nonempty (some_ne_none opcode))
  have total := congrArg List.length whole
  rw [length_append] at total
  omega

theorem getOp2_head (read : getOp2 it = (some opcode, next)) :
    ∃ pc, it = opcode :: pc := by
  cases it with
  | nil => cases read
  | cons first pc =>
    cases sized : pushSize first pc with
    | none =>
      rw [getOp2_cut sized] at read
      cases read
    | some operand =>
      rw [getOp2_sized sized] at read
      split at read
      · cases read
      · exact ⟨pc, congrArg (· :: pc) (some.inj (congrArg Prod.fst read))⟩

theorem getOp2_separator (next : CScript) :
    getOp2 (OP_CODESEPARATOR :: next) = (some OP_CODESEPARATOR, next) :=
  getOp2_sized (rfl : pushSize OP_CODESEPARATOR next = some (0, next))

theorem separator_next (read : getOp2 it = (some OP_CODESEPARATOR, next)) :
    it = OP_CODESEPARATOR :: next := by
  obtain ⟨pc, rfl⟩ := getOp2_head read
  rw [getOp2_separator] at read
  exact congrArg (OP_CODESEPARATOR :: ·) (congrArg Prod.snd read)

theorem writePieces_eq (fuel : Nat) (front it : CScript) (enough : it.length < fuel) :
    writePieces fuel (front ++ it) it = front ++ keptBytes fuel it := by
  induction fuel generalizing front it with
  | zero => omega
  | succ fuel ih =>
    rcases read : getOp2 it with ⟨op, next⟩
    have whole := getOp2_upTo read
    cases op with
    | none =>
      simp only [writePieces, keptBytes, read]
      have all : upTo (front ++ it) next = front ++ upTo it next := by
        have joined := upTo_append (front ++ upTo it next) next
        rwa [append_assoc, ← whole] at joined
      by_cases empty : front ++ it = []
      · obtain ⟨noFront, noScript⟩ := append_eq_nil_iff.mp empty
        rw [if_neg (not_not.mpr empty), noFront, noScript, upTo, take_nil,
          append_nil]
      · rw [if_pos empty, all]
    | some opcode =>
      have shorter := getOp2_shorter read
      simp only [writePieces, keptBytes, read]
      by_cases separator : opcode = OP_CODESEPARATOR
      · rw [separator] at read
        have cons := separator_next read
        have count : (front ++ it).length - next.length - 1 = front.length := by
          rw [cons, length_append, length_cons]
          omega
        have rest := ih [] next (by omega)
        rw [nil_append] at rest
        rw [if_pos separator, if_pos separator, count, take_left, rest]
      · have rest := ih (front ++ upTo it next) next (by omega)
        rw [append_assoc, ← whole] at rest
        rw [if_neg separator, if_neg separator, rest, append_assoc]

theorem deleteLoop_eq (fuel : Nat) (it : CScript) (enough : it.length < fuel) :
    deleteLoop [OP_CODESEPARATOR] fuel it = keptBytes fuel it ++ unreadBytes fuel it := by
  induction fuel generalizing it with
  | zero => omega
  | succ fuel ih =>
    rcases read : getOp2 it with ⟨op, next⟩
    have whole := getOp2_upTo read
    by_cases begins : [OP_CODESEPARATOR].isPrefixOf it = true
    · obtain ⟨rest, rfl⟩ := isPrefixOf_iff_prefix.mp begins
      rw [singleton_append] at *
      have separator := getOp2_separator rest
      rw [length_cons] at enough
      simp only [deleteLoop, keptBytes, unreadBytes, separator, begins, ↓reduceIte,
        nil_append]
      exact ih rest (by omega)
    · cases op with
      | none =>
        simp only [deleteLoop, keptBytes, unreadBytes, read, begins]
        exact whole
      | some opcode =>
        have other : opcode ≠ OP_CODESEPARATOR := by
          rintro rfl
          rw [separator_next read] at begins
          exact begins ( isPrefixOf_iff_prefix.mpr ⟨next, rfl⟩)
        have shorter := getOp2_shorter read
        simp only [deleteLoop, keptBytes, unreadBytes, read, begins, other, ↓reduceIte,
          append_assoc]
        rw [ih next (by omega)]
        rfl

theorem length_parts (fuel : Nat) (it : CScript) (enough : it.length < fuel) :
    (keptBytes fuel it).length + (unreadBytes fuel it).length + countSeparators fuel it =
      it.length := by
  induction fuel generalizing it with
  | zero => omega
  | succ fuel ih =>
    rcases read : getOp2 it with ⟨op, next⟩
    have whole := congrArg List.length (getOp2_upTo read)
    rw [length_append] at whole
    cases op with
    | none =>
      simp only [keptBytes, unreadBytes, countSeparators, read]
      omega
    | some opcode =>
      have rest := ih next (by have := getOp2_shorter read; omega)
      simp only [keptBytes, unreadBytes, countSeparators, read, length_append]
      by_cases separator : opcode = OP_CODESEPARATOR
      · rw [separator] at read
        rw [if_pos separator, if_pos separator, separator_next read, length_cons,
          length_nil]
        omega
      · rw [if_neg separator, if_neg separator]
        omega

theorem serializeScriptCode_eq (scriptCode : CScript) :
    ∃ kept : List UInt8, scriptCode.findAndDelete [OP_CODESEPARATOR] = kept ++ scriptCode.unread ∧
      scriptCode.serializeScriptCode =
        compactSize (kept.length + scriptCode.unread.length) ++ kept := by
  have enough : scriptCode.length < scriptCode.length + 1 := Nat.lt_succ_self _
  have pieces := writePieces_eq _ [] scriptCode enough
  have lengths := length_parts _ scriptCode enough
  rw [nil_append, nil_append] at pieces
  refine ⟨keptBytes (scriptCode.length + 1) scriptCode, ?_, ?_⟩
  · exact deleteLoop_eq _ scriptCode enough
  · have size : scriptCode.length - countSeparators (scriptCode.length + 1) scriptCode =
        (keptBytes (scriptCode.length + 1) scriptCode).length + scriptCode.unread.length := by
      unfold unread
      omega
    rw [serializeScriptCode, pieces, size]

end CScript

/-! ## The two serializations -/

theorem mapIdx_eq_range {α β : Type} [Inhabited α] (values : List α) (f : Nat → α → β) :
    values.mapIdx f = (List.range values.length).map fun i => f i (values.getD i default) := by
  refine ext_getElem (by simp) fun i left _ => ?_
  rw [length_mapIdx] at left
  simp only [getElem_mapIdx, getElem_map, getElem_range,
    getD_eq_getElem _ _ left]

theorem vector_mapIdx {α β : Type} [Inhabited α] (element : β → List UInt8) (values : List α)
    (f : Nat → α → β) : vector element (values.mapIdx f) =
      compactSize values.length ++
        (List.range values.length).flatMap fun i => element (f i (values.getD i default)) := by
  rw [vector, length_mapIdx, mapIdx_eq_range, flatMap_map]

section

variable (scriptCode : CScript) (txTo : CTransaction) (nIn : Nat) (nHashType : BitVec 32)

abbrev deletedScript : List UInt8 :=
  bytes (scriptCode.findAndDelete [CScript.OP_CODESEPARATOR])

def copiedInput (i : Nat) (txin : CTxIn) : CTxIn where
  prevout := txin.prevout
  scriptSig := if i ≠ nIn then [] else scriptCode.findAndDelete [CScript.OP_CODESEPARATOR]
  nSequence :=
    if i ≠ nIn ∧ (fHashSingle nHashType || fHashNone nHashType) then 0 else txin.nSequence

theorem serializeInput_copied (nInput : Nat)
    (same : fAnyoneCanPay nHashType = true → nInput = nIn) :
    serializeInput (deletedScript scriptCode) txTo nIn nHashType nInput =
      txin (copiedInput scriptCode nIn nHashType nInput
        (txTo.vin.getD nInput default)) := by
  have index : (if fAnyoneCanPay nHashType = true then nIn else nInput) = nInput := by
    split
    · rename_i alone
      exact (same alone).symm
    · rfl
  unfold serializeInput txin copiedInput
  rw [index]
  by_cases other : nInput = nIn
  · simp only [other, ne_eq, not_true_eq_false, ↓reduceIte, false_and]
  · cases free : fHashSingle nHashType || fHashNone nHashType with
    | true => simp only [other, ne_eq, not_false_eq_true, ↓reduceIte, and_self]
    | false =>
      simp only [other, ne_eq, not_false_eq_true, ↓reduceIte, Bool.false_eq_true, and_false]

theorem blankInputs_eq :
    (if fHashNone nHashType || fHashSingle nHashType then
        freeSequences nIn (blankInputs scriptCode nIn txTo.vin)
      else blankInputs scriptCode nIn txTo.vin) =
    txTo.vin.mapIdx (copiedInput scriptCode nIn nHashType) := by
  have blank : ∀ (i : Nat) (within : i < txTo.vin.length),
      (blankInputs scriptCode nIn txTo.vin)[i]? = some { txTo.vin[i] with
        scriptSig := if i ≠ nIn then [] else
          scriptCode.findAndDelete [CScript.OP_CODESEPARATOR] } := by
    intro i within
    unfold blankInputs
    rw [List.getElem?_set]
    by_cases here : nIn = i
    · subst here
      have mapped : nIn < (txTo.vin.map fun txin => { txin with scriptSig := [] }).length := by
        rwa [length_map]
      simp only [↓reduceIte, mapped, ne_eq, not_true_eq_false, getD_eq_getElem _ _ mapped,
        getElem_map]
    · simp only [here, ↓reduceIte, ne_eq, Ne.symm here, not_false_eq_true, List.getElem?_map,
        List.getElem?_eq_getElem within, map_some]
  have sized : (blankInputs scriptCode nIn txTo.vin).length = txTo.vin.length := by
    rw [blankInputs, length_set, length_map]
  have order : (fHashNone nHashType || fHashSingle nHashType) =
      (fHashSingle nHashType || fHashNone nHashType) := Bool.or_comm _ _
  refine ext_getElem? fun i => ?_
  by_cases within : i < txTo.vin.length
  · rw [order, List.getElem?_mapIdx, List.getElem?_eq_getElem within, map_some]
    unfold copiedInput
    cases free : fHashSingle nHashType || fHashNone nHashType with
    | true =>
      simp only [↓reduceIte, freeSequences, List.getElem?_mapIdx, blank i within,
        map_some, and_true]
      by_cases here : i = nIn
      · simp only [here, ne_eq, not_true_eq_false, ↓reduceIte]
      · simp only [here, ne_eq, not_false_eq_true, ↓reduceIte]
    | false => simp only [Bool.false_eq_true, ↓reduceIte, blank i within, and_false]
  · have behind : txTo.vin.length ≤ i := Nat.not_lt.mp within
    have none : (txTo.vin.mapIdx (copiedInput scriptCode nIn nHashType))[i]? = none :=
      List.getElem?_eq_none (by rwa [length_mapIdx])
    rw [none]
    split
    · rw [freeSequences, List.getElem?_eq_none (by rwa [length_mapIdx, sized])]
    · rw [List.getElem?_eq_none (by rwa [sized])]

theorem vin_signatureCopy (inside : nIn < txTo.vin.length) :
    (signatureCopy scriptCode txTo nIn nHashType).vin =
      if fAnyoneCanPay nHashType then
        [copiedInput scriptCode nIn nHashType nIn (txTo.vin.getD nIn default)]
      else txTo.vin.mapIdx (copiedInput scriptCode nIn nHashType) := by
  have blanked := blankInputs_eq scriptCode txTo nIn nHashType
  unfold signatureCopy
  simp only [blanked]
  split
  · have within : nIn < (txTo.vin.mapIdx (copiedInput scriptCode nIn nHashType)).length := by
      rwa [length_mapIdx]
    rw [getD_eq_getElem _ _ within, getElem_mapIdx, getD_eq_getElem _ _ inside]
    cases vin : txTo.vin.mapIdx (copiedInput scriptCode nIn nHashType) with
    | nil =>
      rw [vin] at within
      exact absurd within (Nat.not_lt_zero nIn)
    | cons first rest => rfl
  · rfl

theorem serializeInputs_copied (inside : nIn < txTo.vin.length) :
    serializeInputs (deletedScript scriptCode) txTo nIn nHashType =
      vector txin (signatureCopy scriptCode txTo nIn nHashType).vin := by
  rw [vin_signatureCopy scriptCode txTo nIn nHashType inside]
  unfold serializeInputs
  cases alone : fAnyoneCanPay nHashType with
  | true =>
    have remapped : serializeInput (deletedScript scriptCode) txTo nIn nHashType 0 =
        serializeInput (deletedScript scriptCode) txTo nIn nHashType nIn := by
      unfold serializeInput
      simp only [alone, ↓reduceIte]
    have copied := serializeInput_copied scriptCode txTo nIn nHashType nIn fun _ => rfl
    simp only [↓reduceIte, range_one, flatMap_cons, flatMap_nil,
      vector, length_singleton, remapped, copied]
  | false =>
    have copied : serializeInput (deletedScript scriptCode) txTo nIn nHashType =
        fun nInput => txin (copiedInput scriptCode nIn nHashType nInput
          (txTo.vin.getD nInput default)) := by
      funext nInput
      refine serializeInput_copied scriptCode txTo nIn nHashType nInput fun able => ?_
      rw [alone] at able
      contradiction
    simp only [Bool.false_eq_true, ↓reduceIte, vector_mapIdx, copied]

theorem serializeOutputs_copied
    (single : fHashSingle nHashType = true → nIn < txTo.vout.length) :
    serializeOutputs txTo nIn nHashType =
      vector txout (signatureCopy scriptCode txTo nIn nHashType).vout := by
  have copied : (signatureCopy scriptCode txTo nIn nHashType).vout =
      blankOutputs nIn nHashType txTo.vout := rfl
  rw [copied]
  unfold serializeOutputs blankOutputs
  cases none : fHashNone nHashType with
  | true => rfl
  | false =>
    cases only : fHashSingle nHashType with
    | true =>
      have inside := single only
      have length : (txTo.vout.take (nIn + 1)).length = nIn + 1 :=
        length_take_of_le inside
      simp only [Bool.false_eq_true, ↓reduceIte, vector_mapIdx, length]
      rw [flatMap_def, flatMap_def]
      refine congrArg (compactSize (nIn + 1) ++ List.flatten ·) ?_
      refine map_congr_left fun i member => ?_
      have below : i < nIn + 1 := List.mem_range.mp member
      unfold serializeOutput
      by_cases here : i = nIn
      · have taken : (txTo.vout.take (nIn + 1)).getD nIn default =
            txTo.vout.getD nIn default := by
          rw [getD_eq_getElem?_getD, List.getElem?_take_of_lt (Nat.lt_succ_self nIn),
            getD_eq_getElem?_getD]
        simp only [here, ne_eq, not_true_eq_false, and_false, ↓reduceIte, Nat.lt_irrefl, taken]
      · have before : i < nIn := by omega
        simp only [only, here, ne_eq, not_false_eq_true, and_self, ↓reduceIte, before]
    | false =>
      have written : serializeOutput txTo nIn nHashType =
          fun i => txout (txTo.vout.getD i default) := by
        funext i
        unfold serializeOutput
        simp only [only, Bool.false_eq_true, false_and, ↓reduceIte]
      have whole := vector_mapIdx txout txTo.vout fun _ txout => txout
      have mapped : txTo.vout.mapIdx (fun _ txout => txout) = txTo.vout := by
        refine ext_getElem (by rw [length_mapIdx]) fun i _ _ => ?_
        rw [getElem_mapIdx]
      rw [mapped] at whole
      simp only [Bool.false_eq_true, ↓reduceIte, whole, written]

/-- **In place or on a copy**: the bytes are the same when the script is written as the copy has
it. -/
theorem transaction_signatureCopy (inside : nIn < txTo.vin.length)
    (single : fHashSingle nHashType = true → nIn < txTo.vout.length) :
    transaction (signatureCopy scriptCode txTo nIn nHashType) =
      serializeForSignature (deletedScript scriptCode) txTo nIn nHashType := by
  rw [transaction, ← serializeInputs_copied scriptCode txTo nIn nHashType inside,
    ← serializeOutputs_copied scriptCode txTo nIn nHashType single]
  rfl

theorem serializeInputs_parts (inside : nIn < txTo.vin.length) :
    ∃ front back : List UInt8, ∀ script,
      serializeInputs script txTo nIn nHashType = front ++ script ++ back := by
  have signed : ∀ nInput, (fAnyoneCanPay nHashType = true ∨ nInput = nIn) →
      ∃ front back : List UInt8, ∀ script,
        serializeInput script txTo nIn nHashType nInput = front ++ script ++ back := by
    intro nInput chosen
    have index : (if fAnyoneCanPay nHashType = true then nIn else nInput) = nIn := by
      split
      · rfl
      · rename_i others
        exact chosen.resolve_left others
    refine ⟨outpoint (txTo.vin.getD nIn default).prevout,
      le 4 (txTo.vin.getD nIn default).nSequence, fun script => ?_⟩
    unfold serializeInput
    simp only [index, ne_eq, not_true_eq_false, ↓reduceIte, false_and]
  cases alone : fAnyoneCanPay nHashType with
  | true =>
    obtain ⟨front, back, parts⟩ := signed 0 (.inl alone)
    refine ⟨compactSize 1 ++ front, back, fun script => ?_⟩
    unfold serializeInputs
    simp only [alone, ↓reduceIte, range_one, flatMap_cons, flatMap_nil,
      append_nil, parts, append_assoc]
  | false =>
    obtain ⟨front, back, parts⟩ := signed nIn (.inr rfl)
    have other : ∀ nInput, nInput ≠ nIn → ∀ script,
        serializeInput script txTo nIn nHashType nInput =
          serializeInput [] txTo nIn nHashType nInput := by
      intro nInput different script
      unfold serializeInput
      simp only [alone, Bool.false_eq_true, ↓reduceIte, different, ne_eq, not_false_eq_true]
    have order : List.range txTo.vin.length =
        List.range nIn ++ nIn :: List.range' (nIn + 1) (txTo.vin.length - nIn - 1) := by
      have split : txTo.vin.length = nIn + (1 + (txTo.vin.length - nIn - 1)) := by omega
      rw [range_eq_range', range_eq_range', split, ← range'_append_1, Nat.zero_add,
        ← range'_append_1]
      simp
    refine ⟨compactSize txTo.vin.length ++
        (List.range nIn).flatMap (serializeInput [] txTo nIn nHashType) ++ front,
      back ++ (List.range' (nIn + 1) (txTo.vin.length - nIn - 1)).flatMap
        (serializeInput [] txTo nIn nHashType), fun script => ?_⟩
    have before : (List.range nIn).flatMap (serializeInput script txTo nIn nHashType) =
        (List.range nIn).flatMap (serializeInput [] txTo nIn nHashType) := by
      rw [flatMap_def, flatMap_def]
      refine congrArg List.flatten (map_congr_left fun nInput member => ?_)
      exact other nInput (Nat.ne_of_lt (List.mem_range.mp member)) script
    have behind : (List.range' (nIn + 1) (txTo.vin.length - nIn - 1)).flatMap
        (serializeInput script txTo nIn nHashType) =
        (List.range' (nIn + 1) (txTo.vin.length - nIn - 1)).flatMap
          (serializeInput [] txTo nIn nHashType) := by
      rw [flatMap_def, flatMap_def]
      refine congrArg List.flatten (map_congr_left fun nInput member => ?_)
      have later := (mem_range'_1.mp member).1
      exact other nInput (by omega) script
    unfold serializeInputs
    simp only [alone, Bool.false_eq_true, ↓reduceIte]
    rw [order, flatMap_append, flatMap_cons, before, behind, parts]
    simp only [append_assoc]

/-- The bytes that `SignatureHash` hashes. -/
def signaturePreimage : List UInt8 :=
  serializeForSignature scriptCode.serializeScriptCode txTo nIn nHashType ++
    le 4 nHashType.toNat

def copyPreimage : List UInt8 :=
  transaction (signatureCopy scriptCode txTo nIn nHashType) ++
    le 4 nHashType.toNat

theorem serializeScriptCode_deleted :
    scriptCode.serializeScriptCode ++ scriptCode.unread = deletedScript scriptCode := by
  obtain ⟨kept, deleted, written⟩ := scriptCode.serializeScriptCode_eq
  rw [deletedScript, deleted, bytes, length_append, written, append_assoc]

variable {txTo} {nIn} {nHashType}

theorem preimage_eq_iff (inside : nIn < txTo.vin.length)
    (single : fHashSingle nHashType = true → nIn < txTo.vout.length) :
    signaturePreimage scriptCode txTo nIn nHashType = copyPreimage scriptCode txTo nIn nHashType ↔
      scriptCode.unread = [] := by
  obtain ⟨front, back, parts⟩ := serializeInputs_parts txTo nIn nHashType inside
  have scripts := serializeScriptCode_deleted scriptCode
  unfold signaturePreimage copyPreimage
  rw [transaction_signatureCopy scriptCode txTo nIn nHashType inside single, ← scripts]
  constructor
  · intro same
    have lengths := congrArg List.length same
    simp only [serializeForSignature, parts, length_append] at lengths
    exact eq_nil_of_length_eq_zero (by omega)
  · intro whole
    rw [whole, append_nil]

end

/-- **In place or on a copy.** The signature hash is that of the reference if the input index is
refused or `GetOp2` reads the script to its end; and only then, unless the two preimages collide. -/
theorem signatureHash_eq_old [Crypto] (scriptCode : CScript) (txTo : CTransaction) (nIn : Nat)
    (nHashType : BitVec 32) :
    (signsNothing txTo nIn nHashType = true ∨ scriptCode.unread = [] →
      signatureHash scriptCode txTo nIn nHashType =
        signatureHashOld scriptCode txTo nIn nHashType) ∧
    (Set.InjOn Hash {signaturePreimage scriptCode txTo nIn nHashType,
        copyPreimage scriptCode txTo nIn nHashType} →
      signatureHash scriptCode txTo nIn nHashType = signatureHashOld scriptCode txTo nIn nHashType →
        signsNothing txTo nIn nHashType = true ∨ scriptCode.unread = []) := by
  by_cases refused : signsNothing txTo nIn nHashType = true
  · refine ⟨fun _ => ?_, fun _ _ => .inl refused⟩
    simp only [signsNothing, Bool.or_eq_true, decide_eq_true_eq, Bool.and_eq_true] at refused
    unfold signatureHash signatureHashOld
    by_cases outside : txTo.vin.length ≤ nIn
    · rw [if_pos outside, if_pos outside]
    · rw [if_neg outside, if_neg outside, if_pos (refused.resolve_left outside),
        if_pos (refused.resolve_left outside)]
  · have accepted := refused
    simp only [signsNothing, Bool.or_eq_true, decide_eq_true_eq, Bool.and_eq_true, not_or, not_and,
      Nat.not_le] at accepted
    obtain ⟨inside, single⟩ := accepted
    have same := preimage_eq_iff scriptCode inside single
    have new : signatureHash scriptCode txTo nIn nHashType =
        Hash (signaturePreimage scriptCode txTo nIn nHashType) := by
      rw [signatureHash, if_neg (Nat.not_le.mpr inside),
        if_neg fun both => absurd (single both.1) (Nat.not_lt.mpr both.2)]
      rfl
    have old : signatureHashOld scriptCode txTo nIn nHashType =
        Hash (copyPreimage scriptCode txTo nIn nHashType) := by
      rw [signatureHashOld, if_neg (Nat.not_le.mpr inside),
        if_neg fun both => absurd (single both.1) (Nat.not_lt.mpr both.2)]
      rfl
    rw [new, old]
    constructor
    · intro either
      rw [same.mpr (either.resolve_left refused)]
    · intro injective equal
      exact .inr (same.mp (injective (Set.mem_insert _ _) (Set.mem_insert_of_mem _ rfl) equal))

/-- A push of two bytes of which one is there. -/
def cutPush : CScript := [0x02, 0x01]

/-- A script that ends within a push has another signature hash than the reference. -/
theorem signatureHash_cutPush :
    let _ : Crypto := checksumCrypto
    ¬ ∀ (scriptCode : CScript) (txTo : CTransaction) (nIn : Nat) (nHashType : BitVec 32),
      signatureHash scriptCode txTo nIn nHashType =
        signatureHashOld scriptCode txTo nIn nHashType := by
  intro crypto promise
  have equal := promise cutPush ⟨1, [⟨⟨0, 0⟩, [], 0⟩], [], 0⟩ 0 1
  revert equal
  decide +kernel

end Agouti
