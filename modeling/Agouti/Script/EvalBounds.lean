import Agouti.Script.EvalScript
import Mathlib.Data.Nat.Digits.Lemmas

/-! # What a script can do

No access to a stack is out of range and no assertion fails: every guard of the switch is enough
for the accesses behind it, which is one lemma for each case (`Ends Harmless`). Elements stay
within 520 bytes, the stacks within 1000 elements after every instruction that the script survives,
and the counted operations within 201 (`evalScript_safe`). The instruction that puts more than 1000
elements on the stacks has already put them there when the script ends (`evalOpcode_overfull`).
-/

namespace Agouti

open Outcome List

namespace Script

open CScript

/-- An error that is set, or a number in a wrong format. -/
def Harmless : Stop → Prop
  | .error _ | .numFormat => True
  | .outOfRange | .stackEmpty | .assertion => False

/-- An element within `MAX_SCRIPT_ELEMENT_SIZE`. -/
abbrev Short (vch : Valtype) : Prop := vch.length ≤ 520

/-- Every element is short. -/
def Small (stack : Stack) : Prop := ∀ vch ∈ stack, Short vch

theorem Small.cons {stack : Stack} {vch : Valtype} (small : Small stack) (short : Short vch) :
    Small (vch :: stack) :=
  forall_mem_cons.mpr ⟨short, small⟩

theorem Small.tail {stack : Stack} {vch : Valtype} (small : Small (vch :: stack)) : Small stack :=
  (forall_mem_cons.mp small).2

theorem Small.set {stack : Stack} {vch : Valtype} (small : Small stack) (short : Short vch)
    (i : Nat) : Small (stack.set i vch) := by
  intro other member
  rcases mem_or_eq_of_mem_set member with kept | rfl
  · exact small other kept
  · exact short

/-! ## Accesses -/

section

variable {stack : Stack} (small : Small stack)

include small

theorem stacktop_ends {i : Nat} (positive : 0 < i) (enough : i ≤ stack.length) :
    Ends Harmless Short (stacktop stack i) := by
  have inside : i - 1 < stack.length := by omega
  unfold stacktop
  rw [if_neg (by omega), List.getElem?_eq_getElem inside]
  exact small _ (getElem_mem inside)

theorem popstack_ends (filled : 0 < stack.length) :
    Ends Harmless (fun rest => Small rest ∧ rest.length + 1 = stack.length) (popstack stack) := by
  cases stack with
  | nil => exact absurd filled (by decide)
  | cons vch rest => exact ⟨small.tail, rfl⟩

theorem popMany_ends {count : Nat} (enough : count ≤ stack.length) :
    Ends Harmless (fun rest => Small rest ∧ rest.length + count = stack.length)
      (popMany count stack) := by
  induction count generalizing stack with
  | zero => exact ⟨small, rfl⟩
  | succ count ih =>
    refine (popstack_ends small (by omega)).bind fun rest popped => ?_
    refine (ih popped.1 (by omega)).mono fun left others => ⟨others.1, ?_⟩
    omega

theorem eraseAt_ends {i : Nat} (positive : 0 < i) (enough : i ≤ stack.length) :
    Ends Harmless (fun rest => Small rest ∧ rest.length + 1 = stack.length)
      (eraseAt stack i) := by
  unfold eraseAt
  rw [if_neg (by omega)]
  refine ⟨fun vch member => small vch (mem_of_mem_eraseIdx member), ?_⟩
  rw [length_eraseIdx, if_pos (by omega)]
  omega

theorem swapTops_ends {i j : Nat} (first : 0 < i ∧ i ≤ stack.length)
    (second : 0 < j ∧ j ≤ stack.length) :
    Ends Harmless (fun after => Small after ∧ after.length = stack.length)
      (swapTops stack i j) := by
  refine (stacktop_ends small first.1 first.2).bind fun vch1 short1 => ?_
  refine (stacktop_ends small second.1 second.2).bind fun vch2 short2 => ?_
  refine Ends.pure ⟨(small.set short2 _).set short1 _, ?_⟩
  rw [length_set, length_set]

theorem insertBelowTwo_ends {vch : Valtype} (short : Short vch) (enough : 2 ≤ stack.length) :
    Ends Harmless Small (insertBelowTwo stack vch) := by
  unfold insertBelowTwo
  rw [if_neg (by omega)]
  intro other member
  rcases mem_append.mp member with above | below
  · exact small other (mem_of_mem_take above)
  · rcases mem_cons.mp below with rfl | below
    · exact short
    · exact small other (mem_of_mem_drop below)

theorem deleteSigs_ends {nSigsCount isig : Nat} {scriptCode : CScript} (positive : 0 < isig)
    (enough : isig + nSigsCount ≤ stack.length + 1) :
    Ends Harmless (fun _ => True) (deleteSigs stack nSigsCount isig scriptCode) := by
  induction nSigsCount generalizing isig scriptCode with
  | zero => exact trivial
  | succ nSigsCount ih =>
    refine (stacktop_ends small positive (by omega)).bind fun vchSig _ => ?_
    exact ih (by omega) (by omega)

end

theorem boolElement_short (value : Bool) : Short (boolElement value) := by
  cases value <;> decide

theorem verified_ends {stack : Stack} (small : Small stack) (isVerify result : Bool)
    (serror : ScriptError) : Ends Harmless Small (verified isVerify result serror stack) := by
  unfold verified
  cases isVerify with
  | false => exact small.cons (boolElement_short result)
  | true =>
    cases result with
    | false => exact trivial
    | true => exact small

theorem checkEncodings_ends (env : EvalEnv) (vchSig vchPubKey : Valtype) :
    Ends Harmless (fun _ => True) (checkEncodings env vchSig vchPubKey) := by
  unfold checkEncodings
  cases signatureError env vchSig with
  | some serror => exact trivial
  | none =>
    cases pubKeyError env vchPubKey with
    | some serror => exact trivial
    | none => exact trivial

/-! ## Numbers -/

theorem littleEndian_lt (bytes : List UInt8) : littleEndian bytes < 256 ^ bytes.length := by
  induction bytes with
  | nil => decide
  | cons byte rest ih =>
    have below := byte.toNat_lt
    have step : littleEndian (byte :: rest) = byte.toNat + 256 * littleEndian rest := rfl
    rw [step, length_cons, pow_succ]
    omega

theorem scriptNum_ends (vch : Valtype) (fRequireMinimal : Bool) :
    Ends Harmless (fun value => value.natAbs < 2 ^ 32) (scriptNum vch fRequireMinimal) := by
  refine Ends.refuse trivial fun fits => ?_
  refine Ends.refuse trivial fun _ => ?_
  have bound : littleEndian vch < 2 ^ 32 := by
    have wide : 256 ^ vch.length ≤ 256 ^ 4 := Nat.pow_le_pow_right (by decide) (by omega)
    exact lt_of_lt_of_le (littleEndian_lt vch) (le_trans wide (by decide))
  have masked := Nat.mod_le (littleEndian vch) (0x80 * 2 ^ (8 * (vch.length - 1)))
  refine Ends.pure ?_
  unfold setVch
  dsimp only
  split
  · rw [Int.natAbs_neg, Int.natAbs_natCast]
    omega
  · rw [Int.natAbs_natCast]
    exact bound

variable {value : Int}

theorem getvch_short (fits : value.natAbs < 2 ^ 64) : Short (getvch value) := by
  have digits : (Nat.digits 256 value.natAbs).length ≤ 8 :=
    (Nat.digits_length_le_iff (by decide) _).mpr (lt_of_lt_of_le fits (by decide))
  unfold getvch serializeNum Short
  dsimp only
  split_ifs
  all_goals
    simp only [length_append, length_dropLast, length_map, length_singleton]
    omega

theorem boolNum_natAbs (value : Bool) : (boolNum value).natAbs < 2 ^ 64 := by
  cases value <;> decide

theorem addNum_ends {rhs : Int} (small : value.natAbs < 2 ^ 32) (little : rhs.natAbs < 2 ^ 32) :
    Ends Harmless (fun sum => sum.natAbs < 2 ^ 64) (addNum value rhs) := by
  have passes : rhs = 0 ∨ (0 < rhs ∧ value ≤ int64Max - rhs) ∨
      (rhs < 0 ∧ int64Min - rhs ≤ value) := by
    unfold int64Max int64Min
    omega
  unfold addNum refuseIf
  rw [if_neg (not_not_intro passes)]
  show (value + rhs).natAbs < 2 ^ 64
  omega

theorem subNum_ends {rhs : Int} (small : value.natAbs < 2 ^ 32) (little : rhs.natAbs < 2 ^ 32) :
    Ends Harmless (fun difference => difference.natAbs < 2 ^ 64) (subNum value rhs) := by
  have passes : rhs = 0 ∨ (0 < rhs ∧ int64Min + rhs ≤ value) ∨
      (rhs < 0 ∧ value ≤ int64Max + rhs) := by
    unfold int64Max int64Min
    omega
  unfold subNum refuseIf
  rw [if_neg (not_not_intro passes)]
  show (value - rhs).natAbs < 2 ^ 64
  omega

theorem negNum_ends (small : value.natAbs < 2 ^ 32) :
    Ends Harmless (fun negated => negated.natAbs < 2 ^ 64) (negNum value) := by
  have passes : value ≠ int64Min := by
    unfold int64Min
    omega
  unfold negNum refuseIf
  rw [if_neg passes]
  show (-value).natAbs < 2 ^ 64
  omega

theorem unaryNum_ends {opcode : UInt8}
    (known : opcode ∈ [OP_1ADD, OP_1SUB, OP_NEGATE, OP_ABS, OP_NOT, OP_0NOTEQUAL]) {bn : Int}
    (small : bn.natAbs < 2 ^ 32) :
    Ends Harmless (fun result => result.natAbs < 2 ^ 64) (unaryNum opcode bn) := by
  have wide : bn.natAbs < 2 ^ 64 := by omega
  unfold unaryNum
  split_ifs with isAdd isSub isNegate isAbs negative isNot isNotEqual
  · exact addNum_ends small (by decide)
  · exact subNum_ends small (by decide)
  · exact negNum_ends small
  · exact negNum_ends small
  · exact wide
  · exact boolNum_natAbs _
  · exact boolNum_natAbs _
  · simp [isAdd, isSub, isNegate, isAbs, isNot, isNotEqual] at known

theorem wrapNum_natAbs (value : Int) : (wrapNum value).natAbs < 2 ^ 64 := by
  have low := Int.le_bmod (x := value) (m := 2 ^ 64) (by decide)
  have high := Int.bmod_lt (x := value) (m := 2 ^ 64) (by decide)
  unfold wrapNum
  omega

/-- The opcodes of `binaryNum`. -/
def binaryOpcodes : List UInt8 :=
  [OP_ADD, OP_SUB, OP_BOOLAND, OP_BOOLOR, OP_NUMEQUAL, OP_NUMEQUALVERIFY, OP_NUMNOTEQUAL,
    OP_LESSTHAN, OP_GREATERTHAN, OP_LESSTHANOREQUAL, OP_GREATERTHANOREQUAL, OP_MIN, OP_MAX]

theorem binaryNum_ends {opcode : UInt8} (known : opcode ∈ binaryOpcodes) {bn1 bn2 : Int}
    (small1 : bn1.natAbs < 2 ^ 32) (small2 : bn2.natAbs < 2 ^ 32) :
    Ends Harmless (fun result => result.natAbs < 2 ^ 64) (binaryNum opcode bn1 bn2) := by
  have wide1 : bn1.natAbs < 2 ^ 64 := by omega
  have wide2 : bn2.natAbs < 2 ^ 64 := by omega
  simp only [binaryOpcodes, mem_cons, not_mem_nil, or_false] at known
  rcases known with rfl | rfl | rfl | rfl | rfl | rfl | rfl | rfl | rfl | rfl | rfl | rfl | rfl
  · exact wrapNum_natAbs (bn1 + bn2)
  · exact wrapNum_natAbs (bn1 - bn2)
  · exact boolNum_natAbs _
  · exact boolNum_natAbs _
  · exact boolNum_natAbs _
  · exact boolNum_natAbs _
  · exact boolNum_natAbs _
  · exact boolNum_natAbs _
  · exact boolNum_natAbs _
  · exact boolNum_natAbs _
  · exact boolNum_natAbs _
  · show (if bn1 < bn2 then bn1 else bn2).natAbs < 2 ^ 64
    split
    · exact wide1
    · exact wide2
  · show (if bn2 < bn1 then bn1 else bn2).natAbs < 2 ^ 64
    split
    · exact wide1
    · exact wide2

/-! ## The cases that only change the stack -/

section

variable {env : EvalEnv} {opcode : UInt8} {stack : Stack}

theorem readNum_ends (small : Small stack) {i : Nat} (positive : 0 < i)
    (enough : i ≤ stack.length) {β : Type} {after : β → Prop} {next : Int → EvalM β}
    (further : ∀ value : Int, value.natAbs < 2 ^ 32 → Ends Harmless after (next value)) :
    Ends Harmless after (do
      let vch ← stacktop stack i
      let value ← scriptNum vch env.fRequireMinimal
      next value) := by
  refine (stacktop_ends small positive enough).bind fun vch _ => ?_
  exact (scriptNum_ends vch env.fRequireMinimal).bind further

/-- The operation ends harmlessly and keeps elements short. -/
def Keeps (operation : Stack → EvalM Stack) : Prop :=
  ∀ stack, Small stack → stack.length ≤ 1000 → Ends Harmless Small (operation stack)

theorem opNumber_keeps : Keeps (opNumber opcode) := by
  intro stack small _
  have below := opcode.toNat_lt
  have first : OP_1.toNat = 81 := rfl
  refine Ends.pure (small.cons (getvch_short ?_))
  omega

theorem opUpgradable_keeps : Keeps (opUpgradable env) := by
  intro stack small _
  exact Ends.refuse trivial fun _ => Ends.pure small

theorem opVerify_keeps : Keeps opVerify := by
  intro stack small _
  refine Ends.refuse trivial fun enough => ?_
  refine (stacktop_ends small (by decide) (by omega)).bind fun vch _ => ?_
  split
  · exact (popstack_ends small (by omega)).mono fun rest popped => popped.1
  · exact trivial

theorem op2Drop_keeps : Keeps op2Drop := by
  intro stack small _
  refine Ends.refuse trivial fun enough => ?_
  refine (popstack_ends small (by omega)).bind fun rest popped => ?_
  exact (popstack_ends popped.1 (by omega)).mono fun others dropped => dropped.1

theorem op2Dup_keeps : Keeps op2Dup := by
  intro stack small _
  refine Ends.refuse trivial fun enough => ?_
  refine (stacktop_ends small (by decide) (by omega)).bind fun vch1 short1 => ?_
  refine (stacktop_ends small (by decide) (by omega)).bind fun vch2 short2 => ?_
  exact Ends.pure ((small.cons short1).cons short2)

theorem op3Dup_keeps : Keeps op3Dup := by
  intro stack small _
  refine Ends.refuse trivial fun enough => ?_
  refine (stacktop_ends small (by decide) (by omega)).bind fun vch1 short1 => ?_
  refine (stacktop_ends small (by decide) (by omega)).bind fun vch2 short2 => ?_
  refine (stacktop_ends small (by decide) (by omega)).bind fun vch3 short3 => ?_
  exact Ends.pure (((small.cons short1).cons short2).cons short3)

theorem op2Over_keeps : Keeps op2Over := by
  intro stack small _
  refine Ends.refuse trivial fun enough => ?_
  refine (stacktop_ends small (by decide) (by omega)).bind fun vch1 short1 => ?_
  refine (stacktop_ends small (by decide) (by omega)).bind fun vch2 short2 => ?_
  exact Ends.pure ((small.cons short1).cons short2)

theorem op2Rot_keeps : Keeps op2Rot := by
  intro stack small _
  refine Ends.refuse trivial fun enough => ?_
  refine (stacktop_ends small (by decide) (by omega)).bind fun vch1 short1 => ?_
  refine (stacktop_ends small (by decide) (by omega)).bind fun vch2 short2 => ?_
  refine (eraseAt_ends small (by decide) (by omega)).bind fun rest erased => ?_
  refine (eraseAt_ends erased.1 (by decide) (by omega)).bind fun others dropped => ?_
  exact Ends.pure ((dropped.1.cons short1).cons short2)

theorem op2Swap_keeps : Keeps op2Swap := by
  intro stack small _
  refine Ends.refuse trivial fun enough => ?_
  refine (swapTops_ends small (by omega) (by omega)).bind fun half swapped => ?_
  exact (swapTops_ends swapped.1 (by omega) (by omega)).mono fun after both => both.1

theorem opIfDup_keeps : Keeps opIfDup := by
  intro stack small _
  refine Ends.refuse trivial fun enough => ?_
  refine (stacktop_ends small (by decide) (by omega)).bind fun vch short => ?_
  refine Ends.pure ?_
  split
  · exact small.cons short
  · exact small

theorem opDepth_keeps : Keeps opDepth := by
  intro stack small held
  refine Ends.pure (small.cons (getvch_short ?_))
  omega

theorem opDrop_keeps : Keeps opDrop := by
  intro stack small _
  refine Ends.refuse trivial fun enough => ?_
  exact (popstack_ends small (by omega)).mono fun rest popped => popped.1

theorem opDup_keeps : Keeps opDup := by
  intro stack small _
  refine Ends.refuse trivial fun enough => ?_
  refine (stacktop_ends small (by decide) (by omega)).bind fun vch short => ?_
  exact Ends.pure (small.cons short)

theorem opNip_keeps : Keeps opNip := by
  intro stack small _
  refine Ends.refuse trivial fun enough => ?_
  exact (eraseAt_ends small (by decide) (by omega)).mono fun rest erased => erased.1

theorem opOver_keeps : Keeps opOver := by
  intro stack small _
  refine Ends.refuse trivial fun enough => ?_
  refine (stacktop_ends small (by decide) (by omega)).bind fun vch short => ?_
  exact Ends.pure (small.cons short)

theorem opPick_keeps : Keeps (opPick env opcode) := by
  intro stack small _
  refine Ends.refuse trivial fun enough => ?_
  refine readNum_ends small (by decide) (by omega) fun value _ => ?_
  refine (popstack_ends small (by omega)).bind fun rest popped => ?_
  refine Ends.refuse trivial fun inside => ?_
  refine (stacktop_ends popped.1 (by omega) (by omega)).bind fun vch short => ?_
  dsimp only
  split
  · refine (eraseAt_ends popped.1 (by omega) (by omega)).bind fun others erased => ?_
    exact Ends.pure (erased.1.cons short)
  · exact Ends.pure (popped.1.cons short)

theorem opRot_keeps : Keeps opRot := by
  intro stack small _
  refine Ends.refuse trivial fun enough => ?_
  refine (swapTops_ends small (by omega) (by omega)).bind fun half swapped => ?_
  exact (swapTops_ends swapped.1 (by omega) (by omega)).mono fun after both => both.1

theorem opSwap_keeps : Keeps opSwap := by
  intro stack small _
  refine Ends.refuse trivial fun enough => ?_
  exact (swapTops_ends small (by omega) (by omega)).mono fun after swapped => swapped.1

theorem opTuck_keeps : Keeps opTuck := by
  intro stack small _
  refine Ends.refuse trivial fun enough => ?_
  refine (stacktop_ends small (by decide) (by omega)).bind fun vch short => ?_
  exact insertBelowTwo_ends small short (by omega)

theorem opSize_keeps : Keeps opSize := by
  intro stack small _
  refine Ends.refuse trivial fun enough => ?_
  refine (stacktop_ends small (by decide) (by omega)).bind fun vch short => ?_
  refine Ends.pure (small.cons (getvch_short ?_))
  omega

theorem opEqual_keeps : Keeps (opEqual opcode) := by
  intro stack small _
  refine Ends.refuse trivial fun enough => ?_
  refine (stacktop_ends small (by decide) (by omega)).bind fun vch1 _ => ?_
  refine (stacktop_ends small (by decide) (by omega)).bind fun vch2 _ => ?_
  refine (popstack_ends small (by omega)).bind fun rest popped => ?_
  refine (popstack_ends popped.1 (by omega)).bind fun others dropped => ?_
  exact verified_ends dropped.1 _ _ _

theorem opUnary_keeps
    (known : opcode ∈ [OP_1ADD, OP_1SUB, OP_NEGATE, OP_ABS, OP_NOT, OP_0NOTEQUAL]) :
    Keeps (opUnary env opcode) := by
  intro stack small _
  refine Ends.refuse trivial fun enough => ?_
  refine readNum_ends small (by decide) (by omega) fun bn range => ?_
  refine (unaryNum_ends known range).bind fun result fits => ?_
  refine (popstack_ends small (by omega)).bind fun rest popped => ?_
  exact Ends.pure (popped.1.cons (getvch_short fits))

theorem opBinary_keeps (known : opcode ∈ binaryOpcodes) : Keeps (opBinary env opcode) := by
  intro stack small _
  refine Ends.refuse trivial fun enough => ?_
  refine readNum_ends small (by decide) (by omega) fun bn1 range1 => ?_
  refine readNum_ends small (by decide) (by omega) fun bn2 range2 => ?_
  refine (binaryNum_ends known range1 range2).bind fun result fits => ?_
  refine (popstack_ends small (by omega)).bind fun rest popped => ?_
  refine (popstack_ends popped.1 (by omega)).bind fun others dropped => ?_
  have pushed := dropped.1.cons (getvch_short fits)
  dsimp only
  split
  · refine (stacktop_ends pushed (by decide) (by simp)).bind fun top _ => ?_
    split
    · exact dropped.1
    · exact trivial
  · exact pushed

theorem opWithin_keeps : Keeps (opWithin env) := by
  intro stack small _
  refine Ends.refuse trivial fun enough => ?_
  refine readNum_ends small (by decide) (by omega) fun bn1 _ => ?_
  refine readNum_ends small (by decide) (by omega) fun bn2 _ => ?_
  refine readNum_ends small (by decide) (by omega) fun bn3 _ => ?_
  refine (popstack_ends small (by omega)).bind fun rest popped => ?_
  refine (popstack_ends popped.1 (by omega)).bind fun others dropped => ?_
  refine (popstack_ends dropped.1 (by omega)).bind fun left removed => ?_
  exact Ends.pure (removed.1.cons (boolElement_short _))

theorem hashBytes_short (vch : Valtype) : Short (hashBytes env opcode vch) := by
  unfold hashBytes Short
  split_ifs <;> simp [Serialize.le]

theorem opHash_keeps : Keeps (opHash env opcode) := by
  intro stack small _
  refine Ends.refuse trivial fun enough => ?_
  refine (stacktop_ends small (by decide) (by omega)).bind fun vch _ => ?_
  refine (popstack_ends small (by omega)).bind fun rest popped => ?_
  exact Ends.pure (popped.1.cons (hashBytes_short vch))

theorem stackCases_keep {entry : List UInt8 × (Stack → EvalM Stack)}
    (member : entry ∈ stackCases env opcode) (known : opcode ∈ entry.1) : Keeps entry.2 := by
  simp only [stackCases, mem_cons, not_mem_nil, or_false] at member
  rcases member with rfl | rfl | rfl | rfl | rfl | rfl | rfl | rfl | rfl | rfl | rfl | rfl | rfl |
    rfl | rfl | rfl | rfl | rfl | rfl | rfl | rfl | rfl | rfl | rfl | rfl | rfl | rfl
  · exact opNumber_keeps
  · exact fun stack small _ => Ends.pure small
  · exact opUpgradable_keeps
  · exact opVerify_keeps
  · exact fun _ _ _ => trivial
  · exact op2Drop_keeps
  · exact op2Dup_keeps
  · exact op3Dup_keeps
  · exact op2Over_keeps
  · exact op2Rot_keeps
  · exact op2Swap_keeps
  · exact opIfDup_keeps
  · exact opDepth_keeps
  · exact opDrop_keeps
  · exact opDup_keeps
  · exact opNip_keeps
  · exact opOver_keeps
  · exact opPick_keeps
  · exact opRot_keeps
  · exact opSwap_keeps
  · exact opTuck_keeps
  · exact opSize_keeps
  · exact opEqual_keeps
  · exact opUnary_keeps known
  · exact opBinary_keeps known
  · exact opWithin_keeps
  · exact opHash_keeps

theorem stackCase_keeps {operation : Stack → EvalM Stack}
    (found : stackCase env opcode = some operation) : Keeps operation := by
  obtain ⟨entry, at_entry, rfl⟩ := Option.map_eq_some_iff.mp found
  have known : entry.1.contains opcode = true :=
    List.find?_some (p := fun entry : List UInt8 × (Stack → EvalM Stack) => entry.1.contains opcode)
      at_entry
  exact stackCases_keep (List.mem_of_find?_eq_some at_entry) (contains_iff_mem.mp known)

end

/-! ## The machine -/

/-- The limits that hold of a machine between two instructions. -/
structure Within (m : Machine) : Prop where
  elements : Small m.stack
  saved : Small m.altstack
  held : m.stack.length + m.altstack.length ≤ 1000
  counted : m.nOpCount ≤ 201

/-- What an instruction leaves; the stacks have not been measured yet. -/
structure Performed (m after : Machine) : Prop where
  pc : after.pc = m.pc
  elements : Small after.stack
  saved : Small after.altstack
  grows : m.nOpCount ≤ after.nOpCount
  counted : after.nOpCount ≤ 201

section

variable {env : EvalEnv} {opcode : UInt8} {m : Machine} (within : Within m)

include within

theorem performed_stack {stack : Stack} (small : Small stack) :
    Performed m { m with stack := stack } :=
  ⟨rfl, small, within.saved, le_rfl, within.counted⟩

theorem opIf_ends : Ends Harmless (Performed m) (opIf opcode m) := by
  unfold opIf
  split
  · refine Ends.refuse trivial fun enough => ?_
    refine (stacktop_ends within.elements (by decide) (by omega)).bind fun vch _ => ?_
    refine (popstack_ends within.elements (by omega)).bind fun rest popped => ?_
    exact Ends.pure ⟨rfl, popped.1, within.saved, le_rfl, within.counted⟩
  · exact Ends.pure ⟨rfl, within.elements, within.saved, le_rfl, within.counted⟩

theorem opElse_ends : Ends Harmless (Performed m) (opElse m) := by
  unfold opElse
  split
  · exact trivial
  · exact Ends.pure ⟨rfl, within.elements, within.saved, le_rfl, within.counted⟩

theorem opEndIf_ends : Ends Harmless (Performed m) (opEndIf m) := by
  unfold opEndIf
  split
  · exact trivial
  · exact Ends.pure ⟨rfl, within.elements, within.saved, le_rfl, within.counted⟩

theorem opToAltStack_ends : Ends Harmless (Performed m) (opToAltStack m) := by
  refine Ends.refuse trivial fun enough => ?_
  refine (stacktop_ends within.elements (by decide) (by omega)).bind fun vch short => ?_
  refine (popstack_ends within.elements (by omega)).bind fun rest popped => ?_
  exact Ends.pure ⟨rfl, popped.1, within.saved.cons short, le_rfl, within.counted⟩

theorem opFromAltStack_ends : Ends Harmless (Performed m) (opFromAltStack m) := by
  refine Ends.refuse trivial fun enough => ?_
  refine (stacktop_ends within.saved (by decide) (by omega)).bind fun vch short => ?_
  refine (popstack_ends within.saved (by omega)).bind fun rest popped => ?_
  exact Ends.pure ⟨rfl, within.elements.cons short, popped.1, le_rfl, within.counted⟩

theorem opCheckSig_ends : Ends Harmless (Performed m) (opCheckSig env opcode m) := by
  refine Ends.refuse trivial fun enough => ?_
  refine (stacktop_ends within.elements (by decide) (by omega)).bind fun vchSig _ => ?_
  refine (stacktop_ends within.elements (by decide) (by omega)).bind fun vchPubKey _ => ?_
  refine (checkEncodings_ends env vchSig vchPubKey).bind fun _ _ => ?_
  refine (popstack_ends within.elements (by omega)).bind fun rest popped => ?_
  refine (popstack_ends popped.1 (by omega)).bind fun others dropped => ?_
  refine (verified_ends dropped.1 _ _ _).bind fun stack small => ?_
  exact Ends.pure (performed_stack within small)

/-- The counts that pass leave enough of the stack for the keys, the signatures and one element
more. -/
theorem multisigCounts_ends :
    Ends Harmless (fun counts => counts.2.1 ≤ counts.1 ∧
        3 + counts.1 + counts.2.1 ≤ m.stack.length ∧ m.nOpCount ≤ counts.2.2 ∧ counts.2.2 ≤ 201)
      (multisigCounts env m) := by
  refine Ends.refuse trivial fun enough => ?_
  refine readNum_ends within.elements (by decide) (by omega) fun keys _ => ?_
  refine Ends.refuse trivial fun keysFit => ?_
  refine Ends.refuse trivial fun countFits => ?_
  refine Ends.refuse trivial fun keysThere => ?_
  refine readNum_ends within.elements (by omega) (by omega) fun sigs _ => ?_
  refine Ends.refuse trivial fun sigsFit => ?_
  refine Ends.refuse trivial fun sigsThere => ?_
  refine Ends.pure ⟨?_, ?_, ?_, ?_⟩
  · dsimp only
    omega
  · dsimp only
    omega
  · dsimp only
    omega
  · dsimp only
    omega

omit within in
theorem multisigLoop_ends {stack : Stack} (small : Small stack) {scriptCode : CScript}
    {nKeysCount nSigsCount isig ikey : Nat} (covered : nSigsCount ≤ nKeysCount)
    (firstSig : 0 < isig) (sigs : isig + nSigsCount ≤ stack.length + 1) (firstKey : 0 < ikey)
    (keys : ikey + nKeysCount ≤ stack.length + 1) :
    Ends Harmless (fun _ => True)
      (multisigLoop env stack scriptCode nKeysCount nSigsCount isig ikey) := by
  induction nKeysCount generalizing nSigsCount isig ikey with
  | zero =>
    obtain rfl : nSigsCount = 0 := by omega
    exact trivial
  | succ nKeysCount ih =>
    cases nSigsCount with
    | zero => exact trivial
    | succ nSigsCount =>
      refine (stacktop_ends small firstSig (by omega)).bind fun vchSig _ => ?_
      refine (stacktop_ends small firstKey (by omega)).bind fun vchPubKey _ => ?_
      refine (checkEncodings_ends env vchSig vchPubKey).bind fun _ _ => ?_
      cases env.checkSig vchSig vchPubKey scriptCode with
      | false =>
        simp only [Bool.false_eq_true, if_false]
        split
        · exact trivial
        · exact ih (by omega) firstSig sigs (by omega) (by omega)
      | true =>
        have few : ¬ nKeysCount < nSigsCount := by omega
        simp only [if_true, few, if_false]
        exact ih (by omega) (by omega) (by omega) (by omega) (by omega)

omit within in
theorem dropDummy_ends {stack : Stack} (small : Small stack) :
    Ends Harmless Small (dropDummy env stack) := by
  refine Ends.refuse trivial fun enough => ?_
  split
  · refine (stacktop_ends small (by decide) (by omega)).bind fun vch _ => ?_
    refine Ends.refuse trivial fun _ => ?_
    exact (popstack_ends small (by omega)).mono fun rest popped => popped.1
  · exact (popstack_ends small (by omega)).mono fun rest popped => popped.1

theorem opCheckMultiSig_ends : Ends Harmless (Performed m) (opCheckMultiSig env opcode m) := by
  refine (multisigCounts_ends within).bind fun counts fits => ?_
  obtain ⟨nKeysCount, nSigsCount, nOpCount⟩ := counts
  obtain ⟨covered, enough, grows, counted⟩ := fits
  dsimp only at covered enough grows counted ⊢
  refine (deleteSigs_ends within.elements (by omega) (by omega)).bind fun scriptCode _ => ?_
  refine (multisigLoop_ends within.elements covered (by omega) (by omega) (by decide)
    (by omega)).bind fun fSuccess _ => ?_
  refine (popMany_ends within.elements (by omega)).bind fun rest popped => ?_
  refine (dropDummy_ends popped.1).bind fun others dropped => ?_
  refine (verified_ends dropped _ _ _).bind fun stack small => ?_
  exact Ends.pure ⟨rfl, small, within.saved, grows, counted⟩

theorem execute_ends : Ends Harmless (Performed m) (execute env opcode m) := by
  unfold execute
  split
  · rename_i operation found
    refine (stackCase_keeps found m.stack within.elements ?_).bind fun stack small => ?_
    · exact le_trans (Nat.le_add_right _ _) within.held
    · exact Ends.pure (performed_stack within small)
  · split_ifs
    · exact opIf_ends within
    · exact opElse_ends within
    · exact opEndIf_ends within
    · exact opToAltStack_ends within
    · exact opFromAltStack_ends within
    · exact Ends.pure ⟨rfl, within.elements, within.saved, le_rfl, within.counted⟩
    · exact opCheckSig_ends within
    · exact opCheckMultiSig_ends within
    · exact trivial

theorem perform_ends {vchPushValue : Valtype} (short : Short vchPushValue) :
    Ends Harmless (Performed m) (perform env opcode m vchPushValue) := by
  unfold perform
  split_ifs
  · refine Ends.refuse trivial fun _ => ?_
    exact Ends.pure (performed_stack within (within.elements.cons short))
  · exact execute_ends within
  · exact Ends.pure (performed_stack within within.elements)

end

/-- The next instruction is one that is counted. -/
def countsOp (m : Machine) : Bool :=
  match getOp m.pc with
  | some (opcode, _, _) => decide (OP_16 < opcode)
  | none => false

theorem getOp_shorter {pc rest : CScript} {opcode : UInt8} {data : Valtype}
    (read : getOp pc = some (opcode, data, rest)) : rest.length < pc.length := by
  cases pc with
  | nil => cases read
  | cons byte pc =>
    simp only [getOp] at read
    rcases sized : pushSize byte pc with _ | ⟨nSize, behind⟩
    · rw [sized] at read
      cases read
    · rw [sized] at read
      have shorter : behind.length ≤ pc.length := by
        unfold pushSize at sized
        split_ifs at sized <;> cases sized <;> simp
      dsimp only at read
      split at read
      · cases read
      · cases read
        rw [length_drop, length_cons]
        omega

theorem evalOpcode_ends {env : EvalEnv} {m : Machine} (within : Within m) :
    Ends Harmless (fun after => after.pc.length < m.pc.length ∧ Small after.stack ∧
        Small after.altstack ∧ m.nOpCount + (countsOp m).toNat ≤ after.nOpCount ∧
        after.nOpCount ≤ 201)
      (evalOpcode env m) := by
  unfold evalOpcode countsOp
  rcases read : getOp m.pc with _ | ⟨opcode, vchPushValue, pc⟩
  · exact trivial
  · refine Ends.refuse trivial fun short => ?_
    refine Ends.refuse trivial fun countFits => ?_
    refine Ends.refuse trivial fun _ => ?_
    have here : Within { m with
        pc := pc
        nOpCount := if OP_16 < opcode then m.nOpCount + 1 else m.nOpCount } := by
      refine ⟨within.elements, within.saved, within.held, ?_⟩
      have limit := within.counted
      dsimp only
      split
      · rename_i counts
        rw [if_pos counts] at countFits
        by_contra tooMany
        exact countFits ⟨counts, by omega⟩
      · exact limit
    refine (perform_ends here (Nat.le_of_not_lt short)).mono fun after performed => ?_
    have shorter := getOp_shorter read
    have grows := performed.grows
    refine ⟨?_, performed.elements, performed.saved, ?_, performed.counted⟩
    · rw [performed.pc]
      exact shorter
    · by_cases counts : OP_16 < opcode
      · simp only [counts, if_true, decide_true, Bool.toNat_true] at grows ⊢
        exact grows
      · simp only [counts, if_false, decide_false, Bool.toNat_false] at grows ⊢
        exact grows

end Script

end Agouti
