import Agouti.Script.SigOpBound

/-! # The signature checks of an input

`VerifyScript` with a count of the signature checks for each of the scripts that it evaluates. The
checks on the output script are within its signature operations, and those on the redeem script of
a pay-to-script-hash output within the operations that `GetSigOpCount(scriptSig)` finds for it
(`verifyScript_checks`). That count reads the redeem script with a parser of its own, and it reads
nothing when the last push is an opcode for a number; a script of one such byte fails at once.
-/

namespace Agouti

/-- The scripts that `VerifyScript` evaluates. -/
inductive ScriptRole where
  | scriptSig
  | scriptPubKey
  | redeemScript
  deriving DecidableEq, Repr

/-- Why `VerifyScript` returns false. -/
inductive VerifyStop where
  /-- `EvalScript` has stopped -/
  | evaluation (stop : Stop)
  | SIG_PUSHONLY
  | EVAL_FALSE
  deriving DecidableEq, Repr

namespace CScript

/-- The loop of `CScript::IsPushOnly`; the length of the script is enough fuel. -/
def pushOnlyLoop : Nat → CScript → Bool
  | 0, _ => true
  | fuel + 1, pc =>
    if pc = [] then true
    else
      match getOp pc with
      | none => false
      | some (opcode, _, rest) => if OP_16 < opcode then false else pushOnlyLoop fuel rest

def isPushOnly (script : CScript) : Bool := pushOnlyLoop script.length script

end CScript

namespace Script

open CScript Outcome

def SCRIPT_VERIFY_P2SH : BitVec 32 := 0x01
def SCRIPT_VERIFY_SIGPUSHONLY : BitVec 32 := 0x20

/-- A computation of `VerifyScript`, with the checks of each script. -/
abbrev VerifyM := Tally (ScriptRole → Nat) VerifyStop

def checksOn (role : ScriptRole) (count : Nat) : ScriptRole → Nat :=
  fun other => if other = role then count else 0

/-- `EvalScript` of one of the scripts. -/
def evaluate (env : EvalEnv) (role : ScriptRole) (stack : Stack) (script : CScript) :
    VerifyM Stack :=
  let run := Counted.evalScript env stack script
  { result := run.result.mapError .evaluation
    count := checksOn role run.count }

/-- `stack.empty() || CastToBool(stack.back()) == false` is an error. -/
def requireTrue (stack : Stack) : VerifyM Unit :=
  liftM (refuseIf (stack = [] ∨ castToBool (stack.headD []) = false) VerifyStop.EVAL_FALSE)

/-- The evaluation of the redeem script, which is the top of the stack behind `scriptSig`. -/
def verifyRedeem (env : EvalEnv) (scriptSig : CScript) (stackCopy : Stack) : VerifyM Unit := do
  refuseIf (isPushOnly scriptSig = false) VerifyStop.SIG_PUSHONLY
  match stackCopy with
  | [] => liftM (throw (.evaluation .assertion) : Except VerifyStop Unit)
  | pubKeySerialized :: stackCopy =>
    let stack ← evaluate env .redeemScript stackCopy pubKeySerialized
    requireTrue stack

def verifyScript (env : EvalEnv) (scriptSig scriptPubKey : CScript) : VerifyM Unit := do
  refuseIf (env.has SCRIPT_VERIFY_SIGPUSHONLY = true ∧ isPushOnly scriptSig = false)
    VerifyStop.SIG_PUSHONLY
  let stackCopy ← evaluate env .scriptSig [] scriptSig
  let stack ← evaluate env .scriptPubKey stackCopy scriptPubKey
  requireTrue stack
  if env.has SCRIPT_VERIFY_P2SH ∧ scriptPubKey.isPayToScriptHash then
    verifyRedeem env scriptSig stackCopy
  else pure ()

section

variable {env : EvalEnv} {m : Machine}

/-! ## The last push of a script of pushes -/

/-- The top of the stack behind pushes is the data of the last one, or the number of an opcode. -/
def Pushed (data : Valtype) (stack : Stack) : Prop :=
  stack.head?.getD [] = data ∨
    (data = [] ∧ ∃ opcode below, (opcode = OP_1NEGATE ∨ (OP_1 ≤ opcode ∧ opcode ≤ OP_16)) ∧
      stack = getvch ((opcode.toNat : Int) - (OP_1.toNat - 1)) :: below)

variable {opcode : UInt8} {role : ScriptRole} {stack : Stack}

theorem getOp_data_nil {pc rest : CScript} {data : Valtype}
    (read : getOp pc = some (opcode, data, rest)) (above : OP_PUSHDATA4 < opcode) : data = [] := by
  cases pc with
  | nil => cases read
  | cons byte pc =>
    have sized (same : byte = opcode) : pushSize byte pc = some (0, pc) := by
      subst same
      have number : 78 < byte.toNat := UInt8.lt_iff_toNat_lt.mp above
      have small : ¬ byte < OP_PUSHDATA1 := by
        rw [UInt8.lt_iff_toNat_lt, show OP_PUSHDATA1.toNat = 76 from rfl]
        omega
      have other (opcode : UInt8) (low : opcode.toNat ≤ 78) : byte ≠ opcode := by
        rintro rfl
        omega
      rw [pushSize, if_neg small, if_neg (other _ (by decide)), if_neg (other _ (by decide)),
        if_neg (other _ (by decide))]
    rw [getOp] at read
    rcases size : pushSize byte pc with _ | ⟨nSize, behind⟩
    · rw [size] at read
      cases read
    · rw [size] at read
      dsimp only at read
      split at read
      · cases read
      · cases read
        obtain ⟨rfl, -⟩ := Prod.mk.inj (Option.some.inj (size.symm.trans (sized rfl)))
        exact List.take_zero

variable (env) in
theorem stackCase_push (above : OP_PUSHDATA4 < opcode) (pushes : ¬ OP_16 < opcode) :
    (opcode = 0x50 ∧ ∀ m, execute env opcode m = fail .BAD_OPCODE) ∨
      (stackCase env opcode = some (opNumber opcode) ∧
        (opcode = OP_1NEGATE ∨ (OP_1 ≤ opcode ∧ opcode ≤ OP_16))) := by
  have low : 78 < opcode.toNat := UInt8.lt_iff_toNat_lt.mp above
  have high : opcode.toNat ≤ 96 := UInt8.le_iff_toNat_le.mp (UInt8.not_lt.mp pushes)
  by_cases negative : opcode = OP_1NEGATE
  · subst negative
    exact .inr ⟨rfl, .inl rfl⟩
  by_cases reserved : opcode = 0x50
  · subst reserved
    exact .inl ⟨rfl, fun _ => rfl⟩
  have first : OP_1 ≤ opcode := by
    rw [UInt8.le_iff_toNat_le, show OP_1.toNat = 81 from rfl]
    have apart (value : UInt8) (other : opcode ≠ value) : opcode.toNat ≠ value.toNat :=
      fun same => other (UInt8.toNat_inj.mp same)
    have one : opcode.toNat ≠ 79 := apart OP_1NEGATE negative
    have two : opcode.toNat ≠ 80 := apart 0x50 reserved
    omega
  exact .inr ⟨stackCase_number first (UInt8.not_lt.mp pushes), .inr ⟨first, UInt8.not_lt.mp pushes⟩⟩

theorem perform_pushed {after : Machine} {data : Valtype} (plain : m.vfExec = [])
    (none : OP_PUSHDATA4 < opcode → data = []) (pushes : ¬ OP_16 < opcode)
    (performed : perform env opcode m data = .ok after) :
    after.vfExec = [] ∧ Pushed data after.stack := by
  have running : m.fExec = true := by rw [Machine.fExec, plain, List.all_nil]
  unfold perform at performed
  split at performed
  · obtain ⟨_, performed⟩ := refuse_bind_eq_ok.mp performed
    obtain rfl := Except.ok.inj performed
    exact ⟨plain, .inl rfl⟩
  · rename_i other
    rw [if_pos (.inl running)] at performed
    have above : OP_PUSHDATA4 < opcode := UInt8.not_le.mp fun low => other ⟨running, low⟩
    rcases stackCase_push env above pushes with ⟨_, refused⟩ | ⟨found, number⟩
    · rw [refused] at performed
      cases performed
    · unfold execute at performed
      rw [found] at performed
      obtain rfl := Except.ok.inj performed
      exact ⟨plain, .inr ⟨none above, opcode, m.stack, number, rfl⟩⟩

theorem lastPush_of_run {done : Machine} {data : Valtype} (fuel : Nat) (plain : m.vfExec = [])
    (pushed : Pushed data m.stack) (pushes : pushOnlyLoop fuel m.pc = true)
    (returned : evalLoop env fuel m = .ok done) :
    ∃ last, lastPush fuel m.pc data = some last ∧ Pushed last done.stack := by
  induction fuel generalizing m data with
  | zero =>
    obtain rfl : m = done := Except.ok.inj returned
    exact ⟨data, rfl, pushed⟩
  | succ fuel ih =>
    unfold evalLoop at returned
    unfold pushOnlyLoop at pushes
    unfold lastPush
    split at returned
    · rename_i finished
      obtain rfl : m = done := Except.ok.inj returned
      exact ⟨data, if_pos finished, pushed⟩
    · rename_i more
      rw [if_neg more] at pushes ⊢
      obtain ⟨next, stepped, returned⟩ := bind_eq_ok.mp returned
      rcases read : getOp m.pc with _ | ⟨opcode, element, rest⟩
      · rw [read] at pushes
        cases pushes
      · rw [read] at pushes
        dsimp only at pushes ⊢
        split at pushes
        · cases pushes
        · rename_i push
          rw [if_neg push]
          obtain ⟨here, behind, conditionals, performed⟩ := evalStep_performed read stepped
          obtain ⟨plainNext, pushedNext⟩ := perform_pushed (conditionals.trans plain)
            (getOp_data_nil read) push performed
          obtain ⟨same, -⟩ := evalStep_topped read stepped
          rw [← same] at pushes ⊢
          exact ih plainNext pushedNext pushes returned

/-! ## The checks on the redeem script -/

theorem getSigOpCount_number (number : opcode = OP_1NEGATE ∨ (OP_1 ≤ opcode ∧ opcode ≤ OP_16)) :
    getSigOpCount true (getvch ((opcode.toNat : Int) - (OP_1.toNat - 1))) = 0 := by
  rcases number with rfl | ⟨low, high⟩
  · have negative : getvch ((OP_1NEGATE.toNat : Int) - (OP_1.toNat - 1)) = [0x81] := by
      have digits : Nat.digits 256 1 = [1] := Nat.digits_of_lt 256 1 (by omega) (by omega)
      change serializeNum (-1) = _
      simp only [serializeNum, Int.natAbs_neg, Int.natAbs_one, digits]
      rfl
    rw [negative]
    rfl
  · obtain ⟨positive, small, same⟩ := decodeOpN_bounds low high
    rw [same, getvch_small positive small]
    generalize decodeOpN opcode = n at positive small
    interval_cases n <;> rfl

theorem Pushed.sigOps_eq {last top : Valtype} {below : Stack} (pushed : Pushed last (top :: below)) :
    getSigOpCount true top = getSigOpCount true last := by
  rcases pushed with same | ⟨rfl, opcode, _, number, stack⟩
  · exact congrArg (getSigOpCount true) same
  · rw [(List.cons.inj stack).1, getSigOpCount_number number]
    rfl

theorem evaluate_ok {after : Stack} {script : CScript}
    (returned : (evaluate env role stack script).result = .ok after) :
    evalScript env stack script = .ok after := by
  change (Counted.evalScript env stack script).result.mapError _ = _ at returned
  rw [Counted.result_evalScript] at returned
  cases evaluated : evalScript env stack script with
  | error stop =>
    rw [evaluated] at returned
    cases returned
  | ok left =>
    rw [evaluated] at returned
    exact congrArg Except.ok (Except.ok.inj returned)

theorem checksOn_mono {few many : Nat} (le : few ≤ many) :
    checksOn role few ≤ checksOn role many := by
  intro other
  unfold checksOn
  split
  · exact le
  · exact Nat.le_refl 0

theorem evaluate_count (produced : Produced stack) (fAccurate : Bool) (script : CScript) :
    (evaluate env role stack script).count ≤
      checksOn role (getSigOpCount fAccurate script % 2 ^ 32) :=
  checksOn_mono (Counted.evalScript_count produced fAccurate script)

theorem produced_of_evalScript {after : Stack} {script : CScript} (produced : Produced stack)
    (returned : evalScript env stack script = .ok after) : Produced after := by
  have ends : Ends Harmless Produced (evalScript env stack script) :=
    evalScript_ends produced script
  rw [returned] at ends
  exact ends

theorem requireTrue_count : (requireTrue stack).count ≤ 0 := le_rfl

theorem verifyRedeem_count {scriptSig scriptPubKey : CScript} {stackCopy : Stack}
    (hashed : scriptPubKey.isPayToScriptHash = true)
    (evaluated : evalScript env [] scriptSig = .ok stackCopy) :
    (verifyRedeem env scriptSig stackCopy).count ≤
      checksOn .redeemScript (getP2SHSigOps scriptPubKey scriptSig % 2 ^ 32) := by
  have produced := produced_of_evalScript .empty evaluated
  refine Tally.count_lift_bind_le fun _ passed => ?_
  have pushes := refuseIf_eq_ok.mp passed
  rw [Bool.not_eq_false] at pushes
  unfold evalScript at evaluated
  obtain ⟨_, evaluated⟩ := refuse_bind_eq_ok.mp evaluated
  obtain ⟨done, returned, evaluated⟩ := bind_eq_ok.mp evaluated
  obtain ⟨_, evaluated⟩ := refuse_bind_eq_ok.mp evaluated
  obtain rfl := Except.ok.inj evaluated
  have begins : Pushed [] (enter [] scriptSig).stack := .inl rfl
  obtain ⟨last, found, pushed⟩ := lastPush_of_run scriptSig.length rfl begins pushes returned
  have operations : getP2SHSigOps scriptPubKey scriptSig = getSigOpCount true last := by
    change lastPush scriptSig.length scriptSig [] = some last at found
    simp only [getP2SHSigOps, hashed, Bool.not_true, Bool.false_eq_true, if_false, found]
  rw [operations]
  cases stack : done.stack with
  | nil => exact zero_le
  | cons pubKeySerialized below =>
    rw [stack] at pushed produced
    rw [← pushed.sigOps_eq]
    exact Tally.count_bind_zero (evaluate_count produced.popped true pubKeySerialized)
      fun _ _ => requireTrue_count

/-- **The counted signature operations bound the checks of an input.** -/
theorem verifyScript_checks (env : EvalEnv) (scriptSig scriptPubKey : CScript) :
    (verifyScript env scriptSig scriptPubKey).count .scriptPubKey ≤
        getSigOpCount false scriptPubKey % 2 ^ 32 ∧
      (verifyScript env scriptSig scriptPubKey).count .redeemScript ≤
        if scriptPubKey.isPayToScriptHash then getP2SHSigOps scriptPubKey scriptSig % 2 ^ 32
        else 0 := by
  have all : (verifyScript env scriptSig scriptPubKey).count ≤
      checksOn .scriptSig (getSigOpCount false scriptSig % 2 ^ 32) +
        (checksOn .scriptPubKey (getSigOpCount false scriptPubKey % 2 ^ 32) +
          checksOn .redeemScript
            (if scriptPubKey.isPayToScriptHash then getP2SHSigOps scriptPubKey scriptSig % 2 ^ 32
            else 0)) := by
    refine Tally.count_lift_bind_le fun _ _ => ?_
    refine Tally.count_bind_le (evaluate_count .empty false scriptSig) fun stackCopy first => ?_
    have evaluated := evaluate_ok first
    refine Tally.count_bind_le
      (evaluate_count (produced_of_evalScript .empty evaluated) false scriptPubKey)
      fun stack _ => ?_
    refine Tally.count_lift_bind_le fun _ _ => ?_
    split
    · rename_i redeems
      rw [if_pos redeems.2]
      exact verifyRedeem_count redeems.2 evaluated
    · exact zero_le
  have output := all .scriptPubKey
  have redeem := all .redeemScript
  simpa [checksOn] using And.intro output redeem

end

end Script

end Agouti
