import Agouti.Script.VerifyScript

/-! # Verification flags only refuse

The flags of `interpreter.h` are safe for a soft fork: an evaluation that returns under some flags
leaves the same stack under any part of them (`evalScript_relaxes`), and a spend that is accepted
under them is accepted under any part of them (`verifyScript_softFork`).
-/

namespace Agouti

open Outcome

namespace Script

open CScript

/-- The environment with those of its flags that are kept. -/
def EvalEnv.keep (env : EvalEnv) (kept : BitVec 32) : EvalEnv :=
  { env with flags := env.flags &&& kept }

section

variable {env : EvalEnv} {kept : BitVec 32}

theorem has_of_keep {mask : BitVec 32} (has : (env.keep kept).has mask = true) :
    env.has mask = true := by
  unfold EvalEnv.has at has ⊢
  rw [bne_iff_ne] at has ⊢
  intro none
  apply has
  change env.flags &&& kept &&& mask = 0
  rw [BitVec.and_assoc, BitVec.and_comm kept, ← BitVec.and_assoc, none]
  exact BitVec.zero_and

/-! ## Encodings -/

theorem signatureError_keep {vchSig : Valtype} (fine : signatureError env vchSig = none) :
    signatureError (env.keep kept) vchSig = none := by
  unfold signatureError at fine ⊢
  split
  · rfl
  · rename_i some
    rw [if_neg some] at fine
    split at fine
    · cases fine
    · rename_i der
      rw [if_neg fun asked => der ⟨has_of_keep asked.1, asked.2⟩]
      split at fine
      · rename_i low
        obtain ⟨_, wrong⟩ := low
        rw [fine] at wrong
        cases wrong
      · rename_i low
        rw [if_neg fun asked => low ⟨has_of_keep asked.1, asked.2⟩]
        split at fine
        · cases fine
        · rename_i hashtype
          exact if_neg fun asked => hashtype ⟨has_of_keep asked.1, asked.2⟩

theorem pubKeyError_keep {vchPubKey : Valtype} (fine : pubKeyError env vchPubKey = none) :
    pubKeyError (env.keep kept) vchPubKey = none := by
  unfold pubKeyError at fine ⊢
  split at fine
  · cases fine
  · rename_i strict
    exact if_neg fun asked => strict ⟨has_of_keep asked.1, asked.2⟩

variable (env kept)

theorem checkEncodings_relaxes (vchSig vchPubKey : Valtype) :
    Relaxes (checkEncodings env vchSig vchPubKey)
      (checkEncodings (env.keep kept) vchSig vchPubKey) := by
  unfold checkEncodings
  cases signature : signatureError env vchSig with
  | some serror => exact .error _ _
  | none =>
    rw [signatureError_keep signature]
    cases pubKey : pubKeyError env vchPubKey with
    | some serror => exact .error _ _
    | none =>
      rw [pubKeyError_keep pubKey]
      exact .refl _

theorem scriptNum_relaxes (vch : Valtype) :
    Relaxes (scriptNum vch env.fRequireMinimal) (scriptNum vch (env.keep kept).fRequireMinimal) :=
  .bind (.refl _) fun _ =>
    .bind (.refuseIf fun asked => ⟨has_of_keep asked.1, asked.2⟩) fun _ => .refl _

/-! ## Cases of the switch -/

variable (opcode : UInt8) (stack : Stack) (m : Machine)

theorem opUpgradable_relaxes :
    Relaxes (opUpgradable env stack) (opUpgradable (env.keep kept) stack) :=
  .bind (.refuseIf has_of_keep) fun _ => .refl _

theorem opPick_relaxes :
    Relaxes (opPick env opcode stack) (opPick (env.keep kept) opcode stack) :=
  .bind (.refl _) fun _ => .bind (.refl _) fun top =>
    .bind (scriptNum_relaxes env kept top) fun _ => .refl _

theorem opUnary_relaxes :
    Relaxes (opUnary env opcode stack) (opUnary (env.keep kept) opcode stack) :=
  .bind (.refl _) fun _ => .bind (.refl _) fun vch =>
    .bind (scriptNum_relaxes env kept vch) fun _ => .refl _

theorem opBinary_relaxes :
    Relaxes (opBinary env opcode stack) (opBinary (env.keep kept) opcode stack) :=
  .bind (.refl _) fun _ => .bind (.refl _) fun vch1 =>
    .bind (scriptNum_relaxes env kept vch1) fun _ => .bind (.refl _) fun vch2 =>
      .bind (scriptNum_relaxes env kept vch2) fun _ => .refl _

theorem opWithin_relaxes :
    Relaxes (opWithin env stack) (opWithin (env.keep kept) stack) :=
  .bind (.refl _) fun _ => .bind (.refl _) fun vch1 =>
    .bind (scriptNum_relaxes env kept vch1) fun _ => .bind (.refl _) fun vch2 =>
      .bind (scriptNum_relaxes env kept vch2) fun _ => .bind (.refl _) fun vch3 =>
        .bind (scriptNum_relaxes env kept vch3) fun _ => .refl _

/-- The cases are for the same opcodes, and the second returns what the first returns. -/
def CaseRelaxes (strict lax : List UInt8 × (Stack → EvalM Stack)) : Prop :=
  strict.1 = lax.1 ∧ ∀ stack, Relaxes (strict.2 stack) (lax.2 stack)

theorem CaseRelaxes.refl (entry : List UInt8 × (Stack → EvalM Stack)) : CaseRelaxes entry entry :=
  ⟨rfl, fun _ => .refl _⟩

theorem stackCases_relaxes :
    List.Forall₂ CaseRelaxes (stackCases env opcode) (stackCases (env.keep kept) opcode) := by
  simp only [stackCases, List.forall₂_cons, CaseRelaxes.refl, List.forall₂_nil_left_iff, true_and,
    and_true]
  exact ⟨⟨rfl, opUpgradable_relaxes env kept⟩, ⟨rfl, opPick_relaxes env kept opcode⟩,
    ⟨rfl, opUnary_relaxes env kept opcode⟩, ⟨rfl, opBinary_relaxes env kept opcode⟩,
    ⟨rfl, opWithin_relaxes env kept⟩, rfl, fun _ => .refl _⟩

theorem find_relaxes {strict lax : List (List UInt8 × (Stack → EvalM Stack))}
    (cases : List.Forall₂ CaseRelaxes strict lax) (p : List UInt8 → Bool) :
    Option.Rel CaseRelaxes (strict.find? fun entry => p entry.1)
      (lax.find? fun entry => p entry.1) := by
  induction cases with
  | nil => exact .none
  | @cons first second _ _ here _ ih =>
    rw [List.find?_cons, List.find?_cons, ← here.1]
    cases p first.1 with
    | true => exact .some here
    | false => exact ih

/-! ## One instruction -/

theorem multisigLoop_relaxes (scriptCode : CScript) (nKeysCount nSigsCount isig ikey : Nat) :
    Relaxes (multisigLoop env stack scriptCode nKeysCount nSigsCount isig ikey)
      (multisigLoop (env.keep kept) stack scriptCode nKeysCount nSigsCount isig ikey) := by
  induction nKeysCount generalizing nSigsCount isig ikey with
  | zero =>
    cases nSigsCount with
    | zero => exact .refl _
    | succ nSigsCount => exact .error _ _
  | succ nKeysCount ih =>
    cases nSigsCount with
    | zero => exact .refl _
    | succ nSigsCount =>
      refine .bind (.refl _) fun vchSig => .bind (.refl _) fun vchPubKey => ?_
      refine .bind (checkEncodings_relaxes env kept vchSig vchPubKey) fun _ => ?_
      exact .ite (.refl _) (ih _ _ _)

theorem dropDummy_relaxes : Relaxes (dropDummy env stack) (dropDummy (env.keep kept) stack) := by
  refine .bind (.refl _) fun _ => ?_
  by_cases asked : env.has SCRIPT_VERIFY_NULLDUMMY = true
  · rw [if_pos asked]
    split
    · exact .refl _
    · refine fun after done => ?_
      obtain ⟨vch, _, done⟩ := bind_eq_ok.mp done
      exact (refuse_bind_eq_ok.mp done).2
  · rw [if_neg asked, if_neg fun has => asked (has_of_keep has)]
    exact .refl _

theorem opCheckSig_relaxes :
    Relaxes (opCheckSig env opcode m) (opCheckSig (env.keep kept) opcode m) :=
  .bind (.refl _) fun _ => .bind (.refl _) fun vchSig => .bind (.refl _) fun vchPubKey =>
    .bind (checkEncodings_relaxes env kept vchSig vchPubKey) fun _ => .refl _

theorem multisigCounts_relaxes :
    Relaxes (multisigCounts env m) (multisigCounts (env.keep kept) m) :=
  .bind (.refl _) fun _ => .bind (.refl _) fun vch =>
    .bind (scriptNum_relaxes env kept vch) fun _ => .bind (.refl _) fun _ =>
      .bind (.refl _) fun _ => .bind (.refl _) fun _ => .bind (.refl _) fun vch =>
        .bind (scriptNum_relaxes env kept vch) fun _ => .refl _

theorem opCheckMultiSig_relaxes :
    Relaxes (opCheckMultiSig env opcode m) (opCheckMultiSig (env.keep kept) opcode m) := by
  refine .bind (multisigCounts_relaxes env kept m) fun counts => .bind (.refl _) fun scriptCode => ?_
  refine .bind (multisigLoop_relaxes env kept m.stack scriptCode _ _ _ _) fun fSuccess => ?_
  refine .bind (.refl _) fun stack => .bind (dropDummy_relaxes env kept stack) fun _ => .refl _

theorem execute_relaxes : Relaxes (execute env opcode m) (execute (env.keep kept) opcode m) := by
  have found := find_relaxes (stackCases_relaxes env kept opcode) fun opcodes =>
    opcodes.contains opcode
  unfold execute stackCase
  generalize (stackCases env opcode).find? _ = strict at found ⊢
  generalize (stackCases (env.keep kept) opcode).find? _ = lax at found ⊢
  cases found with
  | some cases => exact .bind (cases.2 m.stack) fun _ => .refl _
  | none =>
    exact .ite (.refl _) <| .ite (.refl _) <| .ite (.refl _) <| .ite (.refl _) <|
      .ite (.refl _) <| .ite (.refl _) <| .ite (opCheckSig_relaxes env kept opcode m) <|
        .ite (opCheckMultiSig_relaxes env kept opcode m) (.refl _)

theorem perform_relaxes (vchPushValue : Valtype) :
    Relaxes (perform env opcode m vchPushValue) (perform (env.keep kept) opcode m vchPushValue) :=
  .ite (.bind (.refuseIf fun asked => ⟨has_of_keep asked.1, asked.2⟩) fun _ => .refl _)
    (.ite (execute_relaxes env kept opcode m) (.refl _))

theorem evalOpcode_relaxes : Relaxes (evalOpcode env m) (evalOpcode (env.keep kept) m) := by
  unfold evalOpcode
  rcases getOp m.pc with _ | ⟨opcode, vchPushValue, pc⟩
  · exact .refl _
  · exact .bind (.refl _) fun _ => .bind (.refl _) fun _ => .bind (.refl _) fun _ =>
      perform_relaxes env kept opcode _ vchPushValue

/-! ## Whole scripts -/

theorem evalLoop_relaxes (fuel : Nat) :
    Relaxes (evalLoop env fuel m) (evalLoop (env.keep kept) fuel m) := by
  induction fuel generalizing m with
  | zero => exact .refl _
  | succ fuel ih =>
    refine .ite (.refl _) (.bind ?_ fun next => ih next)
    exact .bind (evalOpcode_relaxes env kept m) fun _ => .refl _

/-- An evaluation leaves the same stack under fewer flags. -/
theorem evalScript_relaxes (script : CScript) :
    Relaxes (evalScript env stack script) (evalScript (env.keep kept) stack script) :=
  .bind (.refl _) fun _ => .bind (evalLoop_relaxes env kept _ _) fun _ => .refl _

theorem evaluate_relaxes (role : ScriptRole) (script : CScript) :
    Relaxes (evaluate env role stack script).result
      (evaluate (env.keep kept) role stack script).result := by
  unfold evaluate
  dsimp only
  rw [Counted.result_evalScript, Counted.result_evalScript]
  exact (evalScript_relaxes env kept stack script).mapError _

theorem verifyRedeem_relaxes (scriptSig : CScript) :
    Relaxes (verifyRedeem env scriptSig stack).result
      (verifyRedeem (env.keep kept) scriptSig stack).result := by
  unfold verifyRedeem
  rw [Tally.result_bind, Tally.result_bind]
  refine .bind (.refl _) fun _ => ?_
  cases stack with
  | nil => exact .refl _
  | cons pubKeySerialized stackCopy =>
    rw [Tally.result_bind, Tally.result_bind]
    exact .bind (evaluate_relaxes env kept stackCopy .redeemScript pubKeySerialized)
      fun _ => .refl _

theorem verifyScript_relaxes (scriptSig scriptPubKey : CScript) :
    Relaxes (verifyScript env scriptSig scriptPubKey).result
      (verifyScript (env.keep kept) scriptSig scriptPubKey).result := by
  simp only [verifyScript, Tally.result_bind, Tally.result_lift]
  refine .bind (.refuseIf fun asked => ⟨has_of_keep asked.1, asked.2⟩) fun _ => ?_
  refine .bind (evaluate_relaxes env kept [] .scriptSig scriptSig) fun stackCopy => ?_
  refine .bind (evaluate_relaxes env kept stackCopy .scriptPubKey scriptPubKey) fun stack => ?_
  refine .bind (.refl _) fun _ => ?_
  by_cases redeems : env.has SCRIPT_VERIFY_P2SH = true ∧ scriptPubKey.isPayToScriptHash = true
  · rw [if_pos redeems]
    split
    · exact verifyRedeem_relaxes env kept stackCopy scriptSig
    · exact fun _ _ => rfl
  · rw [if_neg redeems, if_neg fun asked => redeems ⟨has_of_keep asked.1, asked.2⟩]
    exact .refl _

/-- **A spend that is accepted under some flags is accepted under any part of them**, and the
evaluation of a script leaves the same stack. -/
theorem verifyScript_softFork :
    (∀ stack script after, evalScript env stack script = .ok after →
      evalScript (env.keep kept) stack script = .ok after) ∧
    ∀ scriptSig scriptPubKey, (verifyScript env scriptSig scriptPubKey).result = .ok () →
      (verifyScript (env.keep kept) scriptSig scriptPubKey).result = .ok () :=
  ⟨fun stack script after => evalScript_relaxes env kept stack script after,
    fun scriptSig scriptPubKey => verifyScript_relaxes env kept scriptSig scriptPubKey ()⟩

end

end Script

end Agouti
