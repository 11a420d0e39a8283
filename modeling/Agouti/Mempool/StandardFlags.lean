import Agouti.Mempool.Accept
import Agouti.Script.SoftFork

/-! # The scripts of a transaction in the pool

The loop of `CheckInputs` over the scripts, as `AcceptToMemoryPool` calls it for the standard and then
for the mandatory flags. The second call never fails: the report of a bug behind it is not reached.
The scripts of a transaction that is accepted pass in `ConnectBlock`, and a sender is punished only
for scripts that fail there (`acceptScripts_sound`).
-/

namespace Agouti

open List

namespace Script

def MANDATORY_SCRIPT_VERIFY_FLAGS : BitVec 32 := SCRIPT_VERIFY_P2SH

def STANDARD_SCRIPT_VERIFY_FLAGS : BitVec 32 :=
  MANDATORY_SCRIPT_VERIFY_FLAGS ||| SCRIPT_VERIFY_DERSIG ||| SCRIPT_VERIFY_STRICTENC |||
    SCRIPT_VERIFY_MINIMALDATA ||| SCRIPT_VERIFY_NULLDUMMY |||
    SCRIPT_VERIFY_DISCOURAGE_UPGRADABLE_NOPS

def STANDARD_NOT_MANDATORY_VERIFY_FLAGS : BitVec 32 :=
  STANDARD_SCRIPT_VERIFY_FLAGS &&& ~~~MANDATORY_SCRIPT_VERIFY_FLAGS

/-- `ScriptErrorString` of an error that `EvalScript` sets. -/
def scriptErrorString : ScriptError → String
  | .VERIFY => "Script failed an OP_VERIFY operation"
  | .EQUALVERIFY => "Script failed an OP_EQUALVERIFY operation"
  | .CHECKMULTISIGVERIFY => "Script failed an OP_CHECKMULTISIGVERIFY operation"
  | .CHECKSIGVERIFY => "Script failed an OP_CHECKSIGVERIFY operation"
  | .NUMEQUALVERIFY => "Script failed an OP_NUMEQUALVERIFY operation"
  | .SCRIPT_SIZE => "Script is too big"
  | .PUSH_SIZE => "Push value size limit exceeded"
  | .OP_COUNT => "Operation limit exceeded"
  | .STACK_SIZE => "Stack size limit exceeded"
  | .SIG_COUNT => "Signature count negative or greater than pubkey count"
  | .PUBKEY_COUNT => "Pubkey count negative or limit exceeded"
  | .BAD_OPCODE => "Opcode missing or not understood"
  | .DISABLED_OPCODE => "Attempted to use a disabled opcode"
  | .INVALID_STACK_OPERATION => "Operation not valid with the current stack size"
  | .INVALID_ALTSTACK_OPERATION => "Operation not valid with the current altstack size"
  | .OP_RETURN => "OP_RETURN was encountered"
  | .UNBALANCED_CONDITIONAL => "Invalid OP_IF construction"
  | .SIG_HASHTYPE => "Signature hash type missing or not understood"
  | .SIG_DER => "Non-canonical DER signature"
  | .MINIMALDATA => "Data push larger than necessary"
  | .SIG_HIGH_S => "Non-canonical signature: S value is unnecessarily high"
  | .SIG_NULLDUMMY => "Dummy CHECKMULTISIG argument must be zero"
  | .DISCOURAGE_UPGRADABLE_NOPS => "NOPx reserved for soft-fork upgrades"
  | .PUBKEYTYPE => "Public key is neither compressed or uncompressed"
  | .UNKNOWN_ERROR => "unknown error"

/-- `ScriptErrorString` of the error that `VerifyScript` leaves. -/
def verifyErrorString : VerifyStop → String
  | .evaluation (.error serror) => scriptErrorString serror
  | .evaluation _ => scriptErrorString .UNKNOWN_ERROR
  | .SIG_PUSHONLY => "Only non-push operators allowed in signatures"
  | .EVAL_FALSE =>
    "Script evaluated without error but finished with a false/empty top stack element"

end Script

namespace Mempool

open Script Outcome Verdict

/-- Hashing as it is, and the interpreter for the scripts, with a signature checker for each input. -/
@[reducible] def interpreted (crypto : Crypto) (checker : CTransaction → Nat → EvalEnv) : Crypto :=
  { crypto with
    verifyScript := fun scriptSig scriptPubKey flags tx nIn =>
      (Script.verifyScript { checker tx nIn with flags := BitVec.ofNat 32 flags } scriptSig
        scriptPubKey).result.isOk }

section

variable (checker : CTransaction → Nat → EvalEnv) (view : CCoinsViewCache) (tx : CTransaction)

/-- `CScriptCheck::operator()`. -/
def scriptCheck (nFlags : BitVec 32) (txin : CTxIn) (nIn : Nat) : Except VerifyStop Unit :=
  (Script.verifyScript { checker tx nIn with flags := nFlags } txin.scriptSig
    (view.getOutputFor txin).scriptPubKey).result

/-- The loop of `CheckInputs` over the scripts, where they are not collected. The error in the text
about a flag that is not mandatory is that of the check that has passed. -/
def checkScripts (flags : BitVec 32) : List (CTxIn × Nat) → Verdict Unit
  | [] => .ok ()
  | (txin, nIn) :: rest =>
    match scriptCheck checker view tx flags txin nIn with
    | .ok () => checkScripts flags rest
    | .error stop =>
      if flags &&& STANDARD_NOT_MANDATORY_VERIFY_FLAGS ≠ 0 ∧
          (scriptCheck checker view tx (flags &&& ~~~STANDARD_NOT_MANDATORY_VERIFY_FLAGS) txin
            nIn).isOk then
        .error (invalid REJECT_NONSTANDARD "non-mandatory-script-verify-flag (No error)")
      else
        .error (doS 100 REJECT_INVALID
          ("mandatory-script-verify-flag-failed (" ++ verifyErrorString stop ++ ")"))

/-- The scripts in the two calls of `CheckInputs` by `AcceptToMemoryPool`. -/
def acceptScripts : Verdict Unit := do
  checkScripts checker view tx STANDARD_SCRIPT_VERIFY_FLAGS tx.vin.zipIdx
  checkScripts checker view tx MANDATORY_SCRIPT_VERIFY_FLAGS tx.vin.zipIdx

end

/-- The flags of `ConnectBlock`. -/
def blockFlags (fStrictPayToScriptHash : Bool) : Nat :=
  (if fStrictPayToScriptHash then Agouti.SCRIPT_VERIFY_P2SH else SCRIPT_VERIFY_NONE) |||
    Agouti.SCRIPT_VERIFY_DERSIG

section

variable {checker : CTransaction → Nat → EvalEnv} {view : CCoinsViewCache} {tx : CTransaction}
  {flags kept : BitVec 32} {inputs : List (CTxIn × Nat)}

theorem isOk_iff {ε : Type} {computation : Except ε Unit} :
    computation.isOk = true ↔ computation = .ok () := by
  cases computation with
  | ok value => exact iff_of_true rfl rfl
  | error error => exact iff_of_false Bool.false_ne_true fun done => nomatch done

theorem scriptCheck_kept {txin : CTxIn} {nIn : Nat}
    (passed : scriptCheck checker view tx flags txin nIn = .ok ()) (part : flags &&& kept = kept) :
    scriptCheck checker view tx kept txin nIn = .ok () := by
  have fewer := verifyScript_relaxes { checker tx nIn with flags } kept txin.scriptSig
    (view.getOutputFor txin).scriptPubKey () passed
  unfold EvalEnv.keep at fewer
  rwa [part] at fewer

theorem checkScripts_eq_ok : checkScripts checker view tx flags inputs = .ok () ↔
    ∀ input ∈ inputs, scriptCheck checker view tx flags input.1 input.2 = .ok () := by
  induction inputs with
  | nil => exact iff_of_true rfl (forall_mem_nil _)
  | cons input rest ih =>
    rw [forall_mem_cons, checkScripts]
    cases checked : scriptCheck checker view tx flags input.1 input.2 with
    | ok value =>
      rw [ih]
      exact ⟨fun others => ⟨rfl, others⟩, fun all => all.2⟩
    | error stop =>
      refine iff_of_false ?_ fun all => nomatch all.1
      dsimp only
      split
      · exact fun done => nomatch done
      · exact fun done => nomatch done

theorem checkScripts_punished {state : CValidationState}
    (failed : checkScripts checker view tx STANDARD_SCRIPT_VERIFY_FLAGS inputs = .error state)
    (punished : 0 < state.nDoS) : ∃ input ∈ inputs,
      scriptCheck checker view tx MANDATORY_SCRIPT_VERIFY_FLAGS input.1 input.2 ≠ .ok () := by
  have optional : STANDARD_SCRIPT_VERIFY_FLAGS &&& STANDARD_NOT_MANDATORY_VERIFY_FLAGS ≠ 0 := by
    decide
  have mandatory : STANDARD_SCRIPT_VERIFY_FLAGS &&& ~~~STANDARD_NOT_MANDATORY_VERIFY_FLAGS =
      MANDATORY_SCRIPT_VERIFY_FLAGS := by decide
  induction inputs with
  | nil => cases failed
  | cons input rest ih =>
    rw [checkScripts, mandatory] at failed
    cases checked : scriptCheck checker view tx STANDARD_SCRIPT_VERIFY_FLAGS input.1 input.2 with
    | ok value =>
      rw [checked] at failed
      obtain ⟨other, member, fails⟩ := ih failed
      exact ⟨other, mem_cons_of_mem _ member, fails⟩
    | error stop =>
      rw [checked] at failed
      dsimp only at failed
      split at failed
      · obtain rfl := Except.error.inj failed
        exact absurd punished (by decide)
      · rename_i fails
        refine ⟨input, mem_cons_self, fun passed => fails ⟨optional, ?_⟩⟩
        exact isOk_iff.mpr passed

/-- The second call of `CheckInputs` adds nothing. -/
theorem acceptScripts_eq : acceptScripts checker view tx =
    checkScripts checker view tx STANDARD_SCRIPT_VERIFY_FLAGS tx.vin.zipIdx := by
  unfold acceptScripts
  cases standard : checkScripts checker view tx STANDARD_SCRIPT_VERIFY_FLAGS tx.vin.zipIdx with
  | error state => rfl
  | ok value =>
    rw [ok_bind, checkScripts_eq_ok]
    intro input member
    exact scriptCheck_kept (checkScripts_eq_ok.mp standard input member) (by decide)

theorem scriptsValid_iff {crypto : Crypto} {nFlags : Nat} :
    @scriptsValid (interpreted crypto checker) view nFlags tx = true ↔ ∀ input ∈ tx.vin.zipIdx,
      scriptCheck checker view tx (BitVec.ofNat 32 nFlags) input.1 input.2 = .ok () := by
  unfold scriptsValid
  rw [all_eq_true]
  exact forall₂_congr fun input _ => isOk_iff

theorem scriptsValid_of_standard {crypto : Crypto}
    (passed : acceptScripts checker view tx = .ok ()) (fStrictPayToScriptHash : Bool) :
    @scriptsValid (interpreted crypto checker) view (blockFlags fStrictPayToScriptHash) tx =
      true := by
  rw [acceptScripts_eq, checkScripts_eq_ok] at passed
  refine scriptsValid_iff.mpr fun input member => scriptCheck_kept (passed input member) ?_
  cases fStrictPayToScriptHash <;> decide

end

variable [ChainParams]

/-- **The mandatory flags never fail behind the standard flags, the scripts of a transaction that is
accepted pass in a block, and a sender is punished only for scripts that fail in a block.** -/
theorem acceptScripts_sound (crypto : Crypto) (checker : CTransaction → Nat → EvalEnv) :
    let _ : Crypto := interpreted crypto checker
    (∀ view tx, acceptScripts checker view tx =
        checkScripts checker view tx STANDARD_SCRIPT_VERIFY_FLAGS tx.vin.zipIdx) ∧
      (∀ data node policy pool tx accepted, policy.checkScripts = acceptScripts checker →
        acceptToMemoryPool data node policy pool tx = .ok accepted →
        ∀ fStrictPayToScriptHash,
          scriptsValid (pool.view node.pcoinsTip) (blockFlags fStrictPayToScriptHash) tx = true) ∧
      ∀ view tx state, acceptScripts checker view tx = .error state → 0 < state.nDoS →
        scriptsValid view (blockFlags true) tx = false := by
  refine ⟨fun _ _ => acceptScripts_eq, ?_, ?_⟩
  · intro data node policy pool tx accepted scripts done
    apply scriptsValid_of_standard
    simp only [acceptToMemoryPool, Verdict.bind_eq_ok] at done
    rw [← scripts]
    obtain ⟨_, checked, _, zerocoins, _, coinbase, _, coinstake, _, standard, _, exists_, _, locked, _,
      conflicts, _, unused, _, existing, _, inputs, _, inputsStandard, _, sigOps, _, fee, _, values, _,
      passed, added⟩ := done
    exact passed
  · intro view tx state failed punished
    rw [acceptScripts_eq] at failed
    obtain ⟨input, member, fails⟩ := checkScripts_punished failed punished
    rw [Bool.eq_false_iff]
    intro valid
    exact fails (scriptCheck_kept (scriptsValid_iff.mp valid input member) (by decide))

end Mempool

end Agouti
