import Agouti.Script.EvalRuns
import Agouti.Script.SigChecks

/-! # The signature operations of a script bound its checks

`GetSigOpCount` counts the signature opcodes of a script without running it. Every instruction is
executed once at most and makes no more checks than it is counted for: a multisignature opcode is
counted with the number that the opcode in front of it pushes, when there is one, and that number
is on the stack when it is executed (`Topped`), and with 20 otherwise.
-/

namespace Agouti

namespace Script

open CScript Outcome

section

variable {env : EvalEnv} {opcode last : UInt8} {m : Machine}

/-- Behind an executed opcode that pushes a number the number is on the top of the stack. -/
def Topped (last : UInt8) (m : Machine) : Prop :=
  OP_1 ≤ last → last ≤ OP_16 → m.fExec = true →
    ∃ below, m.stack = getvch (decodeOpN last) :: below

/-! ## One instruction -/

theorem getvch_small {n : Nat} (positive : 1 ≤ n) (small : n ≤ 16) :
    getvch n = [UInt8.ofNat n] := by
  have digits : Nat.digits 256 n = [n] := Nat.digits_of_lt 256 n (by omega) (by omega)
  have above : ¬ (n : Int) < 0 := by omega
  have plain : highBit [UInt8.ofNat n] = false := by
    interval_cases n <;> rfl
  simp only [getvch, serializeNum, Int.natAbs_natCast, digits, List.map_cons, List.map_nil, plain,
    Bool.false_eq_true, if_false, above]

theorem scriptNum_getvch {n : Nat} (positive : 1 ≤ n) (small : n ≤ 16) (fRequireMinimal : Bool) :
    scriptNum (getvch n) fRequireMinimal = .ok n := by
  rw [getvch_small positive small]
  interval_cases n <;> cases fRequireMinimal <;> rfl

theorem decodeOpN_bounds (low : OP_1 ≤ last) (high : last ≤ OP_16) :
    1 ≤ decodeOpN last ∧ decodeOpN last ≤ 16 ∧
      ((last.toNat : Int) - (OP_1.toNat - 1)) = decodeOpN last := by
  have below := UInt8.le_iff_toNat_le.mp low
  have above := UInt8.le_iff_toNat_le.mp high
  have first : OP_1.toNat = 81 := rfl
  have top : OP_16.toNat = 96 := rfl
  have other : last ≠ OP_0 := by
    rintro rfl
    exact absurd low (by decide)
  rw [decodeOpN, if_neg other]
  omega

theorem stackCase_number (low : OP_1 ≤ opcode) (high : opcode ≤ OP_16) :
    stackCase env opcode = some (opNumber opcode) := by
  have below : 81 ≤ opcode.toNat := UInt8.le_iff_toNat_le.mp low
  have above : opcode.toNat ≤ 96 := UInt8.le_iff_toNat_le.mp high
  obtain ⟨n, number⟩ : ∃ n, opcode.toNat = n := ⟨_, rfl⟩
  obtain rfl : opcode = UInt8.ofNat n := by rw [← number, UInt8.ofNat_toNat]
  rw [number] at below above
  interval_cases n <;> rfl

theorem multisigCounts_keys {nKeysCount nSigsCount nOpCount : Nat}
    (counted : multisigCounts env m = .ok (nKeysCount, nSigsCount, nOpCount)) :
    nKeysCount ≤ 20 ∧ ∀ (n : Nat) below, m.stack = getvch n :: below → 1 ≤ n → n ≤ 16 →
      nKeysCount = n := by
  unfold multisigCounts at counted
  obtain ⟨_, counted⟩ := refuse_bind_eq_ok.mp counted
  obtain ⟨vch, top, counted⟩ := bind_eq_ok.mp counted
  obtain ⟨value, read, counted⟩ := bind_eq_ok.mp counted
  obtain ⟨fits, counted⟩ := refuse_bind_eq_ok.mp counted
  obtain ⟨_, counted⟩ := refuse_bind_eq_ok.mp counted
  obtain ⟨_, counted⟩ := refuse_bind_eq_ok.mp counted
  obtain ⟨_, _, counted⟩ := bind_eq_ok.mp counted
  obtain ⟨_, _, counted⟩ := bind_eq_ok.mp counted
  obtain ⟨_, counted⟩ := refuse_bind_eq_ok.mp counted
  obtain ⟨_, counted⟩ := refuse_bind_eq_ok.mp counted
  obtain ⟨rfl, -⟩ := Prod.mk.inj (Except.ok.inj counted)
  refine ⟨by omega, fun n below stack positive small => ?_⟩
  rw [stack] at top
  obtain rfl : getvch n = vch := Except.ok.inj top
  rw [scriptNum_getvch positive small] at read
  obtain rfl : (n : Int) = value := Except.ok.inj read
  unfold getint
  split_ifs
  · omega
  · omega
  · omega

theorem Counted.opCheckSig_count : (Counted.opCheckSig env opcode m).count ≤ 1 := by
  refine Tally.count_lift_bind_le fun _ _ => ?_
  refine Tally.count_lift_bind_le fun vchSig _ => ?_
  refine Tally.count_lift_bind_le fun vchPubKey _ => ?_
  refine Tally.count_lift_bind_le fun _ _ => ?_
  refine Tally.count_bind_zero (Nat.le_refl 1) fun fSuccess _ => ?_
  refine Tally.count_lift_bind_le fun _ _ => ?_
  refine Tally.count_lift_bind_le fun _ _ => ?_
  exact Tally.count_lift_bind_le fun _ _ => Nat.le_refl 0

variable {fAccurate : Bool} {data : Valtype} {rest : CScript}

theorem Counted.execute_count (topped : Topped last m)
    (executed : m.fExec = true ∨ (OP_IF ≤ opcode ∧ opcode ≤ OP_ENDIF)) :
    (Counted.execute env opcode m).count ≤ sigOps fAccurate last opcode := by
  unfold Counted.execute sigOps
  split
  · exact opCheckSig_count
  · split
    · rename_i multiple
      have running : m.fExec = true := by
        rcases executed with running | conditional
        · exact running
        · rcases multiple with rfl | rfl
          · exact absurd conditional.2 (by decide)
          · exact absurd conditional.2 (by decide)
      refine opCheckMultiSig_count fun nKeysCount nSigsCount nOpCount counted => ?_
      obtain ⟨few, exactly⟩ := multisigCounts_keys counted
      split
      · rename_i numbered
        obtain ⟨_, low, high⟩ := numbered
        obtain ⟨below, stack⟩ := topped low high running
        obtain ⟨positive, small, -⟩ := decodeOpN_bounds low high
        exact (exactly _ below stack positive small).le
      · exact few
    · exact Nat.zero_le 0

theorem Counted.perform_count (topped : Topped last m) (data : Valtype) :
    (Counted.perform env opcode m data).count ≤ sigOps fAccurate last opcode := by
  unfold Counted.perform
  split
  · exact Nat.zero_le _
  · split
    · rename_i executed
      exact execute_count topped executed
    · exact Nat.zero_le _

theorem Counted.evalOpcode_count (topped : Topped last m)
    (read : getOp m.pc = some (opcode, data, rest)) :
    (Counted.evalOpcode env m).count ≤ sigOps fAccurate last opcode := by
  unfold Counted.evalOpcode
  rw [read]
  refine Tally.count_lift_bind_le fun _ _ => ?_
  refine Tally.count_lift_bind_le fun _ _ => ?_
  refine Tally.count_lift_bind_le fun _ _ => ?_
  exact perform_count (m := { m with pc := rest, nOpCount := _ }) topped data

theorem Counted.evalStep_count (topped : Topped last m)
    (read : getOp m.pc = some (opcode, data, rest)) :
    (Counted.evalStep env m).count ≤ sigOps fAccurate last opcode :=
  Tally.count_bind_zero (evalOpcode_count topped read) fun _ _ =>
    Tally.count_lift_bind_le fun _ _ => Nat.le_refl 0

theorem ends_any {ε α : Type} (computation : Except ε α) :
    Ends (fun _ => True) (fun _ => True) computation := by
  cases computation <;> trivial

theorem execute_pc :
    Ends (fun _ => True) (fun after => after.pc = m.pc) (execute env opcode m) := by
  unfold execute
  split
  · exact (ends_any _).bind fun _ _ => .pure rfl
  · split_ifs
    · unfold opIf
      split
      · refine (ends_any _).bind fun _ _ => (ends_any _).bind fun _ _ => ?_
        exact (ends_any _).bind fun _ _ => .pure rfl
      · exact .pure rfl
    · unfold opElse
      split
      · exact trivial
      · exact .pure rfl
    · unfold opEndIf
      split
      · exact trivial
      · exact .pure rfl
    · refine (ends_any _).bind fun _ _ => (ends_any _).bind fun _ _ => ?_
      exact (ends_any _).bind fun _ _ => .pure rfl
    · refine (ends_any _).bind fun _ _ => (ends_any _).bind fun _ _ => ?_
      exact (ends_any _).bind fun _ _ => .pure rfl
    · exact .pure rfl
    · refine (ends_any _).bind fun _ _ => (ends_any _).bind fun _ _ => ?_
      refine (ends_any _).bind fun _ _ => (ends_any _).bind fun _ _ => ?_
      refine (ends_any _).bind fun _ _ => (ends_any _).bind fun _ _ => ?_
      exact (ends_any _).bind fun _ _ => .pure rfl
    · refine (ends_any _).bind fun _ _ => (ends_any _).bind fun _ _ => ?_
      refine (ends_any _).bind fun _ _ => (ends_any _).bind fun _ _ => ?_
      refine (ends_any _).bind fun _ _ => (ends_any _).bind fun _ _ => ?_
      exact .pure rfl
    · exact trivial

theorem perform_topped {after : Machine} (performed : perform env opcode m data = .ok after) :
    after.pc = m.pc ∧ Topped opcode after := by
  unfold perform at performed
  split at performed
  · rename_i pushes
    obtain ⟨_, performed⟩ := refuse_bind_eq_ok.mp performed
    obtain rfl := Except.ok.inj performed
    refine ⟨rfl, fun low _ => absurd (UInt8.le_trans low pushes.2) (by decide)⟩
  · split at performed
    · rename_i executed
      have moved : Ends (fun _ => True) (fun after => after.pc = m.pc) (execute env opcode m) :=
        execute_pc
      rw [performed] at moved
      refine ⟨moved, fun low high running => ?_⟩
      unfold execute at performed
      rw [stackCase_number low high] at performed
      obtain rfl := Except.ok.inj performed
      refine ⟨m.stack, ?_⟩
      rw [(decodeOpN_bounds low high).2.2]
    · rename_i skipped
      obtain rfl : m = after := Except.ok.inj performed
      exact ⟨rfl, fun _ _ running => absurd (.inl running) skipped⟩

theorem evalStep_performed {next : Machine} (read : getOp m.pc = some (opcode, data, rest))
    (stepped : evalStep env m = .ok next) :
    ∃ here : Machine, here.pc = rest ∧ here.vfExec = m.vfExec ∧
      perform env opcode here data = .ok next := by
  unfold evalStep at stepped
  obtain ⟨after, executed, stepped⟩ := bind_eq_ok.mp stepped
  obtain ⟨_, stepped⟩ := refuse_bind_eq_ok.mp stepped
  obtain rfl : after = next := Except.ok.inj stepped
  unfold evalOpcode at executed
  rw [read] at executed
  obtain ⟨_, executed⟩ := refuse_bind_eq_ok.mp executed
  obtain ⟨_, executed⟩ := refuse_bind_eq_ok.mp executed
  obtain ⟨_, executed⟩ := refuse_bind_eq_ok.mp executed
  exact ⟨{ m with pc := rest, nOpCount := _ }, rfl, rfl, executed⟩

/-- An instruction goes on behind itself, and a number that it pushes is on the top. -/
theorem evalStep_topped {next : Machine} (read : getOp m.pc = some (opcode, data, rest))
    (stepped : evalStep env m = .ok next) :
    next.pc = rest ∧ Topped opcode next := by
  obtain ⟨here, rfl, -, performed⟩ := evalStep_performed read stepped
  exact perform_topped performed

/-! ## A script -/

theorem Counted.evalLoop_count (fuel : Nat) (within : Within m) (topped : Topped last m) :
    (Counted.evalLoop env fuel m).count ≤ countSigOps fAccurate fuel m.pc last := by
  induction fuel generalizing m last with
  | zero => exact Nat.le_refl 0
  | succ fuel ih =>
    unfold Counted.evalLoop countSigOps
    split
    · exact Nat.zero_le _
    · rcases read : getOp m.pc with _ | ⟨opcode, data, rest⟩
      · have stopped : Counted.evalStep env m = ⟨fail .BAD_OPCODE, 0⟩ := by
          unfold Counted.evalStep Counted.evalOpcode
          rw [read]
          rfl
        rw [stopped]
        exact Nat.le_refl 0
      · refine Tally.count_bind_le (evalStep_count topped read) fun next stepped => ?_
        rw [result_evalStep] at stepped
        have ends := evalStep_ends env within
        rw [stepped] at ends
        obtain ⟨rfl, toppedNext⟩ := evalStep_topped read stepped
        exact ih ends.2.1 toppedNext

theorem sigOps_le (fAccurate : Bool) (last opcode : UInt8) : sigOps fAccurate last opcode ≤ 20 := by
  unfold sigOps
  split_ifs with _ _ numbered
  · decide
  · obtain ⟨_, small, -⟩ := decodeOpN_bounds numbered.2.1 numbered.2.2
    omega
  · exact Nat.le_refl 20
  · exact Nat.zero_le 20

theorem countSigOps_le (fAccurate : Bool) (fuel : Nat) (pc : CScript) (last : UInt8) :
    countSigOps fAccurate fuel pc last ≤ fuel * 20 := by
  induction fuel generalizing pc last with
  | zero => exact Nat.zero_le _
  | succ fuel ih =>
    unfold countSigOps
    rcases getOp pc with _ | ⟨opcode, _, rest⟩
    · exact Nat.zero_le _
    · have here := sigOps_le fAccurate last opcode
      have later := ih rest opcode
      dsimp only
      omega

/-- **The signature operations of a script bound its checks.** A script that is long enough for
the 32-bit counter to wrap is not evaluated. -/
theorem Counted.evalScript_count {stack : Stack} (produced : Produced stack) (fAccurate : Bool)
    (script : CScript) :
    (Counted.evalScript env stack script).count ≤ getSigOpCount fAccurate script % 2 ^ 32 := by
  refine Tally.count_lift_bind_le fun _ fits => ?_
  have short := refuseIf_eq_ok.mp fits
  have small := countSigOps_le fAccurate script.length script OP_INVALIDOPCODE
  rw [getSigOpCount, Nat.mod_eq_of_lt (by omega)]
  refine Tally.count_bind_zero ?_ fun m _ => ?_
  · exact evalLoop_count script.length (enter_within produced.within.1 produced.within.2 script)
      fun _ high => absurd high (by decide)
  · exact Tally.count_lift_bind_le fun _ _ => Nat.le_refl 0

end

end Script

end Agouti
