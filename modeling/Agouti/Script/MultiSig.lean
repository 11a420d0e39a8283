import Agouti.Library.Matching
import Agouti.Script.EvalRuns
import Agouti.Script.SigChecks

/-! # Signatures of several keys

`OP_CHECKMULTISIG` goes through the keys with two cursors and stops when fewer keys than signatures
are left. On a stack with the signatures and the keys (`multisigStack`) its loop is the greedy
matching of `Matching`, so that the operation succeeds when the signatures can be assigned to keys
in their order, within the limits of the interpreter (`checkMultiSig_iff`).
-/

namespace Agouti

open List

namespace Script

open CScript Outcome

/-- The arguments of `OP_CHECKMULTISIG` in the order in which they are pushed, with what is below
them. -/
def multisigStack (nSigs nKeys : Valtype) (sigs keys : List Valtype) (below : Stack) : Stack :=
  nKeys :: (keys.reverse ++ nSigs :: (sigs.reverse ++ below))

def signedCode (sigs : List Valtype) (pbegincodehash : CScript) : CScript :=
  sigs.reverse.foldl (fun scriptCode vchSig => scriptCode.findAndDelete (pushData vchSig))
    pbegincodehash

section

variable {env : EvalEnv} {stack : Stack}

/-! ## The parts of the operation -/

theorem stacktop_of_append {vch : Valtype} {rest : List Valtype} {place : Nat}
    (here : vch :: rest <+: stack.drop place) :
    stacktop stack (place + 1) = .ok vch ∧ rest <+: stack.drop (place + 1) := by
  obtain ⟨behind, split⟩ := here
  have element : stack[place]? = some vch := by
    rw [← List.head?_drop, ← split, cons_append, List.head?_cons]
  constructor
  · simp only [stacktop, Nat.add_one_ne_zero, if_false, Nat.add_sub_cancel, element]
    rfl
  · refine ⟨behind, ?_⟩
    rw [← drop_drop, ← split, cons_append, drop_one, tail_cons]

theorem checkEncodings_unflagged
    (unflagged : env.has (SCRIPT_VERIFY_DERSIG ||| SCRIPT_VERIFY_LOW_S |||
      SCRIPT_VERIFY_STRICTENC) = false) (vchSig vchPubKey : Valtype) :
    checkEncodings env vchSig vchPubKey = .ok () := by
  have mask (part : BitVec 32) (within : part &&& (SCRIPT_VERIFY_DERSIG ||| SCRIPT_VERIFY_LOW_S |||
      SCRIPT_VERIFY_STRICTENC) = part) : env.has part = false := by
    simp only [EvalEnv.has, bne_eq_false_iff_eq] at unflagged ⊢
    rw [← within, BitVec.and_comm part, ← BitVec.and_assoc, unflagged]
    exact BitVec.zero_and
  have low := mask SCRIPT_VERIFY_LOW_S (by decide)
  have strict := mask SCRIPT_VERIFY_STRICTENC (by decide)
  simp [checkEncodings, signatureError, pubKeyError, unflagged, low, strict]
  rfl

theorem multisigLoop_eq
    (unflagged : env.has (SCRIPT_VERIFY_DERSIG ||| SCRIPT_VERIFY_LOW_S |||
      SCRIPT_VERIFY_STRICTENC) = false) (scriptCode : CScript) {sigs keys : List Valtype}
    {isig ikey : Nat} (covered : sigs.length ≤ keys.length) (sigsHere : sigs <+: stack.drop isig)
    (keysHere : keys <+: stack.drop ikey) :
    multisigLoop env stack scriptCode keys.length sigs.length (isig + 1) (ikey + 1) =
      .ok (Matching.greedy (fun sig key => env.checkSig sig key scriptCode) sigs keys) := by
  induction keys generalizing sigs isig ikey with
  | nil =>
    obtain rfl : sigs = [] := eq_nil_of_length_eq_zero (Nat.le_zero.mp covered)
    rfl
  | cons key keys ih =>
    cases sigs with
    | nil => rfl
    | cons sig sigs =>
      obtain ⟨sigTop, sigsBehind⟩ := stacktop_of_append sigsHere
      obtain ⟨keyTop, keysBehind⟩ := stacktop_of_append keysHere
      have encoded := checkEncodings_unflagged unflagged sig key
      simp only [length_cons, multisigLoop, sigTop, keyTop, Matching.greedy, bind,
        Except.bind, encoded]
      by_cases fOk : env.checkSig sig key scriptCode = true
      · have few : ¬ keys.length < sigs.length := by
          simp only [length_cons] at covered
          omega
        simp only [fOk, if_true, few, if_false]
        exact ih (by omega) sigsBehind keysBehind
      · simp only [fOk, Bool.false_eq_true, if_false]
        split
        · rename_i short
          rw [Matching.greedy_of_short short]
          rfl
        · rename_i enough
          exact @ih (sig :: sigs) _ _ (Nat.not_lt.mp enough) sigsHere keysBehind

theorem deleteSigs_eq {sigs : List Valtype} {isig : Nat} {scriptCode : CScript}
    (sigsHere : sigs <+: stack.drop isig) :
    deleteSigs stack sigs.length (isig + 1) scriptCode =
      .ok (sigs.foldl (fun scriptCode vchSig => scriptCode.findAndDelete (pushData vchSig))
        scriptCode) := by
  induction sigs generalizing isig scriptCode with
  | nil => rfl
  | cons sig sigs ih =>
    obtain ⟨sigTop, sigsBehind⟩ := stacktop_of_append sigsHere
    simp only [length_cons, deleteSigs, sigTop, foldl_cons]
    exact ih sigsBehind

theorem popMany_append (dropped below : Stack) :
    popMany dropped.length (dropped ++ below) = .ok below := by
  induction dropped with
  | nil => rfl
  | cons vch dropped ih => exact ih

/-! ## The operation -/

/-- The limits of `OP_CHECKMULTISIG`, which are not about the signatures: the keys, the counted
operations and the element below the arguments. -/
structure MultisigFits (env : EvalEnv) (nOpCount : Nat) (keys : List Valtype) (below : Stack) :
    Prop where
  few : keys.length ≤ 20
  operations : nOpCount + keys.length ≤ 201
  dummy : ∃ vch rest, below = vch :: rest ∧ (env.has SCRIPT_VERIFY_NULLDUMMY = true → vch = [])

variable {m : Machine} {nSigs nKeys : Valtype} {sigs keys : List Valtype} {below : Stack}

theorem multisigStack_length :
    (multisigStack nSigs nKeys sigs keys below).length =
      2 + keys.length + sigs.length + below.length := by
  simp only [multisigStack, length_cons, length_append, length_reverse]
  omega

theorem multisigStack_keys :
    keys.reverse <+: (multisigStack nSigs nKeys sigs keys below).drop 1 := by
  exact prefix_append _ _

theorem multisigStack_sigs :
    sigs.reverse <+: (multisigStack nSigs nKeys sigs keys below).drop (2 + keys.length) := by
  have split : multisigStack nSigs nKeys sigs keys below =
      (nKeys :: keys.reverse ++ [nSigs]) ++ (sigs.reverse ++ below) := by
    simp [multisigStack]
  rw [split, drop_left' (by simp [Nat.add_comm 2])]
  exact prefix_append _ _

theorem stacktop_keys : stacktop (multisigStack nSigs nKeys sigs keys below) 1 = .ok nKeys := rfl

theorem stacktop_sigs :
    stacktop (multisigStack nSigs nKeys sigs keys below) (2 + keys.length) = .ok nSigs := by
  have split : multisigStack nSigs nKeys sigs keys below =
      (nKeys :: keys.reverse) ++ (nSigs :: (sigs.reverse ++ below)) := rfl
  have here : [nSigs] <+: (multisigStack nSigs nKeys sigs keys below).drop (keys.length + 1) := by
    rw [split, drop_left' (by simp)]
    exact prefix_append [nSigs] _
  rw [show 2 + keys.length = keys.length + 1 + 1 by omega]
  exact (stacktop_of_append here).1

theorem getint_within (count : Nat) {limit : Nat} (small : limit ≤ 20) :
    (getint count < 0 ∨ (limit : Int) < getint count ↔ limit < count) ∧
      (count ≤ limit → (getint count).toNat = count) := by
  unfold getint
  split_ifs
  · omega
  · omega
  · omega

theorem multisigCounts_eq (stack : m.stack = multisigStack nSigs nKeys sigs keys below)
    (keyCount : scriptNum nKeys env.fRequireMinimal = .ok keys.length)
    (sigCount : scriptNum nSigs env.fRequireMinimal = .ok sigs.length)
    {counts : Nat × Nat × Nat} :
    multisigCounts env m = .ok counts ↔
      counts = (keys.length, sigs.length, m.nOpCount + keys.length) ∧ keys.length ≤ 20 ∧
        m.nOpCount + keys.length ≤ 201 ∧ sigs.length ≤ keys.length ∧ below ≠ [] := by
  unfold multisigCounts
  rw [stack, stacktop_keys, multisigStack_length, refuse_bind_eq_ok]
  change _ ∧ (scriptNum nKeys env.fRequireMinimal >>= _) = _ ↔ _
  rw [keyCount]
  change _ ∧ (failIf _ _ >>= _) = _ ↔ _
  obtain ⟨keysRefused, keysRead⟩ := getint_within keys.length (Nat.le_refl 20)
  rw [Nat.cast_ofNat] at keysRefused
  rw [refuse_bind_eq_ok, keysRefused]
  dsimp only
  by_cases few : keys.length ≤ 20
  swap
  · exact iff_of_false (fun all => all.2.1 (by omega)) (fun all => few all.2.1)
  rw [keysRead few, refuse_bind_eq_ok, refuse_bind_eq_ok, stacktop_sigs]
  change _ ∧ _ ∧ _ ∧ _ ∧ (scriptNum nSigs env.fRequireMinimal >>= _) = _ ↔ _
  rw [sigCount]
  change _ ∧ _ ∧ _ ∧ _ ∧ (failIf _ _ >>= _) = _ ↔ _
  obtain ⟨sigsRefused, sigsRead⟩ := getint_within sigs.length few
  rw [refuse_bind_eq_ok, sigsRefused]
  by_cases covered : sigs.length ≤ keys.length
  swap
  · exact iff_of_false (fun all => all.2.2.2.2.1 (by omega)) (fun all => covered all.2.2.2.1)
  rw [sigsRead covered, refuse_bind_eq_ok]
  have enough : ¬ 2 + keys.length + sigs.length + below.length < 3 + keys.length + sigs.length ↔
      below ≠ [] := by
    rw [← length_pos_iff]
    omega
  rw [enough]
  change _ ∧ _ ∧ _ ∧ _ ∧ _ ∧ _ ∧ Except.ok _ = Except.ok counts ↔ _
  rw [Except.ok.injEq]
  constructor
  · rintro ⟨_, _, counted, _, _, filled, rfl⟩
    exact ⟨rfl, few, by omega, covered, filled⟩
  · rintro ⟨rfl, _, counted, _, filled⟩
    exact ⟨by omega, by omega, by omega, by omega, by omega, filled, rfl⟩

theorem dropDummy_eq_ok {rest : Stack} : dropDummy env below = .ok rest ↔
    ∃ vch, below = vch :: rest ∧ (env.has SCRIPT_VERIFY_NULLDUMMY = true → vch = []) := by
  unfold dropDummy
  rw [refuse_bind_eq_ok]
  cases below with
  | nil => exact iff_of_false (fun all => all.1 Nat.zero_lt_one) (by rintro ⟨vch, ⟨⟩, _⟩)
  | cons vch below =>
    have here : stacktop (vch :: below) 1 = .ok vch := rfl
    have there : ¬ (vch :: below).length < 1 := by simp
    simp only [there, not_false_eq_true, true_and, List.cons.injEq]
    split
    · rename_i flagged
      rw [here]
      change (failIf _ _ >>= _) = _ ↔ _
      rw [refuse_bind_eq_ok]
      change _ ∧ Except.ok below = Except.ok rest ↔ _
      rw [Except.ok.injEq]
      constructor
      · rintro ⟨empty, rfl⟩
        exact ⟨vch, ⟨rfl, rfl⟩, fun _ => eq_nil_of_length_eq_zero (not_not.mp empty)⟩
      · rintro ⟨_, ⟨rfl, rfl⟩, empty⟩
        rw [empty flagged]
        exact ⟨not_not.mpr rfl, rfl⟩
    · rename_i unflagged
      change Except.ok below = Except.ok rest ↔ _
      rw [Except.ok.injEq]
      constructor
      · rintro rfl
        exact ⟨vch, ⟨rfl, rfl⟩, fun flagged => absurd flagged unflagged⟩
      · rintro ⟨_, ⟨_, rfl⟩, _⟩
        rfl

variable {opcode : UInt8}

section

variable (unflagged : env.has (SCRIPT_VERIFY_DERSIG ||| SCRIPT_VERIFY_LOW_S ||| SCRIPT_VERIFY_STRICTENC) = false)

include unflagged

theorem opCheckMultiSig_counted
    
    (stack : m.stack = multisigStack nSigs nKeys sigs keys below)
    (covered : sigs.length ≤ keys.length) (counted : multisigCounts env m =
      .ok (keys.length, sigs.length, m.nOpCount + keys.length)) :
    opCheckMultiSig env opcode m = (do
      let rest ← dropDummy env below
      let stack ← verified (opcode == OP_CHECKMULTISIGVERIFY)
        (Matching.greedy (fun sig key => env.checkSig sig key (signedCode sigs m.pbegincodehash))
          sigs.reverse keys.reverse) .CHECKMULTISIGVERIFY rest
      pure { m with
        stack := stack
        nOpCount := m.nOpCount + keys.length }) := by
  have sigsHere : sigs.reverse <+: m.stack.drop (2 + keys.length) := by
    rw [stack]
    exact multisigStack_sigs
  have keysHere : keys.reverse <+: m.stack.drop 1 := by
    rw [stack]
    exact multisigStack_keys
  have deleted : deleteSigs m.stack sigs.length (3 + keys.length) m.pbegincodehash =
      .ok (signedCode sigs m.pbegincodehash) := by
    have whole : deleteSigs m.stack sigs.reverse.length (2 + keys.length + 1) m.pbegincodehash =
        .ok (signedCode sigs m.pbegincodehash) := deleteSigs_eq sigsHere
    rwa [length_reverse, show 2 + keys.length + 1 = 3 + keys.length by omega] at whole
  have matched : multisigLoop env m.stack (signedCode sigs m.pbegincodehash) keys.length sigs.length
      (3 + keys.length) 2 = .ok (Matching.greedy (fun sig key =>
        env.checkSig sig key (signedCode sigs m.pbegincodehash)) sigs.reverse keys.reverse) := by
    have coveredReverse : sigs.reverse.length ≤ keys.reverse.length := by
      rwa [length_reverse, length_reverse]
    have whole := multisigLoop_eq unflagged (signedCode sigs m.pbegincodehash) coveredReverse
      sigsHere keysHere
    rw [length_reverse, length_reverse,
      show 2 + keys.length + 1 = 3 + keys.length by omega] at whole
    exact whole
  have popped : popMany (2 + keys.length + sigs.length) m.stack = .ok below := by
    have split : m.stack = (nKeys :: (keys.reverse ++ nSigs :: sigs.reverse)) ++ below := by
      rw [stack]
      simp only [multisigStack, cons_append, append_assoc]
    have length : (nKeys :: (keys.reverse ++ nSigs :: sigs.reverse)).length =
        2 + keys.length + sigs.length := by
      simp only [length_cons, length_append, length_reverse]
      omega
    rw [split, ← length]
    exact popMany_append _ below
  unfold opCheckMultiSig
  rw [counted]
  change (deleteSigs _ _ _ _ >>= _) = _
  rw [deleted]
  change (multisigLoop _ _ _ _ _ _ _ >>= _) = _
  rw [matched]
  change (popMany _ _ >>= _) = _
  rw [popped]
  rfl

theorem opCheckMultiSig_fits {after : Machine}
    
    (stack : m.stack = multisigStack nSigs nKeys sigs keys below)
    (keyCount : scriptNum nKeys env.fRequireMinimal = .ok keys.length)
    (sigCount : scriptNum nSigs env.fRequireMinimal = .ok sigs.length)
    (returned : opCheckMultiSig env opcode m = .ok after) :
    sigs.length ≤ keys.length ∧ MultisigFits env m.nOpCount keys below := by
  have first := returned
  unfold opCheckMultiSig at first
  obtain ⟨counts, counted, -⟩ := bind_eq_ok.mp first
  obtain ⟨rfl, few, operations, covered, -⟩ :=
    (multisigCounts_eq stack keyCount sigCount).mp counted
  rw [opCheckMultiSig_counted unflagged stack covered counted] at returned
  obtain ⟨rest, dropped, -⟩ := bind_eq_ok.mp returned
  obtain ⟨vch, filled, empty⟩ := dropDummy_eq_ok.mp dropped
  exact ⟨covered, few, operations, vch, rest, filled, empty⟩

/-- Within its limits the operation leaves whether the signatures can be assigned to keys. -/
theorem opCheckMultiSig_eq
    (stack : m.stack = multisigStack nSigs nKeys sigs keys below)
    (keyCount : scriptNum nKeys env.fRequireMinimal = .ok keys.length)
    (sigCount : scriptNum nSigs env.fRequireMinimal = .ok sigs.length)
    (covered : sigs.length ≤ keys.length) (fits : MultisigFits env m.nOpCount keys below) :
    opCheckMultiSig env opcode m = (do
      let stack ← verified (opcode == OP_CHECKMULTISIGVERIFY)
        (Matching.greedy (fun sig key => env.checkSig sig key (signedCode sigs m.pbegincodehash))
          sigs.reverse keys.reverse) .CHECKMULTISIGVERIFY (below.drop 1)
      pure { m with
        stack := stack
        nOpCount := m.nOpCount + keys.length }) := by
  obtain ⟨vch, rest, rfl, empty⟩ := fits.dummy
  have counted : multisigCounts env m =
      .ok (keys.length, sigs.length, m.nOpCount + keys.length) :=
    (multisigCounts_eq stack keyCount sigCount).mpr
      ⟨rfl, fits.few, fits.operations, covered, cons_ne_nil vch rest⟩
  have dropped : dropDummy env (vch :: rest) = .ok rest := dropDummy_eq_ok.mpr ⟨vch, rfl, empty⟩
  rw [opCheckMultiSig_counted unflagged stack covered counted, dropped]
  rfl

/-- The operation returns within its limits, when `VERIFY` does not ask for more. -/
theorem opCheckMultiSig_eq_ok {after : Machine}
    
    (stack : m.stack = multisigStack nSigs nKeys sigs keys below)
    (keyCount : scriptNum nKeys env.fRequireMinimal = .ok keys.length)
    (sigCount : scriptNum nSigs env.fRequireMinimal = .ok sigs.length) :
    opCheckMultiSig env opcode m = .ok after ↔
      sigs.length ≤ keys.length ∧ MultisigFits env m.nOpCount keys below ∧
        ∃ left, verified (opcode == OP_CHECKMULTISIGVERIFY)
          (Matching.greedy (fun sig key => env.checkSig sig key (signedCode sigs m.pbegincodehash))
            sigs.reverse keys.reverse) .CHECKMULTISIGVERIFY (below.drop 1) = .ok left ∧
          after = { m with
            stack := left
            nOpCount := m.nOpCount + keys.length } := by
  constructor
  · intro returned
    obtain ⟨covered, fits⟩ := opCheckMultiSig_fits unflagged stack keyCount sigCount returned
    rw [opCheckMultiSig_eq unflagged stack keyCount sigCount covered fits] at returned
    obtain ⟨left, tested, same⟩ := bind_eq_ok.mp returned
    exact ⟨covered, fits, left, tested, (Except.ok.inj same).symm⟩
  · rintro ⟨covered, fits, left, tested, rfl⟩
    rw [opCheckMultiSig_eq unflagged stack keyCount sigCount covered fits]
    exact bind_eq_ok.mpr ⟨left, tested, rfl⟩

end

theorem boolElement_injective : Function.Injective boolElement := by
  decide

/-- **Signatures of several keys.** Without the flags about encodings `OP_CHECKMULTISIG` succeeds
if and only if it is within its limits and the signatures can be assigned to keys, each to a key of
its own under which it verifies and in the order of the keys; `OP_CHECKMULTISIGVERIFY` returns in
the same cases. There are at most as many signature checks as keys. -/
theorem checkMultiSig_iff (env : EvalEnv) (m : Machine) (nSigs nKeys : Valtype)
    (sigs keys : List Valtype) (below : Stack)
    (unflagged : env.has (SCRIPT_VERIFY_DERSIG ||| SCRIPT_VERIFY_LOW_S |||
      SCRIPT_VERIFY_STRICTENC) = false)
    (stack : m.stack = multisigStack nSigs nKeys sigs keys below)
    (keyCount : scriptNum nKeys env.fRequireMinimal = .ok keys.length)
    (sigCount : scriptNum nSigs env.fRequireMinimal = .ok sigs.length) :
    ((∃ after, opCheckMultiSig env OP_CHECKMULTISIG m = .ok after ∧
        after.stack = boolElement true :: below.drop 1) ↔
      MultisigFits env m.nOpCount keys below ∧
        Matching.Assigns (fun sig key => env.checkSig sig key (signedCode sigs m.pbegincodehash))
          sigs keys) ∧
    ((∃ after, opCheckMultiSig env OP_CHECKMULTISIGVERIFY m = .ok after ∧
        after.stack = below.drop 1) ↔
      MultisigFits env m.nOpCount keys below ∧
        Matching.Assigns (fun sig key => env.checkSig sig key (signedCode sigs m.pbegincodehash))
          sigs keys) ∧
    ∀ opcode, (Counted.opCheckMultiSig env opcode m).count ≤ keys.length := by
  rw [← Matching.assigns_reverse, ← Matching.greedy_iff]
  have covered : Matching.greedy (fun sig key =>
      env.checkSig sig key (signedCode sigs m.pbegincodehash)) sigs.reverse keys.reverse = true →
        sigs.length ≤ keys.length := by
    rw [Matching.greedy_iff, Matching.assigns_reverse]
    exact Matching.Assigns.length_le
  refine ⟨⟨?_, ?_⟩, ⟨?_, ?_⟩, ?_⟩
  · rintro ⟨after, returned, succeeded⟩
    obtain ⟨_, fits, left, tested, rfl⟩ :=
      (opCheckMultiSig_eq_ok unflagged stack keyCount sigCount).mp returned
    refine ⟨fits, boolElement_injective ?_⟩
    exact (List.cons.inj ((Except.ok.inj tested).trans succeeded)).1
  · rintro ⟨fits, matched⟩
    refine ⟨_, (opCheckMultiSig_eq_ok unflagged stack keyCount sigCount).mpr
      ⟨covered matched, fits, _, rfl, rfl⟩, ?_⟩
    rw [matched]
  · rintro ⟨after, returned, _⟩
    obtain ⟨_, fits, left, tested, rfl⟩ :=
      (opCheckMultiSig_eq_ok unflagged stack keyCount sigCount).mp returned
    refine ⟨fits, ?_⟩
    by_contra apart
    rw [Bool.not_eq_true] at apart
    rw [apart] at tested
    cases tested
  · rintro ⟨fits, matched⟩
    refine ⟨{ m with
      stack := below.drop 1
      nOpCount := m.nOpCount + keys.length }, ?_, rfl⟩
    rw [opCheckMultiSig_eq_ok unflagged stack keyCount sigCount]
    refine ⟨covered matched, fits, below.drop 1, ?_, rfl⟩
    rw [matched]
    rfl
  · intro opcode
    refine Counted.opCheckMultiSig_count fun nKeysCount nSigsCount nOpCount counted => ?_
    obtain ⟨same, -⟩ := (multisigCounts_eq stack keyCount sigCount).mp counted
    exact (Prod.mk.inj same).1.le

end

/-- A checker for which a signature is its key, and no flags. -/
def matchEnv : EvalEnv :=
  { plainEnv with checkSig := fun vchSig vchPubKey _ => vchSig == vchPubKey }

/-- A machine in front of `OP_CHECKMULTISIG`. -/
def multisigMachine (nSigs nKeys : Valtype) (sigs keys : List Valtype) : Machine :=
  enter (multisigStack nSigs nKeys sigs keys [[]]) []

/-- Two signatures of three keys. -/
theorem checkMultiSig_iff_two :
    ∃ after, opCheckMultiSig matchEnv OP_CHECKMULTISIG
        (multisigMachine [2] [3] [[7], [9]] [[7], [8], [9]]) = .ok after ∧
      after.stack = [boolElement true] := by
  have assigned : Matching.Assigns (fun sig key => matchEnv.checkSig sig key
      (signedCode [[7], [9]] [])) [[7], [9]] [[7], [8], [9]] := by
    rw [← Matching.greedy_iff]
    rfl
  exact (checkMultiSig_iff matchEnv (multisigMachine [2] [3] [[7], [9]] [[7], [8], [9]]) [2] [3]
    [[7], [9]] [[7], [8], [9]] [[]] (by decide) rfl (by rfl) (by rfl)).1.mpr
    ⟨⟨by decide, by decide, [], [], rfl, fun _ => rfl⟩, assigned⟩

/-- With 21 keys a signature that verifies is not enough. -/
theorem checkMultiSig_not_iff : ¬ ∀ (env : EvalEnv) (m : Machine) (nSigs nKeys : Valtype)
    (sigs keys : List Valtype) (below : Stack),
    env.has (SCRIPT_VERIFY_DERSIG ||| SCRIPT_VERIFY_LOW_S ||| SCRIPT_VERIFY_STRICTENC) = false →
    m.stack = multisigStack nSigs nKeys sigs keys below →
    scriptNum nKeys env.fRequireMinimal = .ok keys.length →
    scriptNum nSigs env.fRequireMinimal = .ok sigs.length → below = [[]] →
    ((∃ after, opCheckMultiSig env OP_CHECKMULTISIG m = .ok after ∧
        after.stack = boolElement true :: below.drop 1) ↔
      Matching.Assigns (fun sig key => env.checkSig sig key (signedCode sigs m.pbegincodehash))
        sigs keys) := by
  intro claimed
  have single := claimed matchEnv (multisigMachine [1] [21] [[7]] (List.replicate 21 [7])) [1] [21]
    [[7]] (List.replicate 21 [7]) [[]] (by decide) rfl (by rfl) (by rfl) rfl
  have assigned : Matching.Assigns (fun sig key => matchEnv.checkSig sig key
      (signedCode [[7]] [])) [[7]] (List.replicate 21 [7]) := by
    rw [← Matching.greedy_iff]
    rfl
  obtain ⟨after, returned, _⟩ := single.mpr assigned
  have refused : opCheckMultiSig matchEnv OP_CHECKMULTISIG
      (multisigMachine [1] [21] [[7]] (List.replicate 21 [7])) = fail .PUBKEY_COUNT := by rfl
  rw [refused] at returned
  cases returned

end Script

end Agouti
