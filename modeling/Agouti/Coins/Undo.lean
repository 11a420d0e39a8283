import Agouti.Coins.View

/-! # The coins of a block as one undo log

Connecting transactions is a run of `coinLog` over the events of the block and
disconnecting them is the rewinding of that run. What a rewinding gives back is
then a question about the events of one transaction hash: outputs always return,
unless an entry was overwritten while outputs were left, and so does the metadata
with one exception (`rewindEntry_same`): the coinstake flag of an entry that the
block spent completely.
-/

namespace Agouti

open List

/-- One change of a coin entry by a block. -/
inductive CoinEvent
  | spend (out : COutPoint)
  | create (txid : Uint256) (coins : CCoins)

def CoinEvent.txid : CoinEvent → Uint256
  | spend out => out.hash
  | create txid _ => txid

def coinLog : UndoLog Uint256 CCoins CTxInUndo CoinEvent where
  key := CoinEvent.txid
  act
    | .spend out, entry => (entry.spend out.n).map fun spent => (spent.1.cleanup, spent.2)
    | .create _ coins, _ => some (coins.cleanup, {})
  revert
    | .spend out, undo, entry => (entry.restore out.n undo).cleanup
    | .create _ _, _, entry => entry.clear.cleanup

def spendEvents (vin : List CTxIn) : List CoinEvent := vin.map fun txin => .spend txin.prevout

theorem spendInputs_eq (vin : List CTxIn) (view : CCoinsViewCache) :
    spendInputs vin view = (coinLog.run (spendEvents vin) view.coins).map fun ran =>
      ({ view with coins := ran.1 }, ran.2.map Prod.snd) := by
  induction vin generalizing view with
  | nil => rfl
  | cons txin rest ih =>
    simp only [spendInputs, spendEvents, map_cons, UndoLog.run, coinLog, CoinEvent.txid,
      Option.bind_eq_bind, Option.pure_def]
    cases (view.coins txin.prevout.hash).spend txin.prevout.n with
    | none => rfl
    | some spent =>
      simp only [Option.bind_some, Option.map_some, ih, CCoinsViewCache.modifyCoins]
      simp only [coinLog, spendEvents, Option.map_bind, Option.bind_map]
      cases UndoLog.run _ (List.map (fun txin => CoinEvent.spend txin.prevout) rest)
        (Function.update view.coins txin.prevout.hash spent.1.cleanup) <;> rfl

theorem restoreInputs_eq (records : List (CTxIn × CTxInUndo)) (view : CCoinsViewCache)
    (fClean : Bool) :
    (restoreInputs records (view, fClean)).1 =
      { view with
        coins := coinLog.rewind (records.map fun record => (.spend record.1.prevout, record.2))
          view.coins } := by
  induction records with
  | nil => rfl
  | cons record rest ih =>
    simp only [restoreInputs, ih, CCoinsViewCache.modifyCoins, map_cons, UndoLog.rewind]
    rfl

variable {records : List (CoinEvent × CTxInUndo)} {final entry : CCoins} {events : List CoinEvent}

theorem spend_records {vin : List CTxIn} {coins final : Uint256 → CCoins}
    (ran : coinLog.run (spendEvents vin) coins = some (final, records)) :
    records.length = vin.length ∧
      (vin.zip (records.map Prod.snd)).map (fun record => (.spend record.1.prevout, record.2)) =
        records := by
  have events := coinLog.run_records ran
  constructor
  · rw [← length_map (f := Prod.fst), events, spendEvents, length_map]
  · have zipped : (records.map Prod.fst).zip (records.map Prod.snd) = records := by
      rw [← unzip_fst, ← unzip_snd, zip_unzip]
    rw [events, spendEvents, zip_map_left] at zipped
    exact zipped

/-- The positions that the events of one entry spend before they overwrite it. -/
def spentFirst : List CoinEvent → List Nat
  | .spend out :: rest => out.n :: spentFirst rest
  | _ => []

def overwrites (events : List CoinEvent) : Bool :=
  events.any fun
    | .create _ _ => true
    | .spend _ => false

namespace CCoins

/-- Every unspent output is at one of the positions. -/
def coveredBy (coins : CCoins) (positions : List Nat) : Bool :=
  (List.range coins.vout.length).all fun nPos => !coins.isAvailable nPos || positions.contains nPos

theorem coveredBy_iff {coins : CCoins} {positions : List Nat} :
    coins.coveredBy positions = true ↔ ∀ nPos, nPos ∉ positions → coins.unspent nPos = none := by
  simp only [coveredBy, all_eq_true, List.mem_range, Bool.or_eq_true, Bool.not_eq_eq_eq_not,
    Bool.not_true, contains_iff_mem, isAvailable_eq, Option.isSome_eq_false_iff,
    Option.isNone_iff_eq_none]
  constructor
  · intro covered nPos missing
    by_cases inside : nPos < coins.vout.length
    · exact (covered nPos inside).resolve_right missing
    · rw [unspent, List.getElem?_eq_none (Nat.not_lt.mp inside)]
      rfl
  · intro covered nPos _
    by_cases member : nPos ∈ positions
    · exact .inr member
    · exact .inl (covered nPos member)

theorem coveredBy_nil {coins : CCoins} : coins.coveredBy [] = coins.isPruned := by
  rw [Bool.eq_iff_iff, coveredBy_iff, isPruned_iff]
  simp

namespace Spent

variable {coins spent : CCoins} {nPos : Nat} {undo : CTxInUndo}

theorem live (taken : Spent coins nPos spent undo) : undo.txout.isNull = false :=
  (unspent_eq_some.mp taken.output).2

theorem unpruned (taken : Spent coins nPos spent undo) : coins.isPruned = false := by
  rw [Bool.eq_false_iff]
  intro pruned
  have output := taken.output
  rw [isPruned_iff.mp pruned nPos] at output
  contradiction

theorem cleanup (taken : Spent coins nPos spent undo) : Spent coins nPos spent.cleanup undo where
  output := taken.output
  outputs other := (unspent_cleanup spent other).trans (taken.outputs other)
  fCoinBase := taken.fCoinBase
  fCoinStake := taken.fCoinStake
  nHeight := taken.nHeight
  nVersion := taken.nVersion
  last pruned := taken.last ((isPruned_cleanup spent).symm.trans pruned)
  remaining live := taken.remaining ((isPruned_cleanup spent).symm.trans live)

theorem coveredBy_cons (taken : Spent coins nPos spent undo) (positions : List Nat) :
    coins.coveredBy (nPos :: positions) = spent.coveredBy positions := by
  rw [Bool.eq_iff_iff, coveredBy_iff, coveredBy_iff]
  simp only [taken.outputs, mem_cons, not_or]
  constructor
  · intro covered other missing
    by_cases here : other = nPos
    · rw [if_pos here]
    · rw [if_neg here]
      exact covered other ⟨here, missing⟩
  · intro covered other ⟨here, missing⟩
    simpa only [here, ↓reduceIte] using covered other missing

end Spent

end CCoins

theorem runEntry_spend {out : COutPoint} {rest : List CoinEvent}
    (ran : coinLog.runEntry (.spend out :: rest) entry = some (final, records)) :
    ∃ spent undo others, CCoins.Spent entry out.n spent undo ∧
      coinLog.runEntry rest spent = some (final, others) ∧
      records = (.spend out, undo) :: others := by
  simp only [UndoLog.runEntry, Option.bind_eq_bind, Option.pure_def, Option.bind_eq_some_iff] at ran
  obtain ⟨⟨next, undo⟩, acted, ⟨_, others⟩, ran, same⟩ := ran
  obtain ⟨rfl, rfl⟩ := Prod.mk.inj (Option.some.inj same)
  obtain ⟨⟨spent, undo⟩, accepted, same⟩ := Option.map_eq_some_iff.mp acted
  obtain ⟨rfl, rfl⟩ := Prod.mk.inj same
  exact ⟨spent.cleanup, undo, others, (CCoins.spend_spent accepted).cleanup, ran, rfl⟩

theorem runEntry_create {txid : Uint256} {coins : CCoins} {rest : List CoinEvent}
    (ran : coinLog.runEntry (.create txid coins :: rest) entry = some (final, records)) :
    coinLog.rewindEntry records final = ({} : CCoins) := by
  simp only [UndoLog.runEntry, Option.bind_eq_bind, Option.pure_def, Option.bind_eq_some_iff] at ran
  obtain ⟨⟨next, undo⟩, _, ⟨_, others⟩, _, same⟩ := ran
  obtain ⟨_, rfl⟩ := Prod.mk.inj (Option.some.inj same)
  rfl

/-- The outputs a rewinding gives back: all of them, unless the entry was
overwritten, and then those that had been spent before. -/
theorem rewindEntry_unspent (ran : coinLog.runEntry events entry = some (final, records))
    (nPos : Nat) :
    (coinLog.rewindEntry records final).unspent nPos =
      if overwrites events = true ∧ nPos ∉ spentFirst events then none
      else entry.unspent nPos := by
  induction events generalizing entry final records with
  | nil =>
    obtain ⟨rfl, rfl⟩ := Prod.mk.inj (Option.some.inj ran)
    simp [overwrites, UndoLog.rewindEntry]
  | cons event rest ih =>
    cases event with
    | create txid coins =>
      rw [runEntry_create ran]
      simp [overwrites, spentFirst]
    | spend out =>
      obtain ⟨spent, undo, others, taken, ranRest, rfl⟩ := runEntry_spend ran
      have overwritten : overwrites (.spend out :: rest) = overwrites rest := rfl
      have later := ih ranRest
      simp only [UndoLog.rewindEntry, coinLog] at later ⊢
      rw [CCoins.unspent_cleanup, CCoins.unspent_restore _ taken.live, later, overwritten]
      simp only [spentFirst, mem_cons, not_or]
      by_cases here : nPos = out.n
      · simp [here, taken.output]
      · have other : spent.unspent nPos = entry.unspent nPos := by
          rw [taken.outputs, if_neg here]
        simp only [here, ↓reduceIte, not_false_eq_true, true_and, other]
        by_cases last : undo.nHeight = 0
        · simp only [last, ne_eq, not_true_eq_false, ↓reduceIte]
        · have pruned : spent.isPruned = true := by
            by_contra live
            exact last (taken.remaining (by simpa using live))
          have none := CCoins.isPruned_iff.mp pruned nPos
          rw [other] at none
          simp [last, none]

theorem rewindEntry_metadata (ran : coinLog.runEntry events entry = some (final, records))
    (live : entry.isPruned = false) (height : entry.nHeight ≠ 0)
    (kept : overwrites events = true → entry.coveredBy (spentFirst events) = true) :
    let restored := coinLog.rewindEntry records final
    restored.fCoinBase = entry.fCoinBase ∧ restored.nHeight = entry.nHeight ∧
      restored.nVersion = entry.nVersion ∧
      restored.fCoinStake = (entry.fCoinStake && !entry.coveredBy (spentFirst events)) := by
  induction events generalizing entry final records with
  | nil =>
    obtain ⟨rfl, rfl⟩ := Prod.mk.inj (Option.some.inj ran)
    simp [UndoLog.rewindEntry, spentFirst, CCoins.coveredBy_nil, live]
  | cons event rest ih =>
    cases event with
    | create txid coins =>
      have covered := kept rfl
      rw [spentFirst, CCoins.coveredBy_nil, live] at covered
      · contradiction
      · simp
    | spend out =>
      obtain ⟨spent, undo, others, taken, ranRest, rfl⟩ := runEntry_spend ran
      have covers : entry.coveredBy (spentFirst (.spend out :: rest)) =
        spent.coveredBy (spentFirst rest) := taken.coveredBy_cons (spentFirst rest)
      rw [covers] at kept ⊢
      simp only [UndoLog.rewindEntry, coinLog, CCoins.cleanup_fCoinBase,
        CCoins.cleanup_fCoinStake, CCoins.cleanup_nHeight, CCoins.cleanup_nVersion,
        CCoins.restore, CCoins.restoreMetadata]
      cases pruned : spent.isPruned with
      | true =>
        obtain ⟨base, undoHeight, version⟩ := taken.last pruned
        have all : spent.coveredBy (spentFirst rest) = true :=
          CCoins.coveredBy_iff.mpr fun nPos _ => CCoins.isPruned_iff.mp pruned nPos
        simp only [undoHeight, ne_eq, height, not_false_eq_true, ↓reduceIte, base, version,
          CCoins.clear, all, Bool.not_true, Bool.and_false, and_self]
      | false =>
        have later := ih ranRest pruned (by rw [taken.nHeight]; exact height) kept
        simp only [coinLog] at later
        simp only [taken.remaining pruned, ne_eq, not_true_eq_false, ↓reduceIte]
        rw [← taken.fCoinBase, ← taken.nHeight, ← taken.nVersion, ← taken.fCoinStake]
        exact later

/-- **When a rewinding gives an entry back.** Exactly when no unspent output is
overwritten and a coinstake entry is not spent completely. -/
theorem rewindEntry_same (ran : coinLog.runEntry events entry = some (final, records))
    (height : entry.isPruned = false → entry.nHeight ≠ 0) :
    (coinLog.rewindEntry records final).Same entry ↔ (entry.isPruned = false →
      (overwrites events = true → entry.coveredBy (spentFirst events) = true) ∧
        (entry.fCoinStake = true → entry.coveredBy (spentFirst events) = false)) := by
  constructor
  · intro same live
    have kept : overwrites events = true → entry.coveredBy (spentFirst events) = true := by
      intro overwritten
      rw [CCoins.coveredBy_iff]
      intro nPos missing
      rw [← same.outputs, rewindEntry_unspent ran, if_pos ⟨overwritten, missing⟩]
    have metadata := rewindEntry_metadata ran live (height live) kept
    have flags := (same.metadata live).2.1
    refine ⟨kept, fun stake => ?_⟩
    rw [metadata.2.2.2, stake, Bool.true_and, Bool.not_eq_true'] at flags
    exact flags
  · intro condition
    refine ⟨fun nPos => ?_, fun live => ?_⟩
    · rw [rewindEntry_unspent ran]
      by_cases lost : overwrites events = true ∧ nPos ∉ spentFirst events
      · rw [if_pos lost]
        cases live : entry.isPruned with
        | true => exact (CCoins.isPruned_iff.mp live nPos).symm
        | false =>
          exact (CCoins.coveredBy_iff.mp ((condition live).1 lost.1) nPos lost.2).symm
      · rw [if_neg lost]
    · obtain ⟨kept, stake⟩ := condition live
      obtain ⟨base, nHeight, version, flag⟩ := rewindEntry_metadata ran live (height live) kept
      refine ⟨base, ?_, nHeight, version⟩
      rw [flag]
      cases staked : entry.fCoinStake with
      | false => rfl
      | true => rw [stake staked]; rfl

variable [Crypto]

/-- The changes of a transaction, in the order of `UpdateCoins`. -/
def txEvents (nHeight : Int) (tx : CTransaction) : List CoinEvent :=
  (if tx.hasInputs then spendEvents tx.vin else []) ++
    [.create tx.getHash (.fromTx tx nHeight)]

/-- What a run of a transaction's events says: its records rewind it through
`disconnectTransaction`. -/
structure Undoes (nHeight : Int) (tx : CTransaction) (txundo : List CTxInUndo)
    (records : List (CoinEvent × CTxInUndo)) : Prop where
  rewinds : ∀ view fClean, ∃ clean, disconnectTransaction nHeight tx txundo (view, fClean) =
    some ({ view with coins := coinLog.rewind records view.coins }, clean)

/-- One transaction. -/
theorem updateCoins_run {tx : CTransaction} {view next : CCoinsViewCache} {nHeight : Int}
    {txundo : List CTxInUndo} (updated : updateCoins tx view nHeight = some (next, txundo)) :
    ∃ records, coinLog.run (txEvents nHeight tx) view.coins = some (next.coins, records) ∧
      next.hashBlock = view.hashBlock ∧ Undoes nHeight tx txundo records := by
  rw [updateCoins, Option.map_eq_some_iff] at updated
  obtain ⟨⟨spent, vprevout⟩, ran, same⟩ := updated
  obtain ⟨rfl, rfl⟩ := Prod.mk.inj same
  cases inputs : tx.hasInputs with
  | false =>
    simp only [inputs, Bool.false_eq_true, ↓reduceIte, Option.some.injEq, Prod.mk.injEq] at ran
    obtain ⟨rfl, rfl⟩ := ran
    refine ⟨[(.create tx.getHash (.fromTx tx nHeight), ({} : CTxInUndo))], ?_, rfl,
      ⟨fun after fClean => ?_⟩⟩
    · simp only [txEvents, inputs]
      rfl
    · simp only [disconnectTransaction, inputs, Bool.false_eq_true, ↓reduceIte]
      exact ⟨_, rfl⟩
  | true =>
    simp only [inputs, ↓reduceIte, spendInputs_eq, Option.map_eq_some_iff] at ran
    obtain ⟨⟨coins, records⟩, ran, same⟩ := ran
    obtain ⟨rfl, rfl⟩ := Prod.mk.inj same
    obtain ⟨length, zipped⟩ := spend_records ran
    refine ⟨records ++ [(.create tx.getHash (.fromTx tx nHeight), ({} : CTxInUndo))], ?_, rfl,
      ⟨fun after fClean => ?_⟩⟩
    · simp only [txEvents, inputs, ↓reduceIte, UndoLog.run_append, ran]
      rfl
    · simp only [disconnectTransaction, inputs, ↓reduceIte, length_map, length, ne_eq,
        not_true_eq_false]
      refine ⟨_, congrArg some (Prod.ext ?_ rfl)⟩
      rw [restoreInputs_eq, zipped, UndoLog.rewind_append]
      rfl

def blockEvents (nHeight : Int) (vtx : List CTransaction) : List CoinEvent :=
  vtx.flatMap (txEvents nHeight)

/-- `UpdateCoins` for transaction after transaction, with their undo records. -/
inductive Updates (nHeight : Int) : List CTransaction → CCoinsViewCache → CCoinsViewCache →
    List (List CTxInUndo) → Prop
  | nil (view) : Updates nHeight [] view view []
  | cons {tx rest view middle final txundo vtxundo}
      (updated : updateCoins tx view nHeight = some (middle, txundo))
      (others : Updates nHeight rest middle final vtxundo) :
      Updates nHeight (tx :: rest) view final (txundo :: vtxundo)

/-- **Disconnecting transactions rewinds the run that connected them.** -/
theorem Updates.run {nHeight : Int} {vtx : List CTransaction} {view final : CCoinsViewCache}
    {vtxundo : List (List CTxInUndo)} (updates : Updates nHeight vtx view final vtxundo) :
    ∃ records, coinLog.run (blockEvents nHeight vtx) view.coins = some (final.coins, records) ∧
      final.hashBlock = view.hashBlock ∧ vtxundo.length = vtx.length ∧
      ∀ after fClean, ∃ clean,
        disconnectTransactions nHeight (vtx.zip vtxundo) (after, fClean) =
          some ({ after with coins := coinLog.rewind records after.coins }, clean) := by
  induction updates with
  | nil view => exact ⟨[], rfl, rfl, rfl, fun after fClean => ⟨fClean, rfl⟩⟩
  | cons updated others ih =>
    obtain ⟨first, ranFirst, bestFirst, undoes⟩ := updateCoins_run updated
    obtain ⟨records, ran, best, length, rewinds⟩ := ih
    refine ⟨first ++ records, ?_, best.trans bestFirst, congrArg Nat.succ length,
      fun after fClean => ?_⟩
    · simp only [blockEvents, flatMap_cons, UndoLog.run_append, ranFirst, Option.bind_some]
      rw [blockEvents] at ran
      rw [ran]
      rfl
    · obtain ⟨clean, rest⟩ := rewinds after fClean
      obtain ⟨cleanFirst, here⟩ :=
        undoes.rewinds { after with coins := coinLog.rewind records after.coins } clean
      refine ⟨cleanFirst, ?_⟩
      simp only [zip_cons_cons, disconnectTransactions, rest, Option.bind_eq_bind,
        Option.bind_some, here, UndoLog.rewind_append]

end Agouti
