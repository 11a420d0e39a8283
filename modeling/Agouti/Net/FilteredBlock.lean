import Agouti.Net.BloomFilter
import Agouti.Net.MerkleBlock
import Agouti.Script.VerifyScript

/-! # Blocks seen through a Bloom filter

`CBloomFilter::IsRelevantAndUpdate` and the constructor of `CMerkleBlock`. The filter grows while a
block is scanned: with `BLOOM_UPDATE_ALL` the outpoint of every matched output is inserted. What a
filter contains it contains behind every step (`Grown`), so that a block is matched in every
transaction that an inserted key is about.
-/

namespace Agouti

open List

namespace CScript

/-- The data of the instructions, up to one that is cut off. -/
def pushedData : Nat → CScript → List (List UInt8)
  | 0, _ => []
  | fuel + 1, pc =>
    match getOp pc with
    | none => []
    | some (_, data, rest) => data :: pushedData fuel rest

/-- What the loops of `IsRelevantAndUpdate` read from a script. -/
def elements (script : CScript) : List (List UInt8) := pushedData script.length script

/-- `OP_SMALLINTEGER` of a template. -/
def smallInteger (opcode : UInt8) : Option Nat :=
  if opcode = OP_0 ∨ (OP_1 ≤ opcode ∧ opcode ≤ OP_16) then some (decodeOpN opcode) else none

/-- `OP_PUBKEYS` of a template: the number of keys, the opcode behind them and the rest. -/
def passKeys : Nat → CScript → Nat → Option (Nat × UInt8 × CScript)
  | 0, _, _ => none
  | fuel + 1, pc, keys =>
    match getOp pc with
    | none => none
    | some (opcode, vch, rest) =>
      if 33 ≤ vch.length ∧ vch.length ≤ 65 then passKeys fuel rest (keys + 1)
      else some (keys, opcode, rest)

/-- The template `OP_SMALLINTEGER OP_PUBKEYS OP_SMALLINTEGER OP_CHECKMULTISIG`. -/
def solvesMultisig (script : CScript) : Bool :=
  ((do
    let (first, _, rest) ← getOp script
    let m ← smallInteger first
    let (keys, last, rest) ← passKeys (rest.length + 1) rest 0
    let n ← smallInteger last
    some (isOpcodes [OP_CHECKMULTISIG] rest && decide (1 ≤ m) && decide (1 ≤ n) &&
      decide (m ≤ n) && keys == n)) : Option Bool).getD false

/-- `Solver` finds `TX_PUBKEY` or `TX_MULTISIG`. -/
def paysToKeys (script : CScript) : Bool :=
  !script.isPayToScriptHash && !script.isZerocoinMint &&
    !(script.startsWith OP_RETURN && isPushOnly (script.drop 1)) &&
    (script.solvePubKey.isSome || script.solvesMultisig)

end CScript

namespace CBloomFilter

variable (filter : CBloomFilter)

/-- `data.size() != 0 && contains(data)`. -/
def containsElement (data : List UInt8) : Option Bool :=
  if data.length ≠ 0 then filter.contains data else some false

def containsAny : List (List UInt8) → Option Bool
  | [] => some false
  | data :: rest => do
      let found ← filter.containsElement data
      if found then some true else containsAny rest

def updateMatched (txout : CTxOut) (outpoint : COutPoint) : Option CBloomFilter :=
  if filter.nFlags &&& BLOOM_UPDATE_MASK = BLOOM_UPDATE_ALL then
    filter.insert (Serialize.outpoint outpoint)
  else if filter.nFlags &&& BLOOM_UPDATE_MASK = BLOOM_UPDATE_P2PUBKEY_ONLY ∧
      txout.scriptPubKey.paysToKeys then
    filter.insert (Serialize.outpoint outpoint)
  else some filter

/-- A turn of the loop over the outputs, for the output at a position. -/
def scanOutput (hash : Uint256) (filter : CBloomFilter) (output : CTxOut × Nat) :
    Option (Bool × CBloomFilter) := do
  let found ← filter.containsAny output.1.scriptPubKey.elements
  if found then do
    let filter ← filter.updateMatched output.1 ⟨hash, output.2⟩
    some (true, filter)
  else some (false, filter)

def matchesInput : List CTxIn → Option Bool
  | [] => some false
  | txin :: rest => do
      let spends ← filter.contains (Serialize.outpoint txin.prevout)
      if spends then some true
      else do
        let found ← filter.containsAny txin.scriptSig.elements
        if found then some true else matchesInput rest

def isRelevantAndUpdate [Crypto] (filter : CBloomFilter) (tx : CTransaction) :
    Option (Bool × CBloomFilter) :=
  if filter.isFull then some (true, filter)
  else if filter.isEmpty then some (false, filter)
  else do
    let fHash ← filter.contains (Serialize.uint256 tx.getHash)
    let (matched, filter) ← Scan.run (scanOutput tx.getHash) tx.vout.zipIdx filter
    if fHash || matched.any id then some (true, filter)
    else do
      let fInput ← filter.matchesInput tx.vin
      some (fInput, filter)

end CBloomFilter

/-- A block as a filter sees it. -/
structure CMerkleBlock where
  header : CBlockHeader
  txn : CPartialMerkleTree
  vMatchedTxn : List (Nat × Uint256)

/-- `vMatchedTxn` for a mask. -/
def matchedTxn (vHashes : List Uint256) (vMatch : List Bool) : List (Nat × Uint256) :=
  (vHashes.zip vMatch).zipIdx.filterMap fun ((hash, fMatch), i) =>
    if fMatch then some (i, hash) else none

/-- The constructor of `CMerkleBlock` from a block and a filter, with the filter it leaves. -/
def CMerkleBlock.ofBlock [Crypto] (block : CBlock) (filter : CBloomFilter) :
    Option (CMerkleBlock × CBloomFilter) := do
  let (vMatch, filter) ← Scan.run CBloomFilter.isRelevantAndUpdate block.vtx filter
  let vHashes := block.vtx.map CTransaction.getHash
  some ({ header := block.toCBlockHeader, txn := .ofMatches vHashes vMatch,
          vMatchedTxn := matchedTxn vHashes vMatch }, filter)

/-! ## Steps of a scan -/

namespace CBloomFilter

/-- A filter that has grown contains what it contained. -/
structure Grown (filter next : CBloomFilter) : Prop where
  sized : next.Sized
  nFlags : next.nFlags = filter.nFlags
  holds : ∀ vKey, filter.Holds vKey → next.Holds vKey

variable {filter next : CBloomFilter} {vKey : List UInt8}

theorem Grown.refl (sized : filter.Sized) : filter.Grown filter :=
  ⟨sized, rfl, fun _ held => held⟩

theorem Grown.trans {final : CBloomFilter} (first : filter.Grown next)
    (second : next.Grown final) : filter.Grown final :=
  ⟨second.sized, second.nFlags.trans first.nFlags, fun vKey held =>
    second.holds vKey (first.holds vKey held)⟩

theorem Inserted.grown (inserted : filter.Inserted vKey next) (sized : filter.Sized) :
    filter.Grown next :=
  ⟨inserted.sized sized, inserted.nFlags, fun _ held => inserted.holds held⟩

/-- One of the elements is contained. -/
def HoldsAny (filter : CBloomFilter) (elements : List (List UInt8)) : Prop :=
  ∃ data ∈ elements, data ≠ [] ∧ filter.Holds data

theorem holdsAny_cons {data : List UInt8} {rest : List (List UInt8)} :
    filter.HoldsAny (data :: rest) ↔ (data ≠ [] ∧ filter.Holds data) ∨ filter.HoldsAny rest := by
  constructor
  · rintro ⟨element, member, held⟩
    rcases mem_cons.mp member with rfl | member
    · exact .inl held
    · exact .inr ⟨element, member, held⟩
  · rintro (held | ⟨element, member, held⟩)
    · exact ⟨data, mem_cons_self, held⟩
    · exact ⟨element, mem_cons_of_mem data member, held⟩

theorem containsElement_spec (sized : filter.Sized) (data : List UInt8) :
    ∃ found, filter.containsElement data = some found ∧
      (found = true ↔ data ≠ [] ∧ filter.Holds data) := by
  unfold containsElement
  by_cases empty : data = []
  · rw [empty]
    exact ⟨false, rfl, iff_of_false Bool.false_ne_true fun both => both.1 rfl⟩
  · rw [if_pos fun zero => empty (length_eq_zero_iff.mp zero)]
    obtain ⟨found, checked, held⟩ := contains_spec sized data
    exact ⟨found, checked, held.trans (and_iff_right empty).symm⟩

theorem containsAny_spec (sized : filter.Sized) (elements : List (List UInt8)) :
    ∃ found, filter.containsAny elements = some found ∧
      (found = true ↔ filter.HoldsAny elements) := by
  induction elements with
  | nil =>
    refine ⟨false, rfl, iff_of_false Bool.false_ne_true ?_⟩
    rintro ⟨data, member, _⟩
    exact nomatch member
  | cons data rest ih =>
    obtain ⟨found, further, all⟩ := ih
    obtain ⟨here, checked, held⟩ := containsElement_spec sized data
    rw [containsAny, checked, holdsAny_cons, ← held]
    change ∃ found, (if here = true then some true else filter.containsAny rest) = some found ∧ _
    cases here with
    | true => exact ⟨true, rfl, iff_of_true rfl (.inl rfl)⟩
    | false => exact ⟨found, further, all.trans (or_iff_right Bool.false_ne_true).symm⟩

theorem updateMatched_spec (sized : filter.Sized) (txout : CTxOut) (outpoint : COutPoint) :
    ∃ next, filter.updateMatched txout outpoint = some next ∧ filter.Grown next ∧
      (filter.nFlags &&& BLOOM_UPDATE_MASK = BLOOM_UPDATE_ALL →
        next.Holds (Serialize.outpoint outpoint)) := by
  obtain ⟨next, wrote, inserted⟩ := insert_spec sized (Serialize.outpoint outpoint)
  unfold updateMatched
  split
  · exact ⟨next, wrote, inserted.grown sized, fun _ => inserted.holds_self⟩
  · rename_i other
    split
    · exact ⟨next, wrote, inserted.grown sized, fun _ => inserted.holds_self⟩
    · exact ⟨filter, rfl, .refl sized, fun every => absurd every other⟩

theorem scanOutput_spec (sized : filter.Sized) (hash : Uint256) (output : CTxOut × Nat) :
    ∃ mark next, filter.scanOutput hash output = some (mark, next) ∧ filter.Grown next ∧
      (mark = true ↔ filter.HoldsAny output.1.scriptPubKey.elements) ∧
      (mark = false → next = filter) ∧
      (mark = true → filter.nFlags &&& BLOOM_UPDATE_MASK = BLOOM_UPDATE_ALL →
        next.Holds (Serialize.outpoint ⟨hash, output.2⟩)) := by
  obtain ⟨mark, checked, found⟩ := containsAny_spec sized output.1.scriptPubKey.elements
  unfold scanOutput
  rw [checked]
  cases mark with
  | false =>
    exact ⟨false, filter, rfl, .refl sized, found, fun _ => rfl,
      fun marked => absurd marked (by decide)⟩
  | true =>
    obtain ⟨next, updated, grown, contained⟩ := updateMatched_spec sized output.1 ⟨hash, output.2⟩
    refine ⟨true, next, ?_, grown, found, fun unmarked => absurd unmarked (by decide),
      fun _ => contained⟩
    change (filter.updateMatched output.1 ⟨hash, output.2⟩).bind _ = _
    rw [updated]
    rfl

theorem matchesInput_spec (sized : filter.Sized) (vin : List CTxIn) :
    ∃ found, filter.matchesInput vin = some found ∧ (found = true ↔
      ∃ txin ∈ vin, filter.Holds (Serialize.outpoint txin.prevout) ∨
        filter.HoldsAny txin.scriptSig.elements) := by
  induction vin with
  | nil =>
    refine ⟨false, rfl, iff_of_false Bool.false_ne_true ?_⟩
    rintro ⟨txin, member, _⟩
    exact nomatch member
  | cons txin rest ih =>
    obtain ⟨found, further, all⟩ := ih
    obtain ⟨spends, checked, held⟩ := contains_spec sized (Serialize.outpoint txin.prevout)
    obtain ⟨pushed, scanned, any⟩ := containsAny_spec sized txin.scriptSig.elements
    rw [matchesInput, checked]
    change ∃ found, (if spends = true then some true else _) = some found ∧ _
    cases spends with
    | true => exact ⟨true, rfl, iff_of_true rfl ⟨txin, mem_cons_self, .inl (held.mp rfl)⟩⟩
    | false =>
      change ∃ found, (filter.containsAny txin.scriptSig.elements).bind _ = some found ∧ _
      rw [scanned]
      cases pushed with
      | true => exact ⟨true, rfl, iff_of_true rfl ⟨txin, mem_cons_self, .inr (any.mp rfl)⟩⟩
      | false =>
        refine ⟨found, further, all.trans ?_⟩
        constructor
        · rintro ⟨later, member, there⟩
          exact ⟨later, mem_cons_of_mem txin member, there⟩
        · rintro ⟨later, member, there⟩
          rcases mem_cons.mp member with rfl | member
          · rcases there with there | there
            · exact nomatch held.mpr there
            · exact nomatch any.mpr there
          · exact ⟨later, member, there⟩

theorem scanOutputs_spec (sized : filter.Sized) (hash : Uint256) (outputs : List (CTxOut × Nat)) :
    ∃ marks next, Scan.run (scanOutput hash) outputs filter = some (marks, next) ∧
      filter.Grown next := by
  refine Scan.run_isSome (fun reached output grown => ?_) outputs (Grown.refl sized)
  obtain ⟨mark, next, stepped, further, -⟩ := scanOutput_spec grown.sized hash output
  exact ⟨mark, next, stepped, grown.trans further⟩

theorem HoldsAny.mono {elements : List (List UInt8)} (held : filter.HoldsAny elements)
    (grown : filter.Grown next) : next.HoldsAny elements := by
  obtain ⟨data, member, pushed, contained⟩ := held
  exact ⟨data, member, pushed, grown.holds data contained⟩

variable {hash : Uint256} {marks : List Bool}

theorem scanOutput_of_eq (sized : filter.Sized) {output : CTxOut × Nat} {mark : Bool}
    (stepped : filter.scanOutput hash output = some (mark, next)) :
    filter.Grown next ∧ (mark = true ↔ filter.HoldsAny output.1.scriptPubKey.elements) ∧
      (mark = false → next = filter) ∧
      (mark = true → filter.nFlags &&& BLOOM_UPDATE_MASK = BLOOM_UPDATE_ALL →
        next.Holds (Serialize.outpoint ⟨hash, output.2⟩)) := by
  obtain ⟨found, reached, ran, spec⟩ := scanOutput_spec sized hash output
  obtain ⟨rfl, rfl⟩ := Prod.mk.inj (Option.some.inj (stepped.symm.trans ran))
  exact spec

theorem grown_of_scanOutputs (sized : filter.Sized) {outputs : List (CTxOut × Nat)}
    (ran : Scan.run (scanOutput hash) outputs filter = some (marks, next)) : filter.Grown next :=
  Scan.kept (fun _ _ _ _ grown stepped =>
    grown.trans (scanOutput_of_eq grown.sized stepped).1) ran (Grown.refl sized)

/-- The filter holds something of the transaction. -/
inductive Relevant [Crypto] (filter : CBloomFilter) (tx : CTransaction) : Prop
  | txid (held : filter.Holds (Serialize.uint256 tx.getHash))
  | output (txout : CTxOut) (member : txout ∈ tx.vout)
      (held : filter.HoldsAny txout.scriptPubKey.elements)
  | outpoint (txin : CTxIn) (member : txin ∈ tx.vin)
      (held : filter.Holds (Serialize.outpoint txin.prevout))
  | input (txin : CTxIn) (member : txin ∈ tx.vin) (held : filter.HoldsAny txin.scriptSig.elements)

/-- The loop of `IsRelevantAndUpdate` over the outputs marks the output at a position. -/
def MarksOutput [Crypto] (filter : CBloomFilter) (tx : CTransaction) (k : Nat) : Prop :=
  ∃ marks after, Scan.run (scanOutput tx.getHash) tx.vout.zipIdx filter = some (marks, after) ∧
    marks[k]? = some true

theorem marks_of_holdsAny (sized : filter.Sized) {vout : List CTxOut} {txout : CTxOut}
    (member : txout ∈ vout) (held : filter.HoldsAny txout.scriptPubKey.elements)
    (ran : Scan.run (scanOutput hash) vout.zipIdx filter = some (marks, next)) :
    marks.any id = true := by
  obtain ⟨k, there⟩ := mem_iff_getElem?.mp member
  have indexed : vout.zipIdx[k]? = some (txout, k) := by
    rw [List.getElem?_zipIdx, there, Nat.zero_add]
    rfl
  obtain ⟨front, reached, mark, later, back, ahead, stepped, -, marked, -⟩ :=
    Scan.exists_step ran indexed
  have grown := grown_of_scanOutputs sized ahead
  obtain ⟨-, found, -⟩ := scanOutput_of_eq grown.sized stepped
  exact any_eq_true.mpr ⟨mark, mem_of_getElem? marked, found.mpr (held.mono grown)⟩

theorem holds_of_marked (sized : filter.Sized) {vout : List CTxOut} {k : Nat}
    (every : filter.nFlags &&& BLOOM_UPDATE_MASK = BLOOM_UPDATE_ALL)
    (ran : Scan.run (scanOutput hash) vout.zipIdx filter = some (marks, next))
    (marked : marks[k]? = some true) : next.Holds (Serialize.outpoint ⟨hash, k⟩) := by
  have inside : k < vout.length := by
    rw [← length_zipIdx, ← Scan.length_marks ran]
    exact (List.getElem?_eq_some_iff.mp marked).1
  have indexed : vout.zipIdx[k]? = some (vout[k], k) := by
    rw [List.getElem?_zipIdx, List.getElem?_eq_getElem inside, Nat.zero_add]
    rfl
  obtain ⟨front, reached, mark, later, back, ahead, stepped, behind, same, -⟩ :=
    Scan.exists_step ran indexed
  obtain rfl := Option.some.inj (same.symm.trans marked)
  have grown := grown_of_scanOutputs sized ahead
  obtain ⟨further, -, -, contained⟩ := scanOutput_of_eq grown.sized stepped
  rw [grown.nFlags] at contained
  exact (grown_of_scanOutputs further.sized behind).holds _ (contained rfl every)

theorem not_marked_of_isEmpty (sized : filter.Sized) (partly : filter.isFull = false)
    (empty : filter.isEmpty = true) {outputs : List (CTxOut × Nat)}
    (ran : Scan.run (scanOutput hash) outputs filter = some (marks, next)) :
    marks.any id = false := by
  induction outputs generalizing marks with
  | nil =>
    obtain ⟨rfl, -⟩ := Prod.mk.inj (Option.some.inj ran)
    rfl
  | cons output rest ih =>
    obtain ⟨mark, middle, others, stepped, further, rfl⟩ := Scan.run_cons.mp ran
    obtain ⟨-, found, same, -⟩ := scanOutput_of_eq sized stepped
    have nothing (vKey : List UInt8) : ¬ filter.Holds vKey := by
      rintro (full | ⟨filled, -⟩)
      · exact nomatch full.symm.trans partly
      · exact nomatch empty.symm.trans filled
    cases mark with
    | true =>
      obtain ⟨data, -, -, held⟩ := found.mp rfl
      exact absurd held (nothing data)
    | false =>
      obtain rfl := same rfl
      rw [any_cons, ih further]
      rfl

theorem isRelevantAndUpdate_spec [Crypto] (sized : filter.Sized) (tx : CTransaction) :
    ∃ mark next, filter.isRelevantAndUpdate tx = some (mark, next) ∧ filter.Grown next ∧
      (filter.Relevant tx → mark = true) ∧
      (filter.nFlags &&& BLOOM_UPDATE_MASK = BLOOM_UPDATE_ALL → ∀ k, filter.MarksOutput tx k →
        next.Holds (Serialize.outpoint ⟨tx.getHash, k⟩)) := by
  unfold isRelevantAndUpdate
  cases full : filter.isFull with
  | true =>
    exact ⟨true, filter, rfl, .refl sized, fun _ => rfl, fun _ _ _ => .inl full⟩
  | false =>
    cases empty : filter.isEmpty with
    | true =>
      refine ⟨false, filter, rfl, .refl sized, fun relevant => ?_, ?_⟩
      · have nothing (vKey : List UInt8) : ¬ filter.Holds vKey := by
          rintro (filled | ⟨filled, -⟩)
          · exact nomatch full.symm.trans filled
          · exact nomatch empty.symm.trans filled
        cases relevant with
        | txid held => exact absurd held (nothing _)
        | output _ _ held => exact absurd held.choose_spec.2.2 (nothing _)
        | outpoint _ _ held => exact absurd held (nothing _)
        | input _ _ held => exact absurd held.choose_spec.2.2 (nothing _)
      · rintro - k ⟨marks, after, ran, marked⟩
        have unmarked := not_marked_of_isEmpty sized full empty ran
        rw [any_eq_false] at unmarked
        exact absurd rfl (unmarked true (mem_of_getElem? marked))
    | false =>
      obtain ⟨fHash, checked, found⟩ := contains_spec sized (Serialize.uint256 tx.getHash)
      obtain ⟨marks, next, ran, grown⟩ :=
        scanOutputs_spec sized tx.getHash tx.vout.zipIdx
      obtain ⟨fInput, scanned, spends⟩ := matchesInput_spec grown.sized tx.vin
      have updated : filter.nFlags &&& BLOOM_UPDATE_MASK = BLOOM_UPDATE_ALL → ∀ k,
          filter.MarksOutput tx k → next.Holds (Serialize.outpoint ⟨tx.getHash, k⟩) := by
        rintro every k ⟨outs, after, again, marked⟩
        obtain ⟨rfl, rfl⟩ := Prod.mk.inj (Option.some.inj (ran.symm.trans again))
        exact holds_of_marked sized every ran marked
      rw [checked]
      change ∃ mark later, (Scan.run (scanOutput tx.getHash) tx.vout.zipIdx filter).bind _ =
        some (mark, later) ∧ _
      rw [ran]
      change ∃ mark later, (if (fHash || marks.any id) = true then some (true, next) else _) =
        some (mark, later) ∧ _
      cases early : fHash || marks.any id with
      | true => exact ⟨true, next, rfl, grown, fun _ => rfl, updated⟩
      | false =>
        refine ⟨fInput, next, ?_, grown, fun relevant => ?_, updated⟩
        · change (next.matchesInput tx.vin).bind _ = _
          rw [scanned]
          rfl
        · obtain ⟨unseen, unmarked⟩ := Bool.or_eq_false_iff.mp early
          cases relevant with
          | txid held => exact nomatch (found.mpr held).symm.trans unseen
          | output txout member held =>
            exact nomatch (marks_of_holdsAny sized member held ran).symm.trans unmarked
          | outpoint txin member held =>
            exact spends.mpr ⟨txin, member, .inl (grown.holds _ held)⟩
          | input txin member held =>
            exact spends.mpr ⟨txin, member, .inr (held.mono grown)⟩

end CBloomFilter

/-! ## What a filtered block does not miss

A filter that the message `filterload` accepted, and that keys were inserted into, contains every
one of them. A `CMerkleBlock` that is made with it matches all the transactions that the keys are
about and, with `BLOOM_UPDATE_ALL`, those that spend an output marked in front of them
(`noFalseNegative`). An element of a script is data that is pushed: an opcode without data and an
empty push both read as the empty string, which is skipped (`not_matches_empty`).
-/

section

variable [Crypto]

/-- A filter as a peer leaves it, with the keys that were inserted into it. -/
inductive Fed : CBloomFilter → List (List UInt8) → Prop
  | filterload {vData : List UInt8} {nHashFuncs : Nat} {nTweak : UInt32} {nFlags : UInt8}
      {filter : CBloomFilter}
      (accepted : CBloomFilter.filterload vData nHashFuncs nTweak nFlags = some filter) :
      Fed filter []
  | insert {filter next : CBloomFilter} {keys : List (List UInt8)} {vKey : List UInt8}
      (fed : Fed filter keys) (inserted : filter.insert vKey = some next) : Fed next (vKey :: keys)
  | scanned {filter next : CBloomFilter} {keys : List (List UInt8)} {tx : CTransaction}
      {fFound : Bool} (fed : Fed filter keys)
      (answered : filter.isRelevantAndUpdate tx = some (fFound, next)) : Fed next keys

/-- The transaction has one of the keys. -/
inductive Mentions (counts : List UInt8 → Prop) (keys : List (List UInt8)) (tx : CTransaction) :
    Prop
  | txid (inserted : Serialize.uint256 tx.getHash ∈ keys)
  | output (txout : CTxOut) (member : txout ∈ tx.vout) (data : List UInt8)
      (element : data ∈ txout.scriptPubKey.elements) (counted : counts data) (inserted : data ∈ keys)
  | outpoint (txin : CTxIn) (member : txin ∈ tx.vin)
      (inserted : Serialize.outpoint txin.prevout ∈ keys)
  | input (txin : CTxIn) (member : txin ∈ tx.vin) (data : List UInt8)
      (element : data ∈ txin.scriptSig.elements) (counted : counts data) (inserted : data ∈ keys)

/-- The transaction at a position is matched: in the list and in the mask of the tree. -/
def CMerkleBlock.Matches (merkle : CMerkleBlock) (block : CBlock) (i : Nat) : Prop :=
  ∃ tx vMatch, block.vtx[i]? = some tx ∧ (i, tx.getHash) ∈ merkle.vMatchedTxn ∧
    merkle.txn = .ofMatches (block.vtx.map CTransaction.getHash) vMatch ∧ vMatch[i]? = some true

/-- The filter matches the output when the scan is there. -/
def CBlock.MarksOutput (block : CBlock) (filter : CBloomFilter) (j k : Nat) : Prop :=
  ∃ marks reached tx,
    Scan.run CBloomFilter.isRelevantAndUpdate (block.vtx.take j) filter = some (marks, reached) ∧
      block.vtx[j]? = some tx ∧ reached.MarksOutput tx k

/-- The keys are found, and whatever mentions them is matched. -/
structure NoFalseNegative (counts : List UInt8 → Prop) (filter : CBloomFilter)
    (keys : List (List UInt8)) : Prop where
  contained : ∀ vKey ∈ keys, filter.contains vKey = some true
  /-- no index computation divides by zero or leaves the array -/
  defined : ∀ vKey, (filter.contains vKey).isSome = true ∧ (filter.insert vKey).isSome = true
  blocks : ∀ block : CBlock, ∃ merkle next, CMerkleBlock.ofBlock block filter = some (merkle, next) ∧
    (∀ i tx, block.vtx[i]? = some tx → Mentions counts keys tx → merkle.Matches block i) ∧
    (filter.nFlags &&& BLOOM_UPDATE_MASK = BLOOM_UPDATE_ALL →
      ∀ j k i spent spender, j < i → block.vtx[j]? = some spent → block.vtx[i]? = some spender →
        block.MarksOutput filter j k → (⟨spent.getHash, k⟩ : COutPoint) ∈
          spender.vin.map CTxIn.prevout → merkle.Matches block i)

variable {filter next : CBloomFilter} {keys : List (List UInt8)}

namespace CBloomFilter

theorem isRelevantAndUpdate_of_eq (sized : filter.Sized) {tx : CTransaction} {fFound : Bool}
    (answered : filter.isRelevantAndUpdate tx = some (fFound, next)) :
    filter.Grown next ∧ (filter.Relevant tx → fFound = true) ∧
      (filter.nFlags &&& BLOOM_UPDATE_MASK = BLOOM_UPDATE_ALL → ∀ k, filter.MarksOutput tx k →
        next.Holds (Serialize.outpoint ⟨tx.getHash, k⟩)) := by
  obtain ⟨mark, reached, ran, spec⟩ := isRelevantAndUpdate_spec sized tx
  obtain ⟨rfl, rfl⟩ := Prod.mk.inj (Option.some.inj (answered.symm.trans ran))
  exact spec

theorem grown_of_scan (sized : filter.Sized) {vtx : List CTransaction} {vMatch : List Bool}
    (ran : Scan.run isRelevantAndUpdate vtx filter = some (vMatch, next)) : filter.Grown next :=
  Scan.kept (fun _ _ _ _ grown stepped =>
    grown.trans (isRelevantAndUpdate_of_eq grown.sized stepped).1) ran (Grown.refl sized)

end CBloomFilter

theorem Fed.spec (fed : Fed filter keys) : filter.Sized ∧ ∀ vKey ∈ keys, filter.Holds vKey := by
  induction fed with
  | filterload accepted =>
    exact ⟨CBloomFilter.sized_filterload accepted, fun vKey member => nomatch member⟩
  | insert fed inserted ih =>
    obtain ⟨sized, held⟩ := ih
    obtain ⟨reached, wrote, spec⟩ := CBloomFilter.insert_spec sized _
    obtain rfl := Option.some.inj (inserted.symm.trans wrote)
    exact ⟨spec.sized sized, forall_mem_cons.mpr
      ⟨spec.holds_self, fun vKey member => spec.holds (held vKey member)⟩⟩
  | scanned fed answered ih =>
    obtain ⟨sized, held⟩ := ih
    obtain ⟨grown, -⟩ := CBloomFilter.isRelevantAndUpdate_of_eq sized answered
    exact ⟨grown.sized, fun vKey member => grown.holds vKey (held vKey member)⟩

variable {tx : CTransaction} {vMatch : List Bool}

theorem Mentions.relevant (mentioned : Mentions (· ≠ []) keys tx)
    (held : ∀ vKey ∈ keys, filter.Holds vKey) : filter.Relevant tx := by
  cases mentioned with
  | txid inserted => exact .txid (held _ inserted)
  | output txout member data element counted inserted =>
    exact .output txout member ⟨data, element, counted, held data inserted⟩
  | outpoint txin member inserted => exact .outpoint txin member (held _ inserted)
  | input txin member data element counted inserted =>
    exact .input txin member ⟨data, element, counted, held data inserted⟩

theorem CBloomFilter.Relevant.mono (relevant : filter.Relevant tx)
    (grown : filter.Grown next) : next.Relevant tx := by
  cases relevant with
  | txid held => exact .txid (grown.holds _ held)
  | output txout member held => exact .output txout member (held.mono grown)
  | outpoint txin member held => exact .outpoint txin member (grown.holds _ held)
  | input txin member held => exact .input txin member (held.mono grown)

omit [Crypto] in
theorem mem_matchedTxn {vHashes : List Uint256} {i : Nat} {hash : Uint256}
    (here : vHashes[i]? = some hash) (marked : vMatch[i]? = some true) :
    (i, hash) ∈ matchedTxn vHashes vMatch := by
  have zipped : (vHashes.zip vMatch).zipIdx[i]? = some ((hash, true), i) := by
    have pair : (vHashes.zip vMatch)[i]? = some (hash, true) :=
      List.getElem?_zip_eq_some.mpr ⟨here, marked⟩
    rw [List.getElem?_zipIdx, pair, Nat.zero_add]
    rfl
  exact mem_filterMap.mpr ⟨_, mem_of_getElem? zipped, rfl⟩

theorem scan_block (sized : filter.Sized) (vtx : List CTransaction) :
    ∃ vMatch next, Scan.run CBloomFilter.isRelevantAndUpdate vtx filter = some (vMatch, next) := by
  have steps : ∀ reached tx, CBloomFilter.Sized reached → ∃ mark next,
      reached.isRelevantAndUpdate tx = some (mark, next) ∧ CBloomFilter.Sized next := by
    intro reached tx sized
    obtain ⟨mark, next, stepped, grown, -⟩ := CBloomFilter.isRelevantAndUpdate_spec sized tx
    exact ⟨mark, next, stepped, grown.sized⟩
  obtain ⟨vMatch, next, ran, -⟩ := Scan.run_isSome steps vtx sized
  exact ⟨vMatch, next, ran⟩

theorem marked_of_relevant (sized : filter.Sized) {vtx : List CTransaction}
    (ran : Scan.run CBloomFilter.isRelevantAndUpdate vtx filter = some (vMatch, next)) {i : Nat}
    (there : vtx[i]? = some tx) (relevant : filter.Relevant tx) :
    vMatch[i]? = some true := by
  obtain ⟨front, reached, mark, later, back, ahead, stepped, -, marked, -⟩ :=
    Scan.exists_step ran there
  have grown := CBloomFilter.grown_of_scan sized ahead
  obtain ⟨-, found, -⟩ := CBloomFilter.isRelevantAndUpdate_of_eq grown.sized stepped
  rw [marked, found (relevant.mono grown)]

theorem marked_of_spends (sized : filter.Sized)
    (every : filter.nFlags &&& BLOOM_UPDATE_MASK = BLOOM_UPDATE_ALL) {block : CBlock}
    (ran : Scan.run CBloomFilter.isRelevantAndUpdate block.vtx filter = some (vMatch, next))
    {i j k : Nat} {spent spender : CTransaction} (later : j < i)
    (first : block.vtx[j]? = some spent) (second : block.vtx[i]? = some spender)
    (marks : block.MarksOutput filter j k)
    (spends : (⟨spent.getHash, k⟩ : COutPoint) ∈ spender.vin.map CTxIn.prevout) :
    vMatch[i]? = some true := by
  obtain ⟨front, reached, mark, behind, back, ahead, stepped, further, -, rest⟩ :=
    Scan.exists_step ran first
  obtain ⟨front', reached', tx, ahead', same, output⟩ := marks
  obtain rfl := Option.some.inj (first.symm.trans same)
  obtain ⟨-, rfl⟩ := Prod.mk.inj (Option.some.inj (ahead.symm.trans ahead'))
  have grown := CBloomFilter.grown_of_scan sized ahead
  obtain ⟨grew, -, updated⟩ := CBloomFilter.isRelevantAndUpdate_of_eq grown.sized stepped
  rw [grown.nFlags] at updated
  have held := updated every k output
  obtain ⟨txin, member, prevout⟩ := mem_map.mp spends
  rw [← prevout] at held
  -- the outpoint is held from here on, so the rest of the block is scanned with it
  have there : (block.vtx.drop (j + 1))[i - (j + 1)]? = some spender := by
    rw [List.getElem?_drop, Nat.add_sub_cancel' later]
    exact second
  have marked := marked_of_relevant grew.sized further there (.outpoint txin member held)
  rwa [← rest, List.getElem?_drop, Nat.add_sub_cancel' later] at marked

/-- No key that was inserted is missed. -/
theorem noFalseNegative (fed : Fed filter keys) : NoFalseNegative (· ≠ []) filter keys := by
  obtain ⟨sized, held⟩ := fed.spec
  refine ⟨fun vKey member => (CBloomFilter.contains_iff sized).mpr (held vKey member),
    fun vKey => ?_, fun block => ?_⟩
  · obtain ⟨found, checked, -⟩ := CBloomFilter.contains_spec sized vKey
    obtain ⟨next, wrote, -⟩ := CBloomFilter.insert_spec sized vKey
    rw [checked, wrote]
    exact ⟨rfl, rfl⟩
  · obtain ⟨vMatch, next, ran⟩ := scan_block sized block.vtx
    have made : CMerkleBlock.ofBlock block filter = some
        ({ header := block.toCBlockHeader
           txn := .ofMatches (block.vtx.map CTransaction.getHash) vMatch
           vMatchedTxn := matchedTxn (block.vtx.map CTransaction.getHash) vMatch }, next) := by
      rw [CMerkleBlock.ofBlock, ran]
      rfl
    have listed {i : Nat} {tx : CTransaction} (there : block.vtx[i]? = some tx)
        (marked : vMatch[i]? = some true) :
        (i, tx.getHash) ∈ matchedTxn (block.vtx.map CTransaction.getHash) vMatch := by
      refine mem_matchedTxn ?_ marked
      rw [List.getElem?_map, there]
      rfl
    refine ⟨_, next, made, fun i tx there mentioned => ?_, ?_⟩
    · have marked := marked_of_relevant sized ran there (mentioned.relevant held)
      exact ⟨tx, vMatch, there, listed there marked, rfl, marked⟩
    · intro every j k i spent spender later first second marks spends
      have marked := marked_of_spends sized every ran later first second marks spends
      exact ⟨spender, vMatch, second, listed second marked, rfl, marked⟩

end

/-- A filter of eight bytes with three hash functions, and a key that has set three of its bits. -/
theorem noFalseNegative_of_insert : @NoFalseNegative checksumCrypto (· ≠ [])
    { vData := [16, 0, 0, 0, 0, 4, 0, 16], isFull := false, isEmpty := false, nHashFuncs := 3,
      nFlags := BLOOM_UPDATE_ALL } [[1, 2, 3]] := by
  refine @noFalseNegative checksumCrypto _ _ (@Fed.insert checksumCrypto _ _ [] [1, 2, 3]
    (@Fed.filterload checksumCrypto (List.replicate 8 0) 3 0 BLOOM_UPDATE_ALL _ rfl) ?_)
  decide +kernel

/-! ## The empty element -/

/-- A filter of eight bytes with one hash function, into which the empty string was inserted. -/
def emptyStringFilter : CBloomFilter :=
  { vData := [1, 0, 0, 0, 0, 0, 0, 0], isFull := false, isEmpty := false, nHashFuncs := 1,
    nFlags := BLOOM_UPDATE_ALL }

/-- An output whose script is `OP_0`. -/
def emptyPush : CTxOut := { nValue := 1, scriptPubKey := [CScript.OP_0] }

def emptyPushTx : CTransaction :=
  { nVersion := 1, vin := [{ prevout := ⟨7, 1⟩, scriptSig := [] }], vout := [emptyPush],
    nLockTime := 0 }

def emptyPushBlock : CBlock :=
  { nVersion := 4, hashPrevBlock := 0, hashMerkleRoot := 0, nTime := 0, nBits := 0, nNonce := 0,
    vtx := [emptyPushTx] }

theorem fed_emptyStringFilter : @Fed checksumCrypto emptyStringFilter [[]] := by
  refine @Fed.insert checksumCrypto _ _ [] [] (@Fed.filterload checksumCrypto (List.replicate 8 0)
    1 0 BLOOM_UPDATE_ALL _ rfl) ?_
  decide +kernel

/-- The empty string was inserted and is what `OP_0` pushes, but the transaction is not matched. -/
theorem not_matches_empty : ¬ ∀ crypto filter keys, @Fed crypto filter keys →
    @NoFalseNegative crypto (fun _ => True) filter keys := by
  intro all
  obtain ⟨merkle, next, made, matched, -⟩ := @NoFalseNegative.blocks checksumCrypto _ _ _
    (all checksumCrypto _ _ fed_emptyStringFilter) emptyPushBlock
  have unmatched : (@CMerkleBlock.ofBlock checksumCrypto emptyPushBlock emptyStringFilter).map
      (fun made => made.1.vMatchedTxn) = some [] := by decide +kernel
  have mentioned : @Mentions checksumCrypto (fun _ => True) [[]] emptyPushTx :=
    @Mentions.output checksumCrypto _ _ _ emptyPush mem_cons_self [] mem_cons_self trivial
      mem_cons_self
  obtain ⟨tx, vMatch, -, listed, -⟩ := matched 0 emptyPushTx rfl mentioned
  rw [made] at unmatched
  have nothing : merkle.vMatchedTxn = [] := Option.some.inj unmatched
  rw [nothing] at listed
  exact nomatch listed

end Agouti
