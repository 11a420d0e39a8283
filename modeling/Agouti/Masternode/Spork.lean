import Mathlib.Data.List.Basic
import Mathlib.Data.Set.Basic

/-! # Sporks

`CSporkManager` and `ProcessSpork` of `spork.cpp`. The string that is signed is the
decimal numbers of the three fields one after the other, without a separator. Two
messages have the same string exactly when digits have moved from one field to the next
(`signedString_iff`), and the key holder's signatures authorise nothing else exactly when
no message that was signed can be split anew (`sporkAuthority_iff`).
-/

namespace Agouti

open List Option

/-- A signed spork. -/
structure CSporkMessage where
  vchSig : List UInt8
  nSporkID : Int32
  nValue : Int64
  nTimeSigned : Int64
  deriving DecidableEq

/-- `boost::lexical_cast<std::string>` of an integer. -/
def lexicalCast (value : Int) : List Char :=
  if value < 0 then '-' :: Nat.toDigits 10 value.natAbs else Nat.toDigits 10 value.natAbs

namespace CSporkMessage

def fields (spork : CSporkMessage) : Int32 × Int64 × Int64 :=
  (spork.nSporkID, spork.nValue, spork.nTimeSigned)

/-- `strMessage` of `CSporkManager::CheckSignature` and `CSporkManager::Sign`. -/
def signedString (spork : CSporkMessage) : List Char :=
  lexicalCast spork.nSporkID.toInt ++ (lexicalCast spork.nValue.toInt ++
    lexicalCast spork.nTimeSigned.toInt)

end CSporkMessage

/-- The ids for which `GetSporkNameByID` has a name. -/
def sporkNames : List (Int32 × String) :=
  [(10001, "SPORK_2_SWIFTTX"), (10002, "SPORK_3_SWIFTTX_BLOCK_FILTERING"),
   (10004, "SPORK_5_MAX_VALUE"), (10006, "SPORK_7_MASTERNODE_SCANNING"),
   (10007, "SPORK_8_MASTERNODE_PAYMENT_ENFORCEMENT"),
   (10008, "SPORK_9_MASTERNODE_BUDGET_ENFORCEMENT"),
   (10009, "SPORK_10_MASTERNODE_PAY_UPDATED_NODES"), (10010, "SPORK_11_LOCK_INVALID_UTXO"),
   (10011, "SPORK_12_PROPOSAL_VETO"), (10012, "SPORK_13_ENABLE_SUPERBLOCKS"),
   (10013, "SPORK_14_NEW_PROTOCOL_ENFORCEMENT"), (10014, "SPORK_15_NEW_PROTOCOL_ENFORCEMENT_2")]

/-- `CSporkManager::GetSporkNameByID`. -/
def getSporkNameByID (id : Int32) : String := (sporkNames.lookup id).getD "Unknown"

/-- `mapSporksActive`. -/
abbrev SporkMap := Int32 → Option CSporkMessage

/-- `VerifyMessage` with the spork key: whether a signature is one of a string. -/
abbrev SporkKey := List UInt8 → List Char → Bool

/-- `CSporkManager::CheckSignature`. -/
def checkSporkSignature (verifies : SporkKey) (spork : CSporkMessage) : Bool :=
  verifies spork.vchSig spork.signedString

/-- `ProcessSpork` on a message `spork`. -/
def processSpork (verifies : SporkKey) (fLiteMode fTip : Bool) (mapSporksActive : SporkMap)
    (spork : CSporkMessage) : SporkMap :=
  if fLiteMode then mapSporksActive
  else if !fTip then mapSporksActive
  else if getSporkNameByID spork.nSporkID = "Unknown" then mapSporksActive
  else if ((mapSporksActive spork.nSporkID).map fun active =>
      decide (spork.nTimeSigned ≤ active.nTimeSigned)).getD false then mapSporksActive
  else if !checkSporkSignature verifies spork then mapSporksActive
  else Function.update mapSporksActive spork.nSporkID (some spork)

/-- A run of `ProcessSpork` over arriving messages. -/
def processSporks (verifies : SporkKey) (fLiteMode fTip : Bool) (mapSporksActive : SporkMap)
    (sporks : List CSporkMessage) : SporkMap :=
  sporks.foldl (processSpork verifies fLiteMode fTip) mapSporksActive

/-! ### The signed string -/

/-- Something at the end of the first list has moved to the front of the second one, or
the other way. -/
def Moved {α : Type} (first second first' second' : List α) : Prop :=
  ∃ moved, moved ≠ [] ∧ (first = first' ++ moved ∧ second' = moved ++ second ∨
    first' = first ++ moved ∧ second = moved ++ second')

/-- The digits of a message are split anew: some move between the value and the time, or
between the id and what follows it. -/
inductive Resplit (spork other : CSporkMessage) : Prop
  | value (id : spork.nSporkID = other.nSporkID)
      (moved : Moved (lexicalCast spork.nValue.toInt) (lexicalCast spork.nTimeSigned.toInt)
        (lexicalCast other.nValue.toInt) (lexicalCast other.nTimeSigned.toInt))
  | id (moved : Moved (lexicalCast spork.nSporkID.toInt)
      (lexicalCast spork.nValue.toInt ++ lexicalCast spork.nTimeSigned.toInt)
      (lexicalCast other.nSporkID.toInt)
      (lexicalCast other.nValue.toInt ++ lexicalCast other.nTimeSigned.toInt))

theorem toDigits_injective {a b : Nat} (same : Nat.toDigits 10 a = Nat.toDigits 10 b) : a = b := by
  have values := congrArg (fun digits => Nat.ofDigitChars 10 digits 0) same
  simpa only [Nat.ofDigitChars_ten_toDigits] using values

theorem lexicalCast_injective {a b : Int} (same : lexicalCast a = lexicalCast b) : a = b := by
  have signed : ∀ n m : Nat, '-' :: Nat.toDigits 10 n ≠ Nat.toDigits 10 m := by
    intro n m equal
    have digit : ('-').isDigit := by
      refine Nat.isDigit_of_mem_toDigits (b := 10) (n := m) (by decide) (by decide) ?_
      rw [← equal]
      exact mem_cons_self
    contradiction
  unfold lexicalCast at same
  split at same
  · rename_i negative
    split at same
    · have absolute := toDigits_injective (List.cons.inj same).2
      omega
    · exact absurd same (signed _ _)
  · rename_i nonnegative
    split at same
    · exact absurd same.symm (signed _ _)
    · have absolute := toDigits_injective same
      omega

theorem append_eq_append_iff_moved {α : Type} {first second first' second' : List α} :
    first ++ second = first' ++ second' ↔
      first = first' ∧ second = second' ∨ Moved first second first' second' := by
  constructor
  · intro same
    rcases append_eq_append_iff.mp same with ⟨moved, front, back⟩ | ⟨moved, front, back⟩
    · by_cases empty : moved = []
      · subst empty
        exact .inl ⟨by simpa using front.symm, by simpa using back⟩
      · exact .inr ⟨moved, empty, .inr ⟨front, back⟩⟩
    · by_cases empty : moved = []
      · subst empty
        exact .inl ⟨by simpa using front, by simpa using back.symm⟩
      · exact .inr ⟨moved, empty, .inl ⟨front, back⟩⟩
  · rintro (⟨rfl, rfl⟩ | ⟨moved, _, ⟨rfl, rfl⟩ | ⟨rfl, rfl⟩⟩)
    · rfl
    · rw [append_assoc]
    · rw [append_assoc]

theorem Moved.first_ne {α : Type} {first second first' second' : List α}
    (moved : Moved first second first' second') : first ≠ first' := by
  rintro rfl
  obtain ⟨part, filled, ⟨same, _⟩ | ⟨same, _⟩⟩ := moved
  all_goals exact filled (self_eq_append_right.mp same)

theorem signedString_iff {spork other : CSporkMessage} :
    spork.signedString = other.signedString ↔
      spork.fields = other.fields ∨ Resplit spork other := by
  have fields : spork.fields = other.fields ↔ spork.nSporkID = other.nSporkID ∧
      spork.nValue = other.nValue ∧ spork.nTimeSigned = other.nTimeSigned := by
    simp only [CSporkMessage.fields, Prod.mk.injEq]
  unfold CSporkMessage.signedString
  rw [append_eq_append_iff_moved, append_eq_append_iff_moved, fields]
  constructor
  · rintro (⟨id, ⟨value, time⟩ | moved⟩ | moved)
    · exact .inl ⟨Int32.toInt_inj.mp (lexicalCast_injective id),
        Int64.toInt_inj.mp (lexicalCast_injective value),
        Int64.toInt_inj.mp (lexicalCast_injective time)⟩
    · exact .inr (.value (Int32.toInt_inj.mp (lexicalCast_injective id)) moved)
    · exact .inr (.id moved)
  · rintro (⟨id, value, time⟩ | ⟨id, moved⟩ | moved)
    · rw [id, value, time]
      exact .inl ⟨rfl, .inl ⟨rfl, rfl⟩⟩
    · rw [id]
      exact .inl ⟨rfl, .inr moved⟩
    · exact .inr moved

theorem Resplit.fields_ne {spork other : CSporkMessage} (resplit : Resplit spork other) :
    spork.fields ≠ other.fields := by
  simp only [CSporkMessage.fields, ne_eq, Prod.mk.injEq, not_and]
  intro id value
  cases resplit with
  | value _ moved => exact absurd (congrArg (lexicalCast ·.toInt) value) moved.first_ne
  | id moved => exact absurd (congrArg (lexicalCast ·.toInt) id) moved.first_ne

/-! ### What the signatures authorise -/

/-- Just the messages of the set verify. -/
structure KeyHolder (verifies : SporkKey) (signed : Set CSporkMessage) : Prop where
  genuine : ∀ spork ∈ signed, checkSporkSignature verifies spork = true
  unforgeable : ∀ vchSig message, verifies vchSig message = true →
    ∃ spork ∈ signed, spork.signedString = message

/-- Every active spork has the fields of a signed one. -/
def Authorised (signed : Set CSporkMessage) (mapSporksActive : SporkMap) : Prop :=
  ∀ id spork, mapSporksActive id = some spork → ∃ original ∈ signed, original.fields = spork.fields

/-- No known spork other than those that were signed comes from splitting one anew. -/
def NoNewSplit (signed : Set CSporkMessage) : Prop :=
  ∀ spork ∈ signed, ∀ other, getSporkNameByID other.nSporkID ≠ "Unknown" → Resplit spork other →
    ∃ original ∈ signed, original.fields = other.fields

section

variable {verifies : SporkKey} {signed : Set CSporkMessage}

theorem processSpork_cases (verifies : SporkKey) (fLiteMode fTip : Bool)
    (mapSporksActive : SporkMap) (spork : CSporkMessage) :
    processSpork verifies fLiteMode fTip mapSporksActive spork = mapSporksActive ∨
      getSporkNameByID spork.nSporkID ≠ "Unknown" ∧ checkSporkSignature verifies spork = true ∧
        processSpork verifies fLiteMode fTip mapSporksActive spork =
          Function.update mapSporksActive spork.nSporkID (some spork) := by
  unfold processSpork
  split
  · exact .inl rfl
  · split
    · exact .inl rfl
    · split
      · exact .inl rfl
      · rename_i known
        split
        · exact .inl rfl
        · split
          · exact .inl rfl
          · rename_i checked
            exact .inr ⟨known, by simpa using checked, rfl⟩

theorem Authorised.processSpork (holder : KeyHolder verifies signed) (splits : NoNewSplit signed)
    (fLiteMode fTip : Bool) {mapSporksActive : SporkMap}
    (authorised : Authorised signed mapSporksActive) (spork : CSporkMessage) :
    Authorised signed (processSpork verifies fLiteMode fTip mapSporksActive spork) := by
  rcases processSpork_cases verifies fLiteMode fTip mapSporksActive spork with
    same | ⟨known, checked, same⟩
  · rw [same]
    exact authorised
  · rw [same]
    intro id active found
    by_cases here : id = spork.nSporkID
    · subst here
      rw [Function.update_self] at found
      obtain rfl := some.inj found
      obtain ⟨original, member, string⟩ := holder.unforgeable _ _ checked
      rcases signedString_iff.mp string with agrees | resplit
      · exact ⟨original, member, agrees⟩
      · exact splits original member spork known resplit
    · rw [Function.update_of_ne here] at found
      exact authorised id active found

theorem Authorised.processSporks (holder : KeyHolder verifies signed) (splits : NoNewSplit signed)
    (fLiteMode fTip : Bool) (sporks : List CSporkMessage) {mapSporksActive : SporkMap}
    (authorised : Authorised signed mapSporksActive) :
    Authorised signed (processSporks verifies fLiteMode fTip mapSporksActive sporks) := by
  induction sporks generalizing mapSporksActive with
  | nil => exact authorised
  | cons spork rest ih => exact ih (authorised.processSpork holder splits fLiteMode fTip spork)

theorem processSpork_accepts {spork : CSporkMessage}
    (known : getSporkNameByID spork.nSporkID ≠ "Unknown")
    (checked : checkSporkSignature verifies spork = true) :
    processSpork verifies false true (fun _ => none) spork spork.nSporkID = some spork := by
  simp only [Agouti.processSpork, Bool.false_eq_true, ↓reduceIte, Bool.not_true, known,
    map_none, getD_none, checked, Function.update_self]

/-- **What a spork signature authorises.** Two messages with one string agree in all
fields exactly when neither is the other one split anew. And whatever messages arrive, the
active sporks are those that the key holder signed exactly when no message that was signed
can be split into a new one with a known id. -/
theorem sporkAuthority_iff (holder : KeyHolder verifies signed) :
    (∀ spork other : CSporkMessage,
      (spork.signedString = other.signedString → spork.fields = other.fields) ↔
        ¬ Resplit spork other) ∧
    ((∀ fLiteMode fTip sporks mapSporksActive, Authorised signed mapSporksActive →
        Authorised signed (processSporks verifies fLiteMode fTip mapSporksActive sporks)) ↔
      NoNewSplit signed) := by
  refine ⟨fun spork other => ?_, fun authority => ?_, fun splits => ?_⟩
  · constructor
    · intro injective resplit
      exact resplit.fields_ne (injective (signedString_iff.mpr (.inr resplit)))
    · intro whole string
      exact (signedString_iff.mp string).resolve_right whole
  · intro spork member other known resplit
    -- the message is sent with the signature of the one that was signed
    let forged : CSporkMessage := { other with vchSig := spork.vchSig }
    have string : forged.signedString = spork.signedString :=
      (signedString_iff.mpr (.inr resplit)).symm
    have checked : checkSporkSignature verifies forged = true := by
      rw [checkSporkSignature, string]
      exact holder.genuine spork member
    have authorised := authority false true [forged] (fun _ => none) fun id active found => by
      contradiction
    exact authorised forged.nSporkID forged (processSpork_accepts known checked)
  · intro fLiteMode fTip sporks mapSporksActive authorised
    exact authorised.processSporks holder splits fLiteMode fTip sporks

end

namespace MovedDigits

/-! Budget enforcement was switched off for good, and the signature of that message. -/

def off : CSporkMessage :=
  { vchSig := [1], nSporkID := 10008, nValue := 4070908800, nTimeSigned := 1500000000 }

/-- The last three digits of the value are the first ones of the time. -/
def on : CSporkMessage :=
  { vchSig := [1], nSporkID := 10008, nValue := 4070908, nTimeSigned := 8001500000000 }

/-- A key with the only signature `[1]`, of one message. -/
def key (spork : CSporkMessage) : SporkKey := fun vchSig message =>
  decide (vchSig = [1]) && decide (message = spork.signedString)

theorem holder {spork : CSporkMessage} (signature : spork.vchSig = [1]) :
    KeyHolder (key spork) {spork} where
  genuine other member := by
    obtain rfl : other = spork := member
    simp [checkSporkSignature, key, signature]
  unforgeable vchSig message verified := by
    simp only [key, Bool.and_eq_true, decide_eq_true_eq] at verified
    exact ⟨spork, rfl, verified.2.symm⟩

end MovedDigits

/-- The signature that switches budget enforcement off is also one that switches it on,
and the node takes the second message, which looks newer. -/
theorem movedDigits_authorised :
    MovedDigits.off.signedString = MovedDigits.on.signedString ∧
      MovedDigits.off.fields ≠ MovedDigits.on.fields ∧
      KeyHolder (MovedDigits.key MovedDigits.off) {MovedDigits.off} ∧
      processSporks (MovedDigits.key MovedDigits.off) false true (fun _ => none)
        [MovedDigits.off, MovedDigits.on] 10008 = some MovedDigits.on :=
  ⟨by decide, by decide, MovedDigits.holder rfl, by decide⟩

theorem sporkAuthority_iff_off :
    (∀ spork other : CSporkMessage,
      (spork.signedString = other.signedString → spork.fields = other.fields) ↔
        ¬ Resplit spork other) ∧
    ((∀ fLiteMode fTip sporks mapSporksActive, Authorised {MovedDigits.off} mapSporksActive →
        Authorised {MovedDigits.off} (processSporks (MovedDigits.key MovedDigits.off) fLiteMode fTip
          mapSporksActive sporks)) ↔ NoNewSplit {MovedDigits.off}) :=
  sporkAuthority_iff (MovedDigits.holder rfl)

end Agouti
