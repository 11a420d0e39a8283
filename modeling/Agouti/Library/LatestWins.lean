import Mathlib.Data.List.Perm.Basic
import Mathlib.Order.Lattice

/-! # Registers in which the newest message wins

Each message is for one key and carries a time; a register keeps one message a key and
replaces it only by a strictly newer one. After any messages a key has what it had, or one
of the newest messages that came for it (`LatestWins.offers_newest`). Among messages with one
time the first to come stays, so the outcome is the same in every order exactly when the newest
messages of a key are told apart by nothing that is looked at (`LatestWins.agrees_iff`).
-/

namespace Agouti

open List Function Option

/-- How messages name their key and their time, and which are taken at all. -/
structure LatestWins (Message Key Time : Type) where
  key : Message → Key
  time : Message → Time
  admitted : Message → Bool

namespace LatestWins

variable {Message Key Time View : Type} [DecidableEq Key] [LinearOrder Time]
  (register : LatestWins Message Key Time)

/-- The message is newer than what its key has. -/
def Fresh (active : Key → Option Message) (message : Message) : Prop :=
  ∀ held ∈ active (register.key message), register.time held < register.time message

instance (active : Key → Option Message) (message : Message) :
    Decidable (register.Fresh active message) :=
  inferInstanceAs (Decidable (∀ held ∈ active (register.key message), _))

/-- One message comes. -/
def offer (active : Key → Option Message) (message : Message) : Key → Option Message :=
  if register.admitted message = true ∧ register.Fresh active message then
    Function.update active (register.key message) (some message)
  else active

/-- Messages come one after the other. -/
def offers (active : Key → Option Message) (messages : List Message) : Key → Option Message :=
  messages.foldl register.offer active

/-- The message is for the key, may be taken, is newer than what was there before, and no other
one for the key is newer. -/
structure Newest (start : Key → Option Message) (messages : List Message) (key : Key)
    (message : Message) : Prop where
  member : message ∈ messages
  admitted : register.admitted message = true
  key_eq : register.key message = key
  fresh : register.Fresh start message
  latest : ∀ other ∈ messages, register.admitted other = true → register.key other = key →
    register.time other ≤ register.time message

/-- No message that may be taken is newer than what the key had. -/
def Settled (start : Key → Option Message) (messages : List Message) (key : Key) : Prop :=
  ∀ message ∈ messages, register.admitted message = true → register.key message = key →
    ¬ register.Fresh start message

variable {register}

variable {active start : Key → Option Message} {message : Message} {messages : List Message}

theorem offer_of_ne {key : Key}
    (apart : key ≠ register.key message) : register.offer active message key = active key := by
  unfold offer
  split
  · rw [update_of_ne apart]
  · rfl

/-- After a message was offered its key has it, or has what it had, which is as new. -/
theorem offer_self (active : Key → Option Message) (admitted : register.admitted message = true) :
    register.Fresh active message ∧
        register.offer active message (register.key message) = some message ∨
      ∃ held, active (register.key message) = some held ∧
        register.offer active message (register.key message) = some held ∧
        register.time message ≤ register.time held := by
  by_cases fresh : register.Fresh active message
  · refine .inl ⟨fresh, ?_⟩
    rw [offer, if_pos ⟨admitted, fresh⟩, update_self]
  · have kept : register.offer active message = active := if_neg fun both => fresh both.2
    unfold Fresh at fresh
    push Not at fresh
    obtain ⟨held, found, newer⟩ := fresh
    exact .inr ⟨held, found, by rw [kept]; exact found, newer⟩

theorem offer_rejected
    (rejected : register.admitted message ≠ true) : register.offer active message = active :=
  if_neg fun both => rejected both.1

theorem Fresh.of_offer {first : Message}
    (fresh : register.Fresh (register.offer active first) message) :
    register.Fresh active message := by
  by_cases same : register.key message = register.key first
  · by_cases admitted : register.admitted first = true
    · intro held found
      rw [same] at found
      rcases offer_self active admitted with ⟨newer, taken⟩ | ⟨kept, was, still, _⟩
      · have before := newer held found
        exact before.trans (fresh first (by rw [same]; exact taken))
      · obtain rfl : held = kept := some.inj (found.symm.trans was)
        exact fresh held (by rw [same]; exact still)
    · rwa [offer_rejected admitted] at fresh
  · intro held found
    exact fresh held (by rw [offer_of_ne same]; exact found)

variable (register) in
/-- **The newest message wins.** A key keeps what it had when nothing newer comes, and has one
of the newest messages otherwise. -/
theorem offers_newest (start : Key → Option Message) (messages : List Message) (key : Key) :
    register.Settled start messages key ∧ register.offers start messages key = start key ∨
      ∃ message, register.Newest start messages key message ∧
        register.offers start messages key = some message := by
  induction messages generalizing start with
  | nil => exact .inl ⟨fun _ member => (not_mem_nil member).elim, rfl⟩
  | cons first rest ih =>
    have steps : register.offers start (first :: rest) =
      register.offers (register.offer start first) rest := rfl
    rw [steps]
    by_cases mine : register.admitted first = true ∧ register.key first = key
    · obtain ⟨admitted, rfl⟩ := mine
      rcases ih (register.offer start first) with ⟨settled, same⟩ | ⟨message, newest, same⟩
      · rw [same]
        rcases offer_self start admitted with ⟨fresh, taken⟩ | ⟨held, was, still, old⟩
        · refine .inr ⟨first, ⟨mem_cons_self, admitted, rfl, fresh, ?_⟩, taken⟩
          intro other member allowed here
          rcases mem_cons.mp member with rfl | later
          · exact le_rfl
          · refine not_lt.mp fun newer => settled other later allowed here fun held found => ?_
            rw [here, taken] at found
            obtain rfl := some.inj found
            exact newer
        · refine .inl ⟨fun other member allowed here fresh => ?_, still.trans was.symm⟩
          rcases mem_cons.mp member with rfl | later
          · exact absurd (fresh held was) (not_lt.mpr old)
          · refine settled other later allowed here fun kept found => ?_
            rw [here, still] at found
            obtain rfl := some.inj found
            exact fresh held (by rw [here]; exact was)
      · refine .inr ⟨message, ⟨mem_cons_of_mem _ newest.member, newest.admitted,
          newest.key_eq, newest.fresh.of_offer, ?_⟩, same⟩
        intro other member allowed here
        rcases mem_cons.mp member with rfl | later
        · have newer := newest.fresh
          rcases offer_self start allowed with ⟨_, taken⟩ | ⟨held, _, still, old⟩
          · exact le_of_lt (newer other (by rw [newest.key_eq]; exact taken))
          · exact old.trans (le_of_lt (newer held (by rw [newest.key_eq]; exact still)))
        · exact newest.latest other later allowed here
    · -- the first message is not one of this key, so nothing changes for the key
      have untouched : register.offer start first key = start key := by
        by_cases admitted : register.admitted first = true
        · exact offer_of_ne fun same => mine ⟨admitted, same.symm⟩
        · rw [offer_rejected admitted]
      have fresh : ∀ message, register.key message = key →
          (register.Fresh (register.offer start first) message ↔
            register.Fresh start message) := by
        intro message here
        unfold Fresh
        rw [here, untouched]
      rcases ih (register.offer start first) with ⟨settled, same⟩ | ⟨message, newest, same⟩
      · refine .inl ⟨fun other member allowed here => ?_, same.trans untouched⟩
        rcases mem_cons.mp member with rfl | later
        · exact absurd ⟨allowed, here⟩ mine
        · rw [← fresh other here]
          exact settled other later allowed here
      · refine .inr ⟨message, ⟨mem_cons_of_mem _ newest.member, newest.admitted,
          newest.key_eq, (fresh message newest.key_eq).mp newest.fresh, ?_⟩, same⟩
        intro other member allowed here
        rcases mem_cons.mp member with rfl | later
        · exact absurd ⟨allowed, here⟩ mine
        · exact newest.latest other later allowed here

/-- Of several newest messages the one that comes first is kept. -/
theorem offers_first {rest : List Message} {key : Key}
    (newest : register.Newest start (message :: rest) key message) :
    register.offers start (message :: rest) key = some message := by
  have steps : register.offers start (message :: rest) =
    register.offers (register.offer start message) rest := rfl
  have taken : register.offer start message key = some message := by
    rw [offer, if_pos ⟨newest.admitted, newest.fresh⟩, newest.key_eq, update_self]
  rw [steps]
  rcases offers_newest register (register.offer start message) rest key with
    ⟨_, same⟩ | ⟨later, other, _⟩
  · rw [same, taken]
  · have newer := other.fresh message (by rw [other.key_eq]; exact taken)
    have bound := newest.latest later (mem_cons_of_mem _ other.member) other.admitted
      other.key_eq
    exact absurd newer (not_lt.mpr bound)

omit [DecidableEq Key] in
theorem Newest.congr {others : List Message} {key : Key}
    (same : ∀ entry, entry ∈ messages ↔ entry ∈ others)
    (newest : register.Newest start messages key message) :
    register.Newest start others key message where
  member := (same message).mp newest.member
  admitted := newest.admitted
  key_eq := newest.key_eq
  fresh := newest.fresh
  latest other member := newest.latest other ((same other).mpr member)

variable (register) in
/-- The newest messages of a key look alike. -/
def Unambiguous (view : Message → View) (start : Key → Option Message)
    (messages : List Message) : Prop :=
  ∀ key first second, register.Newest start messages key first →
    register.Newest start messages key second → view first = view second

/-- Messages that look alike where they are newest give the same outcome in every order, and
when some come more than once. -/
theorem agrees_of_unambiguous {view : Message → View} {others : List Message}
    (clear : register.Unambiguous view start messages)
    (same : ∀ entry, entry ∈ messages ↔ entry ∈ others) (key : Key) :
    (register.offers start others key).map view =
      (register.offers start messages key).map view := by
  rcases offers_newest register start others key with
    ⟨settled, kept⟩ | ⟨first, newest, kept⟩
  · rcases offers_newest register start messages key with
      ⟨_, other⟩ | ⟨second, newest, _⟩
    · rw [kept, other]
    · have found := newest.congr same
      exact absurd found.fresh (settled second found.member found.admitted found.key_eq)
  · have found := newest.congr fun entry => (same entry).symm
    rcases offers_newest register start messages key with
      ⟨settled, _⟩ | ⟨second, other, also⟩
    · exact absurd found.fresh (settled first found.member found.admitted found.key_eq)
    · rw [kept, also, map_some, map_some, clear key first second found other]

/-- **When the order matters.** Every order of the messages gives the same outcome exactly when
the newest messages of each key look alike. -/
theorem agrees_iff {view : Message → View} :
    (∀ others, others.Perm messages → ∀ key, (register.offers start others key).map view =
        (register.offers start messages key).map view) ↔
      register.Unambiguous view start messages := by
  classical
  constructor
  · intro agrees key first second newest other
    -- let each of the two come first
    have leads : ∀ message, register.Newest start messages key message →
        (register.offers start messages key).map view = some (view message) := by
      intro message newest
      have moved : (message :: messages.erase message).Perm messages :=
        (perm_cons_erase newest.member).symm
      rw [← agrees _ moved key, offers_first (newest.congr fun entry => moved.symm.mem_iff),
        map_some]
    exact some.inj ((leads first newest).symm.trans (leads second other))
  · intro clear others order key
    exact agrees_of_unambiguous clear (fun entry => order.symm.mem_iff) key

end LatestWins

end Agouti
