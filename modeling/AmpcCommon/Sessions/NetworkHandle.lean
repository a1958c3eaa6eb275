import AmpcCommon.Base.Counts
import AmpcCommon.Base.Transition
import Mathlib.Data.Fintype.Basic

/-!
# Joint rounds of `make_network_sessions`

The model of `network/mpc/handle/network_handle.rs` for three handles. In a round every party connects
to its peers, makes `num_sessions` sessions whose ids start at its own `next_session_id`, and validates
them one after the other: it sends a message to both peers on the session and then receives one from
each. A message carries the id the session has at its sender; a receiver that has no session of that
id drops it. A party can fail at any point of the round, and only a party that ends the round with
`Ok` advances its `next_session_id`.
-/

namespace AmpcCommon.Sessions

/-- `u32::MAX` -/
def u32Max : Nat := 2 ^ 32 - 1

/-- The `next_session_id` after a successful round: the ids of one round are sequential, so the
counter goes back to zero when there is not enough space for another one. -/
def advance (numSessions next : Nat) : Nat :=
  let next := min (next + numSessions) u32Max
  if next ≥ u32Max - numSessions then 0 else next

abbrev Party := Fin 3

/-- The two peers of a party, in the order of their indices. -/
def peer (p : Party) (i : Nat) : Party :=
  if i = 0 then if p = 0 then 1 else 0
  else if p = 2 then 1 else 2

/-- Where a party is in a round. -/
inductive Phase where
  | connecting
  /-- In `validate_sessions`, after `pc` sends and receives: four for each session. -/
  | validating (pc : Nat)
  /-- The call returned `Ok` or `Err`. -/
  | done (ok : Bool)
  deriving Repr, DecidableEq

/-- A validation message: the id its session has at the sender, and the index of the session. -/
structure Msg where
  sessionId : Nat
  idx : Nat
  deriving Repr, DecidableEq

/-- The three handles in a joint round. -/
structure State where
  /-- `next_session_id` -/
  next : Party → Nat
  /-- The `next_session_id` the sessions of the current round were made with. -/
  base : Party → Nat
  phase : Party → Phase
  /-- The messages in flight, by sender and receiver. -/
  wire : Party → Party → List Msg
  /-- The messages the receiver has forwarded to its sessions, by sender and receiver. -/
  inbox : Party → Party → List Msg

/-- The state in which every handle has just been made and enters its first round. -/
def init : State where
  next _ := 0
  base _ := 0
  phase _ := .connecting
  wire _ _ := []
  inbox _ _ := []

/-- The steps of the system. -/
inductive Action where
  /-- The connections to both peers are there, and the sessions are made. -/
  | connect (p : Party)
  /-- The next send of `validate_sessions`. -/
  | send (p : Party)
  /-- A message arrives at its receiver, which forwards it to its session or drops it. -/
  | deliver (p q : Party)
  /-- The next receive of `validate_sessions`. -/
  | receive (p : Party)
  /-- All sessions are validated; the call returns `Ok`. -/
  | succeed (p : Party)
  /-- A connection, timeout or cancellation error ends the call with `Err`. -/
  | fail (p : Party)
  /-- All calls have returned, and all parties make the next one, over new connections. -/
  | nextRound
  deriving Repr, DecidableEq

namespace State

/-- The receiver `q` has a session with the given id. -/
def knows (numSessions : Nat) (s : State) (q : Party) (sessionId : Nat) : Prop :=
  s.base q ≤ sessionId ∧ sessionId < s.base q + numSessions

instance (numSessions : Nat) (s : State) (q : Party) (sessionId : Nat) :
    Decidable (s.knows numSessions q sessionId) :=
  inferInstanceAs (Decidable (_ ∧ _))

def setPhase (s : State) (p : Party) (phase : Phase) : State :=
  { s with phase := Function.update s.phase p phase }

def setWire (s : State) (p q : Party) (msgs : List Msg) : State :=
  { s with wire := Function.update s.wire p (Function.update (s.wire p) q msgs) }

def setInbox (s : State) (p q : Party) (msgs : List Msg) : State :=
  { s with inbox := Function.update s.inbox p (Function.update (s.inbox p) q msgs) }

end State

/-- One step of the three handles; `none` when it is not possible in this state. -/
def step (numSessions : Nat) (s : State) : Action → Option State
  | .connect p =>
    if s.phase p = .connecting then some (s.setPhase p (.validating 0)) else none
  | .send p =>
    match s.phase p with
    | .validating pc =>
      if pc < 4 * numSessions ∧ pc % 4 < 2 then
        let q := peer p (pc % 4)
        let msg := ⟨s.base p + pc / 4, pc / 4⟩
        some ((s.setWire p q (s.wire p q ++ [msg])).setPhase p (.validating (pc + 1)))
      else none
    | _ => none
  | .deliver p q =>
    -- bytes for a receiver that is still connecting wait in the stream
    match s.wire p q, s.phase q with
    | [], _ => none
    | _, .connecting => none
    | msg :: rest, _ =>
      if s.knows numSessions q msg.sessionId then
        some ((s.setWire p q rest).setInbox p q (s.inbox p q ++ [msg]))
      else
        -- "failed to forward message - channel not found"
        some (s.setWire p q rest)
  | .receive p =>
    match s.phase p with
    | .validating pc =>
      if pc < 4 * numSessions ∧ 2 ≤ pc % 4 then
        let q := peer p (pc % 4 - 2)
        match (s.inbox q p).find? fun m => m.sessionId = s.base p + pc / 4 with
        | none => none
        | some msg =>
          let s' := s.setInbox q p ((s.inbox q p).erase msg)
          -- `assert_eq!(id_arr, arr)` on the index of the session
          if msg.idx = pc / 4 then some (s'.setPhase p (.validating (pc + 1)))
          else some (s'.setPhase p (.done false))
      else none
    | _ => none
  | .succeed p =>
    if s.phase p = .validating (4 * numSessions) then
      some { s.setPhase p (.done true) with
        next := Function.update s.next p (advance numSessions (s.next p)) }
    else none
  | .fail p =>
    match s.phase p with
    | .done _ => none
    | _ => some (s.setPhase p (.done false))
  | .nextRound =>
    if ∀ p, ∃ ok, s.phase p = .done ok then
      some
        { next := s.next
          base := s.next
          phase := fun _ => .connecting
          wire := fun _ _ => []
          inbox := fun _ _ => [] }
    else none

end AmpcCommon.Sessions
