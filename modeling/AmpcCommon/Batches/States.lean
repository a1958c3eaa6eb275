import AmpcCommon.Base.Process
import AmpcCommon.Base.Transition
import AmpcCommon.Batches.Polling

/-!
# The size of a batch

The model of the batch size synchronization of `batch_sync.rs`: a party that enters a batch publishes how many messages
it could poll for it, the endpoint answers for the current batch only, and the parties poll each other and take the
minimum. The parties publish, answer and poll in any order; a request can fail, and a call can time out at any time.
-/

namespace AmpcCommon.Batches

open Startup

/-- One of the three parties. -/
abbrev Party := Fin 3

/-- `BatchSyncSharedState` -/
structure BatchSyncSharedState where
  batchId : Nat
  messagesToPoll : Nat
  deriving Repr, DecidableEq

/-- `Default` -/
instance : Inhabited BatchSyncSharedState := ⟨⟨0, 0⟩⟩

/-- `BatchSyncState` -/
structure BatchSyncState where
  messagesToPoll : Nat
  batchId : Nat
  deriving Repr, DecidableEq

/-- `BatchSyncResult` -/
structure BatchSyncResult where
  myState : BatchSyncState
  allStates : List BatchSyncState
  deriving Repr, DecidableEq

/-- `messages_to_poll` -/
def BatchSyncResult.messagesToPoll (r : BatchSyncResult) : Nat :=
  (r.allStates.map BatchSyncState.messagesToPoll).min?.getD 0

/-- What the endpoints tell of a shared state. -/
def BatchSyncSharedState.state (shared : BatchSyncSharedState) : BatchSyncState :=
  ⟨shared.messagesToPoll, shared.batchId⟩

/-- The `/batch-sync-state` endpoint, as its client sees the answer. -/
def batchSyncRoute (shared : BatchSyncSharedState) (batchId : Nat) : Reply BatchSyncState :=
  if batchId ≠ shared.batchId then
    .errorStatus "409 Conflict" s!"Batch ID mismatch: requested {batchId}, current {shared.batchId}"
  else .state shared.state

/-! ## The client -/

/-- A peer that is behind is asked again; one that is ahead is not rejected. -/
def rejectsState (ownSyncState state : BatchSyncState) : Option String :=
  if state.batchId < ownSyncState.batchId then
    some s!"peer at batch_id {state.batchId} is behind reference {ownSyncState.batchId}"
  else none

/-- The poll of one host by `get_batch_sync_states`. -/
def fetchState (ownSyncState : BatchSyncState) (host : String) (replies : List (Reply BatchSyncState)) :
    Outcome BatchSyncState :=
  match poll (rejectsState ownSyncState) replies none with
  | .ok state => .ok state
  | .error cause =>
    .bail (s!"Timeout waiting for party {host} to reach batch_id {ownSyncState.batchId} " ++
      s!"(last observed: {cause})")

/-- `get_batch_sync_states`, for the replies of the two peers. -/
def getBatchSyncStates (config : ServerCoordinationConfig) (ownState : Option BatchSyncState)
    (fromNext fromPrev : List (Reply BatchSyncState)) : Outcome (List BatchSyncState) :=
  match ownState with
  | none => .bail "own_state must be provided"
  | some ownSyncState => do
    let addresses := getCheckAddresses config.nodeHostnames config.healthcheckPorts "batch-sync-state"
    let nextNode ← index addresses ((config.partyId + 1) % 3)
    let prevNode ← index addresses ((config.partyId + 2) % 3)
    let next ← fetchState ownSyncState nextNode fromNext
    let prev ← fetchState ownSyncState prevNode fromPrev
    return [ownSyncState, next, prev]

/-! ## The three parties -/

/-- The party that is polled next, or after that one. -/
def polledParty (p : Party) : Dir → Party
  | .next => p + 1
  | .prev => p + 2

/-- The request of a call that is on its way. -/
inductive Flight where
  | idle
  | requested
  | answered (reply : Reply BatchSyncState)

/-- A call of `get_batch_sync_states`. -/
structure StatesCall where
  party : Party
  ownState : BatchSyncState
  flight : Flight
  /-- The replies so far, from each of the two peers. -/
  replies : Dir → List (Reply BatchSyncState)
  returned : Option (Outcome (List BatchSyncState))

/-- What happens to a call. -/
inductive CallAction where
  | request
  /-- The polled party answers. -/
  | serve
  /-- The request fails, or another answer than a state comes back. -/
  | fail (reply : Reply BatchSyncState)
  | deliver
  /-- The call returns: both peers were polled, or the time for one of them is over. -/
  | finish

namespace StatesCall

/-- A peer has given an answer that is accepted. -/
def accepted (c : StatesCall) (d : Dir) : Bool :=
  match poll (rejectsState c.ownState) (c.replies d) none with
  | .ok _ => true
  | .error _ => false

/-- The peer that is polled. -/
def host (c : StatesCall) : Dir := if c.accepted .next then .prev else .next

/-- One step of a call, in the presence of the shared states. -/
def act (config : ServerCoordinationConfig) (shared : Party → BatchSyncSharedState) (c : StatesCall) :
    CallAction → Option StatesCall
  | .request =>
    match c.returned, c.flight with
    | none, .idle => if c.accepted c.host then none else some { c with flight := .requested }
    | _, _ => none
  | .serve =>
    match c.flight with
    | .requested =>
      some { c with flight := .answered (batchSyncRoute (shared (polledParty c.party c.host)) c.ownState.batchId) }
    | _ => none
  | .fail reply =>
    match c.flight, reply with
    | .requested, .state _ => none
    | .requested, _ => some { c with flight := .answered reply }
    | _, _ => none
  | .deliver =>
    match c.flight with
    | .answered reply =>
      some { c with flight := .idle, replies := Function.update c.replies c.host (c.replies c.host ++ [reply]) }
    | _ => none
  | .finish =>
    match c.returned with
    | some _ => none
    | none =>
      let own := { config with partyId := c.party }
      some { c with returned := some (getBatchSyncStates own (some c.ownState) (c.replies .next) (c.replies .prev)) }

end StatesCall

/-- The shared states, all states that were published so far, and the calls. -/
structure System where
  shared : Party → BatchSyncSharedState
  /-- The oldest first. -/
  published : Party → List BatchSyncSharedState
  calls : List StatesCall

/-- The steps of the system. -/
inductive Action where
  /-- A party enters a batch: it sets both fields of its shared state in one step, under its lock. -/
  | enter (p : Party) (batchId messagesToPoll : Nat)
  /-- A party calls `get_batch_sync_states` with the state it has published. -/
  | call (p : Party)
  | act (call : Nat) (a : CallAction)

namespace System

/-- The endpoints are up, with the states they are started with. Nothing is published yet. -/
def start (initial : Party → BatchSyncSharedState) : System := ⟨initial, fun _ => [], []⟩

/-- The number of messages a party has published for a batch. -/
def publishedFor (s : System) (p : Party) (batchId : Nat) : Option Nat :=
  ((s.published p).find? fun x => x.batchId = batchId).map BatchSyncSharedState.messagesToPoll

/-- One step. The batch ids that a party publishes go up, from any first one; it calls with the state it has published
last. -/
def step (config : ServerCoordinationConfig) (s : System) : Action → Option System
  | .enter p batchId messagesToPoll =>
    if ∀ x ∈ s.published p, x.batchId < batchId then
      let new : BatchSyncSharedState := ⟨batchId, messagesToPoll⟩
      some { s with
        shared := Function.update s.shared p new
        published := Function.update s.published p (s.published p ++ [new]) }
    else none
  | .call p =>
    if s.published p = [] then none
    else some { s with calls := s.calls ++ [⟨p, (s.shared p).state, .idle, fun _ => [], none⟩] }
  | .act i a => do
    let c ← s.calls[i]?
    let c' ← c.act config s.shared a
    some { s with calls := s.calls.set i c' }

end System

end AmpcCommon.Batches
