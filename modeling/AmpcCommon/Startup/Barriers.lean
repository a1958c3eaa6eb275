import AmpcCommon.Startup.Coordination
import AmpcCommon.Base.Transition
import Mathlib.Data.Finset.Sort
import Mathlib.Data.List.FinRange
import Mathlib.Data.String.Basic

/-!
# The startup barriers

The model of `wait_for_others_unready`, `wait_until_startup_visibility_is_complete` and `wait_for_others_ready` in
`server_coordination.rs`, as three nodes run them. A node is a sequence of incarnations with uuids of their own. A poll
of a peer is answered by the incarnation that is alive at that moment; when a deadline expires and when a request is
given up is left open.
-/

namespace AmpcCommon.Startup

/-- One of the three nodes. -/
abbrev Node := Fin 3

/-- `NODE_COUNT - 1` other nodes, by their index. -/
def otherNodes (n : Node) : List Node := (List.finRange 3).filter (· ≠ n)

/-- The answers to the polls of a round, as far as they are there. -/
abbrev Answers := Node → Option ReadyProbeResponse

/-- No poll of the round was answered yet. -/
def noAnswers : Answers := fun _ => none

/-- The poll of a peer is answered, once. -/
def Answers.record (answers : Answers) (peer : Node) (response : ReadyProbeResponse) : Option Answers :=
  if answers peer = none then some (Function.update answers peer (some response)) else none

/-- Where an incarnation is in its startup. -/
inductive Phase where
  /-- `wait_for_others_unready` polls. -/
  | unready (answers : Answers)
  /-- It goes through the responses of a round; some peers were ready and had not verified this node. -/
  | unreadyCheck (responses : List ReadyProbeResponse) (unverifiedReadyPeers : List String)
  /-- `wait_until_startup_visibility_is_complete` polls. -/
  | visibility (answers : Answers)
  /-- The barriers are complete. -/
  | synced
  /-- `wait_for_others_ready` polls. -/
  | waiting (answers : Answers)
  /-- `wait_for_others_ready` has returned, with these answers. -/
  | done (accepted : Answers)
  | failed (msg : String)

/-- A process of a node. -/
structure Incarnation where
  node : Node
  /-- How many incarnations were started before. -/
  born : Nat
  verifiedPeers : Finset String
  isReady : Bool
  phase : Phase

/-- What the health endpoint of an incarnation answers. -/
def Incarnation.health (inc : Incarnation) (uuid : String) : ReadyProbeResponse :=
  ⟨uuid, false, inc.verifiedPeers, inc.isReady⟩

/-- `current_startup_uuid_set` -/
def currentStartupUuidSet (myUuid : String) (peerResponses : List ReadyProbeResponse) : Finset String :=
  insert myUuid (peerResponses.map ReadyProbeResponse.uuid).toFinset

/-- `missing_startup_visibility` -/
def missingStartupVisibility (expectedUuids : Finset String) (peerUuid : String) (peerVerifiedPeers : Finset String) :
    List String :=
  ((expectedUuids.filter (· ≠ peerUuid)).filter (· ∉ peerVerifiedPeers)).sort (· ≤ ·)

namespace Incarnation

/-- The phase after `wait_for_others_unready`. -/
def afterUnready (config : ServerCoordinationConfig) : Phase :=
  if config.startupVisibilityBarrierDisabled then .synced else .visibility noAnswers

/-- One response of a round of `wait_for_others_unready`, or the end of the round. -/
def checkUnready (config : ServerCoordinationConfig) (uuid : String) (expired : Bool) (inc : Incarnation) :
    List ReadyProbeResponse → List String → Incarnation
  | probeResponse :: responses, unverifiedReadyPeers =>
    let unverifiedReadyPeers :=
      if ¬ probeResponse.isReady then unverifiedReadyPeers
      else if uuid ∈ probeResponse.verifiedPeers then unverifiedReadyPeers
      else unverifiedReadyPeers ++ [probeResponse.uuid]
    { inc with
      verifiedPeers := insert probeResponse.uuid inc.verifiedPeers
      phase := .unreadyCheck responses unverifiedReadyPeers }
  | [], unverifiedReadyPeers =>
    if unverifiedReadyPeers.isEmpty then { inc with phase := afterUnready config }
    else if expired then
      let seconds := config.startupSyncTimeoutSecs
      let peers := reprStr unverifiedReadyPeers
      { inc with
        phase := .failed s!"One or more nodes were not unready (and did not verify us) within {seconds}s: {peers}" }
    else { inc with phase := .unready noAnswers }

/-- A round of `wait_until_startup_visibility_is_complete`. -/
def checkVisibility (uuid : String) (expired : Bool) (inc : Incarnation) (peerResponses : List ReadyProbeResponse) :
    Incarnation :=
  let verified := peerResponses.foldl (fun verified r => insert r.uuid verified) inc.verifiedPeers
  let expectedUuids := currentStartupUuidSet uuid peerResponses
  let incompleteVisibility := peerResponses.filter fun r =>
    ¬ (missingStartupVisibility expectedUuids r.uuid r.verifiedPeers).isEmpty
  let phase :=
    if incompleteVisibility.isEmpty then .synced
    else if expired then .failed "Timed out waiting for full peer visibility during startup"
    else .visibility noAnswers
  { inc with verifiedPeers := verified, phase := phase }

/-- A round of `wait_for_others_ready`. -/
def checkReady (inc : Incarnation) (answers : Answers) (responses : List ReadyProbeResponse) : Incarnation :=
  match responses.find? fun r => r.uuid ∉ inc.verifiedPeers with
  | some r =>
    { inc with
      phase := .failed (s!"Peer reported UUID {r.uuid} not seen during startup handshake; a peer has " ++
        "restarted and the fleet must restart") }
  | none =>
    if responses.all ReadyProbeResponse.isReady then { inc with phase := .done answers }
    else { inc with phase := .waiting noAnswers }

/-- What an incarnation does next when its polls were answered. -/
def proceed (config : ServerCoordinationConfig) (uuid : String) (expired : Bool) (inc : Incarnation) :
    Option Incarnation :=
  match inc.phase with
  | .unready answers => do
    let responses ← (otherNodes inc.node).mapM answers
    some { inc with phase := .unreadyCheck responses [] }
  | .unreadyCheck responses unverifiedReadyPeers =>
    some (checkUnready config uuid expired inc responses unverifiedReadyPeers)
  | .visibility answers => do
    let responses ← (otherNodes inc.node).mapM answers
    some (checkVisibility uuid expired inc responses)
  | .synced => some { inc with isReady := true, phase := .waiting noAnswers }
  | .waiting answers => do
    let responses ← (otherNodes inc.node).mapM answers
    some (checkReady inc answers responses)
  | .done _ => none
  | .failed _ => none

/-- `try_get_endpoint_other_nodes` gives up. -/
def giveUp (expired : Bool) (inc : Incarnation) : Option Incarnation :=
  match inc.phase with
  | .unready _ => some { inc with phase := .failed "Startup sync timed out" }
  | .visibility _ =>
    some { inc with phase :=
      if expired then .failed "timed out waiting for full peer visibility during startup" else .visibility noAnswers }
  | .waiting _ => some { inc with phase := .waiting noAnswers }
  | _ => none

/-- The poll of a peer is answered. -/
def receive (peer : Node) (response : ReadyProbeResponse) (inc : Incarnation) : Option Incarnation :=
  if peer = inc.node then none
  else
    match inc.phase with
    | .unready answers => (answers.record peer response).map fun answers => { inc with phase := .unready answers }
    | .visibility answers =>
      (answers.record peer response).map fun answers => { inc with phase := .visibility answers }
    | .waiting answers => (answers.record peer response).map fun answers => { inc with phase := .waiting answers }
    | _ => none

end Incarnation

/-- The nodes, with all incarnations there have been. -/
structure Cluster where
  incarnations : String → Option Incarnation
  /-- The incarnation of a node that is alive. -/
  current : Node → Option String
  /-- The number of incarnations so far. -/
  started : Nat

/-- What happens at a node. -/
inductive ClusterAction where
  /-- A process is started. -/
  | start (uuid : String)
  | crash
  /-- The poll of a peer is answered. -/
  | answer (peer : Node)
  | proceed (expired : Bool)
  | giveUp (expired : Bool)

namespace Cluster

/-- No process was started yet. -/
def init : Cluster := ⟨fun _ => none, fun _ => none, 0⟩

/-- The incarnation of a node that is alive. -/
def alive (s : Cluster) (n : Node) : Option (String × Incarnation) :=
  (s.current n).bind fun uuid => (s.incarnations uuid).map fun inc => (uuid, inc)

/-- An incarnation goes on. -/
def set (s : Cluster) (uuid : String) (inc : Incarnation) : Cluster :=
  { s with incarnations := Function.update s.incarnations uuid (some inc) }

/-- A process is started; it verifies nobody and is not ready. -/
def start (s : Cluster) (n : Node) (uuid : String) : Option Cluster :=
  if s.current n = none ∧ s.incarnations uuid = none then
    some {
      incarnations := Function.update s.incarnations uuid (some ⟨n, s.started, ∅, false, .unready noAnswers⟩)
      current := Function.update s.current n (some uuid)
      started := s.started + 1 }
  else none

variable (config : ServerCoordinationConfig)

/-- One step of the cluster: the node, and what happens there. -/
def step (s : Cluster) (action : Node × ClusterAction) : Option Cluster :=
  let (n, action) := action
  match action with
  | .start uuid => s.start n uuid
  | .crash => if s.current n = none then none else some { s with current := Function.update s.current n none }
  | .answer peer => do
    let (uuid, inc) ← s.alive n
    let (peerUuid, peerInc) ← s.alive peer
    let inc ← inc.receive peer (peerInc.health peerUuid)
    some (s.set uuid inc)
  | .proceed expired => do
    let (uuid, inc) ← s.alive n
    let inc ← inc.proceed config uuid expired
    some (s.set uuid inc)
  | .giveUp expired => do
    let (uuid, inc) ← s.alive n
    let inc ← inc.giveUp expired
    some (s.set uuid inc)

end Cluster

end AmpcCommon.Startup
