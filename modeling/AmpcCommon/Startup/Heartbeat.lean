import AmpcCommon.Startup.Coordination
import AmpcCommon.Base.Transition

/-!
# The heartbeat

The model of the loop of `init_heartbeat_task`, which polls the two other nodes in turn. A poll fails, or it gives the
response of the node. The loop ends when it panics, and when it finds that shutdown was triggered.
-/

namespace AmpcCommon.Startup

/-- The result of a poll; `none` for a failure. -/
abbrev Poll := Option ReadyProbeResponse

/-- `MAX_CONSECUTIVE_FAILURES` -/
def maxConsecutiveFailures : Nat := 3

/-- What the loop is given. -/
structure Heartbeat where
  /-- The addresses of the next node and of the previous one. -/
  host : Fin 2 → String
  heartbeatInitialRetries : Nat
  verifiedPeers : Finset String

/-- The loop of `init_heartbeat_task` before its first turn. -/
def Heartbeat.new (config : ServerCoordinationConfig) (verifiedPeers : Finset String) : Outcome Heartbeat := do
  let allHealthAddresses := getCheckAddresses config.nodeHostnames config.healthcheckPorts "health"
  let nextNode ← index allHealthAddresses ((config.partyId + 1) % 3)
  let prevNode ← index allHealthAddresses ((config.partyId + 2) % 3)
  pure ⟨fun i => if i = 0 then nextNode else prevNode, config.heartbeatInitialRetries, verifiedPeers⟩

namespace Heartbeat

/-- The variables of the loop, by the index of the peer. -/
structure State where
  /-- The peer that is polled next. -/
  next : Fin 2
  lastResponse : Fin 2 → String
  connected : Fin 2 → Bool
  retries : Fin 2 → Nat
  consecutiveFailures : Fin 2 → Nat
  /-- `heartbeat_tx` was not taken yet. -/
  heartbeatTx : Bool
  /-- `heartbeat_rx` was not dropped yet. -/
  heartbeatRx : Bool
  /-- How often initialisation was signalled. -/
  signals : Nat
  shuttingDown : Bool
  panicked : Option String

/-- The state before the first poll. -/
def start : State where
  next := 0
  lastResponse _ := ""
  connected _ := false
  retries _ := 0
  consecutiveFailures _ := 0
  heartbeatTx := true
  heartbeatRx := true
  signals := 0
  shuttingDown := false
  panicked := none

/-- `trigger_manual_shutdown` -/
def State.triggerManualShutdown (s : State) : State := { s with shuttingDown := true }

/-- Initialisation is signalled once, when both peers are connected. -/
def State.signal (s : State) : Except String State :=
  if (∀ c, s.connected c = true) ∧ s.heartbeatTx then
    let s := { s with heartbeatTx := false }
    if s.heartbeatRx then .ok { s with heartbeatRx := false, signals := s.signals + 1 }
    else if s.shuttingDown then .ok s
    else .error "Heartbeat initialization receiver dropped unexpectedly"
  else .ok s

variable (hb : Heartbeat)

/-- A poll of the peer `i` that fails. -/
def onFailure (i : Fin 2) (s : State) : Except String State :=
  if s.lastResponse i = "" ∧ s.retries i < hb.heartbeatInitialRetries then
    .ok { s with retries := Function.update s.retries i (s.retries i + 1) }
  else if s.lastResponse i = "" then
    .error (s!"Node {hb.host i} did not respond with success during heartbeat init phase, " ++ "killing server...")
  else
    let s := { s with
      consecutiveFailures := Function.update s.consecutiveFailures i (s.consecutiveFailures i + 1) }
    if s.consecutiveFailures i ≥ maxConsecutiveFailures then .ok s.triggerManualShutdown else .ok s

/-- A poll of the peer `i` that gives a response. -/
def onResponse (i : Fin 2) (probeResponse : ReadyProbeResponse) (s : State) : Except String State :=
  let s := { s with consecutiveFailures := Function.update s.consecutiveFailures i 0 }
  if s.lastResponse i = "" then
    if probeResponse.uuid ∉ hb.verifiedPeers then
      .error (s!"Node {hb.host i} reported UUID {probeResponse.uuid} not seen during startup handshake, " ++
        "killing server...")
    else
      State.signal { s with
        lastResponse := Function.update s.lastResponse i probeResponse.uuid
        connected := Function.update s.connected i true }
  else if probeResponse.uuid ≠ s.lastResponse i then .ok s.triggerManualShutdown
  else if probeResponse.shuttingDown then .ok s.triggerManualShutdown
  else .ok s

/-- A poll of the peer `i`; an error is a panic. -/
def onPoll (i : Fin 2) (s : State) : Poll → Except String State
  | none => hb.onFailure i s
  | some probeResponse => hb.onResponse i probeResponse s

/-- One turn of the loop; `none` when the loop has ended. -/
def step (s : State) (poll : Poll) : Option State :=
  if s.shuttingDown ∨ s.panicked.isSome then none
  else
    match hb.onPoll s.next s poll with
    | .ok s' => some { s' with next := s.next + 1 }
    | .error msg => some { s with panicked := some msg }

end Heartbeat

end AmpcCommon.Startup
