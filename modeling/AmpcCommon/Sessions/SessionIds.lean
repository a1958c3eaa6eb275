import AmpcCommon.Protocol.Session
import AmpcCommon.Sessions.NetworkHandle

/-!
# Session ids

The model of how one handle numbers its sessions: `make_network_sessions` of
`network/mpc/handle/network_handle.rs`, with `make_channels` and `make_sessions_inner` of
`network/mpc/handle/session/mod.rs`, on the machine words the code counts with. A call makes the channels and the
sessions for the ids from `next_session_id` on, and moves the counter only when it returns `Ok`.

Which connections carry a session does not depend on its id, so the outbound channels are left out.
-/

namespace AmpcCommon.Sessions

/-- `a + b` on `u32`, which is checked. -/
def addU32 (a b : BitVec 32) : Outcome (BitVec 32) :=
  if a.uaddOverflow b then .panicked "attempt to add with overflow" else .ok (a + b)

/-- `u32::saturating_add` -/
def saturatingAdd (a b : BitVec 32) : BitVec 32 :=
  if a.uaddOverflow b then BitVec.allOnes 32 else a + b

/-- The range `start..stop` of `u32`. -/
def rangeU32 (start stop : BitVec 32) : List (BitVec 32) :=
  (List.range' start.toNat (stop.toNat - start.toNat)).map (BitVec.ofNat 32)

/-- The part of `MpcConfig` that numbers the sessions. -/
structure MpcConfig where
  numSessions : BitVec 32
  deriving Repr, DecidableEq

/-- The part of `MpcNetworkHandle` that numbers the sessions. -/
structure MpcNetworkHandle where
  config : MpcConfig
  nextSessionId : BitVec 32
  partyIndex : Party
  deriving Repr, DecidableEq

/-- `MpcNetworkHandle::new` -/
def MpcNetworkHandle.new (config : MpcConfig) (partyIndex : Party) : MpcNetworkHandle :=
  { config := config, nextSessionId := 0, partyIndex := partyIndex }

/-- The inbound channels of `SessionChannels`: for each of the two peers the ids of its channels. -/
abbrev InboundChannels := Fin 2 → List (BitVec 32)

/-- `make_channels` -/
def makeChannels (config : MpcConfig) (nextSessionId : BitVec 32) : Outcome InboundChannels := do
  let stop ← addU32 nextSessionId config.numSessions
  pure fun _ => rangeU32 nextSessionId stop

/-- The loop of `make_sessions_inner`: a session takes its channel of every peer out of the map. The result holds the
ids of the `TcpSession`s. -/
def sessionLoop : List (BitVec 32) → InboundChannels → Outcome (List (BitVec 32))
  | [], _ => pure []
  | sessionId :: ids, inboundRx =>
    if ∀ peer, sessionId ∈ inboundRx peer then do
      let sessions ← sessionLoop ids fun peer => (inboundRx peer).erase sessionId
      pure (sessionId :: sessions)
    else .panicked "called `Option::unwrap()` on a `None` value"

/-- `make_sessions_inner` -/
def makeSessionsInner (config : MpcConfig) (nextSessionId : BitVec 32) (sc : InboundChannels) :
    Outcome (List (BitVec 32)) := do
  let stop ← addU32 nextSessionId config.numSessions
  sessionLoop (rangeU32 nextSessionId stop) sc

/-- `make_sessions` -/
def makeSessions (config : MpcConfig) (nextSessionId : BitVec 32) : Outcome (List (BitVec 32)) := do
  let sc ← makeChannels config nextSessionId
  makeSessionsInner config nextSessionId sc

/-- What a call gets from its peers: the outcome of the connections, and the one of `validate_sessions` or of the token
that cancels it. -/
structure Environment where
  connections : Outcome Unit
  validation : Outcome Unit

/-- The part of `make_network_sessions` that can fail. -/
def networkSessions (env : Environment) (h : MpcNetworkHandle) : Outcome (List Protocol.Session) := do
  env.connections
  let tcpSessions ← makeSessions h.config h.nextSessionId
  env.validation
  pure (tcpSessions.map fun sessionId => { ownRole := h.partyIndex, sessionId := sessionId })

/-- The `next_session_id` after a call that succeeds. -/
def advanceSessionId (numSessions next : BitVec 32) : BitVec 32 :=
  let next := saturatingAdd next numSessions
  -- there must be space for the sequential ids of the next call
  if BitVec.allOnes 32 - numSessions ≤ next then 0 else next

/-- `make_network_sessions`: what it returns, and the handle after it. -/
def makeNetworkSessions (env : Environment) (h : MpcNetworkHandle) :
    Outcome (List Protocol.Session) × MpcNetworkHandle :=
  match networkSessions env h with
  | .error e => (.error e, h)
  | .ok sessions => (.ok sessions, { h with nextSessionId := advanceSessionId h.config.numSessions h.nextSessionId })

/-- The handle after a number of calls. -/
def afterCalls (h : MpcNetworkHandle) : List Environment → MpcNetworkHandle
  | [] => h
  | env :: envs => afterCalls (makeNetworkSessions env h).2 envs

end AmpcCommon.Sessions
