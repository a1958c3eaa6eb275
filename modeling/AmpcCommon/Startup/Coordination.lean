import AmpcCommon.Base.Counts
import AmpcCommon.Base.Outcome
import Mathlib.Data.Finset.Basic

/-!
# The coordination server

What the startup checks and the heartbeat of `server_coordination.rs` read: the configuration, and the answer of the
health endpoint of a node.
-/

namespace AmpcCommon.Startup

/-- `ServerCoordinationConfig`, without the image name and the times between requests. -/
structure ServerCoordinationConfig where
  partyId : Nat
  nodeHostnames : List String
  healthcheckPorts : List String
  heartbeatInitialRetries : Nat
  startupSyncTimeoutSecs : Nat
  startupVisibilityBarrierDisabled : Bool
  deriving Repr, DecidableEq

/-- `ReadyProbeResponse`, without the image name. -/
structure ReadyProbeResponse where
  uuid : String
  shuttingDown : Bool
  verifiedPeers : Finset String
  isReady : Bool
  deriving DecidableEq

/-- `get_check_addresses` -/
def getCheckAddresses (hostnames ports : List String) (endpoint : String) : List String :=
  List.zipWith (fun host port => s!"http://{host}:{port}/{endpoint}") hostnames ports

/-- The element at an index; outside of the bounds the code panics. -/
def index {α : Type} (xs : List α) (i : Nat) : Outcome α :=
  match xs[i]? with
  | some x => .ok x
  | none => .panicked s!"index out of bounds: the len is {xs.length} but the index is {i}"

end AmpcCommon.Startup
