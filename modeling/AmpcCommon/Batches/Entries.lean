import AmpcCommon.Base.Bytes
import AmpcCommon.Batches.Polling

/-!
# Valid entries of a batch

The model of the entry synchronization of `batch_sync.rs`: a server fetches the validity flags of its two peers for the
batch with the same hash, and clears its flag of every entry that one of them reports as invalid.
-/

namespace AmpcCommon.Batches

open Startup

/-- The hash of a batch, `[u8; 32]`. -/
structure BatchSha where
  bytes : Bytes
  size_eq : bytes.length = 32
  deriving Repr, DecidableEq

/-- `hex::encode` of the first four bytes. -/
def BatchSha.pretty (sha : BatchSha) : String :=
  String.ofList ((sha.bytes.take 4).flatMap fun b => [Nat.digitChar (b.toNat / 16), Nat.digitChar (b.toNat % 16)])

/-- `BatchSyncEntries` -/
structure BatchSyncEntries where
  validEntries : List Bool
  batchSha : BatchSha
  deriving Repr, DecidableEq

/-- `BatchSyncEntriesResult` -/
structure BatchSyncEntriesResult where
  myState : BatchSyncEntries
  allStates : List BatchSyncEntries
  deriving Repr, DecidableEq

namespace BatchSyncEntriesResult

/-- `acc[i] = false` -/
def setInvalid (acc : List Bool) (i : Nat) : Outcome (List Bool) :=
  if i < acc.length then .ok (acc.set i false)
  else .panicked s!"index out of bounds: the len is {acc.length} but the index is {i}"

/-- The loop of `valid_entries` over the entries of one state. -/
def clearInvalid (acc entries : List Bool) : Outcome (List Bool) :=
  entries.zipIdx.foldlM (fun acc (entry, i) => if ¬ entry then setInvalid acc i else .ok acc) acc

/-- `valid_entries` -/
def validEntries (r : BatchSyncEntriesResult) : Outcome (List Bool) :=
  (r.allStates.map BatchSyncEntries.validEntries).foldlM clearInvalid
    (List.replicate r.myState.validEntries.length true)

end BatchSyncEntriesResult

/-- Entries of another batch are not accepted. -/
def rejectsEntries (ownSyncState state : BatchSyncEntries) : Option String :=
  if state.batchSha ≠ ownSyncState.batchSha then
    some s!"peer batch_hash {state.batchSha.pretty} differs from own {ownSyncState.batchSha.pretty}"
  else none

/-- The poll of one host by `get_batch_sync_entries`. -/
def fetchEntries (ownSyncState : BatchSyncEntries) (host : String) (replies : List (Reply BatchSyncEntries)) :
    Outcome BatchSyncEntries :=
  match poll (rejectsEntries ownSyncState) replies none with
  | .ok state => .ok state
  | .error cause =>
    .bail (s!"Timeout waiting for party {host} to reach batch hash {ownSyncState.batchSha.pretty} " ++
      s!"(last observed: {cause})")

/-- `get_batch_sync_entries`, for the replies of the two peers. -/
def getBatchSyncEntries (config : ServerCoordinationConfig) (ownState : Option BatchSyncEntries)
    (fromNext fromPrev : List (Reply BatchSyncEntries)) : Outcome (List BatchSyncEntries) :=
  match ownState with
  | none => .bail "own_state must be provided"
  | some ownSyncState => do
    let addresses := getCheckAddresses config.nodeHostnames config.healthcheckPorts "batch-sync-entries"
    let nextNode ← index addresses ((config.partyId + 1) % 3)
    let prevNode ← index addresses ((config.partyId + 2) % 3)
    let next ← fetchEntries ownSyncState nextNode fromNext
    let prev ← fetchEntries ownSyncState prevNode fromPrev
    return [ownSyncState, next, prev]

end AmpcCommon.Batches
