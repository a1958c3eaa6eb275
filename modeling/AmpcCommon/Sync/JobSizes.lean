import AmpcCommon.Sync.JobSync
import AmpcCommon.Stats.Mapping

/-!
# Agreement on the size of a job

The model of `ampc-anon-stats/src/server/sync.rs`: the servers agree on the smallest of their job sizes, and then
compare the hashes of the match ids of their jobs. `usize` has 64 bits. -/

namespace AmpcCommon.Sync

open Wire Protocol Stats

/-- A value of `broadcast_u64`. -/
def readU64 : NetworkValue → Outcome (BitVec 64)
  | .bytes b =>
    if b.length ≠ 8 then .bail "Unexpected byte length for usize" else .ok (BitVec.ofNat 64 (LittleEndian.decode b))
  | _ => .bail "Unexpected network value type"

/-- The message of `broadcast_u64`. -/
def u64Message (value : BitVec 64) : NetworkValue := .bytes (LittleEndian.encode 8 value.toNat)

/-- What a party has read of the values of all parties, by role. -/
def readBroadcast (ownRole : Nat) (value : BitVec 64) (fromNext fromPrev : NetworkValue) :
    Outcome (List (BitVec 64)) := do
  let (v0, v1, v2) ← orderByRole ownRole (u64Message value) fromNext fromPrev
  [v0, v1, v2].mapM readU64

/-- `broadcast` and `broadcast_u64` -/
def broadcastU64 (ownRole : Party) (value : BitVec 64) : Process NetworkValue (Outcome (List (BitVec 64))) :=
  .send .next (u64Message value) (.send .prev (u64Message value) (.recv .next fun nextValue =>
    .recv .prev fun prevValue => .pure (readBroadcast ownRole.val value nextValue prevValue)))

/-- `sizes.iter().cloned().min().unwrap()` -/
def minSize : List Nat → Outcome Nat
  | [] => .panicked "called `Option::unwrap()` on a `None` value"
  | size :: sizes => .ok (sizes.foldl min size)

/-- `sync_on_job_sizes`, with `broadcast_usize` -/
def syncOnJobSizes (ownRole : Party) (jobSize : BitVec 64) : Process NetworkValue (Outcome Nat) :=
  (broadcastU64 ownRole jobSize).bind fun sizes => .pure (sizes >>= fun l => minSize (l.map BitVec.toNat))

/-- `sync_on_id_hash` -/
def syncOnIdHash (ownRole : Party) (idHash : BitVec 64) : Process NetworkValue (Outcome Bool) :=
  (broadcastU64 ownRole idHash).bind fun hashes => .pure (hashes >>= fun hs => .ok (hs.all fun h => h == idHash))

/-- How a server uses the two calls: its job is cut to the common size, and the hashes of what is left are compared. -/
def syncOnJob {T : Type} (finish : List Int → UInt64) (ownRole : Party) (mapping : SortedMapping T) :
    Process NetworkValue (Outcome (SortedMapping T × Bool)) :=
  (syncOnJobSizes ownRole (BitVec.ofNat 64 mapping.len)).bind fun size =>
    match size with
    | .error e => .pure (.error e)
    | .ok size =>
      let truncated := mapping.truncate size
      (syncOnIdHash ownRole (truncated.getIdHash finish).toBitVec).bind fun same =>
        .pure (same >>= fun b => .ok (truncated, b))

end AmpcCommon.Sync
