import AmpcCommon.Stats.Store

/-!
# The store of face statistics

The model of the face table of `ampc-anon-stats/src/store/mod.rs`: a row holds all distances of a query as one bundle,
with their number. Rows are fetched by their query ids, which need not be distinct, so that the database chooses the
order of rows with one query id. They are read one by one, until there are enough distances.
-/

namespace AmpcCommon.Stats

open Database

/-- `ANON_STATS_FACE_TABLE`. The additional column of a row is the number of distances in its bundle (`bundle_size`);
its match id is its `query_id`. -/
def anonStatsFaceTable : TableSchema Nat := ⟨"anon_stats_face", 5, fun _ => true⟩

section Operations

variable {T : Type}

/-- `insert_anon_stats_face` -/
def insertAnonStatsFace (serialize : List T → Bytes) (anonStats : List T) (queryId : Int) (origin : StoreOrigin)
    (operation : AnonStatsOperation) : StoreProgram Nat (Outcome Unit) := do
  if anonStats.isEmpty then return .ok ()
  else
    match ← ask (.insert [newRow serialize origin operation (queryId, anonStats.length, anonStats)]
      anonStatsFaceTable.columns) with
    | .error e => return .bail e
    | .ok _ => return .ok ()

/-- The number of distances in some rows. -/
def totalSize (rows : List (StatRow Nat)) : Nat := (rows.map fun row => row.info).sum

/-- `num_available_anon_stats_face`: the sum of the rows, cast to a `BIGINT`. -/
def numAvailableAnonStatsFace (condition : Condition Nat) : StoreProgram Nat (Outcome Nat) := do
  match Answer.all (← ask (.select condition (fun row => row.id) none)) with
  | .error e => return .bail e
  | .ok rows => return if 2 ^ 63 ≤ totalSize rows then .bail "bigint out of range" else .ok (totalSize rows)

/-- The ids, the query ids and the distances of a job. -/
structure FaceJob (T : Type) where
  ids : List Int
  queryIds : List Int
  ret : List T
  deriving Repr, DecidableEq

/-- The loop of `get_available_anon_stats_face` over the rows of a stream, which can end with an error. -/
def readFaceRows (deserialize : Bytes → Except String (List T)) (limit : Nat) (failure : Option String) :
    List (StatRow Nat) → Nat → FaceJob T → Outcome (FaceJob T)
  | [], _, job =>
    match failure with
    | some e => .bail e
    | none => .ok job
  | row :: rows, fetched, job =>
    match deserialize row.bundle with
    | .error e =>
      .bail s!"Failed to deserialize distance bundle from table anon_stats_face for anon_stats id {row.id}: {e}"
    | .ok distances =>
      let fetched := fetched + row.info
      let job : FaceJob T := ⟨job.ids ++ [row.id], job.queryIds ++ [row.matchId], job.ret ++ distances⟩
      if limit ≤ fetched then .ok job else readFaceRows deserialize limit failure rows fetched job

/-- `get_available_anon_stats_face` -/
def getAvailableAnonStatsFace (deserialize : Bytes → Except String (List T)) (condition : Condition Nat)
    (limit : Nat) : StoreProgram Nat (Outcome (FaceJob T)) := do
  match ← ask (.select condition (fun row => row.matchId) none) with
  | .error e => return .bail e
  | .ok stream => return readFaceRows deserialize limit stream.failure stream.rows 0 ⟨[], [], []⟩

/-! ## Clients -/

/-- The calls of a client. -/
inductive FaceCall (T : Type) where
  | insert (anonStats : List T) (queryId : Int) (origin : StoreOrigin) (operation : AnonStatsOperation)
  | numAvailable (condition : Condition Nat)
  | fetch (condition : Condition Nat) (limit : Nat)
  | mark (ids : List Int)
  | clear (condition : Condition Nat)

/-- What a call returns. -/
inductive FaceResult (T : Type) where
  | done (result : Outcome Unit)
  | count (result : Outcome Nat)
  | job (result : Outcome (FaceJob T))

/-- `mark_anon_stats_processed_face` and `clear_unprocessed_anon_stats_face` are those of the other tables. -/
def FaceCall.run (serialize : List T → Bytes) (deserialize : Bytes → Except String (List T)) :
    FaceCall T → StoreProgram Nat (FaceResult T)
  | insert anonStats queryId origin operation => do
    return .done (← insertAnonStatsFace serialize anonStats queryId origin operation)
  | numAvailable condition => do return .count (← numAvailableAnonStatsFace condition)
  | fetch condition limit => do return .job (← getAvailableAnonStatsFace deserialize condition limit)
  | mark ids => do return .done (← markAnonStatsProcessed ids)
  | clear condition => do return .count (← clearUnprocessedAnonStats condition)

end Operations

end AmpcCommon.Stats
