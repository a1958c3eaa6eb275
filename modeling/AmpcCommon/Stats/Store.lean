import AmpcCommon.Base.Database
import AmpcCommon.Protocol.Share
import AmpcCommon.Stats.Mapping

/-!
# The store of statistics

The model of `ampc-anon-stats/src/store/mod.rs`: batches are inserted in a transaction of several statements, and rows
are selected by their origin, operation and, in the table of the deep identifier, by how they were sampled. What a
table adds to a `Row` is a parameter. Every function is a program of requests to the database, which is a parameter, and
can fail at each of them. -/

namespace AmpcCommon.Stats

open Database

/-! ## Tables -/

/-- What rows are selected by. -/
structure Partition (M : Type) where
  origin : BitVec 16
  operation : BitVec 16
  info : M
  deriving Repr, DecidableEq

/-- A row with the additional columns of its table. -/
structure StatRow (M : Type) extends Row where
  info : M
  deriving Repr, DecidableEq

/-- The columns by which a row is selected. -/
def StatRow.partition {M : Type} (row : StatRow M) : Partition M := ⟨row.origin, row.operation, row.info⟩

/-- The columns `sampling_rate`, `left_opposite_mirror_match` and `right_opposite_mirror_match`. -/
structure Sampling where
  samplingRate : UInt8
  leftOppositeMirrorMatch : Bool
  rightOppositeMirrorMatch : Bool
  deriving Repr, DecidableEq

/-- A table: its name, the number of columns an insert binds for a row, and its check on the additional columns. -/
structure TableSchema (M : Type) where
  name : String
  columns : Nat
  accepts : M → Bool

/-- `ANON_STATS_1D_TABLE` -/
def anonStats1dTable : TableSchema Unit := ⟨"anon_stats_1d", 4, fun _ => true⟩

/-- `ANON_STATS_1D_LIFTED_TABLE` -/
def anonStats1dLiftedTable : TableSchema Unit := ⟨"anon_stats_1d_lifted", 4, fun _ => true⟩

/-- `ANON_STATS_2D_TABLE` -/
def anonStats2dTable : TableSchema Unit := ⟨"anon_stats_2d", 4, fun _ => true⟩

/-- `ANON_STATS_2D_LIFTED_TABLE` -/
def anonStats2dLiftedTable : TableSchema Unit := ⟨"anon_stats_2d_lifted", 4, fun _ => true⟩

/-- `ANON_STATS_2D_TABLE_DI`, with `CHECK (sampling_rate BETWEEN 1 AND 100)` -/
def anonStats2dTableDi : TableSchema Sampling :=
  ⟨"anon_stats_2d_di", 7, fun s => decide (1 ≤ s.samplingRate.toNat ∧ s.samplingRate.toNat ≤ 100)⟩

/-- The rows that a condition selects, and the number of parameters that it binds. -/
structure Condition (M : Type) where
  selects : Partition M → Bool
  parameters : Nat

/-- `AND origin = $1`, with `AND operation = $2` for a given operation. -/
def byOrigin {M : Type} (origin : StoreOrigin) (operation : Option AnonStatsOperation) : Condition M where
  selects p := p.origin == origin.toI16 &&
    match operation with
    | some operation => p.operation == operation.toI16
    | none => true
  parameters :=
    match operation with
    | some _ => 2
    | none => 1

/-- The same with the columns of the deep identifier. -/
def bySampling (origin : StoreOrigin) (operation : AnonStatsOperation) (info : Sampling) : Condition Sampling where
  selects p := p == ⟨origin.toI16, operation.toI16, info⟩
  parameters := 5

/-- The row with `processed = TRUE`. -/
def StatRow.setProcessed {M : Type} (row : StatRow M) : StatRow M := { row with processed := true }

/-- `WHERE processed = FALSE AND ...` -/
def StatRow.available {M : Type} (condition : Condition M) (row : StatRow M) : Bool :=
  !row.processed && condition.selects row.partition

/-! ## Statements -/

/-- The values of a row that is inserted. -/
structure NewRow (M : Type) where
  matchId : Int
  info : M
  bundle : Bytes
  origin : BitVec 16
  operation : BitVec 16
  deriving Repr, DecidableEq

/-- The row under an id; `processed` has its default. -/
def NewRow.toRow {M : Type} (new : NewRow M) (id : Int) : StatRow M where
  id := id
  matchId := new.matchId
  bundle := new.bundle
  processed := false
  origin := new.origin
  operation := new.operation
  info := new.info

/-- The requests of the store. -/
inductive StoreQuery (M : Type) where
  | begin
  | insert (rows : List (NewRow M)) (parameters : Nat)
  | commit
  | rollback
  | select (condition : Condition M) (order : StatRow M → Int) (limit : Option Int)
  | mark (ids : List Int)
  | clear (condition : Condition M)

def StoreQuery.request {M : Type} : StoreQuery M → Request (StatRow M)
  | begin => .begin
  | insert rows parameters => .execute (.insert (rows.map NewRow.toRow)) parameters
  | commit => .commit
  | rollback => .rollback
  | select condition order limit =>
    .execute (.select (StatRow.available condition) order limit) (condition.parameters + 1)
  | mark ids => .execute (.update fun row => if row.id ∈ ids then [row.setProcessed] else []) 1
  | clear condition => .execute (.delete (StatRow.available condition)) condition.parameters

/-- How clients use a table of the store. -/
def storeUsage (M : Type) : Usage (StatRow M) := ⟨StoreQuery M, StoreQuery.request⟩

/-- A program on a table of the store. -/
abbrev StoreProgram (M α : Type) := Program (StatRow M) α

def ask {M : Type} (query : StoreQuery M) : StoreProgram M (Answer (StatRow M)) := request query.request

section Operations

variable {M T : Type}

/-! ## Selecting -/

/-- `num_available_anon_stats` and `num_available_anon_stats_2d_di`: the rows that the database counts. -/
def numAvailableAnonStats (condition : Condition M) : StoreProgram M (Outcome Nat) := do
  match Answer.all (← ask (.select condition (fun row => row.id) none)) with
  | .error e => return .bail e
  | .ok rows => return .ok rows.length

/-- `get_available_anon_stats` and `get_available_anon_stats_2d_di`. The limit is bound as an `i64`. -/
def getAvailable (deserialize : Bytes → Except String T) (tableName : String) (condition : Condition M)
    (limit : BitVec 64) : StoreProgram M (Outcome (List Int × List (Int × T))) := do
  match Answer.all (← ask (.select condition (fun row => row.id) (some limit.toInt))) with
  | .error e => return .bail e
  | .ok res => return (decodeRows deserialize tableName (res.map StatRow.toRow))

/-! ## Updating -/

/-- `mark_anon_stats_processed` -/
def markAnonStatsProcessed (ids : List Int) : StoreProgram M (Outcome Unit) := do
  match ← ask (.mark ids) with
  | .error e => return .bail e
  | .ok _ => return .ok ()

/-- `clear_unprocessed_anon_stats` and `clear_unprocessed_anon_stats_2d_di` -/
def clearUnprocessedAnonStats (condition : Condition M) : StoreProgram M (Outcome Nat) := do
  match ← ask (.clear condition) with
  | .error e => return .bail e
  | .ok result => return .ok result.rowsAffected

/-! ## Inserting -/

/-- `ANON_STATS_INSERT_BATCH_SIZE` -/
def anonStatsInsertBatchSize : Nat := 10000

/-- The values of an entry. -/
def newRow (serialize : T → Bytes) (origin : StoreOrigin) (operation : AnonStatsOperation) (entry : Int × M × T) :
    NewRow M where
  matchId := entry.1
  info := entry.2.1
  bundle := serialize entry.2.2
  origin := origin.toI16
  operation := operation.toI16

/-- The loop of an insert over the chunks, and its commit. A transaction that is dropped is rolled back. -/
def insertChunks (columns : Nat) : List (List (NewRow M)) → StoreProgram M (Outcome Unit)
  | [] => do
    match ← ask .commit with
    | .error e =>
      let _ ← ask .rollback
      return .bail e
    | .ok _ => return .ok ()
  | chunk :: rest => do
    match ← ask (.insert chunk (chunk.length * columns)) with
    | .error e =>
      let _ ← ask .rollback
      return .bail e
    | .ok res =>
      if res.rowsAffected ≠ chunk.length then
        let _ ← ask .rollback
        return .bail s!"Expected to insert {chunk.length} rows, but only inserted {res.rowsAffected} rows"
      else insertChunks columns rest

/-- `insert_anon_stats_batch` and `insert_anon_stats_batch_with_sampling_metadata` -/
def insertAnonStatsBatch (schema : TableSchema M) (serialize : T → Bytes) (anonStats : List (Int × M × T))
    (origin : StoreOrigin) (operation : AnonStatsOperation) : StoreProgram M (Outcome Unit) := do
  if anonStats.isEmpty then return .ok ()
  else
    match ← ask .begin with
    | .error e => return .bail e
    | .ok _ =>
      insertChunks schema.columns
        (Protocol.chunks anonStatsInsertBatchSize (anonStats.map (newRow serialize origin operation)))

/-! ## Clients -/

/-- The calls of a client. -/
inductive StoreCall (M T : Type) where
  | insert (anonStats : List (Int × M × T)) (origin : StoreOrigin) (operation : AnonStatsOperation)
  | numAvailable (condition : Condition M)
  | fetch (condition : Condition M) (limit : BitVec 64)
  | mark (ids : List Int)
  | clear (condition : Condition M)

/-- What a call returns. -/
inductive CallResult (T : Type) where
  | done (result : Outcome Unit)
  | count (result : Outcome Nat)
  | job (result : Outcome (List Int × List (Int × T)))

def StoreCall.run (schema : TableSchema M) (serialize : T → Bytes) (deserialize : Bytes → Except String T) :
    StoreCall M T → StoreProgram M (CallResult T)
  | insert anonStats origin operation => do
    return .done (← insertAnonStatsBatch schema serialize anonStats origin operation)
  | numAvailable condition => do return .count (← numAvailableAnonStats condition)
  | fetch condition limit => do return .job (← getAvailable deserialize schema.name condition limit)
  | mark ids => do return .done (← markAnonStatsProcessed ids)
  | clear condition => do return .count (← clearUnprocessedAnonStats condition)

end Operations

end AmpcCommon.Stats
