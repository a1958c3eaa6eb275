import AmpcCommon.Base.Bytes
import AmpcCommon.Base.Counts
import AmpcCommon.Base.KeyOrder
import AmpcCommon.Stats.Buckets

/-!
# Jobs of the store

The model of how a job gets its bundles: `get_available_anon_stats` of `ampc-anon-stats/src/store/mod.rs` reads the
first rows of a table, and an `AnonStatsMapping` of `types.rs` sorts them by their match id. A table holds the columns
the query reads; the decoder of the bundles is `bincode`, and the hash of the ids is `siphasher`: both are parameters.
-/

namespace AmpcCommon.Stats

open KeyOrder

/-! ## Tables -/

/-- `AnonStatsContext` -/
inductive AnonStatsContext where
  | gpu
  | hnsw
  | face
  | di
  deriving Repr, DecidableEq

/-- An `AnonStatsOrigin` with all its fields. -/
structure StoreOrigin extends AnonStatsOrigin where
  side : Option Eye
  context : AnonStatsContext
  deriving Repr, DecidableEq

/-- `origin.context as i16` -/
def AnonStatsContext.toI16 : AnonStatsContext → BitVec 16
  | .gpu => 0
  | .hnsw => 1
  | .face => 2
  | .di => 3

/-- `i16::from(origin)`: two bits for the side, one for the orientation, eight for the context. -/
def StoreOrigin.toI16 (origin : StoreOrigin) : BitVec 16 :=
  let sideVal : BitVec 16 :=
    match origin.side with
    | some .left => 0
    | some .right => 1
    | none => 2
  let orientationVal : BitVec 16 :=
    match origin.orientation with
    | .normal => 0
    | .mirror => 1
  sideVal <<< 9 ||| orientationVal <<< 8 ||| origin.context.toI16

/-- `i16::from(operation)` -/
def AnonStatsOperation.toI16 : AnonStatsOperation → BitVec 16
  | .uniqueness => 0
  | .reauth => 1
  | .recovery => 2

/-- A row of a table of statistics; a `BIGINT` is an integer. -/
structure Row where
  id : Int
  matchId : Int
  bundle : Bytes
  processed : Bool
  origin : BitVec 16
  operation : BitVec 16
  deriving Repr, DecidableEq

/-- A table, whose primary key is the id. -/
structure Table where
  rows : List Row
  ids_nodup : (rows.map Row.id).Nodup

/-- `WHERE processed = FALSE and origin = $1`, with `AND operation = $2` for a given operation. -/
def Row.matches (origin : StoreOrigin) (operation : Option AnonStatsOperation) (row : Row) : Bool :=
  !row.processed && row.origin == origin.toI16 &&
    match operation with
    | some operation => row.operation == operation.toI16
    | none => true

/-- The rows the query selects from, `ORDER BY id ASC`. -/
def Table.available (table : Table) (origin : StoreOrigin) (operation : Option AnonStatsOperation) : List Row :=
  sortByKey Row.id (table.rows.filter (Row.matches origin operation))

/-- The query. The limit is bound as an `i64`. -/
def Table.fetchAll (table : Table) (origin : StoreOrigin) (operation : Option AnonStatsOperation) (limit : BitVec 64) :
    Outcome (List Row) :=
  if limit.toInt < 0 then .bail "LIMIT must not be negative"
  else .ok ((table.available origin operation).take limit.toInt.toNat)

section Fetch

variable {T : Type} (deserialize : Bytes → Except String T) (tableName : String)

/-- A fetched row with its bundle decoded. -/
def decodeRow (row : Row) : Outcome (Int × Int × T) :=
  match deserialize row.bundle with
  | .ok bundle => .ok (row.id, row.matchId, bundle)
  | .error e =>
    .bail s!"Failed to deserialize distance bundle from table {tableName} for anon_stats id {row.id}: {e}"

/-- The ids and the bundles of the rows of a query. -/
def decodeRows (res : List Row) : Outcome (List Int × List (Int × T)) := do
  let rows ← res.mapM (decodeRow deserialize tableName)
  pure rows.unzip

/-- `get_available_anon_stats` -/
def getAvailableAnonStats (table : Table) (origin : StoreOrigin) (operation : Option AnonStatsOperation)
    (limit : BitVec 64) : Outcome (List Int × List (Int × T)) := do
  let res ← table.fetchAll origin operation limit
  decodeRows deserialize tableName res

end Fetch

/-! ## Jobs -/

/-- `AnonStatsMapping` -/
structure AnonStatsMapping (α : Type) where
  stats : List (Int × α)

/-- `len` -/
def AnonStatsMapping.len {α : Type} (job : AnonStatsMapping α) : Nat := job.stats.length

/-- `into_bundles` -/
def AnonStatsMapping.intoBundles {α : Type} (job : AnonStatsMapping α) : List α := job.stats.map Prod.snd

/-- An `AnonStatsMapping` as `new` and `truncate` leave it: the bundles are in the order of their match ids. -/
structure SortedMapping (T : Type) extends AnonStatsMapping T where
  sorted : stats.Pairwise fun a b => a.1 ≤ b.1

namespace SortedMapping

variable {T : Type}

/-- `AnonStatsMapping::new` -/
protected def new (stats : List (Int × T)) : SortedMapping T where
  stats := sortByKey Prod.fst stats
  sorted := sortByKey_sorted Prod.fst stats

/-- The match ids, in the order in which `get_id_hash` digests them. -/
def ids (mapping : SortedMapping T) : List Int := mapping.stats.map Prod.fst

/-- `get_id_hash`, for the hash function `finish` of what is written to the hasher. -/
def getIdHash (finish : List Int → UInt64) (mapping : SortedMapping T) : UInt64 := finish mapping.ids

/-- `truncate` -/
def truncate (mapping : SortedMapping T) (newSize : Nat) : SortedMapping T where
  stats := mapping.stats.take newSize
  sorted := mapping.sorted.sublist (List.take_sublist newSize mapping.stats)

end SortedMapping

/-- A job of at most `size` bundles. -/
def job {T : Type} (stats : List (Int × T)) (size : Nat) : SortedMapping T :=
  (SortedMapping.new stats).truncate size

end AmpcCommon.Stats
