import AmpcCommon.Stats.Buckets

/-!
# Two-dimensional bucket statistics

The model of `BucketStatistics2D` of `ampc-anon-stats/src/anon_stats/buckets.rs`: the cells of a grid are recovered
from opened cumulative counts by inclusion–exclusion.
-/

namespace AmpcCommon.Stats

/-- `Bucket2DResult` -/
structure Bucket2DResult (F : Type) where
  count : Nat
  leftHammingDistanceBucket : F × F
  rightHammingDistanceBucket : F × F
  deriving DecidableEq

/-- `BucketStatistics2D` -/
structure BucketStatistics2D (F : Type) where
  buckets : List (Bucket2DResult F)
  nBucketsPerSide : Nat
  matchDistancesBufferSize : Nat
  partyId : Nat
  operation : AnonStatsOperation
  distanceFunction : DistanceFunction
  source : AnonStatsResultSource
  startTimeUtcTimestamp : DateTime
  endTimeUtcTimestamp : Option DateTime
  nextStartTimeUtcTimestamp : Option DateTime
  isMirrorOrientation : Bool
  leftOppositeMirrorMatch : Option Bool
  rightOppositeMirrorMatch : Option Bool
  samplingRate : Option UInt8
  deriving DecidableEq

variable {F : Type} [F64 F]

/-- `BucketStatistics2D::new` -/
def BucketStatistics2D.new (matchDistancesBufferSize nBucketsPerSide partyId : Nat)
    (distanceFunction : DistanceFunction) (source : AnonStatsResultSource) (operation : Option AnonStatsOperation)
    (leftOppositeMirrorMatch rightOppositeMirrorMatch : Option Bool) (now : DateTime) : BucketStatistics2D F where
  buckets := []
  nBucketsPerSide := nBucketsPerSide
  matchDistancesBufferSize := matchDistancesBufferSize
  partyId := partyId
  operation := operation.getD default
  distanceFunction := distanceFunction
  source := source
  startTimeUtcTimestamp := now
  endTimeUtcTimestamp := none
  nextStartTimeUtcTimestamp := none
  isMirrorOrientation := false
  leftOppositeMirrorMatch := leftOppositeMirrorMatch
  rightOppositeMirrorMatch := rightOppositeMirrorMatch
  samplingRate := none

/-- `buckets_2d.get(idx).unwrap_or(&0) as i64` -/
def cumulativeAt (buckets2d : List (BitVec 32)) (idx : Nat) : Int := ((buckets2d[idx]?.getD 0).toNat : Int)

/-- The count of a cell, by inclusion–exclusion, before it is clamped. -/
def decumulated (n : Nat) (buckets2d : List (BitVec 32)) (idx : Nat) : Int :=
  let i := idx / n
  let j := idx % n
  let cij := cumulativeAt buckets2d idx
  let cim1j := if i > 0 then cumulativeAt buckets2d (idx - n) else 0
  let cijm1 := if j > 0 then cumulativeAt buckets2d (idx - 1) else 0
  let cim1jm1 := if i > 0 ∧ j > 0 then cumulativeAt buckets2d (idx - n - 1) else 0
  cij - cim1j - cijm1 + cim1jm1

/-- The loop over the cells, with the label of a row or column: only cells with a positive count are kept. -/
def fillCells (label : Nat → F × F) (n : Nat) (buckets2d : List (BitVec 32)) : List (Bucket2DResult F) :=
  (List.range (n * n)).filterMap fun idx =>
    let cell := decumulated n buckets2d idx
    let cell := if cell < 0 then 0 else cell
    if cell > 0 then some ⟨cell.toNat, label (idx / n), label (idx % n)⟩ else none

/-- What `fill_buckets` and `fill_buckets_di` have in common. -/
def BucketStatistics2D.fill (stats : BucketStatistics2D F) (label : Nat → F × F) (buckets2d : List (BitVec 32))
    (startTimestamp : Option DateTime) (now : DateTime) : BucketStatistics2D F :=
  { stats with
    buckets := fillCells label stats.nBucketsPerSide buckets2d
    endTimeUtcTimestamp := some now
    startTimeUtcTimestamp := startTimestamp.getD stats.startTimeUtcTimestamp
    nextStartTimeUtcTimestamp := some now }

/-- The ranges of a side that is divided into steps of one size. -/
def stepRange (step : F) (i : Nat) : F × F :=
  (F64.roundBoundary (F64.mul step (F64.ofInt i)), F64.roundBoundary (F64.mul step (F64.ofInt (i + 1))))

/-- `fill_buckets` -/
def BucketStatistics2D.fillBuckets (stats : BucketStatistics2D F) (buckets2d : List (BitVec 32))
    (matchThresholdRatio : F) (startTimestamp : Option DateTime) (now : DateTime) : BucketStatistics2D F :=
  let step := F64.div matchThresholdRatio (F64.ofInt stats.nBucketsPerSide)
  stats.fill (stepRange step) buckets2d startTimestamp now

/-- The range of the bucket `k` between two edges. The first edge is `i16::MIN`, and the others are the thresholds. -/
def bucketLimits (thresholds : List (BitVec 16)) (k : Nat) : F × F :=
  let edges : List F := F64.ofInt (-32768) :: thresholds.map fun t => F64.ofInt t.toInt
  -- there is one more edge than buckets, so the default is not used
  (edges.getD k (F64.ofInt 0), edges.getD (k + 1) (F64.ofInt 0))

/-- `fill_buckets_di` -/
def BucketStatistics2D.fillBucketsDi (stats : BucketStatistics2D F) (buckets2d : List (BitVec 32))
    (thresholds : List (BitVec 16)) (startTimestamp : Option DateTime) (now : DateTime) : BucketStatistics2D F :=
  let stats := { stats with nBucketsPerSide := thresholds.length }
  stats.fill (bucketLimits thresholds) buckets2d startTimestamp now

end AmpcCommon.Stats
