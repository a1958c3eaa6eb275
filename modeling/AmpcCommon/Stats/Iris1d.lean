import AmpcCommon.Protocol.Nhd
import AmpcCommon.Stats.Iris2d

/-!
# One-dimensional statistics

The model of `ampc-anon-stats/src/anon_stats/iris_1d.rs`, with `BucketStatistics::fill_buckets` of `buckets.rs`. A job
lifts the distances of its bundles, reduces every bundle to its smallest distance, counts the bundles below every
threshold and opens the counts. There is one kind of job for fractional distances and one for normalized distances, and
both come with distances that are lifted already.
-/

namespace AmpcCommon.Stats

open Protocol

/-- What the jobs on normalized distances use of `f64`. -/
class NhdF64 (F : Type) extends F64 F where
  /-- `(25.0 * B as f64 * threshold_ratio) as u64` -/
  nhdThreshold : F → Nat

/-- `AnonStatsServerConfig`, with the fields that only the jobs on the distances of irises read. -/
structure IrisServerConfig (F : Type) extends AnonStatsServerConfig where
  nBuckets1d : Nat
  nBuckets1dReauth : Nat
  nBuckets1dNhd : Nat
  nBuckets2dNhd : Nat
  nhdThresholdRatio : F

/-! ## Filling in the buckets -/

section Fill

variable {F : Type} [F64 F]

/-- The loop of `fill_buckets` from the index `i` on. A count that is smaller than the one before is clamped. -/
def fillLoop (label : Nat → F × F) : Nat → BitVec 32 → List (BitVec 32) → List (BucketResult F)
  | _, _, [] => []
  | i, previousCount, current :: bucketsArray =>
    let count := if previousCount ≤ current then current - previousCount else 0
    ⟨count.toNat, label i⟩ :: fillLoop label (i + 1) current bucketsArray

/-- `fill_buckets` -/
def BucketStatistics.fillBuckets (stats : BucketStatistics F) (bucketsArray : List (BitVec 32))
    (matchThresholdRatio : F) (startTimestamp : Option DateTime) (now : DateTime) : BucketStatistics F :=
  let step := F64.div matchThresholdRatio (F64.ofInt stats.nBuckets)
  { stats with
    buckets := fillLoop (stepRange step) 0 0 bucketsArray
    endTimeUtcTimestamp := some now
    startTimeUtcTimestamp := startTimestamp.getD stats.startTimeUtcTimestamp
    nextStartTimeUtcTimestamp := some now }

end Fill

/-! ## Lifting -/

section Regroup

variable {α β : Type}

/-- `v[idx]` -/
def indexVec (v : List α) (idx : Nat) : Outcome α :=
  match v[idx]? with
  | some x => .ok x
  | none => .panicked s!"index out of bounds: the len is {v.length} but the index is {idx}"

/-- The loop over the elements of one bundle: an element is read at an index, which then moves on by `width`. -/
def readBundle (read : Nat → Outcome β) (width : Nat) : Nat → Nat → Outcome (List β × Nat)
  | 0, idx => .ok ([], idx)
  | chunkSize + 1, idx => do
    let x ← read idx
    let (bundle, idx) ← readBundle read width chunkSize (idx + width)
    return (x :: bundle, idx)

/-- The loop over the sizes of the bundles. -/
def readBundles (read : Nat → Outcome β) (width : Nat) : List Nat → Nat → Outcome (List (List β) × Nat)
  | [], idx => .ok ([], idx)
  | chunkSize :: sizes, idx => do
    let (bundle, idx) ← readBundle read width chunkSize idx
    let (bundles, idx) ← readBundles read width sizes idx
    return (bundle :: bundles, idx)

/-- The lifted elements in the shape of the bundles; all `len` of them must be used. -/
def reconstruct (read : Nat → Outcome β) (width len : Nat) (sizes : List Nat) : Outcome (List (List β)) := do
  let (lifted, idx) ← readBundles read width sizes 0
  if idx = len then return lifted else .panicked "assertion failed: idx == lifted_flattened.len()"

end Regroup

/-- `DistanceBundle1D`, and the lifted bundles -/
abbrev DistanceBundle1D (K : Nat) := List (DistanceShare K)

/-- The code and mask dot products of all bundles. -/
def flattenBundles {K : Nat} (bundles : List (DistanceBundle1D K)) : List (Share K) :=
  bundles.flatMap fun x => x.flatMap fun y => [y.codeDot, y.maskDot]

variable {R : Type} [Rng R]

/-- `batch_signed_lift_vec` -/
def batchSignedLiftVec (s : Session) (preLift : List (Share 16)) : Proc R (List (Share 32)) := batchSignedLift s preLift

/-- `batch_signed_lift_vec_ring48` -/
def batchSignedLiftVecRing48 (s : Session) (preLift : List (Share 16)) : Proc R (List (Share 48)) :=
  batchSignedLiftRing48 s preLift

/-- `DistanceShare::new(chunk[0], chunk[1])` -/
def distanceOfChunk {K : Nat} (chunk : List (Share K)) : Outcome (DistanceShare K) := do
  let codeDot ← indexVec chunk 0
  let maskDot ← indexVec chunk 1
  return ⟨codeDot, maskDot⟩

/-- `nhd_lift_distances` -/
def nhdLiftDistances (s : Session) (preLift : List (Share 16)) : Proc R (List (DistanceShare 48)) := do
  let lifted ← batchSignedLiftVecRing48 s preLift
  Proc.lift ((chunks 2 lifted).mapM distanceOfChunk)

/-- The two shares of a distance, from the index of the first one. -/
def readDistance {K : Nat} (liftedFlattened : List (Share K)) (idx : Nat) : Outcome (DistanceShare K) := do
  let codeDot ← indexVec liftedFlattened idx
  let maskDot ← indexVec liftedFlattened (idx + 1)
  return ⟨codeDot, maskDot⟩

/-- `lift_bundles_1d` -/
def liftBundles1d (s : Session) (bundles : List (DistanceBundle1D 16)) : Proc R (List (DistanceBundle1D 32)) := do
  let liftedFlattened ← batchSignedLiftVec s (flattenBundles bundles)
  Proc.lift (reconstruct (readDistance liftedFlattened) 2 liftedFlattened.length (bundles.map List.length))

/-- `lift_bundles_u48_1d` -/
def liftBundlesU48_1d (s : Session) (bundles : List (DistanceBundle1D 16)) : Proc R (List (DistanceBundle1D 48)) := do
  let liftedFlattened ← nhdLiftDistances s (flattenBundles bundles)
  Proc.lift (reconstruct (indexVec liftedFlattened) 1 liftedFlattened.length (bundles.map List.length))

/-! ## Jobs -/

section Report

variable {F : Type} [F64 F]

/-- What both kinds of job do with the opened counts. -/
def bucketReport (clock : Nat → DateTime) (jobSize numBuckets : Nat) (distanceFunction : DistanceFunction)
    (origin : StoreOrigin) (config : IrisServerConfig F) (operation : Option AnonStatsOperation)
    (buckets : List (BitVec 32)) (matchThresholdRatio : F) (startTimestamp : Option DateTime) : BucketStatistics F :=
  let anonStats := BucketStatistics.new jobSize numBuckets config.partyId origin.side distanceFunction .aggregator
    operation (clock 0)
  let anonStats := { anonStats with isMirrorOrientation := origin.orientation == AnonStatsOrientation.mirror }
  anonStats.fillBuckets buckets matchThresholdRatio startTimestamp (clock 1)

/-- The number of buckets of an operation, and the upper threshold, for fractional distances. -/
def fhdBuckets1d (config : IrisServerConfig F) : Option AnonStatsOperation → Nat × F
  | some .reauth => (config.nBuckets1dReauth, F64.matchThresholdRatioReauth)
  | none | some .uniqueness | some .recovery => (config.nBuckets1d, F64.matchThresholdRatio)

/-- `process_1d_inner` -/
def process1dInner (clock : Nat → DateTime) (s : Session) (jobSize : Nat) (liftedData : List (DistanceBundle1D 32))
    (origin : StoreOrigin) (config : IrisServerConfig F) (operation : Option AnonStatsOperation)
    (startTimestamp : Option DateTime) : Proc R (BucketStatistics F) := do
  let numBuckets := (fhdBuckets1d config operation).1
  let matchThresholdRatio := (fhdBuckets1d config operation).2
  let translatedThresholds ← Proc.lift (calculateIrisThresholdA numBuckets matchThresholdRatio)
  let bucketResultShares ← compareMinThresholdBuckets s translatedThresholds liftedData
  let buckets ← openRing .u32 bucketResultShares
  return bucketReport clock jobSize numBuckets .fhd origin config operation buckets matchThresholdRatio startTimestamp

/-- `process_1d_anon_stats_job` -/
def process1dAnonStatsJob (clock : Nat → DateTime) (s : Session) (job : AnonStatsMapping (DistanceBundle1D 16))
    (origin : StoreOrigin) (config : IrisServerConfig F) (operation : Option AnonStatsOperation)
    (startTimestamp : Option DateTime) : Proc R (BucketStatistics F) := do
  let liftedData ← liftBundles1d s job.intoBundles
  process1dInner clock s job.len liftedData origin config operation startTimestamp

/-- `process_1d_lifted_anon_stats_job` -/
def process1dLiftedAnonStatsJob (clock : Nat → DateTime) (s : Session) (job : AnonStatsMapping (DistanceBundle1D 32))
    (origin : StoreOrigin) (config : IrisServerConfig F) (operation : Option AnonStatsOperation)
    (startTimestamp : Option DateTime) : Proc R (BucketStatistics F) :=
  process1dInner clock s job.len job.intoBundles origin config operation startTimestamp

/-- `calculate_iris_threshold_score_normalization` -/
def calculateIrisThresholdScoreNormalization (nBuckets : Nat) (upperMatchThresholdRatio : F) : List F :=
  (List.range nBuckets).map fun (x : Nat) =>
    F64.mul (F64.div upperMatchThresholdRatio (F64.ofInt nBuckets)) (F64.ofInt (x + 1))

end Report

section Nhd

variable {F : Type} [NhdF64 F]

/-- The number of buckets of an operation, and the upper threshold, for normalized distances. -/
def nhdBuckets1d (config : IrisServerConfig F) : Option AnonStatsOperation → Nat × F
  | some .reauth => (config.nBuckets1dReauth, F64.matchThresholdRatioReauth)
  | none | some .uniqueness | some .recovery => (config.nBuckets1dNhd, config.nhdThresholdRatio)

/-- The thresholds as they enter the comparisons. -/
def nhdThresholds (nBuckets : Nat) (upperMatchThresholdRatio : F) : List Nat :=
  (calculateIrisThresholdScoreNormalization nBuckets upperMatchThresholdRatio).map NhdF64.nhdThreshold

/-- `process_1d_anon_stats_score_normalization_inner` -/
def process1dAnonStatsScoreNormalizationInner (clock : Nat → DateTime) (s : Session) (jobSize : Nat)
    (liftedData : List (DistanceBundle1D 48)) (origin : StoreOrigin) (config : IrisServerConfig F)
    (operation : Option AnonStatsOperation) (startTimestamp : Option DateTime) : Proc R (BucketStatistics F) := do
  let numBuckets := (nhdBuckets1d config operation).1
  let matchThresholdRatio := (nhdBuckets1d config operation).2
  let bucketResultShares ← compareMinThresholdBucketsScoreNormalization s
    (nhdThresholds numBuckets matchThresholdRatio) liftedData
  let buckets ← openRing .u32 bucketResultShares
  return bucketReport clock jobSize numBuckets .nhd origin config operation buckets matchThresholdRatio startTimestamp

/-- `process_1d_anon_stats_score_normalization_job` -/
def process1dAnonStatsScoreNormalizationJob (clock : Nat → DateTime) (s : Session)
    (job : AnonStatsMapping (DistanceBundle1D 16)) (origin : StoreOrigin) (config : IrisServerConfig F)
    (operation : Option AnonStatsOperation) (startTimestamp : Option DateTime) : Proc R (BucketStatistics F) := do
  let liftedData ← liftBundlesU48_1d s job.intoBundles
  process1dAnonStatsScoreNormalizationInner clock s job.len liftedData origin config operation startTimestamp

/-- `process_1d_lifted_anon_stats_score_normalization_job` -/
def process1dLiftedAnonStatsScoreNormalizationJob (clock : Nat → DateTime) (s : Session)
    (job : AnonStatsMapping (DistanceBundle1D 48)) (origin : StoreOrigin) (config : IrisServerConfig F)
    (operation : Option AnonStatsOperation) (startTimestamp : Option DateTime) : Proc R (BucketStatistics F) :=
  process1dAnonStatsScoreNormalizationInner clock s job.len job.intoBundles origin config operation startTimestamp

end Nhd

end AmpcCommon.Stats
