import AmpcCommon.Protocol.Opening
import AmpcCommon.Stats.Buckets

/-!
# Face statistics

The model of `process_face_distance_job` in `ampc-anon-stats/src/anon_stats/face.rs`. A distance is a shared `i16`; a
comparison with a threshold is the most significant bit of the difference.
-/

namespace AmpcCommon.Stats

open Protocol

variable {R : Type} [Rng R] {F : Type} [F64 F]

/-- The loop over the thresholds: for each one, a share of the number of distances below it. -/
def faceSums (s : Session) (job : List (Share 16)) : List (BitVec 16) → Proc R (List (Share 32))
  | [] => pure []
  | threshold :: thresholds => do
    let bucketDistances := job.map fun share => subPub s share threshold
    let bits ← extractMsbBatch .u16 s bucketDistances
    let sums : List (Share 32) ← bitInject .u32 s bits
    let sum := sums.foldl (· + ·) default
    let buckets ← faceSums s job thresholds
    return sum :: buckets

/-- The buckets, from the opened cumulative counts: one for every two thresholds that follow each other. -/
def faceBuckets (overflowChecks : Bool) (bucketsOpened : List (BitVec 32)) (thresholds : List (BitVec 16)) :
    Outcome (List (BucketResult F)) :=
  if bucketsOpened.length ≠ thresholds.length then
    .panicked "itertools: .zip_eq() reached end of one iterator before the other"
  else
    let cumulative := bucketsOpened.zip thresholds
    (cumulative.zip cumulative.tail).mapM fun ((bucket, threshold), (bucketEnd, thresholdEnd)) => do
      let count ← usizeSub overflowChecks bucketEnd.toNat bucket.toNat
      return ⟨count, F64.ofInt threshold.toInt, F64.ofInt thresholdEnd.toInt⟩

/-- The statistics before the buckets are pushed. -/
def faceStatistics (clock : Nat → DateTime) (jobSize : Nat) (config : AnonStatsServerConfig)
    (operation : Option AnonStatsOperation) (startTimestamp : Option DateTime) : BucketStatistics F :=
  let nBuckets := config.faceBucketThresholds.length
  let stats := BucketStatistics.new jobSize nBuckets config.partyId none .hd .aggregator operation (clock 0)
  { stats with startTimeUtcTimestamp := startTimestamp.getD (clock 1) }

/-- `process_face_distance_job` -/
def processFaceDistanceJob (overflowChecks : Bool) (clock : Nat → DateTime) (s : Session) (job : List (Share 16))
    (config : AnonStatsServerConfig) (operation : Option AnonStatsOperation) (startTimestamp : Option DateTime) :
    Proc R (BucketStatistics F) := do
  let thresholds := config.faceBucketThresholds
  let buckets ← faceSums s job thresholds
  let bucketsOpened ← openRing .u32 buckets
  let stats := faceStatistics clock job.length config operation startTimestamp
  let buckets ← Proc.lift (faceBuckets overflowChecks bucketsOpened thresholds)
  return { stats with buckets := stats.buckets ++ buckets, endTimeUtcTimestamp := some (clock 2) }

end AmpcCommon.Stats
