import AmpcCommon.Protocol.Distances
import AmpcCommon.Protocol.Opening
import AmpcCommon.Stats.Buckets2d
import AmpcCommon.Stats.Mapping

/-!
# Two-dimensional statistics

The model of `process_2d_inner` and `process_di_2d_anon_stats_job` in `ampc-anon-stats/src/anon_stats/iris_2d.rs`. The
two sides of every bundle are compared with all thresholds, and a cell of the grid is the sum of the products of the
left comparisons with one threshold and the right comparisons with another.
-/

namespace AmpcCommon.Stats

open Protocol

variable {R : Type} [Rng R] {F : Type} [F64 F]

/-- `calculate_iris_threshold_a` -/
def calculateIrisThresholdA (nBuckets : Nat) (upperMatchThresholdRatio : F) : Outcome (List (BitVec 32)) :=
  (List.range nBuckets).mapM fun (x : Nat) =>
    F64.translateThresholdA (F64.mul (F64.div upperMatchThresholdRatio (F64.ofInt nBuckets)) (F64.ofInt (x + 1)))

/-- Additive shares of 0, one for every cell. -/
def zeroShares : Nat → Proc R (List (BitVec 32))
  | 0 => pure []
  | n + 1 => do
    let share ← Proc.draw (Prf.genZeroShare .u32)
    let shares ← zeroShares n
    return share :: shares

/-- The sum of the local products of two chunks. -/
def productSum (leftChunk rightChunk : List (Share 32)) : BitVec 32 :=
  (List.zipWith Share.mul leftChunk rightChunk).foldl (· + ·) 0

/-- The loop over the pairs of chunks: the sum of the products is added to the next cell. -/
def addProducts : List (List (Share 32) × List (Share 32)) → Nat → List (BitVec 32) → Outcome (List (BitVec 32))
  | [], _, bucketShares => .ok bucketShares
  | (leftChunk, rightChunk) :: chunks, bucketIds, bucketShares =>
    if leftChunk.length ≠ rightChunk.length then
      .panicked "assertion failed: left_chunk.len() == right_chunk.len()"
    else
      match bucketShares[bucketIds]? with
      | none => .panicked s!"index out of bounds: the len is {bucketShares.length} but the index is {bucketIds}"
      | some share =>
        addProducts chunks (bucketIds + 1) (bucketShares.set bucketIds (share + productSum leftChunk rightChunk))

/-- The outer product of the comparisons of both sides, summed over the bundles and opened. -/
def openCells (jobSize n : Nat) (comparisonsLeft comparisonsRight : List (Share 32)) : Proc R (List (BitVec 32)) := do
  let bucketShares ← zeroShares (n * n)
  let bucketShares ←
    if jobSize ≠ 0 then
      let chunks := (chunks jobSize comparisonsLeft).product (chunks jobSize comparisonsRight)
      Proc.lift (addProducts chunks 0 bucketShares)
    else pure bucketShares
  openRingElementBroadcast .u32 bucketShares

/-- The number of buckets of an operation. -/
def numBuckets2d (config : AnonStatsServerConfig) : Option AnonStatsOperation → Nat
  | some .reauth => config.nBuckets2dReauth
  | none | some .uniqueness | some .recovery => config.nBuckets2d

/-- The upper threshold of an operation. -/
def upperThreshold2d : Option AnonStatsOperation → F
  | some .reauth => F64.matchThresholdRatioReauth
  | none | some .uniqueness | some .recovery => F64.matchThresholdRatio

/-- `process_2d_inner`, up to the opening of the cells. -/
def process2dCells (s : Session) (jobSize numBuckets : Nat) (translatedThresholds : List (BitVec 32))
    (liftedLeft liftedRight : List (List (DistanceShare 32))) : Proc R (List (BitVec 32)) := do
  let liftedMinLeft ← reduceToMinDistanceBatch s liftedLeft
  let liftedMinRight ← reduceToMinDistanceBatch s liftedRight
  let comparisonsLeft ← compareAgainstThresholdsBatched s translatedThresholds liftedMinLeft
  let comparisonsRight ← compareAgainstThresholdsBatched s translatedThresholds liftedMinRight
  openCells jobSize numBuckets comparisonsLeft comparisonsRight

/-- `process_2d_inner` -/
def process2dInner (clock : Nat → DateTime) (s : Session) (jobSize : Nat)
    (liftedLeft liftedRight : List (List (DistanceShare 32))) (origin : AnonStatsOrigin)
    (config : AnonStatsServerConfig) (operation : Option AnonStatsOperation) (startTimestamp : Option DateTime) :
    Proc R (BucketStatistics2D F) := do
  let numBuckets := numBuckets2d config operation
  let upperThreshold : F := upperThreshold2d operation
  let translatedThresholds ← Proc.lift (calculateIrisThresholdA numBuckets upperThreshold)
  let buckets ← process2dCells s jobSize numBuckets translatedThresholds liftedLeft liftedRight
  let anonStats :=
    BucketStatistics2D.new jobSize numBuckets config.partyId .fhd .aggregator operation none none (clock 0)
  let anonStats := { anonStats with isMirrorOrientation := origin.orientation == AnonStatsOrientation.mirror }
  return anonStats.fillBuckets buckets upperThreshold startTimestamp (clock 1)

/-- `compare_against_thresholds_di` -/
def compareAgainstThresholdsDi (s : Session) (distances : List (Share 16)) :
    List (BitVec 16) → Proc R (List (Share 32))
  | [] => pure []
  | threshold :: thresholds => do
    let shifted := distances.map fun share => subPub s share threshold
    let bits ← extractMsbBatch .u16 s shifted
    let injected : List (Share 32) ← bitInject .u32 s bits
    let comparisons ← compareAgainstThresholdsDi s distances thresholds
    return injected ++ comparisons

/-- `process_di_2d_anon_stats_job`, up to the opening of the cells. -/
def processDi2dCells (s : Session) (job : AnonStatsMapping (Share 16 × Share 16)) (thresholds : List (BitVec 16)) :
    Proc R (List (BitVec 32)) := do
  let jobData := job.intoBundles
  let comparisonsLeft ← compareAgainstThresholdsDi s (jobData.map Prod.fst) thresholds
  let comparisonsRight ← compareAgainstThresholdsDi s (jobData.map Prod.snd) thresholds
  openCells job.len thresholds.length comparisonsLeft comparisonsRight

/-- `process_di_2d_anon_stats_job` -/
def processDi2dAnonStatsJob (clock : Nat → DateTime) (s : Session) (job : AnonStatsMapping (Share 16 × Share 16))
    (origin : AnonStatsOrigin) (config : AnonStatsServerConfig) (operation : Option AnonStatsOperation)
    (startTimestamp : Option DateTime) (samplingRate : UInt8)
    (leftOppositeMirrorMatch rightOppositeMirrorMatch : Bool) : Proc R (BucketStatistics2D F) := do
  let thresholds := config.di2dBucketThresholds
  let buckets ← processDi2dCells s job thresholds
  let anonStats := BucketStatistics2D.new job.len thresholds.length config.partyId .quantizedCosine .aggregator
    operation (some leftOppositeMirrorMatch) (some rightOppositeMirrorMatch) (clock 0)
  let anonStats := { anonStats with
    isMirrorOrientation := origin.orientation == AnonStatsOrientation.mirror
    samplingRate := some samplingRate }
  return anonStats.fillBucketsDi buckets thresholds startTimestamp (clock 1)

end AmpcCommon.Stats
