import AmpcCommon.Stats.Iris1d

/-!
# Two-dimensional jobs

The model of the jobs of `ampc-anon-stats/src/anon_stats/iris_2d.rs` on bundles of two sides: those on fractional
distances, whose inner part is `process2dInner`, and those on normalized distances. The sides are lifted one after the
other.
-/

namespace AmpcCommon.Stats

open Protocol

/-- `DistanceBundle2D`, and the lifted bundles -/
abbrev DistanceBundle2D (K : Nat) := DistanceBundle1D K × DistanceBundle1D K

variable {R : Type} [Rng R]

section Fhd

variable {F : Type} [F64 F]

/-- `process_2d_anon_stats_job` -/
def process2dAnonStatsJob (clock : Nat → DateTime) (s : Session) (job : AnonStatsMapping (DistanceBundle2D 16))
    (origin : AnonStatsOrigin) (config : AnonStatsServerConfig) (operation : Option AnonStatsOperation)
    (startTimestamp : Option DateTime) : Proc R (BucketStatistics2D F) := do
  let jobData := job.intoBundles
  let liftedLeft ← liftBundles1d s (jobData.map Prod.fst)
  let liftedRight ← liftBundles1d s (jobData.map Prod.snd)
  process2dInner clock s job.len liftedLeft liftedRight origin config operation startTimestamp

/-- `process_2d_lifted_anon_stats_job` -/
def process2dLiftedAnonStatsJob (clock : Nat → DateTime) (s : Session) (job : AnonStatsMapping (DistanceBundle2D 32))
    (origin : AnonStatsOrigin) (config : AnonStatsServerConfig) (operation : Option AnonStatsOperation)
    (startTimestamp : Option DateTime) : Proc R (BucketStatistics2D F) :=
  let jobData := job.intoBundles
  process2dInner clock s job.len (jobData.map Prod.fst) (jobData.map Prod.snd) origin config operation startTimestamp

end Fhd

section Nhd

variable {F : Type} [NhdF64 F]

/-- The number of buckets of an operation, and the upper threshold, for normalized distances. -/
def nhdBuckets2d (config : IrisServerConfig F) : Option AnonStatsOperation → Nat × F
  | some .reauth => (config.nBuckets2dReauth, F64.matchThresholdRatioReauth)
  | none | some .uniqueness | some .recovery => (config.nBuckets2dNhd, config.nhdThresholdRatio)

/-- `process_2d_anon_stats_score_normalization_inner`, up to the opening of the cells. -/
def process2dNhdCells (s : Session) (jobSize numBuckets : Nat) (translatedThresholds : List Nat)
    (liftedLeft liftedRight : List (DistanceBundle1D 48)) : Proc R (List (BitVec 32)) := do
  let liftedMinLeft ← nhdReduceToMinDistanceBatch s liftedLeft
  let liftedMinRight ← nhdReduceToMinDistanceBatch s liftedRight
  let comparisonsLeft ← nhdCompareAgainstThresholdsBatched s translatedThresholds liftedMinLeft
  let comparisonsRight ← nhdCompareAgainstThresholdsBatched s translatedThresholds liftedMinRight
  openCells jobSize numBuckets comparisonsLeft comparisonsRight

/-- `process_2d_anon_stats_score_normalization_inner` -/
def process2dAnonStatsScoreNormalizationInner (clock : Nat → DateTime) (s : Session) (jobSize : Nat)
    (liftedLeft liftedRight : List (DistanceBundle1D 48)) (origin : AnonStatsOrigin) (config : IrisServerConfig F)
    (operation : Option AnonStatsOperation) (startTimestamp : Option DateTime) : Proc R (BucketStatistics2D F) := do
  let numBuckets := (nhdBuckets2d config operation).1
  let upperThreshold := (nhdBuckets2d config operation).2
  let translatedThresholds := nhdThresholds numBuckets upperThreshold
  let buckets ← process2dNhdCells s jobSize numBuckets translatedThresholds liftedLeft liftedRight
  let anonStats :=
    BucketStatistics2D.new jobSize numBuckets config.partyId .nhd .aggregator operation none none (clock 0)
  let anonStats := { anonStats with isMirrorOrientation := origin.orientation == AnonStatsOrientation.mirror }
  return anonStats.fillBuckets buckets upperThreshold startTimestamp (clock 1)

/-- `process_2d_anon_stats_score_normalization_job` -/
def process2dAnonStatsScoreNormalizationJob (clock : Nat → DateTime) (s : Session)
    (job : AnonStatsMapping (DistanceBundle2D 16)) (origin : AnonStatsOrigin) (config : IrisServerConfig F)
    (operation : Option AnonStatsOperation) (startTimestamp : Option DateTime) : Proc R (BucketStatistics2D F) := do
  let jobData := job.intoBundles
  let liftedLeft ← liftBundlesU48_1d s (jobData.map Prod.fst)
  let liftedRight ← liftBundlesU48_1d s (jobData.map Prod.snd)
  process2dAnonStatsScoreNormalizationInner clock s job.len liftedLeft liftedRight origin config operation
    startTimestamp

/-- `process_2d_lifted_anon_stats_score_normalization_job` -/
def process2dLiftedAnonStatsScoreNormalizationJob (clock : Nat → DateTime) (s : Session)
    (job : AnonStatsMapping (DistanceBundle2D 48)) (origin : AnonStatsOrigin) (config : IrisServerConfig F)
    (operation : Option AnonStatsOperation) (startTimestamp : Option DateTime) : Proc R (BucketStatistics2D F) :=
  let jobData := job.intoBundles
  process2dAnonStatsScoreNormalizationInner clock s job.len (jobData.map Prod.fst) (jobData.map Prod.snd) origin config
    operation startTimestamp

end Nhd

end AmpcCommon.Stats
