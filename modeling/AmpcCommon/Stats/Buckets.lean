import AmpcCommon.Base.Outcome
import Mathlib.Data.BitVec

/-!
# Bucket statistics

The model of the one-dimensional statistics of `ampc-anon-stats/src/anon_stats/buckets.rs`, with the types of
`types.rs` and the part of the configuration that the jobs read. Floating point numbers are a parameter (`F64`), and
the readings of the clock are given to the functions that take them.
-/

namespace AmpcCommon.Stats

/-- What the jobs use of `f64`. -/
class F64 (F : Type) where
  /-- `as f64` -/
  ofInt : Int → F
  mul : F → F → F
  div : F → F → F
  /-- `round_boundary` -/
  roundBoundary : F → F
  /-- `translate_threshold_a` -/
  translateThresholdA : F → Outcome (BitVec 32)
  /-- `MATCH_THRESHOLD_RATIO` -/
  matchThresholdRatio : F
  /-- `MATCH_THRESHOLD_RATIO_REAUTH` -/
  matchThresholdRatioReauth : F

/-- A time, in seconds. -/
abbrev DateTime := Int

/-- `AnonStatsOperation` -/
inductive AnonStatsOperation where
  | uniqueness
  | reauth
  | recovery
  deriving Repr, DecidableEq

instance : Inhabited AnonStatsOperation := ⟨.uniqueness⟩

/-- `Eye` -/
inductive Eye where
  | left
  | right
  deriving Repr, DecidableEq

/-- `DistanceFunction` -/
inductive DistanceFunction where
  | fhd
  | nhd
  | hd
  | quantizedCosine
  deriving Repr, DecidableEq

/-- `AnonStatsResultSource` -/
inductive AnonStatsResultSource where
  | legacy
  | aggregator
  deriving Repr, DecidableEq

/-- `AnonStatsOrientation` -/
inductive AnonStatsOrientation where
  | normal
  | mirror
  deriving Repr, DecidableEq

/-- The orientation of an `AnonStatsOrigin`. -/
structure AnonStatsOrigin where
  orientation : AnonStatsOrientation
  deriving Repr, DecidableEq

/-- `AnonStatsServerConfig`, as far as the jobs read it; an `i16` is a word of 16 bits. -/
structure AnonStatsServerConfig where
  partyId : Nat
  nBuckets2d : Nat
  nBuckets2dReauth : Nat
  faceBucketThresholds : List (BitVec 16)
  di2dBucketThresholds : List (BitVec 16)
  deriving Repr, DecidableEq

/-- `BucketResult` -/
structure BucketResult (F : Type) where
  count : Nat
  hammingDistanceBucket : F × F
  deriving DecidableEq

/-- `BucketStatistics` -/
structure BucketStatistics (F : Type) where
  buckets : List (BucketResult F)
  nBuckets : Nat
  matchDistancesBufferSize : Nat
  partyId : Nat
  operation : AnonStatsOperation
  eye : Option Eye
  distanceFunction : DistanceFunction
  source : AnonStatsResultSource
  startTimeUtcTimestamp : DateTime
  endTimeUtcTimestamp : Option DateTime
  nextStartTimeUtcTimestamp : Option DateTime
  isMirrorOrientation : Bool
  deriving DecidableEq

/-- `BucketStatistics::new` -/
def BucketStatistics.new {F : Type} (matchDistancesBufferSize nBuckets partyId : Nat) (eye : Option Eye)
    (distanceFunction : DistanceFunction) (source : AnonStatsResultSource) (operation : Option AnonStatsOperation)
    (now : DateTime) : BucketStatistics F where
  buckets := []
  nBuckets := nBuckets
  matchDistancesBufferSize := matchDistancesBufferSize
  partyId := partyId
  operation := operation.getD default
  eye := eye
  distanceFunction := distanceFunction
  source := source
  startTimeUtcTimestamp := now
  endTimeUtcTimestamp := none
  nextStartTimeUtcTimestamp := none
  isMirrorOrientation := false

/-- The subtraction of two `usize`: when it overflows, a build with overflow checks panics, and one without wraps. -/
def usizeSub (overflowChecks : Bool) (x y : Nat) : Outcome Nat :=
  if y ≤ x then .ok (x - y)
  else if overflowChecks then .panicked "attempt to subtract with overflow"
  else .ok (2 ^ 64 + x - y)

end AmpcCommon.Stats
