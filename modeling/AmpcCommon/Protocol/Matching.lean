import AmpcCommon.Protocol.Nhd
import AmpcCommon.Protocol.Threshold

/-!
# Opened decisions

The model of the functions of `fhd_ops.rs`, `nhd_ops.rs` and `ops.rs` of `ampc-actor-utils/src/protocol` that decide
whether a distance is a match, or which of two distances is smaller, and of the selection of entries whose ids are
shared. A threshold enters the comparisons as the constant `a` that `translate_threshold_a` makes of it.
-/

namespace AmpcCommon.Protocol

variable {R : Type} [Rng R]

/-- `fhd_greater_than_threshold` -/
def fhdGreaterThanThreshold (s : Session) (distances : List (DistanceShare 32)) (a : BitVec 32) :
    Proc R (List (Share 1)) :=
  let diffs := distances.map fun d =>
    let x := d.maskDot.mulConst a
    let y := d.codeDot.mulConst thresholdB
    y - x
  extractMsbBatch .u32 s diffs

/-- `fhd_greater_than_anon_stats_threshold` -/
def fhdGreaterThanAnonStatsThreshold (s : Session) (codeDots maskDots : List (Share 16)) : Proc R (List (Share 1)) :=
  extractAnonStatsMsbBatch s codeDots maskDots

/-- `convert` of a bit -/
def convertBit (b : BitVec 1) : Bool := b == 1

/-- `cross_compare` -/
def crossCompare (s : Session) (distances : List (DistancePair 32)) : Proc R (List Bool) := do
  let bits ← obliviousCrossCompare s distances
  let openedB ← openBin bits
  return openedB.map convertBit

/-- `nhd_cross_compare` -/
def nhdCrossCompare (s : Session) (distances : List (DistancePair 48)) : Proc R (List Bool) := do
  let bits ← nhdObliviousCrossCompare s distances
  let openedB ← openBin bits
  return openedB.map convertBit

/-- `lt_zero_and_open_u16` -/
def ltZeroAndOpenU16 (s : Session) (distances : List (Share 16)) : Proc R (List Bool) := do
  let bits ← extractMsbBatch .u16 s distances
  let opened ← openBin bits
  return opened.map convertBit

/-- `gte_zero_and_open_u16` -/
def gteZeroAndOpenU16 (s : Session) (distances : List (Share 16)) : Proc R (List Bool) := do
  let bits ← extractMsbBatch .u16 s distances
  let opened ← openBin bits
  return opened.map fun x => !convertBit x

/-- The closure of `conditionally_select_distances_with_shared_ids`: the field `f` of the pair of entries `j`. -/
def sharedIdField {K : Nat} (leftDistances rightDistances : List (IdDistance K)) (j f : Nat) : Share K × Share K :=
  let (leftId, leftDist) := leftDistances.getD j (0, ⟨0, 0⟩)
  let (rightId, rightDist) := rightDistances.getD j (0, ⟨0, 0⟩)
  match f with
  | 0 => (leftId, rightId)
  | 1 => (leftDist.codeDot, rightDist.codeDot)
  | _ => (leftDist.maskDot, rightDist.maskDot)

/-- `conditionally_select_distances_with_shared_ids` -/
def conditionallySelectDistancesWithSharedIds (t : RingTy) (leftDistances rightDistances : List (IdDistance t.bits))
    (controlBits : List (Share t.bits)) : Proc R (List (IdDistance t.bits)) :=
  if leftDistances.isEmpty then Proc.lift (.bail "Distances must not be empty")
  else
    let n := leftDistances.length
    if n ≠ controlBits.length then Proc.lift (.bail "Number of distances must match number of control bits")
    else if n ≠ rightDistances.length then
      Proc.lift (.bail "Left and right distances must have the same length")
    else do
      let flatRes ← reshareMux t n 3 controlBits (sharedIdField leftDistances rightDistances)
      return tuples3 flatRes

end AmpcCommon.Protocol
