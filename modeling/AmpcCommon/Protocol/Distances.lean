import AmpcCommon.Protocol.Ops

/-!
# Distances

The model of the fractional distances of `ampc-actor-utils/src/protocol/fhd_ops.rs`, and of their reduction and
comparison in `anon_stats.rs`. A distance is a shared pair of a code and a mask dot product, lifted to 32 bits.
-/

namespace AmpcCommon.Protocol

/-- The local part of the product of two shares (`*` of two `Share`). -/
def Share.mul {K : Nat} (x y : Share K) : BitVec K := x.a * y.a + x.b * y.a + x.a * y.b

/-- `*` with a public element. -/
def Share.mulConst {K : Nat} (x : Share K) (c : BitVec K) : Share K := ⟨x.a * c, x.b * c⟩

/-- `B` -/
def thresholdB : BitVec 32 := 0x10000#32

variable {R : Type} [Rng R]

/-- `DistancePair` -/
abbrev DistancePair (K : Nat) := DistanceShare K × DistanceShare K

/-- `cross_mul` -/
def crossMul (distances : List (DistancePair 32)) : Proc R (List (Share 32)) :=
  reshareProducts .u32 distances.length fun i =>
    let (d1, d2) := distances.getD i (⟨0, 0⟩, ⟨0, 0⟩)
    d2.codeDot.mul d1.maskDot - d1.codeDot.mul d2.maskDot

/-- `oblivious_cross_compare` -/
def obliviousCrossCompare (s : Session) (distances : List (DistancePair 32)) : Proc R (List (Share 1)) := do
  let diff ← crossMul distances
  extractMsbBatch .u32 s diff

/-- `oblivious_cross_compare_lifted` -/
def obliviousCrossCompareLifted (s : Session) (distances : List (DistancePair 32)) : Proc R (List (Share 32)) := do
  let bits ← obliviousCrossCompare s distances
  bitInject .u32 s bits

/-- `min_of_pair_batch` -/
def minOfPairBatch (s : Session) (distances : List (DistancePair 32)) : Proc R (List (DistanceShare 32)) := do
  let bits ← obliviousCrossCompareLifted s distances
  conditionallySelectDistance .u32 distances bits

/-- The differences of `compare_against_thresholds_batched`, one threshold after the other. -/
def thresholdDiffs (thresholdATerms : List (BitVec 32)) (distances : List (DistanceShare 32)) : List (Share 32) :=
  thresholdATerms.flatMap fun a => distances.map fun d => d.maskDot.mulConst a - d.codeDot.mulConst thresholdB

/-- `compare_against_thresholds_batched` -/
def compareAgainstThresholdsBatched (s : Session) (thresholdATerms : List (BitVec 32))
    (distances : List (DistanceShare 32)) : Proc R (List (Share 32)) := do
  let msbs ← extractMsbBatch .u32 s (thresholdDiffs thresholdATerms distances)
  bitInject .u32 s msbs

/-- The sum of the chunks of an iterator (`chunks` of `itertools`). -/
def sumChunks (size : Nat) (sums : List (Share 32)) : Outcome (List (Share 32)) :=
  if size = 0 then .panicked "assertion failed: size != 0"
  else
    .ok <| (chunks size sums).map fun chunk =>
      match chunk with
      | [] => default
      | share :: shares => shares.foldl (· + ·) share

/-- `compare_threshold_buckets` -/
def compareThresholdBuckets (s : Session) (thresholdATerms : List (BitVec 32)) (distances : List (DistanceShare 32)) :
    Proc R (List (Share 32)) := do
  let sums ← compareAgainstThresholdsBatched s thresholdATerms distances
  Proc.lift (sumChunks distances.length sums)

/-! ## Reduction to the minimum of every group -/

section Reduce

variable {K : Nat}

/-- The first distance of every group. -/
def firstDistances : List (List (DistanceShare K)) → Outcome (List (DistanceShare K))
  | [] => .ok []
  | group :: groups =>
    match group.head? with
    | none => .bail "Expected at least one distance in the group"
    | some d => do
      let ds ← firstDistances groups
      return d :: ds

/-- The distances of a round, each with what its group was reduced to so far. A group that is reduced takes part
with its first distance. -/
def distancesToReduce : List (List (DistanceShare K)) → List Nat → List (DistanceShare K) →
    Outcome (List (DistancePair K))
  | group :: groups, size :: sizes, reduced :: reducedDistances =>
    match group[size]? with
    | none => .panicked s!"index out of bounds: the len is {group.length} but the index is {size}"
    | some new => do
      let pairs ← distancesToReduce groups sizes reducedDistances
      return (new, reduced) :: pairs
  | _, _, _ => .ok []

variable (minOfPair : List (DistancePair K) → Proc R (List (DistanceShare K)))

/-- The loop of the reduction. Every round makes the largest size smaller. -/
def reduceLoop (distances : List (List (DistanceShare K))) :
    Nat → List Nat → List (DistanceShare K) → Proc R (List (DistanceShare K))
  | 0, _, _ => Proc.diverge
  | fuel + 1, sizes, reducedDistances =>
    if sizes.all (· == 0) then pure reducedDistances
    else do
      let pairs ← Proc.lift (distancesToReduce distances sizes reducedDistances)
      let reducedDistances ← minOfPair pairs
      reduceLoop distances fuel (sizes.map (· - 1)) reducedDistances

/-- What `reduce_to_min_distance_batch` and `nhd_reduce_to_min_distance_batch` have in common. -/
def reduceToMinWith (distances : List (List (DistanceShare K))) : Proc R (List (DistanceShare K)) := do
  let reducedDistances ← Proc.lift (firstDistances distances)
  let sizes := distances.map fun group => group.length - 1
  reduceLoop minOfPair distances (sizes.foldl max 0 + 1) sizes reducedDistances

end Reduce

/-- `reduce_to_min_distance_batch` -/
def reduceToMinDistanceBatch (s : Session) (distances : List (List (DistanceShare 32))) :
    Proc R (List (DistanceShare 32)) :=
  reduceToMinWith (minOfPairBatch s) distances

/-- `compare_min_threshold_buckets` -/
def compareMinThresholdBuckets (s : Session) (thresholdATerms : List (BitVec 32))
    (distances : List (List (DistanceShare 32))) : Proc R (List (Share 32)) := do
  let reducedDistances ← reduceToMinDistanceBatch s distances
  compareThresholdBuckets s thresholdATerms reducedDistances

end AmpcCommon.Protocol
