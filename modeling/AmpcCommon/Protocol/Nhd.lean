import AmpcCommon.Protocol.Distances

/-!
# Normalized distances

The model of the normalized Hamming distances of `ampc-actor-utils/src/protocol/nhd_ops.rs`, and of their reduction and
comparison in `anon_stats.rs`. The distances are lifted to 48 bits. A threshold enters the programs as
`25.0 * B as f64 * threshold_ratio`, truncated to an integer; the model takes this integer.
-/

namespace AmpcCommon.Protocol

/-- `!` of a share of a bit -/
def Share.not {K : Nat} (x : Share K) : Share K := ⟨~~~x.a, ~~~x.b⟩

/-- `NHD_LINEAR_COEFF` -/
def nhdLinearCoeff : BitVec 48 := 10#48

/-- `NHD_CORRECTION` -/
def nhdCorrection : BitVec 48 := 73728#48

variable {R : Type} [Rng R]

/-- The product of the first round of `nhd_cross_mul`. -/
def nhdProduct (d : DistanceShare 48) : BitVec 48 :=
  let linear := d.maskDot - d.codeDot.mulConst nhdLinearCoeff
  d.maskDot.mul linear

/-- `nhd_cross_mul` -/
def nhdCrossMul (distances : List (DistancePair 48)) : Proc R (List (Share 48)) := do
  let n := distances.length
  let pair := fun i => distances.getD i (⟨0, 0⟩, ⟨0, 0⟩)
  let products : List (Share 48) ← reshareProducts .ring48 (2 * n) fun k =>
    nhdProduct (if k % 2 = 0 then (pair (k / 2)).1 else (pair (k / 2)).2)
  let nmrs := (List.range n).map fun i =>
    (products.getD (2 * i) 0 - (pair i).1.codeDot.mulConst nhdCorrection,
      products.getD (2 * i + 1) 0 - (pair i).2.codeDot.mulConst nhdCorrection)
  reshareProducts .ring48 n fun i =>
    let (nmr1, nmr2) := nmrs.getD i (0, 0)
    let (d1, d2) := pair i
    nmr1.mul d2.maskDot - nmr2.mul d1.maskDot

/-- `nhd_oblivious_cross_compare` -/
def nhdObliviousCrossCompare (s : Session) (distances : List (DistancePair 48)) : Proc R (List (Share 1)) := do
  let diff ← nhdCrossMul distances
  extractMsbBatch .ring48 s diff

/-- `nhd_oblivious_cross_compare_lifted` -/
def nhdObliviousCrossCompareLifted (s : Session) (distances : List (DistancePair 48)) : Proc R (List (Share 48)) := do
  let bits ← nhdObliviousCrossCompare s distances
  bitInject .ring48 s bits

/-- `nhd_min_of_pair_batch` -/
def nhdMinOfPairBatch (s : Session) (distances : List (DistancePair 48)) : Proc R (List (DistanceShare 48)) := do
  let bits ← nhdObliviousCrossCompareLifted s distances
  conditionallySelectDistance .ring48 distances bits

/-- The constant `a` of `nhd_greater_than_threshold`. -/
def nhdThresholdA (threshold : Nat) : BitVec 48 := 774144#48 - BitVec.ofNat 48 threshold

/-- `nhd_greater_than_threshold` -/
def nhdGreaterThanThreshold (s : Session) (distances : List (DistanceShare 48)) (threshold : Nat) :
    Proc R (List (Share 1)) := do
  let a := nhdThresholdA threshold
  let products ← reshareProducts .ring48 distances.length fun i =>
    let d := distances.getD i ⟨0, 0⟩
    let linear := d.codeDot.mulConst 50#48 - d.maskDot.mulConst 5#48
    d.maskDot.mul linear
  let results := List.zipWith (fun (product : Share 48) (d : DistanceShare 48) =>
    product - d.maskDot.mulConst a + d.codeDot.mulConst 368640#48) products distances
  extractMsbBatch .ring48 s results

/-- `nhd_plaintext_is_match`; the arithmetic is that of `i64`. -/
def nhdPlaintextIsMatch (hd md : BitVec 16) (threshold : Nat) : Bool :=
  let aPlain := 405504#64 - BitVec.ofNat 64 threshold
  let hd := hd.setWidth 64
  let md := md.setWidth 64
  (md * (100#64 * hd - 45#64 * md) + aPlain * md + 737280#64 * hd).slt 0

/-- The loop of `nhd_compare_against_thresholds_batched`. -/
def nhdThresholdLoop (s : Session) (distances : List (DistanceShare 48)) :
    List Nat → List (Share 1) → Proc R (List (Share 1))
  | [], msbs => pure msbs
  | t :: ts, msbs => do
    let results ← nhdGreaterThanThreshold s distances t
    nhdThresholdLoop s distances ts (msbs ++ results.map Share.not)

/-- `nhd_compare_against_thresholds_batched` -/
def nhdCompareAgainstThresholdsBatched (s : Session) (thresholds : List Nat) (distances : List (DistanceShare 48)) :
    Proc R (List (Share 32)) := do
  let msbs ← nhdThresholdLoop s distances thresholds []
  bitInject .u32 s msbs

/-- `nhd_compare_threshold_buckets` -/
def nhdCompareThresholdBuckets (s : Session) (thresholds : List Nat) (distances : List (DistanceShare 48)) :
    Proc R (List (Share 32)) := do
  let sums ← nhdCompareAgainstThresholdsBatched s thresholds distances
  Proc.lift (sumChunks distances.length sums)

/-- `nhd_reduce_to_min_distance_batch` -/
def nhdReduceToMinDistanceBatch (s : Session) (distances : List (List (DistanceShare 48))) :
    Proc R (List (DistanceShare 48)) :=
  reduceToMinWith (nhdMinOfPairBatch s) distances

/-- `compare_min_threshold_buckets_score_normalization` -/
def compareMinThresholdBucketsScoreNormalization (s : Session) (thresholds : List Nat)
    (distances : List (List (DistanceShare 48))) : Proc R (List (Share 32)) := do
  let reducedDistances ← nhdReduceToMinDistanceBatch s distances
  nhdCompareThresholdBuckets s thresholds reducedDistances

end AmpcCommon.Protocol
