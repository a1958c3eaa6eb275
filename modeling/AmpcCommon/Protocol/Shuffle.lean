import AmpcCommon.Protocol.Session

/-!
# The shuffle

The model of `ampc-actor-utils/src/protocol/shuffle.rs`, and of the random permutations of `prf.rs` it uses.
The permutations are drawn by rejection sampling: how much of a stream they use depends on the stream.
-/

namespace AmpcCommon.Protocol

variable {R : Type} [Rng R]

/-! ## Random permutations -/

/-- The rejection bound of `gen_u32_mod`. -/
def rejectionBound (modulus : Nat) : Nat :=
  let max := 2 ^ 64 - 1
  max - (max % modulus + 1) % modulus

/-- The loop of `gen_u32_mod`; `none` when it does not end within `fuel` rounds. -/
def sampleLoop (modulus : Nat) : Nat → R → Option (Nat × R)
  | 0, _ => none
  | fuel + 1, rng =>
    let (v, rng) := Rng.gen 64 rng
    if v.toNat ≤ rejectionBound modulus then some (v.toNat % modulus, rng)
    else sampleLoop modulus fuel rng

/-- `gen_u32_mod` -/
def genU32Mod (fuel : Nat) (modulus : Nat) (rng : R) : Option (Outcome Nat × R) :=
  if modulus = 0 then some (.bail "modulus must be non-zero", rng)
  else (sampleLoop modulus fuel rng).map fun (v, rng) => (.ok v, rng)

/-- `slice::swap` -/
def swap (l : List Nat) (i j : Nat) : Outcome (List Nat) :=
  match l[i]?, l[j]? with
  | some x, some y => .ok ((l.set i y).set j x)
  | _, _ => .panicked "index out of bounds"

/-- A draw of `gen_u32_mod` from `my_prf`. -/
def mineU32Mod (fuel modulus : Nat) : Proc R Nat := fun prf =>
  match genU32Mod fuel modulus prf.myPrf with
  | none => .spin
  | some (o, rng) => .pure (o, { prf with myPrf := rng })

/-- A draw of `gen_u32_mod` from `prev_prf`. -/
def prevU32Mod (fuel modulus : Nat) : Proc R Nat := fun prf =>
  match genU32Mod fuel modulus prf.prevPrf with
  | none => .spin
  | some (o, rng) => .pure (o, { prf with prevPrf := rng })

/-- The loop of `gen_permutation`: `n` rounds from the position `i` on. -/
def permutationLoop (fuel : Nat) : Nat → Nat → List Nat → List Nat → Proc R (List Nat × List Nat)
  | 0, _, permA, permB => pure (permA, permB)
  | n + 1, i, permA, permB => do
    let jA ← mineU32Mod fuel (i + 1)
    let jB ← prevU32Mod fuel (i + 1)
    let permA ← Proc.lift (swap permA i jA)
    let permB ← Proc.lift (swap permB i jB)
    permutationLoop fuel n (i + 1) permA permB

/-- `gen_permutation` -/
def genPermutation (fuel size : Nat) : Proc R (List Nat × List Nat) :=
  permutationLoop fuel (size - 1) 1 (List.range size) (List.range size)

/-! ## The parties -/

section Triplets

variable {α : Type} {K : Nat}

/-- The three elements of the triplet `i` of a batch. -/
def triplet (batch : List α) (i : Nat) : Outcome (List α) :=
  if i * 3 + 3 ≤ batch.length then .ok ((batch.drop (i * 3)).take 3)
  else .panicked "range end index out of range for slice"

/-- `shuffle_triplets` -/
def shuffleTriplets (perm : List Nat) (data : List α) (batchSize : Nat) : Outcome (List α) :=
  if batchSize * 3 = 0 then .panicked "chunk size must be non-zero"
  else do
    let batches ← (chunks (batchSize * 3) data).mapM fun batch => do
      let triplets ← perm.mapM (triplet batch)
      return triplets.flatten
    return batches.flatten

/-- One component of all distances, in triplets. -/
def flattenIdDistances (component : Share K → BitVec K) (distances : List (IdDistance K)) :
    List (BitVec K) :=
  distances.flatMap fun (idShare, distShare) =>
    [component idShare, component distShare.codeDot, component distShare.maskDot]

end Triplets

variable (t : RingTy)

/-- `shuffle_party_0` -/
def shuffleParty0 (fuel : Nat) (distances : List (IdDistance t.bits)) (batchSize : Nat) :
    Proc R (List (IdDistance t.bits)) := do
  let n := distances.length
  let (pi01, pi20) ← genPermutation fuel (batchSize % 2 ^ 32)
  let a := flattenIdDistances Share.a distances
  let b := flattenIdDistances Share.b distances
  let (z01, z20) ← Proc.draw (Prf.genRandsMany t a.length)
  let ab ← Proc.lift (vecAdd a b)
  let x0 ← Proc.lift (vecAdd ab z01)
  let x0 ← Proc.lift (shuffleTriplets pi01 x0 batchSize)
  let x1 ← Proc.lift (vecAdd x0 z20)
  let x1 ← Proc.lift (shuffleTriplets pi20 x1 batchSize)
  Proc.sendRingVecNext t x1
  let (tildeB, tildeA) ← Proc.draw (Prf.genRandsMany t (3 * n))
  return reconstructIdDistanceVector tildeB tildeA

/-- `shuffle_party_1` -/
def shuffleParty1 (fuel : Nat) (distances : List (IdDistance t.bits)) (batchSize : Nat) :
    Proc R (List (IdDistance t.bits)) := do
  let (pi12, pi01) ← genPermutation fuel (batchSize % 2 ^ 32)
  let c := flattenIdDistances Share.a distances
  let (z12, z01) ← Proc.draw (Prf.genRandsMany t c.length)
  let y0 ← Proc.lift (vecSub c z01)
  let y0 ← Proc.lift (shuffleTriplets pi01 y0 batchSize)
  Proc.sendRingVecNext t y0
  let x1 ← Proc.receiveRingVec t .prev
  let x2 ← Proc.lift (vecAdd x1 z12)
  let x2 ← Proc.lift (shuffleTriplets pi12 x2 batchSize)
  let tildeB ← Proc.draw (Prf.prev (genMany t x2.length))
  let tildeC1 ← Proc.lift (vecSub x2 tildeB)
  Proc.sendRingVecNext t tildeC1
  let tildeC2 ← Proc.receiveRingVec t .next
  let tildeC ← Proc.lift (vecAdd tildeC1 tildeC2)
  return reconstructIdDistanceVector tildeC tildeB

/-- `shuffle_party_2` -/
def shuffleParty2 (fuel : Nat) (distances : List (IdDistance t.bits)) (batchSize : Nat) :
    Proc R (List (IdDistance t.bits)) := do
  let n := distances.length
  let (pi20, pi12) ← genPermutation fuel (batchSize % 2 ^ 32)
  let (z20, z12) ← Proc.draw (Prf.genRandsMany t (3 * n))
  let y0 ← Proc.receiveRingVec t .prev
  let y1 ← Proc.lift (vecSub y0 z20)
  let y1 ← Proc.lift (shuffleTriplets pi20 y1 batchSize)
  let y2 ← Proc.lift (vecSub y1 z12)
  let y2 ← Proc.lift (shuffleTriplets pi12 y2 batchSize)
  let tildeA ← Proc.draw (Prf.mine (genMany t y2.length))
  let tildeC2 ← Proc.lift (vecSub y2 tildeA)
  Proc.sendRingVecPrev t tildeC2
  let tildeC1 ← Proc.receiveRingVec t .prev
  let tildeC ← Proc.lift (vecAdd tildeC1 tildeC2)
  return reconstructIdDistanceVector tildeA tildeC

/-- The sum of two `u32`: when it overflows, a build with overflow checks panics, and one without wraps. -/
def u32Add (overflowChecks : Bool) (x y : BitVec 32) : Outcome (BitVec 32) :=
  if x.toNat + y.toNat < 2 ^ 32 then .ok (x + y)
  else if overflowChecks then .panicked "attempt to add with overflow"
  else .ok (x + y)

/-- The role of a party in the shuffle. -/
def Session.shuffleRole (overflowChecks : Bool) (s : Session) : Outcome Nat := do
  let sum ← u32Add overflowChecks s.sessionId (BitVec.ofNat 32 s.ownRole.val)
  return sum.toNat % 3

/-- `random_shuffle_batch` -/
def randomShuffleBatch (overflowChecks : Bool) (fuel : Nat) (s : Session)
    (distances : List (List (IdDistance t.bits))) : Proc R (List (List (IdDistance t.bits))) :=
  match distances with
  | [] => Proc.lift (.bail "Input distances cannot be empty")
  | first :: _ =>
    let batchSize := first.length
    if distances.any fun batch => batch.length != batchSize then
      Proc.lift (.bail "All batches must have the same length")
    else do
      let shuffleRole ← Proc.lift (s.shuffleRole overflowChecks)
      let flattenedResults ← match shuffleRole with
        | 0 => shuffleParty0 t fuel distances.flatten batchSize
        | 1 => shuffleParty1 t fuel distances.flatten batchSize
        | 2 => shuffleParty2 t fuel distances.flatten batchSize
        | role => Proc.lift (.bail s!"Invalid shuffle role: {role}")
      if batchSize = 0 then Proc.lift (.panicked "chunk size must be non-zero")
      else return chunks batchSize flattenedResults

end AmpcCommon.Protocol
