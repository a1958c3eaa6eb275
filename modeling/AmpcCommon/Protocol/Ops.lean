import AmpcCommon.Protocol.Binary

/-!
# Resharing and signed lifting

The model of operations of `ampc-actor-utils/src/protocol/ops.rs`: additive shares become replicated ones,
products of replicated shares are reshared, and signed secrets are lifted to a larger ring.
-/

namespace AmpcCommon.Protocol

variable {R : Type} [Rng R]

/-- The message of `galois_ring_to_rep3_components`: only a vector of `u16` is accepted. -/
def vecRing16 : RingMsg → Outcome (List (BitVec 16))
  | .vec .u16 message => .ok message
  | _ => .bail "Error in receiving in galois_ring_to_rep3 operation"

/-- `galois_ring_to_rep3_components` -/
def galoisRingToRep3Components (items : List (BitVec 16)) : Proc R (List (BitVec 16) × List (BitVec 16)) := do
  let (mine, prev) ← Proc.draw (Prf.genRandsBatch .u16 items.length)
  let maskedItems : List (BitVec 16) :=
    List.zipWith (fun (x zeroShare : BitVec 16) => zeroShare + x) items (List.zipWith (· - ·) mine prev)
  Proc.send .next (.vec .u16 maskedItems)
  let message ← Proc.receive .prev
  let sharesB ← Proc.lift (vecRing16 message)
  return (maskedItems, sharesB)

/-- `galois_ring_to_rep3` -/
def galoisRingToRep3 (items : List (BitVec 16)) : Proc R (List (Share 16)) := do
  let (sharesA, sharesB) ← galoisRingToRep3Components items
  return fromAb sharesA sharesB

/-- The common body of `batch_signed_lift` and `batch_signed_lift_ring48`: an offset makes the values positive
before the lift, and is taken off in the larger ring. -/
def signedLiftWith {L : Nat} (liftShares : List (Share 16) → Proc R (List (Share L))) (s : Session)
    (preLift : List (Share 16)) : Proc R (List (Share L)) := do
  let liftedValues ← liftShares (preLift.map fun v => v.addAssignConstRole (1#16 <<< 15) s.ownRole)
  return liftedValues.map fun v => v.addAssignConstRole (BitVec.ofNat L (2 ^ L - 2 ^ 15)) s.ownRole

/-- `batch_signed_lift` -/
def batchSignedLift (s : Session) (preLift : List (Share 16)) : Proc R (List (Share 32)) :=
  signedLiftWith (lift s) s preLift

/-- `batch_signed_lift_ring48` -/
def batchSignedLiftRing48 (s : Session) (preLift : List (Share 16)) : Proc R (List (Share 48)) :=
  signedLiftWith (liftToRing48 s) s preLift

variable (t : RingTy)

/-- `reshare_products` -/
def reshareProducts (n : Nat) (expr : Nat → BitVec t.bits) : Proc R (List (Share t.bits)) := do
  let (mine, prev) ← Proc.draw (Prf.genRandsBatch t n)
  let roundA := (List.zipWith (· - ·) mine prev).mapIdx fun i zeroShare => zeroShare + expr i
  Proc.send .next (.vec t roundA)
  let roundB ← Proc.receiveRingVec t .prev
  return fromAb roundA roundB

/-- `reshare_mux` -/
def reshareMux (nElements fieldsPerElement : Nat) (controlBits : List (Share t.bits))
    (getField : Nat → Nat → Share t.bits × Share t.bits) : Proc R (List (Share t.bits)) :=
  if fieldsPerElement = 0 then
    Proc.lift (.bail "reshare_mux: fields_per_element must be greater than zero")
  else if controlBits.length < nElements then
    let len := controlBits.length
    Proc.lift (.bail
      s!"reshare_mux: control_bits length ({len}) is smaller than n_elements ({nElements})")
  else
    reshareProducts t (nElements * fieldsPerElement) fun i =>
      let j := i / fieldsPerElement
      let f := i % fieldsPerElement
      let c := controlBits.getD j 0
      let (left, right) := getField j f
      let diff := left - right
      c.a * diff.a + c.b * diff.a + c.a * diff.b + right.a

/-- The closure of `conditionally_select_distance`: the field `f` of the pair of distances `j`. -/
def distanceField {K : Nat} (distances : List (DistanceShare K × DistanceShare K)) (j f : Nat) :
    Share K × Share K :=
  match distances[j]? with
  | none => (0, 0)
  | some (d1, d2) => if f = 0 then (d1.codeDot, d2.codeDot) else (d1.maskDot, d2.maskDot)

/-- `conditionally_select_distance` -/
def conditionallySelectDistance (distances : List (DistanceShare t.bits × DistanceShare t.bits))
    (controlBits : List (Share t.bits)) : Proc R (List (DistanceShare t.bits)) :=
  if distances.length ≠ controlBits.length then
    Proc.lift (.bail "Number of distances must match number of control bits")
  else do
    let products ← reshareMux t distances.length 2 controlBits (distanceField distances)
    return tuples2 products

end AmpcCommon.Protocol
