import AmpcCommon.Protocol.Distances

/-!
# Distances with public ids

The model of the functions of `ampc-actor-utils/src/protocol/ops.rs` that select and swap distances whose ids are
public. The ids are promoted to the ring of the distances: `From<u32>` is there for the rings with 32 bits and more.
-/

namespace AmpcCommon.Protocol

/-- `T::from` of a `u32` -/
def fromU32 (K : Nat) (x : BitVec 32) : BitVec K := x.setWidth K

namespace Share

variable {K : Nat}

instance : Neg (Share K) := ⟨fun x => ⟨-x.a, -x.b⟩⟩

/-- `from_const` -/
def fromConst (value : BitVec K) (role : Party) : Share K := (0 : Share K).addAssignConstRole value role

end Share

variable {R : Type} [Rng R]

/-- A list entry with a public id. -/
abbrev PlainIdDistance (K : Nat) := BitVec 32 × DistanceShare K

/-- The id that `conditionally_select_distances_with_plain_ids` selects. -/
def selectPlainId {K : Nat} (role : Party) (leftId rightId : BitVec 32) (c : Share K) : Share K :=
  let diff := leftId - rightId
  (c.mulConst (fromU32 K diff)).addAssignConstRole (fromU32 K rightId) role

/-- `conditionally_select_distances_with_plain_ids` -/
def conditionallySelectDistancesWithPlainIds (t : RingTy) (s : Session)
    (leftDistances rightDistances : List (PlainIdDistance t.bits)) (controlBits : List (Share t.bits)) :
    Proc R (List (IdDistance t.bits)) :=
  let n := leftDistances.length
  if n = 0 then Proc.lift (.bail "Distances must not be empty")
  else if n ≠ controlBits.length then
    Proc.lift (.bail "Number of distances must match number of control bits")
  else if n ≠ rightDistances.length then
    Proc.lift (.bail "Left and right distances must have the same length")
  else do
    let pairs := (leftDistances.map Prod.snd).zip (rightDistances.map Prod.snd)
    let products ← reshareMux t n 2 controlBits (distanceField pairs)
    let ids := List.zipWith (fun (left, right) c => selectPlainId s.ownRole left.1 right.1 c)
      (leftDistances.zip rightDistances) controlBits
    return ids.zip (tuples2 products)

/-- The loop of `conditionally_swap_distances_plain_ids`. -/
def swapLoop {K : Nat} (role : Party) (list : List (PlainIdDistance K)) :
    List (Share K) → List (Nat × Nat) → List (DistanceShare K) → List (DistanceShare K) → List (IdDistance K) →
    List (IdDistance K)
  | bit :: bits, (idx1, idx2) :: indices, firstD :: firsts, secondD :: seconds, swappedList =>
    let id1 := (list.getD idx1 (0, ⟨0, 0⟩)).1
    let id2 := (list.getD idx2 (0, ⟨0, 0⟩)).1
    let firstId := (bit.mulConst (fromU32 K (id1 - id2))).addAssignConstRole (fromU32 K id2) role
    let secondId := (-firstId).addAssignConstRole (fromU32 K (id1 + id2)) role
    swapLoop role list bits indices firsts seconds
      ((swappedList.set idx1 (firstId, firstD)).set idx2 (secondId, secondD))
  | _, _, _, _, swappedList => swappedList

/-- The distance that is left of a pair. -/
def secondDistance {K : Nat} (pair : DistancePair K) (first : DistanceShare K) : DistanceShare K :=
  ⟨pair.1.codeDot + pair.2.codeDot - first.codeDot, pair.1.maskDot + pair.2.maskDot - first.maskDot⟩

/-- `conditionally_swap_distances_plain_ids` -/
def conditionallySwapDistancesPlainIds (t : RingTy) (s : Session) (swapWhenZeroBits : List (Share 1))
    (list : List (PlainIdDistance t.bits)) (indices : List (Nat × Nat)) : Proc R (List (IdDistance t.bits)) :=
  if swapWhenZeroBits.length ≠ indices.length then
    Proc.lift (.bail "swap bits and indices must have the same length")
  else
    match indices.find? fun (idx1, idx2) => idx1 ≥ list.length ∨ idx2 ≥ list.length with
    | some (idx1, idx2) =>
      let len := list.length
      Proc.lift (.bail s!"index out of bounds in swap_indices: ({idx1}, {idx2}) for list of length {len}")
    | none => do
      let swappedList := list.map fun (id, d) => (Share.fromConst (fromU32 t.bits id) s.ownRole, d)
      let swapBitsLifted ← bitInject t s swapWhenZeroBits
      let distancesToSwap := indices.map fun (idx1, idx2) =>
        ((list.getD idx1 (0, ⟨0, 0⟩)).2, (list.getD idx2 (0, ⟨0, 0⟩)).2)
      let firstDistances ← conditionallySelectDistance t distancesToSwap swapBitsLifted
      let secondDistances := List.zipWith secondDistance distancesToSwap firstDistances
      return swapLoop s.ownRole list swapBitsLifted indices firstDistances secondDistances swappedList

end AmpcCommon.Protocol
