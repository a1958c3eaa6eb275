import AmpcCommon.Protocol.PlainIds

/-!
# Swaps of entries

The model of `conditionally_swap_distances` of `ampc-actor-utils/src/protocol/ops.rs`: entries of ids and distances,
both shared, are swapped where the control bit of an index pair is zero.
-/

namespace AmpcCommon.Protocol

section Entries

variable {K : Nat}

/-- The closure of `conditionally_swap_distances`: the field `f` of the entries at the pair of indices `j`. -/
def entryField (list : List (IdDistance K)) (indices : List (Nat × Nat)) (j f : Nat) : Share K × Share K :=
  match indices[j]? with
  | none => (0, 0)
  | some (idx1, idx2) =>
    let (leftId, leftDist) := list.getD idx1 (0, ⟨0, 0⟩)
    let (rightId, rightDist) := list.getD idx2 (0, ⟨0, 0⟩)
    match f with
    | 0 => (leftId, rightId)
    | 1 => (leftDist.codeDot, rightDist.codeDot)
    | _ => (leftDist.maskDot, rightDist.maskDot)

/-- The loop of `conditionally_swap_distances` over the chunks of what was selected. -/
def swapEntries (list : List (IdDistance K)) :
    List (List (Share K)) → List (Nat × Nat) → List (IdDistance K) → List (IdDistance K)
  | chunk :: chunks, (idx1, idx2) :: indices, swappedList =>
    let firstId := chunk.getD 0 0
    let firstDist : DistanceShare K := ⟨chunk.getD 1 0, chunk.getD 2 0⟩
    let (id1, dist1) := list.getD idx1 (0, ⟨0, 0⟩)
    let (id2, dist2) := list.getD idx2 (0, ⟨0, 0⟩)
    let secondId := id1 + id2 - firstId
    let secondDist := secondDistance (dist1, dist2) firstDist
    swapEntries list chunks indices ((swappedList.set idx1 (firstId, firstDist)).set idx2 (secondId, secondDist))
  | _, _, swappedList => swappedList

end Entries

variable {R : Type} [Rng R]

/-- `conditionally_swap_distances` -/
def conditionallySwapDistances (t : RingTy) (s : Session) (swapWhenZeroBits : List (Share 1))
    (list : List (IdDistance t.bits)) (indices : List (Nat × Nat)) : Proc R (List (IdDistance t.bits)) :=
  if swapWhenZeroBits.length ≠ indices.length then
    Proc.lift (.bail "swap bits and indices must have the same length")
  else
    match indices.find? fun (idx1, idx2) => idx1 ≥ list.length ∨ idx2 ≥ list.length with
    | some (idx1, idx2) =>
      let len := list.length
      Proc.lift (.bail s!"index out of bounds in swap_indices: ({idx1}, {idx2}) for list of length {len}")
    | none => do
      let swapBitsLifted ← bitInject t s swapWhenZeroBits
      let selected ← reshareMux t indices.length 3 swapBitsLifted (entryField list indices)
      return swapEntries list (chunks 3 selected) indices list

end AmpcCommon.Protocol
