import AmpcCommon.Protocol.Ops

/-!
# The threshold of the anonymous statistics

The model of the fixed-threshold circuit of `ampc-actor-utils/src/protocol/binary.rs`, and of the comparisons
of `fhd_ops.rs` that use it: a generic path that lifts the mask dots, and a path that works on the components
of the shares without building dense shares.
-/

namespace AmpcCommon.Protocol

variable {R : Type} [Rng R]

/-! ## The circuit -/

/-- `ThreeWayAdderParts`: the XOR sum and the inputs of the majority gates of a three-way addition. -/
structure ThreeWayAdderParts where
  s : List (List (Share 64))
  x1x3 : List (List (Share 64))
  x2x3 : List (List (Share 64))
  x3 : List (List (Share 64))

/-- The parts all have `n` bit planes. -/
def ThreeWayAdderParts.HasBits (parts : ThreeWayAdderParts) (n : Nat) : Prop :=
  parts.s.length = n ∧ parts.x1x3.length = n ∧ parts.x2x3.length = n ∧ parts.x3.length = n

instance (parts : ThreeWayAdderParts) (n : Nat) : Decidable (parts.HasBits n) :=
  inferInstanceAs (Decidable (_ ∧ _))

/-- One of the carry layers both adders share. The entries of the vectors that the source overwrites here are not
read again. -/
def sharedLayer (maskS maskC expressionS expressionC : List (List (Share 64))) (offset : Nat)
    (maskCarry expressionCarry : List (Share 64)) : Proc R (List (Share 64) × List (Share 64)) :=
  match maskS[offset + 2]?, maskC[offset + 1]?, expressionS[offset + 2]?, expressionC[offset + 1]? with
  | some maskSBit, some maskCBit, some expressionSBit, some expressionCBit => do
    let maskSBit := vecShareXorAssign maskSBit maskCarry
    let maskCBit := vecShareXorAssign maskCBit maskCarry
    let expressionSBit := vecShareXorAssign expressionSBit expressionCarry
    let expressionCBit := vecShareXorAssign expressionCBit expressionCarry
    let next : List (List (Share 64)) ← andManyGrouped .u64 [(maskSBit, maskCBit), (expressionSBit, expressionCBit)]
    match next with
    | nextMask :: nextExpression :: _ =>
      return (vecShareXorAssign maskCarry nextMask, vecShareXorAssign expressionCarry nextExpression)
    | _ => Proc.lift (.panicked "removal index out of bounds")
  | _, _, _, _ => Proc.lift (.panicked "index out of bounds")

/-- The loop over the shared carry layers: the given number of layers from `offset` on. -/
def sharedLayers (maskS maskC expressionS expressionC : List (List (Share 64))) :
    Nat → Nat → List (Share 64) → List (Share 64) → Proc R (List (Share 64) × List (Share 64))
  | 0, _, maskCarry, expressionCarry => pure (maskCarry, expressionCarry)
  | n + 1, offset, maskCarry, expressionCarry => do
    let (maskCarry, expressionCarry) ←
      sharedLayer maskS maskC expressionS expressionC offset maskCarry expressionCarry
    sharedLayers maskS maskC expressionS expressionC n (offset + 1) maskCarry expressionCarry

/-- The last round of `binary_add_anon_threshold_from_parts`: the last ripple layer of the expression, the top
carry of the mask and the correction of the sign bit. -/
def finalRound (maskCMsb : List (Share 64)) (expressionS expressionC : List (List (Share 64)))
    (maskCarry expressionCarry : List (Share 64)) : Proc R (List (Share 64)) :=
  let maskCarry16 := vecShareXorAssign maskCMsb maskCarry
  match expressionS[16]?, expressionC[15]? with
  | some expressionS16, some expressionC15 => do
    let expressionBit16 := vecShareXorAssign (vecShareXorAssign expressionS16 expressionC15) expressionCarry
    let expressionS16 := vecShareXorAssign expressionS16 expressionCarry
    let expressionC15 := vecShareXorAssign expressionC15 expressionCarry
    let round : List (List (Share 64)) ← andManyGrouped .u64
      [(expressionS16, expressionC15), (maskCMsb, maskCarry), (expressionBit16, maskCarry16)]
    match round with
    | lastLayer :: maskCarry17 :: carryIntoSign :: _ =>
      let expressionCarry := vecShareXorAssign expressionCarry lastLayer
      match expressionS.getLast?, expressionC[16]? with
      | none, _ => Proc.lift (.bail "missing expression sign bit")
      | some _, none => Proc.lift (.panicked "index out of bounds")
      | some result, some expressionC16 =>
        let result := vecShareXorAssign result expressionC16
        let result := vecShareXorAssign result expressionCarry
        let result := vecShareXorAssign result maskCarry17
        return vecShareXorAssign result carryIntoSign
    | _ => Proc.lift (.panicked "removal index out of bounds")
  | _, _ => Proc.lift (.panicked "index out of bounds")

/-- `binary_add_anon_threshold_from_parts` -/
def binaryAddAnonThresholdFromParts (mask expression : ThreeWayAdderParts) : Proc R (List (Share 64)) :=
  if ¬ (mask.HasBits 16 ∧ expression.HasBits 18) then
    Proc.lift (.bail "invalid bit width for fused anonymous-threshold adder")
  else do
    let expressionX1x3 := expression.x1x3.dropLast
    let expressionX2x3 := expression.x2x3.dropLast
    let expressionX3WithoutMsb := expression.x3.dropLast
    let initialGroups := mask.x1x3.zip mask.x2x3 ++ expressionX1x3.zip expressionX2x3
    let carries : List (List (Share 64)) ← andManyGrouped .u64 initialGroups
    if carries.length < 16 then Proc.lift (.panicked "`at` split index is out of bounds")
    else
      let maskC := transposedPackXorAssign (carries.take 16) mask.x3
      let expressionC := transposedPackXorAssign (carries.drop 16) expressionX3WithoutMsb
      match maskC.getLast? with
      | none => Proc.lift (.bail "missing mask carry")
      | some maskCMsb =>
        let maskC := maskC.dropLast
        match mask.s[1]?, maskC[0]?, expression.s[1]?, expressionC[0]? with
        | some maskS1, some maskC0, some expressionS1, some expressionC0 => do
          let first : List (List (Share 64)) ← andManyGrouped .u64 [(maskS1, maskC0), (expressionS1, expressionC0)]
          match first with
          | maskCarry :: expressionCarry :: _ => do
            let (maskCarry, expressionCarry) ←
              sharedLayers mask.s maskC expression.s expressionC 14 0 maskCarry expressionCarry
            finalRound maskCMsb expression.s expressionC maskCarry expressionCarry
          | _ => Proc.lift (.panicked "removal index out of bounds")
        | _, _, _, _ => Proc.lift (.panicked "index out of bounds")

/-- `binary_add_anon_threshold_fused` -/
def binaryAddAnonThresholdFused (maskX1 maskX2 maskX3 expressionX1 expressionX2 expressionX3 :
    List (List (Share 64))) : Proc R (List (Share 64)) :=
  if maskX1.length ≠ 16 ∨ maskX2.length ≠ 16 ∨ maskX3.length ≠ 16 ∨ expressionX1.length ≠ 18 ∨
      expressionX2.length ≠ 18 ∨ expressionX3.length ≠ 18 then
    Proc.lift (.bail "invalid bit width for fused anonymous-threshold adder")
  else
    let maskX2x3 := transposedPackXorAssign maskX2 maskX3
    let maskS := transposedPackXor maskX1 maskX2x3
    let maskX1x3 := transposedPackXorAssign maskX1 maskX3
    let expressionX2x3 := transposedPackXorAssign expressionX2 expressionX3
    let expressionS := transposedPackXor expressionX1 expressionX2x3
    let expressionX1x3 := transposedPackXorAssign expressionX1 expressionX3
    binaryAddAnonThresholdFromParts ⟨maskS, maskX1x3, maskX2x3, maskX3⟩
      ⟨expressionS, expressionX1x3, expressionX2x3, expressionX3⟩

/-- `split_packed_additive_components` -/
def splitPackedAdditiveComponents (s : Session) (packed : List (List (Share 64))) :
    List (List (Share 64)) × List (List (Share 64)) × List (List (Share 64)) :=
  (a2bPlanes s (·.1) packed, a2bPlanes s (·.2.1) packed, a2bPlanes s (·.2.2) packed)

/-- The closure `component` of `extract_anon_stats_msb_batch`. -/
def expressionComponent (code mask : BitVec 16) : BitVec 32 :=
  (code.setWidth 32 <<< 2 - mask.setWidth 32) &&& ((1#32 <<< 18) - 1)

/-- The vector `raw_expression` of `extract_anon_stats_msb_batch`. -/
def rawExpression (codeDots maskDots : List (Share 16)) : List (Share 32) :=
  List.zipWith (fun code mask => ⟨expressionComponent code.a mask.a, expressionComponent code.b mask.b⟩)
    codeDots maskDots

/-- `extract_anon_stats_msb_batch` -/
def extractAnonStatsMsbBatch (s : Session) (codeDots maskDots : List (Share 16)) : Proc R (List (Share 1)) :=
  if codeDots.length ≠ maskDots.length then Proc.lift (.bail "code and mask batches must have equal lengths")
  else if codeDots.isEmpty then pure []
  else do
    let packedMasks := transposePackU64 .u16 maskDots
    let (maskX1, maskX2, maskX3) := splitPackedAdditiveComponents s packedMasks
    let packedExpression := (transposePackU64 .u32 (rawExpression codeDots maskDots)).take 18
    let (expressionX1, expressionX2, expressionX3) := splitPackedAdditiveComponents s packedExpression
    let bit17 ← binaryAddAnonThresholdFused maskX1 maskX2 maskX3 expressionX1 expressionX2 expressionX3
    return (convertToBits bit17).take codeDots.length

/-! ## The generic path -/

/-- `lift_fhd_mask_dots` -/
def liftFhdMaskDots (s : Session) (maskDots : List (Share 16)) : Proc R (List (Share 32)) := lift s maskDots

/-- `fhd_greater_than_threshold_pre_lifted_masks`; `a` is the translated threshold. -/
def fhdGreaterThanThresholdPreLiftedMasks (s : Session) (codeDots : List (Share 16)) (maskDots : List (Share 32))
    (a : BitVec 32) : Proc R (List (Share 1)) :=
  if codeDots.length ≠ maskDots.length then
    Proc.lift (.bail "code and mask dot batches must have equal lengths")
  else
    let diffs := List.zipWith (fun codeDot maskDot => mulLift2kTo32 16 codeDot - ⟨maskDot.a * a, maskDot.b * a⟩)
      codeDots maskDots
    extractMsbBatch .u32 s diffs

/-! ## The path over components -/

section Words

variable {W : Nat}

/-- The body of the inner loop of `transpose_u16_block` and `transpose_u32_block`. -/
def swapWordRows (m : BitVec W) (j k : Nat) (result : List (BitVec W)) : List (BitVec W) :=
  let swap := ((result.getD k 0 >>> j) ^^^ result.getD (k + j) 0) &&& m
  let result := result.set (k + j) (result.getD (k + j) 0 ^^^ swap)
  result.set k (result.getD k 0 ^^^ (swap <<< j))

/-- The inner loop. -/
def swapWordLevel (rows : Nat) (m : BitVec W) (j : Nat) (result : List (BitVec W)) : List (BitVec W) :=
  (visitedRows rows j rows 0).foldl (fun result k => swapWordRows m j k result) result

/-- The outer loop. It makes fewer than `rows` rounds. -/
def transposeWordLoop (rows : Nat) : Nat → Nat → BitVec W → List (BitVec W) → List (BitVec W)
  | 0, _, _, result => result
  | _ + 1, 0, _, result => result
  | fuel + 1, j, m, result =>
    let result := swapWordLevel rows m j result
    let j := j >>> 1
    transposeWordLoop rows fuel j (m ^^^ (m <<< j)) result

end Words

/-- `transpose_u16_block` -/
def transposeU16Block (input : List (BitVec 16)) : List (BitVec 64) :=
  let result := (List.range 16).map fun i =>
    word64FromWord16s (input.getD i 0) (input.getD (16 + i) 0) (input.getD (32 + i) 0) (input.getD (48 + i) 0)
  transposeWordLoop 16 16 8 0x00ff00ff00ff00ff#64 result

/-- `transpose_u32_block` -/
def transposeU32Block (input : List (BitVec 32)) : List (BitVec 64) :=
  let result := (List.range 32).map fun i => word64FromWord32s (input.getD i 0) (input.getD (32 + i) 0)
  transposeWordLoop 32 32 16 0x0000ffff0000ffff#64 result

/-- One of the arrays of 64 lanes that `pack_anon_stats_components` fills for a word: what `lane` reads of the
comparison, and zeros after the last one. -/
def fillLanes {K : Nat} (comparisons word : Nat) (lane : Nat → BitVec K) : List (BitVec K) :=
  (List.range 64).map fun i => if word * 64 + i < comparisons then lane (word * 64 + i) else 0

/-- The mask of a comparison. -/
def laneMask (components : List (BitVec 16)) (comparison : Nat) : BitVec 16 :=
  components.getD (comparison * 2 + 1) 0

/-- The expression of a comparison, modulo `2^18`. -/
def laneExpression (components : List (BitVec 16)) (comparison : Nat) : BitVec 32 :=
  (((components.getD (comparison * 2) 0).setWidth 32 <<< 2) -
    (components.getD (comparison * 2 + 1) 0).setWidth 32) &&& ((1#32 <<< 18) - 1)

/-- `pack_anon_stats_components` -/
def packAnonStatsComponents (loc previous : List (BitVec 16)) :
    Outcome (List (List (Share 64)) × List (List (Share 64))) :=
  if loc.length ≠ previous.length then
    .bail "local and previous component batches must have equal lengths"
  else if loc.length % 2 ≠ 0 then
    .bail "anonymous-threshold input must contain interleaved code/mask pairs"
  else
    let comparisons := loc.length / 2
    let packedWords := (comparisons + 63) / 64
    let masks := (List.range 16).map fun i => (List.range packedWords).map fun word =>
      ⟨(transposeU16Block (fillLanes comparisons word (laneMask loc))).getD i 0,
        (transposeU16Block (fillLanes comparisons word (laneMask previous))).getD i 0⟩
    let expressions := (List.range 18).map fun i => (List.range packedWords).map fun word =>
      ⟨(transposeU32Block (fillLanes comparisons word (laneExpression loc))).getD i 0,
        (transposeU32Block (fillLanes comparisons word (laneExpression previous))).getD i 0⟩
    .ok (masks, expressions)

/-- `project_packed_components` -/
def projectPackedComponents (s : Session) (packed : List (List (Share 64))) (componentMask : BitVec 8) :
    List (List (Share 64)) :=
  let role := s.ownRole.val
  let previousRole := (role + 2) % 3
  let keepA := componentMask &&& (1#8 <<< role) != 0
  let keepB := componentMask &&& (1#8 <<< previousRole) != 0
  packed.map fun plane => plane.map fun share => ⟨if keepA then share.a else 0, if keepB then share.b else 0⟩

/-- The parts `binary_add_anon_threshold_from_packed_rep3` makes of packed shares. -/
def packedParts (s : Session) (packed : List (List (Share 64))) : ThreeWayAdderParts where
  s := packed
  x1x3 := projectPackedComponents s packed 0b101#8
  x2x3 := projectPackedComponents s packed 0b110#8
  x3 := projectPackedComponents s packed 0b100#8

/-- `binary_add_anon_threshold_from_packed_rep3` -/
def binaryAddAnonThresholdFromPackedRep3 (s : Session) (mask expression : List (List (Share 64))) :
    Proc R (List (Share 64)) :=
  binaryAddAnonThresholdFromParts (packedParts s mask) (packedParts s expression)

/-- `extract_anon_stats_msb_batch_from_components` -/
def extractAnonStatsMsbBatchFromComponents (s : Session) (loc previous : List (BitVec 16)) :
    Proc R (List (Share 1)) :=
  if loc.isEmpty ∧ previous.isEmpty then pure []
  else do
    let resultLen := loc.length / 2
    let (masks, expressions) ← Proc.lift (packAnonStatsComponents loc previous)
    let bit17 ← binaryAddAnonThresholdFromPackedRep3 s masks expressions
    return (convertToBits bit17).take resultLen

/-- `FusedFhdDotShares`: the refreshed components, interleaved. -/
structure FusedFhdDotShares where
  loc : List (BitVec 16)
  previous : List (BitVec 16)
  deriving DecidableEq

namespace FusedFhdDotShares

/-- `len` -/
def len (shares : FusedFhdDotShares) : Nat := shares.loc.length / 2

/-- The share at a position; indexing panics outside of the vectors. -/
def shareAt (shares : FusedFhdDotShares) (offset : Nat) : Outcome (Share 16) :=
  match shares.loc[offset]?, shares.previous[offset]? with
  | some a, some b => .ok ⟨a, b⟩
  | _, _ => .panicked "index out of bounds"

/-- `select` -/
def select (shares : FusedFhdDotShares) : List Nat → Outcome (List (Share 16) × List (Share 16))
  | [] => .ok ([], [])
  | index :: indices =>
    if ¬ index < shares.len then
      .bail s!"dot-product index {index} is out of bounds for {shares.len} comparisons"
    else do
      let offset := index * 2
      let code ← shares.shareAt offset
      let mask ← shares.shareAt (offset + 1)
      let (codes, masks) ← select shares indices
      return (code :: codes, mask :: masks)

end FusedFhdDotShares

/-- `fhd_greater_than_anon_stats_from_galois` -/
def fhdGreaterThanAnonStatsFromGalois (s : Session) (interleavedDots : List (BitVec 16)) :
    Proc R (List (Share 1) × FusedFhdDotShares) :=
  if interleavedDots.length % 2 ≠ 0 then
    Proc.lift (.bail "anonymous-threshold input must contain interleaved code/mask pairs")
  else do
    let (loc, previous) ← galoisRingToRep3Components interleavedDots
    let bits ← extractAnonStatsMsbBatchFromComponents s loc previous
    return (bits, ⟨loc, previous⟩)

end AmpcCommon.Protocol
