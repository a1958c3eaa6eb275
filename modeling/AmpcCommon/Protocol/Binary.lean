import AmpcCommon.Protocol.Session
import AmpcCommon.Protocol.Transpose

/-!
# Binary circuits on shares

The model of `ampc-actor-utils/src/protocol/binary.rs`: AND gates on packed shares, the adders, bit injection,
lifting and the extraction of most significant bits. Every function is the program of one party.
-/

namespace AmpcCommon.Protocol

variable {R : Type} [Rng R]

/-! ## Gates -/

section Gates

variable {K : Nat}

/-- `transposed_pack_xor_assign` -/
def transposedPackXorAssign : List (List (Share K)) → List (List (Share K)) → List (List (Share K))
  | x :: xs, y :: ys => vecShareXorAssign x y :: transposedPackXorAssign xs ys
  | xs, [] => xs
  | [], _ => []

/-- `transposed_pack_xor` -/
def transposedPackXor (x1 x2 : List (List (Share K))) : List (List (Share K)) :=
  List.zipWith vecShareXor x1 x2

/-- The local parts of the AND of two vectors, each masked with a share of zero. -/
def maskedAnd (a b : List (Share K)) (mine prev : List (BitVec K)) : List (BitVec K) :=
  List.zipWith (· ^^^ ·) (List.zipWith Share.and a b) (List.zipWith (· ^^^ ·) mine prev)

/-- Cut two vectors into groups of the given sizes. -/
def regroup : List Nat → List (BitVec K) → List (BitVec K) → List (List (Share K))
  | [], _, _ => []
  | l :: ls, a, b => fromAb (a.take l) (b.take l) :: regroup ls (a.drop l) (b.drop l)

end Gates

variable (t : RingTy)

/-- `and_many_iter_send` -/
def andManyIterSend (a b : List (Share t.bits)) (sizeHint : Nat) : Proc R (List (BitVec t.bits)) := do
  let (mine, prev) ← Proc.draw (Prf.genRandsBatch t sizeHint)
  let sharesA := maskedAnd a b mine prev
  Proc.sendRingVecNext t sharesA
  return sharesA

/-- `and_many_send` -/
def andManySend (a b : List (Share t.bits)) : Proc R (List (BitVec t.bits)) :=
  if a.length ≠ b.length then Proc.lift (.bail "InvalidSize in and_many_send")
  else andManyIterSend t a b a.length

/-- `and_many_receive` -/
def andManyReceive : Proc R (List (BitVec t.bits)) := Proc.receiveRingVec t .prev

/-- `and_many` -/
def andMany (a b : List (Share t.bits)) : Proc R (List (Share t.bits)) := do
  let sharesA ← andManySend t a b
  let sharesB ← andManyReceive t
  return fromAb sharesA sharesB

/-- `and_many_grouped` -/
def andManyGrouped (groups : List (List (Share t.bits) × List (Share t.bits))) :
    Proc R (List (List (Share t.bits))) :=
  if groups.any fun (left, right) => left.length != right.length then
    Proc.lift (.bail "InvalidSize in and_many_grouped")
  else do
    let sizes := groups.map (·.1.length)
    let total := sizes.sum
    let left := groups.flatMap (·.1)
    let right := groups.flatMap (·.2)
    let loc ← andManyIterSend t left right total
    let remote ← andManyReceive t
    if loc.length ≠ total ∨ remote.length ≠ total then
      Proc.lift (.bail "InvalidSize returned by grouped AND")
    else
      return regroup sizes loc remote

/-- `transposed_pack_and` -/
def transposedPackAnd (x1 x2 : List (List (Share t.bits))) : Proc R (List (List (Share t.bits))) :=
  if x1.length ≠ x2.length then
    Proc.lift (.bail s!"Inputs have different length {x1.length} {x2.length}")
  else if x1.map List.length ≠ x2.map List.length then
    Proc.lift (.bail "VecShare lengths are not equal")
  else do
    let chunkSizes := x1.map List.length
    let flattenedLen := chunkSizes.sum
    let sharesA ← andManyIterSend t x1.flatten x2.flatten flattenedLen
    let sharesB ← andManyReceive t
    -- slicing one of the vectors panics when the slices do not fit
    if sharesA.length < flattenedLen ∨ sharesB.length < flattenedLen then
      Proc.lift (.panicked "range end index out of range for slice")
    else
      return regroup chunkSizes sharesA sharesB

/-! ## Adders -/

/-- One ripple of `binary_add_3_get_two_carries`: the loop over the remaining bits of `s` and `c`. -/
def carryLoop : List (List (Share t.bits)) → List (List (Share t.bits)) → List (Share t.bits) →
    Proc R (List (Share t.bits))
  | s :: ss, c :: cs, carry => do
    let s := vecShareXorAssign s carry
    let c := vecShareXorAssign c carry
    let tmpC ← andMany t s c
    carryLoop ss cs (vecShareXorAssign carry tmpC)
  | _, _, carry => pure carry

/-- `binary_add_3_get_two_carries` -/
def binaryAdd3GetTwoCarries (x1 x2 x3 : List (List (Share t.bits))) (truncateLen : Nat) :
    Proc R (List (Share 1) × List (Share 1)) :=
  let len := x1.length
  if len ≠ x2.length ∨ len ≠ x3.length then
    Proc.lift (.bail s!"Inputs have different length {len} {x2.length} {x3.length}")
  else if len < 16 then Proc.lift (.bail s!"Input length should be at least 16: {len}")
  else do
    let x2x3 := transposedPackXorAssign x2 x3
    let s := transposedPackXor x1 x2x3
    let x1x3 := transposedPackXorAssign x1 x3
    let c ← transposedPackAnd t x1x3 x2x3
    let c := transposedPackXorAssign c x3
    match s[1]?, (c)[0]? with
    | some s1, some c0 =>
      let carry ← andMany t s1 c0
      match c.getLast? with
      | none => Proc.lift (.bail "Not enough elements")
      | some cMsb =>
        let carry ← carryLoop t (s.drop 2) (c.dropLast.drop 1) carry
        let res2 ← andMany t cMsb carry
        let cMsb := vecShareXorAssign cMsb carry
        return ((convertToBits cMsb).take truncateLen, (convertToBits res2).take truncateLen)
    | _, _ => Proc.lift (.panicked "index out of bounds")

section EvenOdd

variable {α : Type}

/-- The elements at even positions. -/
def evens : List α → List α
  | [] => []
  | [x] => [x]
  | x :: _ :: xs => x :: evens xs

/-- The elements at odd positions. -/
def odds : List α → List α
  | [] => []
  | [_] => []
  | _ :: y :: xs => y :: odds xs

end EvenOdd

/-- A round of the loop of `binary_add_2_get_msb` (parallel prefix adder): carry propagates and generates are reduced
pairwise. -/
def prefixLoopRound (tempP tempG : List (List (Share t.bits))) :
    Proc R (List (List (Share t.bits)) × List (List (Share t.bits))) := do
  -- an odd list keeps its last element for the next round
  let odd := tempG.length % 2 = 1
  let extraP := if odd then tempP.getLast?.toList else []
  let extraG := if odd then tempG.getLast?.toList else []
  let tempP := if odd then tempP.dropLast else tempP
  let tempG := if odd then tempG.dropLast else tempG
  let evenP := odds tempP
  let oddP := evens tempP
  let evenG := evens tempG
  let oddG := odds tempG
  if tempG.isEmpty ∨ oddP.isEmpty then Proc.lift (.panicked "capacity overflow")
  else
    let tmp ← transposedPackAnd t (evenP ++ evenG) (oddP.drop 1 ++ oddP)
    return (tmp.take evenP.length ++ extraP, transposedPackXor (tmp.drop evenP.length) oddG ++ extraG)

/-- The loop: its rounds go on until one generate is left. The list of generates gets shorter in every round. -/
def prefixLoop : Nat → List (List (Share t.bits)) → List (List (Share t.bits)) →
    Proc R (List (List (Share t.bits)))
  | 0, _, _ => Proc.diverge
  | fuel + 1, tempP, tempG =>
    if tempG.length = 1 then pure tempG
    else do
      let (tempP, tempG) ← prefixLoopRound t tempP tempG
      prefixLoop fuel tempP tempG

/-- The body of `binary_add_2_get_msb` (parallel prefix adder) around its loop. -/
def prefixAdder
    (loop : Nat → List (List (Share t.bits)) → List (List (Share t.bits)) → Proc R (List (List (Share t.bits))))
    (x1 x2 : List (List (Share t.bits))) : Proc R (List (Share t.bits)) :=
  if x1.length ≠ x2.length then
    Proc.lift (.bail s!"Inputs have different length {x1.length} {x2.length}")
  else do
    let p := transposedPackXor x1 x2
    let g ← transposedPackAnd t x1.dropLast x2.dropLast
    match p.getLast? with
    | none => Proc.lift (.bail "Not enough elements")
    | some msbP =>
      if p.dropLast.isEmpty then Proc.lift (.panicked "range start index out of range for slice")
      else
        let tempG ← loop g.length (p.dropLast.drop 1) g
        match tempG.getLast? with
        | none => Proc.lift (.bail "Should contain exactly 1 carry")
        | some carry => return vecShareXor msbP carry

/-- `binary_add_2_get_msb` (parallel prefix adder) -/
def binaryAdd2GetMsb (x1 x2 : List (List (Share t.bits))) : Proc R (List (Share t.bits)) :=
  prefixAdder t (prefixLoop t) x1 x2

/-! ## Extraction of most significant bits -/

/-- The vectors `s1_a`, `s1_b`, `s2_a` and `s2_b` of `two_way_split`. -/
structure Split (K : Nat) where
  s1a : List (BitVec K)
  s1b : List (BitVec K)
  s2a : List (BitVec K)
  s2b : List (BitVec K)

/-- Extend all four vectors. -/
def Split.extend {K : Nat} (x y : Split K) : Split K :=
  ⟨x.s1a ++ y.s1a, x.s1b ++ y.s1b, x.s2a ++ y.s2a, x.s2b ++ y.s2b⟩

/-- `zero_iter` -/
def zeroIter {K : Nat} (len : Nat) : List (BitVec K) := List.replicate len 0

/-- The body of the loop of `two_way_split`: what a party does with one of the three pieces. -/
def splitPiece (roleIndex chunkId : Nat) (chunk : List (Share t.bits)) : Proc R (Split t.bits) :=
  if chunkId = roleIndex then do
    let a := chunk.map Share.a
    let b := chunk.map Share.b
    let rPrev ← Proc.draw (Prf.prev (genMany t a.length))
    let sum ← Proc.lift (vecAdd a b)
    let masked ← Proc.lift (vecXor sum rPrev)
    Proc.sendRingVecNext t masked
    return ⟨masked, rPrev, zeroIter masked.length, zeroIter masked.length⟩
  else if (chunkId + 1) % 3 = roleIndex then do
    let c := chunk.map Share.a
    let masked ← Proc.receiveRingVec t .prev
    return ⟨zeroIter masked.length, masked, c, zeroIter masked.length⟩
  else do
    let c := chunk.map Share.b
    let rNext ← Proc.draw (Prf.mine (genMany t c.length))
    return ⟨rNext, zeroIter c.length, zeroIter c.length, c⟩

/-- The loop of `two_way_split` over the pieces, each given with its number and its length. -/
def splitLoop (roleIndex : Nat) : List (Nat × Nat) → List (Share t.bits) → Split t.bits →
    Proc R (Split t.bits)
  | [], _, acc => pure acc
  | (chunkId, pieceLen) :: pieces, input, acc =>
    if input.length = 0 then pure acc
    else do
      let piece ← splitPiece t roleIndex chunkId (input.take pieceLen)
      splitLoop roleIndex pieces (input.drop pieceLen) (acc.extend piece)

/-- `two_way_split` -/
def twoWaySplit (s : Session) (input : List (Share t.bits)) :
    Proc R (List (Share t.bits) × List (Share t.bits)) := do
  let len := input.length
  let pieceLen1 := len / 3
  let pieceLen2 := (len - pieceLen1) / 2
  let pieceLen3 := len - pieceLen1 - pieceLen2
  let res ← splitLoop t s.roleIndex [(0, pieceLen1), (1, pieceLen2), (2, pieceLen3)] input ⟨[], [], [], []⟩
  return (fromAb res.s1a res.s1b, fromAb res.s2a res.s2b)

/-- `extract_msb` -/
def extractMsb (s : Session) (x : List (Share t.bits)) : Proc R (List (Share 64)) := do
  let (x1, x2) ← twoWaySplit t s x
  binaryAdd2GetMsb .u64 (transposePackU64 t x1) (transposePackU64 t x2)

/-- The loops of `extract_msb_batch` over the words and their bits: bits are pushed until there are
`resLen`. -/
def pushBits (resLen : Nat) : List (Share 1) → List (Share 1) → List (Share 1)
  | [], res => res
  | bit :: bits, res =>
    let res := res ++ [bit]
    if res.length = resLen then res else pushBits resLen bits res

/-- `extract_msb_batch` -/
def extractMsbBatch (s : Session) (x : List (Share t.bits)) : Proc R (List (Share 1)) := do
  let packedBits ← extractMsb t s x
  return pushBits x.length (convertToBits packedBits) []

/-! ## Bit injection -/

section BitInject

variable {K : Nat}

/-- `s12 - s34 - s34` for all pairs of shares, the last step of bit injection. -/
def subTwice (sum12 sum34 : List (Share K)) : List (Share K) :=
  List.zipWith (fun s12 s34 => s12 - s34 - s34) sum12 sum34

end BitInject

/-- `bit_inject_party0` -/
def bitInjectParty0 (input : List (Share 1)) : Proc R (List (Share t.bits)) := do
  let len := input.length
  let b2 : List (BitVec t.bits) := input.map fun bit => bit.b.setWidth _
  let (r01, r02) ← Proc.draw (Prf.genRandsBatch t len)
  let prod ← Proc.lift (vecMul r01 b2)
  let y ← Proc.lift (vecSub prod r02)
  Proc.sendRingVecNext t y
  let z ← Proc.receiveRingVec t .prev
  let sum12 := List.zipWith (fun s1a s2b => (⟨s1a, 0⟩ + ⟨0, s2b⟩ : Share t.bits)) r01 b2
  let sum34 := List.zipWith (fun (s3 : Share t.bits) s4b => s3 + ⟨0, s4b⟩) (fromAb y r02) z
  return subTwice sum12 sum34

/-- `bit_inject_party1` -/
def bitInjectParty1 (input : List (Share 1)) : Proc R (List (Share t.bits)) := do
  let len := input.length
  let r01 ← Proc.draw (Prf.genRandsPrev t len)
  let x : List (BitVec t.bits) :=
    List.zipWith (fun bit r => (bit.a ^^^ bit.b).setWidth _ - r) input r01
  Proc.sendRingVecNext t x
  let y ← Proc.receiveRingVec t .prev
  let r12 ← Proc.draw (Prf.genRandsMine t len)
  let sum34 := List.zipWith (fun s3b s4a => (⟨0, s3b⟩ + ⟨s4a, 0⟩ : Share t.bits)) y r12
  return subTwice (fromAb x r01) sum34

/-- `bit_inject_party2` -/
def bitInjectParty2 (input : List (Share 1)) : Proc R (List (Share t.bits)) := do
  let len := input.length
  let x ← Proc.receiveRingVec t .prev
  let r02 ← Proc.draw (Prf.genRandsMine t len)
  let r12 ← Proc.draw (Prf.genRandsPrev t len)
  let b2 : List (BitVec t.bits) := input.map fun bit => bit.a.setWidth _
  let prod ← Proc.lift (vecMul x b2)
  let z ← Proc.lift (vecSub prod r12)
  Proc.sendRingVecNext t z
  let sum12 := List.zipWith (fun s1b s2a => (⟨0, s1b⟩ + ⟨s2a, 0⟩ : Share t.bits)) x b2
  let sum34 := List.zipWith (fun s3a (s4 : Share t.bits) => ⟨s3a, 0⟩ + s4) r02 (fromAb z r12)
  return subTwice sum12 sum34

/-- `bit_inject` -/
def bitInject (s : Session) (input : List (Share 1)) : Proc R (List (Share t.bits)) :=
  match s.roleIndex with
  | 0 => bitInjectParty0 t input
  | 1 => bitInjectParty1 t input
  | 2 => bitInjectParty2 t input
  | _ => Proc.lift (.bail "Cannot deal with roles outside of the set [0, 1, 2] in bit_inject_ot")

/-! ## Lifting -/

section Lift

variable {K : Nat}

/-- `a2b_pre`, the three results for each of the roles. -/
def a2bPre (s : Session) (x : Share K) : Share K × Share K × Share K :=
  match s.ownRole with
  | 0 => (⟨x.a, 0⟩, 0, ⟨0, x.b⟩)
  | 1 => (⟨0, x.b⟩, ⟨x.a, 0⟩, 0)
  | 2 => (0, ⟨0, x.b⟩, ⟨x.a, 0⟩)

/-- `a2b_pre` on all words of all bit planes, with one of its results. -/
def a2bPlanes (s : Session) (pick : Share K × Share K × Share K → Share K) (x : List (List (Share K))) :
    List (List (Share K)) :=
  x.map fun plane => plane.map fun word => pick (a2bPre s word)

/-- Widen a share to `L` bits and multiply it by `2^k`. -/
def mulLift2k (L k : Nat) (val : Share K) : Share L := (⟨val.a.setWidth L, val.b.setWidth L⟩ : Share L).shl k

/-- `mul_lift_2k_to_32` -/
def mulLift2kTo32 (k : Nat) (val : Share 16) : Share 32 := mulLift2k 32 k val

/-- `mul_lift_2k_to_48` -/
def mulLift2kTo48 (k : Nat) (val : Share 32) : Share 48 := mulLift2k 48 k val

end Lift

/-- The common body of `lift` and `lift_to_ring48`: the carries are injected into the ring `tc`, and the sum is
corrected in the ring with `L` bits. -/
def liftTo (tc : RingTy) (L : Nat) (mulLift : Nat → Share tc.bits → Share L) (s : Session)
    (shares : List (Share 16)) : Proc R (List (Share L)) := do
  let len := shares.length
  let xA : List (Share L) := shares.map fun share => ⟨share.a.setWidth L, share.b.setWidth L⟩
  let x := transposePackU64 .u16 shares
  let x1 := a2bPlanes s (·.1) x
  let x2 := a2bPlanes s (·.2.1) x
  let x3 := a2bPlanes s (·.2.2) x
  let (b1, b2) ← binaryAdd3GetTwoCarries .u64 x1 x2 x3 len
  let b ← bitInject tc s (b1 ++ b2)
  if b.length < len then Proc.lift (.panicked "mid > len")
  else
    let b1 := (b.take len).map (mulLift 16)
    let b2 := (b.drop len).map (mulLift 17)
    return vecShareSubAssign (vecShareSubAssign xA b1) b2

/-- `lift` -/
def lift (s : Session) (shares : List (Share 16)) : Proc R (List (Share 32)) :=
  liftTo .u16 32 mulLift2kTo32 s shares

/-- `lift_to_ring48` -/
def liftToRing48 (s : Session) (shares : List (Share 16)) : Proc R (List (Share 48)) :=
  liftTo .u32 48 mulLift2kTo48 s shares

/-! ## Opening -/

/-- The message of `open_bin`. -/
def openBinMsg : List (Share 1) → RingMsg
  | [share] => .bit share.b
  | shares => .bits (shares.map Share.b)

/-- `open_bin` -/
def openBin (shares : List (Share 1)) : Proc R (List (BitVec 1)) := do
  Proc.send .next (openBinMsg shares)
  let message ← Proc.receive .prev
  let bFromPrevious ← Proc.lift (unpackBits message)
  if bFromPrevious.length ≠ shares.length then
    Proc.lift (.bail (s!"Bit count mismatch in open_bin: expected {shares.length} " ++
      s!"but received {bFromPrevious.length}"))
  else return List.zipWith (fun s prevB => s.a ^^^ s.b ^^^ prevB) shares bFromPrevious

end AmpcCommon.Protocol
