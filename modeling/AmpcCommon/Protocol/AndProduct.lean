import AmpcCommon.Protocol.Binary

/-!
# Products of bit vectors

The model of `and_product` of `ampc-actor-utils/src/protocol/binary.rs`, which combines a list of shared bit vectors
into their AND, and of the packing of bits into words (`vecshare.rs`).
-/

namespace AmpcCommon.Protocol

/-- The word of a chunk of bits, the first bit as the least significant one. -/
def packWord (K : Nat) (bits : List (BitVec 1)) : BitVec K :=
  bits.zipIdx.foldl (fun word bit => word ||| bit.1.setWidth K <<< bit.2) 0

/-- `pack` -/
def pack (K : Nat) (shares : List (Share 1)) : List (Share K) :=
  (chunks K shares).map fun chunk => ⟨packWord K (chunk.map Share.a), packWord K (chunk.map Share.b)⟩

variable {R : Type} [Rng R]

/-- The loop of `and_product`. Every round halves the number of vectors. -/
def andProductLoop (len : Nat) : Nat → List (List (Share 1)) → Proc R (List (List (Share 1)))
  | 0, _ => Proc.diverge
  | fuel + 1, res =>
    if res.length ≤ 1 then pure res
    else do
      -- the last column of an odd list is added back after the round
      let maybeLastColumn := if res.length % 2 = 1 then res.getLast?.toList else []
      let res := if res.length % 2 = 1 then res.dropLast else res
      let halfLen := res.length / 2
      let leftBits := pack 64 (res.take halfLen).flatten
      let rightBits := pack 64 (res.drop halfLen).flatten
      let andBits ← andMany .u64 leftBits rightBits
      let andBits := (convertToBits andBits).take (halfLen * len)
      if len = 0 then Proc.lift (.panicked "chunk size must be non-zero")
      else andProductLoop len fuel (chunks len andBits ++ maybeLastColumn)

/-- `and_product` -/
def andProduct (v : List (List (Share 1))) (len : Nat) : Proc R (List (Share 1)) :=
  if v.isEmpty then Proc.lift (.bail "Input vector is empty")
  else if v.any fun vecShare => vecShare.length != len then
    Proc.lift (.bail "Input vector shares have different lengths")
  else do
    let res ← andProductLoop len v.length v
    match res.getLast? with
    | some product => return product
    | none => Proc.lift (.bail "Not enough elements")

end AmpcCommon.Protocol
