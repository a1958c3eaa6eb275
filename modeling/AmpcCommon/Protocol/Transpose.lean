import AmpcCommon.Protocol.Share

/-!
# Bit transposition

The model of `ampc-secret-sharing/src/shares/vecshare_bittranspose.rs`: a vector of shares is padded to a
multiple of the word size and cut into blocks, and each block is transposed, so that the `i`-th word of the
result holds the `i`-th bits of the shares of the block.

The transposition is the recursive one: at level `j` every pair of rows `k` and `k + j` swaps its off-diagonal
parts under a mask, for `j` from half the number of rows down to 1.
-/

namespace AmpcCommon.Protocol

section Loop

variable {W : Nat}

/-- The body of the inner loop: swap the parts of the rows `k` and `k + j` that the mask selects. -/
def swapRows (m : BitVec W) (j k : Nat) (res : List (Share W)) : List (Share W) :=
  let t := (((res.getD k 0).shr j) ^^^ res.getD (k + j) 0).andConst m
  let res := res.set (k + j) (res.getD (k + j) 0 ^^^ t)
  res.set k (res.getD k 0 ^^^ t.shl j)

/-- The next row of the inner loop, `(k + j + 1) & !j`. -/
def nextRow (j k : Nat) : Nat := (k + j + 1) - ((k + j + 1) &&& j)

/-- The rows the inner loop visits. -/
def visitedRows (rows j : Nat) : Nat → Nat → List Nat
  | 0, _ => []
  | fuel + 1, k => if k < rows then k :: visitedRows rows j fuel (nextRow j k) else []

/-- The inner loop. It makes at most `rows` rounds. -/
def swapLevel (rows : Nat) (m : BitVec W) (j : Nat) (res : List (Share W)) : List (Share W) :=
  (visitedRows rows j rows 0).foldl (fun res k => swapRows m j k res) res

/-- The outer loop. It makes fewer than `rows` rounds. -/
def transposeLoop (rows : Nat) : Nat → Nat → BitVec W → List (Share W) → List (Share W)
  | 0, _, _, res => res
  | _ + 1, 0, _, res => res
  | fuel + 1, j, m, res =>
    let res := swapLevel rows m j res
    let j := j >>> 1
    transposeLoop rows fuel j (m ^^^ (m <<< j)) res

end Loop

/-! ## Blocks of 64 shares -/

/-- The words of `share64_from_share16s`. -/
def word64FromWord16s (a b c d : BitVec 16) : BitVec 64 :=
  a.setWidth 64 ||| (b.setWidth 64 <<< 16) ||| (c.setWidth 64 <<< 32) ||| (d.setWidth 64 <<< 48)

/-- `share64_from_share16s` -/
def share64FromShare16s (a b c d : Share 16) : Share 64 :=
  ⟨word64FromWord16s a.a b.a c.a d.a, word64FromWord16s a.b b.b c.b d.b⟩

/-- The words of `share64_from_share32s`. -/
def word64FromWord32s (a b : BitVec 32) : BitVec 64 := a.setWidth 64 ||| (b.setWidth 64 <<< 32)

/-- `share64_from_share32s` -/
def share64FromShare32s (a b : Share 32) : Share 64 :=
  ⟨word64FromWord32s a.a b.a, word64FromWord32s a.b b.b⟩

/-- `share_transpose16x64` -/
def shareTranspose16x64 (a : List (Share 16)) : List (Share 64) :=
  let res := (List.range 16).map fun i =>
    share64FromShare16s (a.getD i 0) (a.getD (16 + i) 0) (a.getD (32 + i) 0) (a.getD (48 + i) 0)
  transposeLoop 16 16 8 0x00ff00ff00ff00ff#64 res

/-- `share_transpose32x64` -/
def shareTranspose32x64 (a : List (Share 32)) : List (Share 64) :=
  let res := (List.range 32).map fun i => share64FromShare32s (a.getD i 0) (a.getD (32 + i) 0)
  transposeLoop 32 32 16 0x0000ffff0000ffff#64 res

/-- `share_transpose64x64` -/
def shareTranspose64x64 (a : List (Share 64)) : List (Share 64) :=
  transposeLoop 64 64 32 0x00000000ffffffff#64 a

/-- The transposition of a block; a block of `Ring48` is transposed as `u64`, and the upper 16 rows are
dropped. -/
def transposeBlock : (t : RingTy) → List (Share t.bits) → List (Share 64)
  | .u16, block => shareTranspose16x64 block
  | .u32, block => shareTranspose32x64 block
  | .u64, block => shareTranspose64x64 block
  | .ring48, block =>
    (shareTranspose64x64 (block.map fun x => ⟨x.a.setWidth 64, x.b.setWidth 64⟩)).take 48

/-- `shares.resize(len * 64, Share::default())` with `len = shares.len().div_ceil(64)` -/
def padTo64 {K : Nat} (shares : List (Share K)) : List (Share K) :=
  shares ++ List.replicate ((shares.length + 63) / 64 * 64 - shares.length) 0

/-- `transpose_pack_u64`: one vector of words for each bit of the ring. -/
def transposePackU64 (t : RingTy) (shares : List (Share t.bits)) : List (List (Share 64)) :=
  let blocks := (chunksExact 64 (padTo64 shares)).map (transposeBlock t)
  (List.range t.bits).map fun i => blocks.map fun block => block.getD i 0

end AmpcCommon.Protocol
