import AmpcCommon.Protocol.Transpose

/-!
# Bit transposition into 128-bit words

The other half of `vecshare_bittranspose.rs`: the implementations of `Transpose128`, which pack the bits of the shares
into `u128` words. They differ from the ones of `Transpose64` in the length of a block and in the masks.
-/

namespace AmpcCommon.Protocol

/-! ## Blocks of 128 shares -/

/-- The words of `share128_from_share16s`. -/
def word128FromWord16s (a b c d e f g h : BitVec 16) : BitVec 128 :=
  a.setWidth 128 ||| (b.setWidth 128 <<< 16) ||| (c.setWidth 128 <<< 32) ||| (d.setWidth 128 <<< 48) |||
    (e.setWidth 128 <<< 64) ||| (f.setWidth 128 <<< 80) ||| (g.setWidth 128 <<< 96) ||| (h.setWidth 128 <<< 112)

/-- `share128_from_share16s` -/
def share128FromShare16s (a b c d e f g h : Share 16) : Share 128 :=
  ⟨word128FromWord16s a.a b.a c.a d.a e.a f.a g.a h.a, word128FromWord16s a.b b.b c.b d.b e.b f.b g.b h.b⟩

/-- The words of `share128_from_share32s`. -/
def word128FromWord32s (a b c d : BitVec 32) : BitVec 128 :=
  a.setWidth 128 ||| (b.setWidth 128 <<< 32) ||| (c.setWidth 128 <<< 64) ||| (d.setWidth 128 <<< 96)

/-- `share128_from_share32s` -/
def share128FromShare32s (a b c d : Share 32) : Share 128 :=
  ⟨word128FromWord32s a.a b.a c.a d.a, word128FromWord32s a.b b.b c.b d.b⟩

/-- The words of `share128_from_share64s`. -/
def word128FromWord64s (a b : BitVec 64) : BitVec 128 := a.setWidth 128 ||| (b.setWidth 128 <<< 64)

/-- `share128_from_share64s` -/
def share128FromShare64s (a b : Share 64) : Share 128 := ⟨word128FromWord64s a.a b.a, word128FromWord64s a.b b.b⟩

/-- `share_transpose16x128` -/
def shareTranspose16x128 (a : List (Share 16)) : List (Share 128) :=
  let res := (List.range 16).map fun i =>
    share128FromShare16s (a.getD i 0) (a.getD (i + 16) 0) (a.getD (i + 32) 0) (a.getD (i + 48) 0) (a.getD (i + 64) 0)
      (a.getD (i + 80) 0) (a.getD (i + 96) 0) (a.getD (i + 112) 0)
  transposeLoop 16 16 8 0x00ff00ff00ff00ff00ff00ff00ff00ff#128 res

/-- `share_transpose32x128` -/
def shareTranspose32x128 (a : List (Share 32)) : List (Share 128) :=
  let res := (List.range 32).map fun i =>
    share128FromShare32s (a.getD i 0) (a.getD (32 + i) 0) (a.getD (64 + i) 0) (a.getD (96 + i) 0)
  transposeLoop 32 32 16 0x0000ffff0000ffff0000ffff0000ffff#128 res

/-- `share_transpose64x128` -/
def shareTranspose64x128 (a : List (Share 64)) : List (Share 128) :=
  let res := (List.range 64).map fun i => share128FromShare64s (a.getD i 0) (a.getD (i + 64) 0)
  transposeLoop 64 64 32 0x00000000ffffffff00000000ffffffff#128 res

/-! ## Whole vectors -/

section Pack

variable {K W : Nat}

/-- `shares.resize(len * W, Share::default())` with `len = shares.len().div_ceil(W)` -/
def padTo (W : Nat) (shares : List (Share K)) : List (Share K) :=
  shares ++ List.replicate ((shares.length + (W - 1)) / W * W - shares.length) 0

/-- The body that the implementations share: one vector of words for each bit of the ring, from the transposed
blocks. -/
def transposePack (W : Nat) (transpose : List (Share K) → List (Share W)) (shares : List (Share K)) :
    List (List (Share W)) :=
  let blocks := (chunksExact W (padTo W shares)).map transpose
  (List.range K).map fun i => blocks.map fun block => block.getD i 0

end Pack

/-- `transpose_pack_u128` of `VecShare<u16>` -/
def transposePackU128U16 (shares : List (Share 16)) : List (List (Share 128)) :=
  transposePack 128 shareTranspose16x128 shares

/-- `transpose_pack_u128` of `VecShare<u32>` -/
def transposePackU128U32 (shares : List (Share 32)) : List (List (Share 128)) :=
  transposePack 128 shareTranspose32x128 shares

/-- `transpose_pack_u128` of `VecShare<u64>` -/
def transposePackU128U64 (shares : List (Share 64)) : List (List (Share 128)) :=
  transposePack 128 shareTranspose64x128 shares

end AmpcCommon.Protocol
