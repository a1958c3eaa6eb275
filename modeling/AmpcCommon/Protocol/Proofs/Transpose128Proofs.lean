import AmpcCommon.Protocol.Proofs.ComponentProofs
import AmpcCommon.Protocol.Proofs.TransposeProofs

/-!
# Bit transposes are transposes

All bit transposes of the repository obey one law (`IsTranspose`): bit `i` of the word `j` of the plane `k` is bit `k`
of the element `j * W + i`. A transpose that obeys it on blocks obeys it on vectors of any length
(`transposePack_isTranspose`), and the transposes of plain words are those of the components of the shares.
-/

namespace AmpcCommon.Protocol

/-! ## The law -/

/-- The transpose of a vector: `K` planes of as many words with `W` bits as it takes. They hold the bits of the elements
in each component, and zeros after the last one. -/
structure IsTranspose {K W : Nat} (shares : List (Share K)) (planes : List (List (Share W))) : Prop where
  length : planes.length = K
  words : ∀ plane ∈ planes, plane.length = (shares.length + (W - 1)) / W
  bit : ∀ k < K, ∀ j < (shares.length + (W - 1)) / W, ∀ i < W, ∀ left,
    (((planes.getD k []).getD j 0).side left).getLsbD i =
      if j * W + i < shares.length then ((shares.getD (j * W + i) 0).side left).getLsbD k else false

/-- **Whole vectors.** Blocks that are transposed make planes. -/
theorem transposePack_isTranspose {K W : Nat} (hW : 0 < W) {transpose : List (Share K) → List (Share W)}
    (hblocks : TransposesBlocks transpose) (shares : List (Share K)) :
    IsTranspose shares (transposePack W transpose shares) where
  length := by simp [transposePack]
  words plane hplane := by
    obtain ⟨i, -, rfl⟩ := List.mem_map.mp hplane
    simp [chunksExact, length_padTo hW, Nat.mul_div_cancel _ hW]
  bit k hk j hj i hi left := by
    have hwords : (padTo W shares).length / W = (shares.length + (W - 1)) / W := by
      rw [length_padTo hW, Nat.mul_div_cancel _ hW]
    have hblock : ((transposePack W transpose shares).getD k []).getD j 0 =
        (transpose (((padTo W shares).drop (W * j)).take W)).getD k 0 := by
      unfold transposePack chunksExact
      rw [getD_map_range hk, List.map_map, List.map_map, hwords, getD_map_range hj]
      rfl
    obtain ⟨hlen, hget⟩ := padTo_block hW shares hj
    rw [hblock, hblocks _ hlen left k hk i hi, hget i hi, Nat.mul_comm W j]
    by_cases hin : j * W + i < shares.length
    · rw [if_pos hin]
    · rw [if_neg hin, List.getD_eq_default _ _ (Nat.le_of_not_lt hin), Share.side_zero]
      exact BitVec.getLsbD_zero

theorem transposeBlock_transposes (t : RingTy) : TransposesBlocks (transposeBlock t) := by
  intro block hlen left k hk i hi
  exact transposeBlock_bit t hlen left hk hi

/-! ## Blocks of 128 shares -/

theorem levels16x128_isLevel :
    ∀ l ∈ levels 16 8 0x00ff00ff00ff00ff00ff00ff00ff00ff#128, IsLevel 128 16 l.1 l.2 :=
  levels_isLevel (e := 3) (by decide) (by decide) (by decide) (by decide)

theorem levels32x128_isLevel :
    ∀ l ∈ levels 32 16 0x0000ffff0000ffff0000ffff0000ffff#128, IsLevel 128 32 l.1 l.2 :=
  levels_isLevel (e := 4) (by decide) (by decide) (by decide) (by decide)

theorem levels64x128_isLevel :
    ∀ l ∈ levels 64 32 0x00000000ffffffff00000000ffffffff#128, IsLevel 128 64 l.1 l.2 :=
  levels_isLevel (e := 5) (by decide) (by decide) (by decide) (by decide)

theorem shareTranspose16x128_transposes : TransposesBlocks shareTranspose16x128 := by
  have hpack : PacksRows 8 fun (a : List (Share 16)) i =>
      share128FromShare16s (a.getD i 0) (a.getD (i + 16) 0) (a.getD (i + 32) 0) (a.getD (i + 48) 0)
        (a.getD (i + 64) 0) (a.getD (i + 80) 0) (a.getD (i + 96) 0) (a.getD (i + 112) 0) := by
    intro a i left
    simp only [Nat.add_comm i]
    cases left <;> rfl
  exact transposeLoop_transposes (by decide : 16 = 2 ^ 4) (by decide) levels16x128_isLevel rfl hpack

theorem shareTranspose32x128_transposes : TransposesBlocks shareTranspose32x128 := by
  have hpack : PacksRows 4 fun (a : List (Share 32)) i =>
      share128FromShare32s (a.getD i 0) (a.getD (32 + i) 0) (a.getD (64 + i) 0) (a.getD (96 + i) 0) := by
    intro a i left
    cases left <;> rfl
  exact transposeLoop_transposes (by decide : 32 = 2 ^ 5) (by decide) levels32x128_isLevel rfl hpack

theorem shareTranspose64x128_transposes : TransposesBlocks shareTranspose64x128 := by
  have hpack : PacksRows 2 fun (a : List (Share 64)) i => share128FromShare64s (a.getD i 0) (a.getD (i + 64) 0) := by
    intro a i left
    simp only [Nat.add_comm i]
    cases left <;> rfl
  exact transposeLoop_transposes (by decide : 64 = 2 ^ 6) (by decide) levels64x128_isLevel rfl hpack

/-! ## Blocks of words -/

theorem length_swapWordLevel {W : Nat} (rows : Nat) (m : BitVec W) (j : Nat) (result : List (BitVec W)) :
    (swapWordLevel rows m j result).length = result.length := by
  unfold swapWordLevel
  induction visitedRows rows j rows 0 generalizing result with
  | nil => rfl
  | cons k ks ih =>
    rw [List.foldl_cons, ih]
    simp [swapWordRows]

theorem length_transposeWordLoop {W : Nat} (rows fuel j : Nat) (m : BitVec W) (result : List (BitVec W)) :
    (transposeWordLoop rows fuel j m result).length = result.length := by
  fun_induction transposeWordLoop rows fuel j m result with
  | case1 => rfl
  | case2 => rfl
  | case3 fuel j m result hj result' j' ih => rw [ih, length_swapWordLevel]

/-- The words of a block are transposed as the shares are. -/
theorem transposeBlock_words (t : RingTy) {transpose : List (BitVec t.bits) → List (BitVec 64)}
    (heq : ∀ input, transpose input = (transposeBlock t (input.map twice)).map (Share.side true))
    (input : Fin 64 → BitVec t.bits) {k : Nat} (hk : k < t.bits) (i : Fin 64) :
    ((transpose (List.ofFn input)).getD k 0).getLsbD i = (input i).getLsbD k := by
  rw [heq, transposeBlock_twice_bit t List.length_ofFn hk i.isLt, List.getD_eq_getElem?_getD, List.getElem?_ofFn,
    dif_pos i.isLt]
  rfl

/-- **Every bit transpose is the transpose.** -/
theorem bit_transposes :
    (∀ (t : RingTy) (shares : List (Share t.bits)), IsTranspose shares (transposePackU64 t shares)) ∧
    (∀ shares : List (Share 16), IsTranspose shares (transposePackU128U16 shares)) ∧
    (∀ shares : List (Share 32), IsTranspose shares (transposePackU128U32 shares)) ∧
    (∀ shares : List (Share 64), IsTranspose shares (transposePackU128U64 shares)) ∧
    (∀ input : Fin 64 → BitVec 16, (transposeU16Block (List.ofFn input)).length = 16 ∧
      ∀ k < 16, ∀ i : Fin 64,
        ((transposeU16Block (List.ofFn input)).getD k 0).getLsbD i = (input i).getLsbD k) ∧
    (∀ input : Fin 64 → BitVec 32, (transposeU32Block (List.ofFn input)).length = 32 ∧
      ∀ k < 32, ∀ i : Fin 64,
        ((transposeU32Block (List.ofFn input)).getD k 0).getLsbD i = (input i).getLsbD k) ∧
    ∀ left,
      (∀ block : List (Share 16),
        (shareTranspose16x64 block).map (Share.side left) = transposeU16Block (block.map (Share.side left))) ∧
      ∀ block : List (Share 32),
        (shareTranspose32x64 block).map (Share.side left) = transposeU32Block (block.map (Share.side left)) := by
  refine ⟨?_, ?_, ?_, ?_, ?_, ?_, ?_⟩
  · intro t shares
    exact transposePack_isTranspose (by decide) (transposeBlock_transposes t) shares
  · intro shares
    exact transposePack_isTranspose (by decide) shareTranspose16x128_transposes shares
  · intro shares
    exact transposePack_isTranspose (by decide) shareTranspose32x128_transposes shares
  · intro shares
    exact transposePack_isTranspose (by decide) shareTranspose64x128_transposes shares
  · intro input
    refine ⟨?_, fun k hk i => transposeBlock_words .u16 transposeU16Block_eq input hk i⟩
    simp [transposeU16Block, length_transposeWordLoop]
  · intro input
    refine ⟨?_, fun k hk i => transposeBlock_words .u32 transposeU32Block_eq input hk i⟩
    simp [transposeU32Block, length_transposeWordLoop]
  · intro left
    exact ⟨shareTranspose16x64_side left, shareTranspose32x64_side left⟩

end AmpcCommon.Protocol
