import AmpcCommon.Wire.BitPacking
import Mathlib.Data.BitVec
import Mathlib.Data.UInt

/-!
# Packed bits, proofs

The two loops of `pack_bits` store the blocks of eight bits as words (`packBits_eq`), and `unpack_bits` reads bits of
these words until it has the number it was asked for (`unpackVecRingBit_eq`). The round trip is then the one of the
library on packed words.
-/

namespace AmpcCommon.Wire

/-! ## Bits of a byte -/

theorem byteBit_eq (byte : UInt8) {i : Nat} (hi : i < 8) : byteBit byte i = byte.toNat.testBit i := by
  have hnat : (byte >>> UInt8.ofNat i &&& 1).toNat = byte.toNat / 2 ^ i % 2 := by
    rw [UInt8.toNat_and, UInt8.toNat_shiftRight, UInt8.toNat_ofNat', Nat.mod_eq_of_lt (show i < 2 ^ 8 by omega),
      Nat.mod_eq_of_lt hi, Nat.shiftRight_eq_div_pow]
    exact Nat.and_one_is_mod _
  rw [Nat.testBit_eq_decide_div_mod_eq, ← hnat]
  unfold byteBit
  rw [Bool.eq_iff_iff, beq_iff_eq, decide_eq_true_iff, ← UInt8.toNat_inj]
  rfl

theorem testBit_shifted (b : Bool) {k i : Nat} (hk : k < 8) (hi : i < 8) :
    (b.toUInt8 <<< UInt8.ofNat k).toNat.testBit i = (decide (i = k) && b) := by
  have h : ∀ (b : Bool) (k i : Fin 8),
      (b.toUInt8 <<< UInt8.ofNat k.val).toNat.testBit i.val = (decide (i.val = k.val) && b) := by decide
  exact h b ⟨k, hk⟩ ⟨i, hi⟩

/-- A byte holds the bits of its chunk, and zeros after them. -/
theorem joins_byte : Packing.Joins 8 (orBits 0) byteBit false := by
  intro chunk hlen i hi
  rw [byteBit_eq _ hi]
  refine (@Packing.bit_foldl_or _ _ (fun byte : UInt8 => byte.toNat.testBit) id
    (fun byte bit => byte ||| bit.1.toUInt8 <<< UInt8.ofNat bit.2) i chunk 0 0 fun byte b j hj => ?_).trans ?_
  · rw [UInt8.toNat_or, Nat.testBit_or, testBit_shifted b (by omega) hi]
    rfl
  · simp

/-! ## Packing -/

theorem storeBytes_replicate (chunks : List (List Bool)) (m : Nat) :
    storeBytes (List.replicate (chunks.length + m) 0) chunks = chunks.map (orBits 0) ++ List.replicate m 0 := by
  induction chunks with
  | nil =>
    rw [List.length_nil, Nat.zero_add]
    cases m <;> rfl
  | cons chunk chunks ih =>
    rw [List.length_cons, Nat.add_right_comm, List.replicate_succ]
    exact congrArg (orBits 0 chunk :: ·) ih

/-- The packed bytes are the words of the blocks of eight bits. -/
theorem packBits_eq (bits : List Bool) :
    packBits bits = .ok (.vecRingBit (Packing.pack 8 (orBits 0) bits) bits.length) := by
  unfold packBits
  dsimp only
  generalize hfull : bits.length / 8 = full
  generalize hchunks : (List.range full).map (fun i => (bits.drop (8 * i)).take 8) = chunks
  have hlen : chunks.length = full := by
    rw [← hchunks, List.length_map, List.length_range]
  by_cases hrem : bits.length ≤ 8 * full
  · have hbytes : (bits.length + 7) / 8 = chunks.length + 0 := by omega
    have hempty : (bits.drop (8 * full)).isEmpty = true := List.isEmpty_iff.mpr (List.drop_eq_nil_of_le hrem)
    have hpack : Packing.pack 8 (orBits 0) bits = chunks.map (orBits 0) := by
      unfold Packing.pack Packing.blocks
      rw [← hchunks, show (bits.length + 8 - 1) / 8 = full by omega]
    rw [if_pos hempty, hbytes, storeBytes_replicate, hpack, List.replicate_zero, List.append_nil]
  · have hbytes : (bits.length + 7) / 8 = chunks.length + 1 := by omega
    have hempty : ¬ (bits.drop (8 * full)).isEmpty = true := by
      rw [List.isEmpty_iff, List.drop_eq_nil_iff]
      exact hrem
    have hlast : (bits.drop (8 * full)).take 8 = bits.drop (8 * full) := by
      refine List.take_of_length_le ?_
      rw [List.length_drop]
      omega
    have hpack : Packing.pack 8 (orBits 0) bits = chunks.map (orBits 0) ++ [orBits 0 (bits.drop (8 * full))] := by
      unfold Packing.pack Packing.blocks
      rw [← hchunks, show (bits.length + 8 - 1) / 8 = full + 1 by omega, List.range_succ, List.map_append,
        List.map_append, List.map_singleton, List.map_singleton, hlast]
    rw [if_neg hempty, hbytes, storeBytes_replicate, hpack, List.replicate_one, List.getLast?_concat,
      List.dropLast_concat]

/-! ## Unpacking -/

theorem unpackLoop_eq (bitCount : Nat) (packed : Bytes) {bits : List Bool} (hlen : bits.length ≤ bitCount) :
    unpackLoop bitCount packed bits =
      .ok (bits ++ (Packing.unpack 8 byteBit packed).take (bitCount - bits.length)) := by
  induction packed generalizing bits with
  | nil => simp [unpackLoop, Packing.unpack]
  | cons byte packed ih =>
    have hcons : Packing.unpack 8 byteBit (byte :: packed) =
        (List.range 8).map (byteBit byte) ++ Packing.unpack 8 byteBit packed := rfl
    unfold unpackLoop
    rw [if_neg (Nat.not_lt.mpr hlen), hcons, List.take_append, List.length_map, List.length_range]
    by_cases hshort : bitCount - bits.length < 8
    · rw [Nat.min_eq_left hshort.le, if_pos hshort, Nat.sub_eq_zero_of_le hshort.le, List.take_zero, List.append_nil,
        ← List.map_take, List.take_range, Nat.min_eq_left hshort.le]
    · have hfull : 8 ≤ bitCount - bits.length := Nat.le_of_not_lt hshort
      have hbyte : ((List.range 8).map (byteBit byte)).take (bitCount - bits.length) =
          (List.range 8).map (byteBit byte) := List.take_of_length_le (by simpa using hfull)
      rw [Nat.min_eq_right hfull, if_neg (Nat.lt_irrefl 8), ih (by simp; omega), List.append_assoc, List.length_append,
        List.length_map, List.length_range, Nat.sub_add_eq, hbyte]

/-- What `unpack_bits` returns, for any bytes and any count below the capacity of a vector. -/
theorem unpackVecRingBit_eq (packed : Bytes) {bitCount : Nat} (h : bitCount ≤ isizeMax) :
    unpackVecRingBit packed bitCount =
      if (bitCount + 7) / 8 ≤ packed.length then .ok ((Packing.unpack 8 byteBit packed).take bitCount)
      else .bail "VecRingBit is shorter than its bit count" := by
  unfold unpackVecRingBit
  rw [if_neg (Nat.not_lt.mpr h), unpackLoop_eq bitCount packed (Nat.zero_le _), List.nil_append, List.length_nil,
    Nat.sub_zero, Outcome.ok_bind, List.length_take, Packing.length_unpack]
  by_cases hlen : (bitCount + 7) / 8 ≤ packed.length
  · rw [if_pos hlen, if_neg (by omega)]
    rfl
  · rw [if_neg hlen, if_pos (by omega)]

/-- Bit `i` is bit `i % 8` of the byte `i / 8`, and the padding is zero. -/
theorem testBit_packed (bits : List Bool) {i : Nat} (hi : i < 8 * (Packing.pack 8 (orBits 0) bits).length) :
    ((Packing.pack 8 (orBits 0) bits).getD (i / 8) 0).toNat.testBit (i % 8) = bits.getD i false := by
  obtain ⟨byte, hbyte, hget⟩ := joins_byte.get_pack bits hi
  rw [List.getD_eq_getElem?_getD, hbyte, Option.getD_some, ← byteBit_eq _ (Nat.mod_lt i (by decide)), hget]

end AmpcCommon.Wire
