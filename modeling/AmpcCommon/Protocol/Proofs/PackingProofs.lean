import AmpcCommon.Protocol.Proofs.AndProductProofs
import AmpcCommon.Wire.Proofs.BitPackingProofs

/-!
# Bit packing round-trips

Shares of bits are packed into words of any ring, and bits into the bytes of a message. Both are instances of the same
library: a word holds the bits of its block, and zeros after them. The messages of the protocols carry the bits of an
opening as a list; on the wire they are packed (`openBinValue_unpackBits`).
-/

namespace AmpcCommon.Protocol

open Wire (NetworkValue packBits isizeMax)

/-- The share of the words of a chunk. -/
def packChunk (K : Nat) (chunk : List (Share 1)) : Share K :=
  ⟨packWord K (chunk.map Share.a), packWord K (chunk.map Share.b)⟩

/-- The share of a bit of a word. -/
def shareBit {K : Nat} (x : Share K) (i : Nat) : Share 1 := ⟨getBitAsBit x.a i, getBitAsBit x.b i⟩

theorem getBitAsBit_packWord {K : Nat} (bits : List (BitVec 1)) {i : Nat} (hi : i < K) :
    getBitAsBit (packWord K bits) i = bits.getD i 0 := by
  have hone : ∀ b : BitVec 1, BitVec.ofBool (b.getLsbD 0) = b := by decide
  unfold getBitAsBit
  rw [getLsbD_packWord bits hi]
  exact hone _

theorem joins_share (K : Nat) : Packing.Joins K (packChunk K) shareBit 0 := by
  intro chunk _ i hi
  refine Share.ext ?_ ?_
  · show getBitAsBit (packWord K _) i = _
    rw [getBitAsBit_packWord _ hi]
    exact getD_map_side chunk true i
  · show getBitAsBit (packWord K _) i = _
    rw [getBitAsBit_packWord _ hi]
    exact getD_map_side chunk false i

theorem take_convertToBits_pack {K : Nat} (hK : 0 < K) (shares : List (Share 1)) :
    (convertToBits (pack K shares)).take shares.length = shares :=
  (joins_share K).take_unpack_pack hK shares

/-- A list of bits that fits into a vector is packed, and unpacked again. -/
theorem packBits_unpackBits {l : List Bool} (hl : l.length ≤ isizeMax) : ∃ packed,
    packBits l = .ok (.vecRingBit packed l.length) ∧ (NetworkValue.vecRingBit packed l.length).unpackBits = .ok l ∧
      packed.length = (l.length + 7) / 8 ∧
      ∀ i < 8 * packed.length, (packed.getD (i / 8) 0).toNat.testBit (i % 8) = l.getD i false := by
  have hlen : (Packing.pack 8 (Wire.orBits 0) l).length = (l.length + 7) / 8 := Packing.length_pack _ _ _
  refine ⟨_, Wire.packBits_eq l, ?_, hlen, fun i hi => Wire.testBit_packed l hi⟩
  show Wire.unpackVecRingBit _ _ = _
  rw [Wire.unpackVecRingBit_eq _ hl, if_pos hlen.ge, Wire.joins_byte.take_unpack_pack (by decide)]

/-- The value that `open_bin` sends for its message. -/
def openBinValue : List (Share 1) → Outcome NetworkValue
  | [share] => .ok (.ringElementBit (share.b.getLsbD 0))
  | shares => packBits (shares.map fun share => share.b.getLsbD 0)

/-- The message of `open_bin` and its packed value carry the same bits. -/
theorem openBinValue_unpackBits {shares : List (Share 1)} (h : shares.length ≤ isizeMax) :
    ∃ value bits, openBinValue shares = .ok value ∧ unpackBits (openBinMsg shares) = .ok bits ∧
      value.unpackBits = .ok (bits.map fun bit => bit.getLsbD 0) := by
  unfold openBinValue
  split
  · exact ⟨_, _, rfl, rfl, rfl⟩
  · obtain ⟨packed, hpack, hunpack, -⟩ :=
      packBits_unpackBits (l := shares.map fun share => share.b.getLsbD 0) (by rwa [List.length_map])
    refine ⟨_, _, hpack, unpackBits_openBinMsg shares, ?_⟩
    rw [List.length_map] at hunpack
    rw [List.map_map, List.length_map]
    exact hunpack

/-- **Bit packing round-trips**, for bits in bytes and for shares of bits in the words of any ring. Packed bits with any
count that a vector can have are unpacked, or refused when they are too short. -/
theorem bit_packing_round_trips :
    (∀ l : List Bool, l.length ≤ isizeMax → ∃ packed,
      packBits l = .ok (.vecRingBit packed l.length) ∧
      (NetworkValue.vecRingBit packed l.length).unpackBits = .ok l ∧
      packed.length = (l.length + 7) / 8 ∧
      ∀ i < 8 * packed.length, (packed.getD (i / 8) 0).toNat.testBit (i % 8) = l.getD i false) ∧
    (∀ K, 0 < K → ∀ shares, (convertToBits (pack K shares)).take shares.length = shares) ∧
    ∀ packed n, n ≤ isizeMax →
      if (n + 7) / 8 ≤ packed.length then
        ∃ bits, (NetworkValue.vecRingBit packed n).unpackBits = .ok bits ∧ bits.length = n
      else (NetworkValue.vecRingBit packed n).unpackBits = .bail "VecRingBit is shorter than its bit count" := by
  refine ⟨?_, ?_, ?_⟩
  · intro l hl
    exact packBits_unpackBits hl
  · intro K hK shares
    exact take_convertToBits_pack hK shares
  · intro packed n hn
    have hunpack : (NetworkValue.vecRingBit packed n).unpackBits = _ := Wire.unpackVecRingBit_eq packed hn
    rw [hunpack]
    split_ifs with hlen
    · refine ⟨_, rfl, ?_⟩
      rw [List.length_take, Packing.length_unpack]
      omega
    · rfl

/-- A count above the capacity of a vector: the call panics, although there are too few bytes. -/
theorem unpackBits_capacity :
    ¬ ∀ packed n,
      if (n + 7) / 8 ≤ packed.length then
        ∃ bits, (NetworkValue.vecRingBit packed n).unpackBits = .ok bits ∧ bits.length = n
      else ∃ msg, (NetworkValue.vecRingBit packed n).unpackBits = .bail msg := by
  intro h
  have hpanic : (NetworkValue.vecRingBit [] (2 ^ 63)).unpackBits = .panicked "capacity overflow" := by
    show Wire.unpackVecRingBit [] (2 ^ 63) = _
    unfold Wire.unpackVecRingBit isizeMax
    rw [if_pos (by decide)]
  have hshort := h [] (2 ^ 63)
  rw [if_neg (by decide), hpanic] at hshort
  obtain ⟨msg, hmsg⟩ := hshort
  cases hmsg

end AmpcCommon.Protocol
