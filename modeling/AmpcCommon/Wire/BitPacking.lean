import AmpcCommon.Base.Packing
import AmpcCommon.Wire.NetworkValue

/-!
# Packed bits

The model of `pack_bits` and `unpack_bits` of `network/mpc/value.rs`: a vector of bits is sent as bytes, eight bits in
each, the first one as the least significant bit.

`Vec::with_capacity` panics on a capacity of more than `isize::MAX` bytes. In `unpack_bits` the capacity is a number
that comes with the value, so the model has this panic; that an allocation can fail is left out.
-/

namespace AmpcCommon.Wire

/-- `isize::MAX`, the largest capacity of a vector of bytes. -/
def isizeMax : Nat := 2 ^ 63 - 1

/-- The loop that sets the bits of a byte: `byte |= (bit as u8) << index` for every bit of a chunk. -/
def orBits (byte : UInt8) (chunk : List Bool) : UInt8 :=
  chunk.zipIdx.foldl (fun byte bit => byte ||| bit.1.toUInt8 <<< UInt8.ofNat bit.2) byte

/-- The loop over the full chunks: each one is stored in its byte, as far as there are bytes. -/
def storeBytes : Bytes → List (List Bool) → Bytes
  | _ :: packed, chunk :: chunks => orBits 0 chunk :: storeBytes packed chunks
  | packed, _ => packed

/-- `pack_bits` -/
def packBits (bits : List Bool) : Outcome NetworkValue :=
  let bitCount := bits.length
  let byteLen := (bitCount + 7) / 8
  let packed := List.replicate byteLen (0 : UInt8)
  -- `chunks_exact(8)`
  let chunks := (List.range (bitCount / 8)).map fun i => (bits.drop (8 * i)).take 8
  let packed := storeBytes packed chunks
  let remainder := bits.drop (8 * (bitCount / 8))
  if remainder.isEmpty then .ok (.vecRingBit packed bitCount)
  else
    match packed.getLast? with
    | none => .panicked "remainder implies a final byte"
    | some last => .ok (.vecRingBit (packed.dropLast ++ [orBits last remainder]) bitCount)

/-- `(byte >> index) & 1 == 1` -/
def byteBit (byte : UInt8) (index : Nat) : Bool := (byte >>> UInt8.ofNat index) &&& 1 == 1

/-- The loop over the bytes, with the bits read so far. -/
def unpackLoop (bitCount : Nat) : Bytes → List Bool → Outcome (List Bool)
  | [], bits => .ok bits
  | byte :: packed, bits =>
    if bitCount < bits.length then .panicked "attempt to subtract with overflow"
    else
      let take := min (bitCount - bits.length) 8
      let bits := bits ++ (List.range take).map (byteBit byte)
      if take < 8 then .ok bits else unpackLoop bitCount packed bits

/-- The case of `unpack_bits` for packed bits. -/
def unpackVecRingBit (packed : Bytes) (bitCount : Nat) : Outcome (List Bool) := do
  if isizeMax < bitCount then .panicked "capacity overflow"
  else
    let bits ← unpackLoop bitCount packed []
    if bits.length ≠ bitCount then .bail "VecRingBit is shorter than its bit count" else pure bits

/-- `unpack_bits` of a value that is not pre-framed. -/
def unpackFlat : NetworkValue → Outcome (List Bool)
  | .vecRingBit packed bitCount => unpackVecRingBit packed bitCount
  | .ringElementBit bit => .ok [bit]
  | v => do .bail s!"expected VecRingBit or RingElementBit, got {(← v.getDescriptorByte).toNat}"

/-- `unpack_bits`. What is deserialized is not pre-framed, so the source unpacks at most one frame. -/
def NetworkValue.unpackBits : NetworkValue → Outcome (List Bool)
  | .preFramed frame => do unpackFlat (← NetworkValue.deserialize frame)
  | v => unpackFlat v

end AmpcCommon.Wire
