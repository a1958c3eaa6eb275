import AmpcCommon.Base.Bytes

/-!
# Values sent over the network

The model of `network/mpc/value.rs`: the values the parties exchange, their descriptor bytes, the
serializer (flat values and `NetworkVec`) and the two parsers. Buffers are little-endian, as on the
machines the code runs on: a ring element lies in memory as the bytes it has on the wire, except
`Ring48`, which is a `u64` in memory and six bytes on the wire.
-/

namespace AmpcCommon.Wire

/-- `Ring48`: 48-bit values in a `u64` whose upper bits the type does not restrict. -/
structure Ring48 where
  val : BitVec 64
  deriving Repr, DecidableEq

/-- How a ring type lies in memory and on the wire. -/
class RingLayout (T : Type) where
  /-- `T::BYTES`, the width on the wire -/
  wireBytes : Nat
  /-- `size_of::<T>()`, the width in memory -/
  size : Nat
  /-- The bytes of a value in memory. -/
  toMem : T → Bytes
  ofMem : Bytes → T

/-- An unsigned integer of `w` bits takes the same `n` bytes in memory and on the wire. -/
@[reducible] def wordLayout (w n : Nat) : RingLayout (BitVec w) where
  wireBytes := n
  size := n
  toMem x := LittleEndian.encode n x.toNat
  ofMem bs := BitVec.ofNat w (LittleEndian.decode bs)

instance : RingLayout (BitVec 16) := wordLayout 16 2

instance : RingLayout (BitVec 32) := wordLayout 32 4

instance : RingLayout (BitVec 64) := wordLayout 64 8

instance : RingLayout Ring48 where
  wireBytes := 6
  size := 8
  toMem x := LittleEndian.encode 8 x.val.toNat
  ofMem bs := ⟨BitVec.ofNat 64 (LittleEndian.decode bs)⟩

/-- `PRF_KEY_SIZE` -/
def prfKeySize : Nat := 16

/-- A PRF key, `[u8; PRF_KEY_SIZE]`. -/
structure PrfKey where
  bytes : Bytes
  size_eq : bytes.length = prfKeySize
  deriving Repr, DecidableEq

/-- `StateChecksum` -/
structure StateChecksum where
  irises : BitVec 64
  graph : BitVec 64
  deriving Repr, DecidableEq

/-- Value sent over the network. -/
inductive NetworkValue where
  | prfKey (key : PrfKey)
  | ringElementBit (bit : Bool)
  | ringElement16 (x : BitVec 16)
  | ringElement32 (x : BitVec 32)
  | ringElement64 (x : BitVec 64)
  | vecRing16 (v : List (BitVec 16))
  | vecRing32 (v : List (BitVec 32))
  | vecRing64 (v : List (BitVec 64))
  | ringElement48 (x : Ring48)
  | vecRing48 (v : List Ring48)
  | stateChecksum (checksum : StateChecksum)
  | networkVec (v : List NetworkValue)
  | prfCheck (x : BitVec 128)
  | bytes (v : Bytes)
  /-- Packed bit vector: (packed bytes, bit count). -/
  | vecRingBit (packed : Bytes) (bitCount : Nat)
  /-- A message that is already in wire format (descriptor byte included). -/
  | preFramed (bytes : Bytes)

/-- `DescriptorByte` -/
inductive DescriptorByte where
  | prfKey | ringElementBit1 | ringElementBit0 | ringElement16 | ringElement32 | ringElement64
  | vecRing16 | vecRing32 | vecRing64 | stateChecksum | networkVec | prfCheck | bytes
  | ringElement48 | vecRing48 | vecRingBit
  deriving Repr, DecidableEq

namespace DescriptorByte

def toByte : DescriptorByte → UInt8
  | prfKey => 0x01
  | ringElementBit1 => 0x12
  | ringElementBit0 => 0x02
  | ringElement16 => 0x03
  | ringElement32 => 0x04
  | ringElement64 => 0x05
  | vecRing16 => 0x06
  | vecRing32 => 0x07
  | vecRing64 => 0x08
  | stateChecksum => 0x09
  | networkVec => 0x0A
  | prfCheck => 0x0B
  | bytes => 0x0C
  | ringElement48 => 0x0D
  | vecRing48 => 0x0E
  | vecRingBit => 0x0F

/-- All descriptors. -/
def all : List DescriptorByte :=
  [prfKey, ringElementBit1, ringElementBit0, ringElement16, ringElement32, ringElement64,
    vecRing16, vecRing32, vecRing64, stateChecksum, networkVec, prfCheck, bytes, ringElement48,
    vecRing48, vecRingBit]

/-- `DescriptorByte::try_from` -/
def tryFrom (b : UInt8) : Outcome DescriptorByte :=
  match all.find? fun d => d.toByte == b with
  | some d => .ok d
  | none => .bail s!"No discriminant in enum `DescriptorByte` matches the value `{b}`"

/-- The vector variants have a length field that is not part of it. -/
def baseLen : DescriptorByte → Nat
  | prfKey => 1 + prfKeySize
  | ringElementBit1 | ringElementBit0 => 1
  | ringElement16 => 3
  | ringElement32 => 5
  | ringElement64 => 9
  | ringElement48 => 7
  | vecRing16 | vecRing32 | vecRing64 | vecRing48 => 5
  | stateChecksum => 1 + 8 + 8
  | networkVec => 5
  | prfCheck => 1 + 16
  | bytes => 5
  | vecRingBit => 5

end DescriptorByte

/-- The descriptor of a value that is not pre-framed; `none` for a pre-framed one. -/
def NetworkValue.descriptor? : NetworkValue → Option DescriptorByte
  | .prfKey _ => some .prfKey
  | .ringElementBit bit => some (if bit then .ringElementBit1 else .ringElementBit0)
  | .ringElement16 _ => some .ringElement16
  | .ringElement32 _ => some .ringElement32
  | .ringElement64 _ => some .ringElement64
  | .vecRing16 _ => some .vecRing16
  | .vecRing32 _ => some .vecRing32
  | .vecRing64 _ => some .vecRing64
  | .ringElement48 _ => some .ringElement48
  | .vecRing48 _ => some .vecRing48
  | .stateChecksum _ => some .stateChecksum
  | .networkVec _ => some .networkVec
  | .prfCheck _ => some .prfCheck
  | .bytes _ => some .bytes
  | .vecRingBit _ _ => some .vecRingBit
  | .preFramed _ => none

namespace NetworkValue

/-- `get_descriptor_byte` -/
def getDescriptorByte (v : NetworkValue) : Outcome UInt8 :=
  match v.descriptor?, v with
  | some d, _ => .ok d.toByte
  | none, .preFramed (b :: _) => .ok b
  | none, _ => .panicked "PreFramed message cannot be empty"

mutual

/-- `byte_len` -/
def byteLen : NetworkValue → Nat
  | .vecRing16 v => DescriptorByte.vecRing16.baseLen + 2 * v.length
  | .vecRing32 v => DescriptorByte.vecRing32.baseLen + 4 * v.length
  | .vecRing64 v => DescriptorByte.vecRing64.baseLen + 8 * v.length
  | .vecRing48 v => DescriptorByte.vecRing48.baseLen + 6 * v.length
  | .networkVec v => DescriptorByte.networkVec.baseLen + byteLenSum v
  | .bytes v => DescriptorByte.bytes.baseLen + v.length
  | .vecRingBit packed _ => DescriptorByte.vecRingBit.baseLen + packed.length
  | .preFramed frame => frame.length
  | v => v.descriptor?.elim 0 DescriptorByte.baseLen

/-- `v.iter().map(|x| x.byte_len()).sum()` -/
def byteLenSum : List NetworkValue → Nat
  | [] => 0
  | v :: vs => byteLen v + byteLenSum vs

end

end NetworkValue

/-- `serialize_vec_ring`: the length in bytes, as a `u32`, and the elements. -/
def serializeVecRing {T : Type} [RingLayout T] (v : List T) (res : Bytes) : Bytes :=
  let wireBytes := RingLayout.wireBytes T
  let byteLen := v.length * wireBytes
  let res := res ++ LittleEndian.encode 4 byteLen
  if wireBytes = RingLayout.size T then
    -- fast path: the memory of the vector is its wire format
    res ++ v.flatMap RingLayout.toMem
  else
    res ++ v.flatMap fun x => (RingLayout.toMem x).take wireBytes

namespace NetworkValue

/-- `serialize_internal`: append a value that is not a `NetworkVec` to the buffer. -/
def serializeInternal (v : NetworkValue) (res : Bytes) : Outcome Bytes := do
  let res := res ++ [← v.getDescriptorByte]
  match v with
  | .prfKey key => .ok (res ++ key.bytes)
  | .prfCheck x => .ok (res ++ LittleEndian.encode 16 x.toNat)
  | .ringElementBit _ => .ok res
  | .ringElement16 x => .ok (res ++ LittleEndian.encode 2 x.toNat)
  | .ringElement32 x => .ok (res ++ LittleEndian.encode 4 x.toNat)
  | .ringElement64 x => .ok (res ++ LittleEndian.encode 8 x.toNat)
  | .vecRing16 v => .ok (serializeVecRing v res)
  | .vecRing32 v => .ok (serializeVecRing v res)
  | .vecRing64 v => .ok (serializeVecRing v res)
  | .ringElement48 x => .ok (res ++ (LittleEndian.encode 8 x.val.toNat).take 6)
  | .vecRing48 v => .ok (serializeVecRing v res)
  | .stateChecksum checksums => .ok (res ++ LittleEndian.encode 8 checksums.irises.toNat ++
      LittleEndian.encode 8 checksums.graph.toNat)
  | .bytes v => .ok (res ++ LittleEndian.encode 4 v.length ++ v)
  | .vecRingBit packed bitCount => .ok (res ++ LittleEndian.encode 4 bitCount ++ packed)
  | .preFramed frame =>
    -- already framed: the descriptor byte emitted above is stripped again
    .ok (res.take (res.length - 1) ++ frame)
  | .networkVec _ => .panicked "internal error: entered unreachable code"

/-- The loop of `serialize_vec` over the values. -/
def serializeAll : List NetworkValue → Bytes → Outcome Bytes
  | [], res => .ok res
  | v :: vs, res => do serializeAll vs (← v.serializeInternal res)

/-- `serialize_vec`: the length field is a placeholder until the values are written. -/
def serializeVec (values : List NetworkValue) (res : Bytes) : Outcome Bytes := do
  let resStart := res.length
  let res := res ++ [DescriptorByte.networkVec.toByte]
  let lenIdx := res.length
  let res ← serializeAll values (res ++ [0, 0, 0, 0])
  let msgLen := res.length - resStart
  res.copyFromSlice lenIdx (LittleEndian.encode 4 (msgLen - 5))

/-- `serialize`: append a value to the buffer. -/
def serialize (v : NetworkValue) (res : Bytes) : Outcome Bytes :=
  match v with
  | .networkVec values => serializeVec values res
  | .preFramed frame => .ok (res ++ frame)
  | v => v.serializeInternal res

/-- `to_network` -/
def toNetwork (v : NetworkValue) : Outcome Bytes := v.serialize []

/-- `into_network`: the buffer of a pre-framed value is handed over as it is. -/
def intoNetwork : NetworkValue → Outcome Bytes
  | .preFramed frame => .ok frame
  | v => v.toNetwork

end NetworkValue

/-- `from_le_bytes(<[u8; n]>::try_from(&serialized[start..start + n])?)` -/
def readLe (n : Nat) (serialized : Bytes) (start : Nat) : Outcome Nat := do
  Bytes.fromLeBytes n (← serialized.slice start (start + n))

/-- A `u32` length field. -/
def readU32 (serialized : Bytes) (start : Nat) : Outcome Nat := readLe 4 serialized start

/-- `deserialize_vec_ring` -/
def deserializeVecRing (T : Type) [RingLayout T] (serialized : Bytes) : Outcome (List T) := do
  let wireBytes := RingLayout.wireBytes T
  let typeBits := wireBytes * 8
  if serialized.length < 5 then
    .bail s!"Invalid length for VecRing{typeBits}: too short: {serialized.length}"
  else
    let len ← readU32 serialized 1
    if serialized.length ≠ 5 + len then
      .bail (s!"Invalid length for VecRing{typeBits}: length mismatch {serialized.length} " ++
        s!"but expected {5 + len}")
    else if len % wireBytes ≠ 0 then
      .bail (s!"invalid length for VecRing{typeBits}: length {len} does not divide type length " ++
        s!"{wireBytes}")
    else
      let numElements := len / wireBytes
      if wireBytes = RingLayout.size T then
        -- fast path: the wire format is the memory of the vector
        let body ← serialized.slice 5 serialized.length
        return (LittleEndian.chunks wireBytes numElements body).map RingLayout.ofMem
      else
        (List.range numElements).mapM fun i => do
          let src ← serialized.slice (5 + i * wireBytes) (5 + (i + 1) * wireBytes)
          return RingLayout.ofMem (src ++ List.replicate (RingLayout.size T - wireBytes) 0)

namespace NetworkValue

/-- The cases of `deserialize_internal`, by descriptor. -/
def deserializeBody (serialized : Bytes) : DescriptorByte → Outcome NetworkValue
  | .prfKey => do
    if serialized.length ≠ 1 + prfKeySize then .bail "Invalid length for PrfKey"
    else
      let key ← serialized.slice 1 (1 + prfKeySize)
      if h : key.length = prfKeySize then return .prfKey ⟨key, h⟩
      else .bail "could not convert slice to array"
  | .prfCheck => do
    if serialized.length ≠ 1 + 16 then .bail "Invalid length for PrfSqueeze"
    else return .prfCheck (BitVec.ofNat 128 (← readLe 16 serialized 1))
  | .ringElementBit1 | .ringElementBit0 => do
    if serialized.length ≠ 1 then .bail "Invalid length for RingElementBit"
    else return .ringElementBit ((← serialized.index 0) == DescriptorByte.ringElementBit1.toByte)
  | .ringElement16 => do
    if serialized.length ≠ 3 then .bail "Invalid length for RingElement16"
    else return .ringElement16 (BitVec.ofNat 16 (← readLe 2 serialized 1))
  | .ringElement32 => do
    if serialized.length ≠ 5 then .bail "Invalid length for RingElement32"
    else return .ringElement32 (BitVec.ofNat 32 (← readLe 4 serialized 1))
  | .ringElement64 => do
    if serialized.length ≠ 9 then .bail "Invalid length for RingElement64"
    else return .ringElement64 (BitVec.ofNat 64 (← readLe 8 serialized 1))
  | .vecRing16 => do return .vecRing16 (← deserializeVecRing (BitVec 16) serialized)
  | .vecRing32 => do return .vecRing32 (← deserializeVecRing (BitVec 32) serialized)
  | .vecRing64 => do return .vecRing64 (← deserializeVecRing (BitVec 64) serialized)
  | .ringElement48 => do
    if serialized.length ≠ 1 + 6 then .bail "Invalid length for RingElement48"
    else
      let low ← serialized.slice 1 (1 + 6)
      return .ringElement48 ⟨BitVec.ofNat 64 (← Bytes.fromLeBytes 8 (low ++ [0, 0]))⟩
  | .vecRing48 => do return .vecRing48 (← deserializeVecRing Ring48 serialized)
  | .stateChecksum => do
    if serialized.length ≠ 1 + 8 * 2 then .bail "Invalid length for StateChecksum"
    else
      let irises ← readLe 8 serialized 1
      let graph ← readLe 8 serialized 9
      return .stateChecksum ⟨BitVec.ofNat 64 irises, BitVec.ofNat 64 graph⟩
  | .bytes => do
    if serialized.length < 5 then
      .bail s!"Invalid length for Bytes: too short: {serialized.length}"
    else
      let len ← readU32 serialized 1
      if serialized.length ≠ 5 + len then
        .bail (s!"Invalid length for Bytes: length mismatch {serialized.length} " ++
          s!"but expected {5 + len}")
      else return .bytes (← serialized.slice 5 (5 + len))
  | .vecRingBit => do
    if serialized.length < 5 then
      .bail s!"Invalid length for VecRingBit: too short: {serialized.length}"
    else
      let bitCount ← readU32 serialized 1
      let byteLen := (bitCount + 7) / 8
      if serialized.length ≠ 5 + byteLen then
        .bail (s!"Invalid length for VecRingBit: expected {5 + byteLen} " ++
          s!"but got {serialized.length}")
      else return .vecRingBit (← serialized.slice 5 (5 + byteLen)) bitCount
  | .networkVec => .bail "Invalid network value type"

/-- `deserialize_internal`: parse a value that is not a `NetworkVec`. -/
def deserializeInternal (serialized : Bytes) : Outcome NetworkValue := do
  if serialized.isEmpty then
    .bail "Empty serialized data"
  else
    deserializeBody serialized (← DescriptorByte.tryFrom (← serialized.index 0))

/-- The length of the element of a `NetworkVec` that starts at `idx`, by its descriptor. -/
def elementLenBody (serialized : Bytes) (endIdx idx : Nat) : DescriptorByte → Outcome Nat
  | .ringElementBit0 | .ringElementBit1 => .ok 1
  | .ringElement16 => .ok 3
  | .ringElement32 => .ok 5
  | .ringElement64 => .ok 9
  | .ringElement48 => .ok (1 + 6)
  | .vecRing16 | .vecRing32 | .vecRing64 | .vecRing48 | .bytes => do
    if endIdx < idx + 5 then
      .bail "Invalid length for VecRing: can't parse vector length"
    else
      let len ← readU32 serialized (idx + 1)
      return 5 + len
  | .vecRingBit => do
    if endIdx < idx + 5 then
      .bail "Invalid length for VecRingBit: can't parse bit count"
    else
      let bitCount ← readU32 serialized (idx + 1)
      let byteLen := (bitCount + 7) / 8
      return 5 + byteLen
  | .prfKey | .stateChecksum | .networkVec | .prfCheck => .bail "Invalid type for NetworkVec"

/-- The length of the element of a `NetworkVec` that starts at `idx`. -/
def elementLen (serialized : Bytes) (endIdx idx : Nat) : Outcome Nat := do
  elementLenBody serialized endIdx idx (← DescriptorByte.tryFrom (← serialized.index idx))

theorem elementLen_pos {serialized : Bytes} {endIdx idx n : Nat}
    (h : elementLen serialized endIdx idx = .ok n) : 0 < n := by
  obtain ⟨b, -, h⟩ := Outcome.bind_eq_ok.mp h
  obtain ⟨d, -, h⟩ := Outcome.bind_eq_ok.mp h
  cases d
  case ringElementBit0 | ringElementBit1 | ringElement16 | ringElement32 | ringElement64
      | ringElement48 =>
    cases h
    decide
  case prfKey | stateChecksum | networkVec | prfCheck => cases h
  all_goals
    simp only [elementLenBody] at h
    split_ifs at h
    · cases h
    · obtain ⟨len, -, h⟩ := Outcome.bind_eq_ok.mp h
      cases h
      omega

/-- The loop of `deserialize_vec`, at index `idx` with the values `res` read so far. It ends because
an element is never empty. -/
def deserializeVecLoop (serialized : Bytes) (endIdx idx : Nat) (res : List NetworkValue) :
    Outcome (List NetworkValue) :=
  if idx < endIdx then
    match _hlen : elementLen serialized endIdx idx with
    | .error e => .error e
    | .ok valueLen =>
      match serialized.slice idx (idx + valueLen) >>= deserializeInternal with
      | .error e => .error e
      | .ok value => deserializeVecLoop serialized endIdx (idx + valueLen) (res ++ [value])
  else .ok res
termination_by endIdx - idx
decreasing_by
  have := elementLen_pos _hlen
  omega

/-- `deserialize_vec` -/
def deserializeVec (serialized : Bytes) : Outcome (List NetworkValue) := do
  if serialized.length < 5 then
    .bail "Can't parse vector length: buffer too short"
  else if (← serialized.index 0) ≠ DescriptorByte.networkVec.toByte then
    .bail "called deserialize_vec() on invalid buffer"
  else
    let payloadLen ← readU32 serialized 1
    if serialized.length ≠ 5 + payloadLen then
      .bail (s!"NetworkVec length mismatch: {serialized.length - 5} " ++
        s!"vs expected {payloadLen}")
    else
      deserializeVecLoop serialized (5 + payloadLen) 5 []

/-- `deserialize` -/
def deserialize (serialized : Bytes) : Outcome NetworkValue :=
  if serialized.head? = some DescriptorByte.networkVec.toByte then
    (deserializeVec serialized).map .networkVec
  else
    deserializeInternal serialized

end NetworkValue

end AmpcCommon.Wire
