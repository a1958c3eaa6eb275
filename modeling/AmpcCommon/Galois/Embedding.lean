import AmpcCommon.Base.Base64
import AmpcCommon.Base.Bytes
import AmpcCommon.Galois.Shamir

/-!
# Iris embeddings

The model of the types of `ampc-secret-sharing/src/iris_vector.rs`: a vector of 512 values, its shares among three and
five parties, and their texts in base64, as lists of bytes. The codec for base64 is a parameter. The reconstruction from
all five shares, and from two of three, is that of the tests of the source. -/

namespace AmpcCommon.Galois

open GaloisRingElement ShamirGaloisRingShare

/-- `IRIS_VECTOR_SIZE` -/
def irisVectorSize : Nat := 512

/-- `IrisVector` -/
@[ext]
structure IrisVector where
  data : List (BitVec 8)
  size : data.length = irisVectorSize
  deriving DecidableEq

/-- `IrisSecretSharedVector` -/
@[ext]
structure IrisSecretSharedVector where
  data : List (BitVec 16)
  size : data.length = irisVectorSize
  deriving DecidableEq

section Text

-- `STANDARD`, a codec of the library
variable (engine : Base64.Engine)

/-- `IrisVector::to_base64` -/
def IrisVector.toBase64 (self : IrisVector) : Bytes :=
  engine.encode (self.data.map fun v => UInt8.ofBitVec v)

/-- `IrisVector::from_base64` -/
def IrisVector.fromBase64 (s : Bytes) : Outcome IrisVector :=
  match engine.decode s with
  | .error e => .bail s!"IrisVector base64 decode failed: {e}"
  | .ok bytes =>
    if h : bytes.length = irisVectorSize then .ok ⟨bytes.map UInt8.toBitVec, by rw [List.length_map, h]⟩
    else .bail s!"Invalid IrisVector base64 length: expected {irisVectorSize} bytes, got {bytes.length}"

/-- `to_le_bytes` of the values of a share, one after the other. -/
def leBytes (values : List (BitVec 16)) : Bytes := (values.map fun value => LittleEndian.encode 2 value.toNat).flatten

/-- `IrisSecretSharedVector::to_base64` -/
def IrisSecretSharedVector.toBase64 (self : IrisSecretSharedVector) : Bytes :=
  engine.encode (leBytes self.data)

/-- `u16::from_le_bytes` of the chunks of two bytes. -/
def ofLeBytes (n : Nat) (bytes : Bytes) : List (BitVec 16) :=
  (LittleEndian.chunks 2 n bytes).map fun chunk => BitVec.ofNat 16 (LittleEndian.decode chunk)

theorem length_ofLeBytes (n : Nat) (bytes : Bytes) : (ofLeBytes n bytes).length = n := by
  unfold ofLeBytes
  rw [LittleEndian.chunks_eq_map_range, List.length_map, List.length_map, List.length_range]

/-- `IrisSecretSharedVector::from_base64` -/
def IrisSecretSharedVector.fromBase64 (s : Bytes) : Outcome IrisSecretSharedVector :=
  match engine.decode s with
  | .error e => .bail s!"IrisSecretSharedVector base64 decode failed: {e}"
  | .ok bytes =>
    if bytes.length = irisVectorSize * 2 then .ok ⟨ofLeBytes irisVectorSize bytes, length_ofLeBytes _ _⟩
    else .bail (s!"Invalid IrisSecretSharedVector base64 length: expected {irisVectorSize * 2} bytes " ++
      s!"({irisVectorSize} u16 elements), got {bytes.length}")

end Text

/-- `from_protobuf_share`; `convert` is the text of the failure of `u16::try_from`. -/
def IrisSecretSharedVector.fromProtobufShare (convert : String) (pbShare : List (BitVec 32)) :
    Outcome IrisSecretSharedVector :=
  if h : pbShare.length = irisVectorSize then
    if pbShare.all fun chunk => chunk.toNat < 2 ^ 16 then
      .ok ⟨pbShare.map fun chunk => chunk.setWidth 16, by rw [List.length_map, h]⟩
    else .bail convert
  else .bail s!"Expected {irisVectorSize} elements, got {pbShare.length}"

/-! ## Five parties -/

/-- The loop of `secret_share_5_parties` over the chunks of four values. -/
def secretShare5Loop : List (BitVec 8) → U16Stream → Fin 5 → List (BitVec 16)
  | v0 :: v1 :: v2 :: v3 :: rest, rng =>
    let element : GaloisRingElement .a :=
      ⟨v0.signExtend 16, v1.signExtend 16, v2.signExtend 16, v3.signExtend 16⟩
    let (share, rng') := encode5Mat element.toMonomial rng
    fun j => (share j).y.coefs ++ secretShare5Loop rest rng' j
  | _, _ => fun _ => []

theorem length_secretShare5Loop (n : Nat) {v : List (BitVec 8)} (hv : v.length = 4 * n) (rng : U16Stream) (j : Fin 5) :
    (secretShare5Loop v rng j).length = v.length := by
  induction n generalizing v rng with
  | zero =>
    obtain rfl := List.length_eq_zero_iff.mp hv
    rfl
  | succ n ih =>
    obtain ⟨v0, v1, v2, v3, vs, rfl⟩ : ∃ a b c d l, v = a :: b :: c :: d :: l := by
      match v, hv with
      | a :: b :: c :: d :: l, _ => exact ⟨a, b, c, d, l, rfl⟩
    have hvs : vs.length = 4 * n := by
      simp only [List.length_cons] at hv
      omega
    unfold secretShare5Loop
    simp only [coefs, List.length_append, List.length_cons, List.length_nil, ih hvs]
    omega

/-- `secret_share_5_parties` -/
def IrisVector.secretShare5Parties (self : IrisVector) (rng : U16Stream) :
    Outcome (Fin 5 → IrisSecretSharedVector) :=
  if irisVectorSize % 4 ≠ 0 then
    .bail s!"Vector size must be divisible by 4, got {irisVectorSize}"
  else
    .ok fun j => ⟨secretShare5Loop self.data rng j,
      (length_secretShare5Loop 128 self.size rng j).trans self.size⟩

/-- The four values from an index on, which is below the size. -/
def elementAt (share : List (BitVec 16)) (start : Nat) : GaloisRingElement .monomial :=
  ⟨share.getD start 0, share.getD (start + 1) 0, share.getD (start + 2) 0, share.getD (start + 3) 0⟩

/-- `i8::try_from(coefficient as i16)` -/
def toI8 (index : Nat) (coefficient : BitVec 16) : Outcome (BitVec 8) :=
  if -128 ≤ coefficient.toInt ∧ coefficient.toInt < 128 then .ok (coefficient.setWidth 8)
  else .bail s!"Reconstructed coefficient at index {index} is outside the i8 range"

/-- A round of `reconstruct_5_parties`. -/
def reconstructChunk (shares : Fin 5 → IrisSecretSharedVector) (coefficients : List (GaloisRingElement .monomial))
    (start : Nat) : Outcome (List (BitVec 8)) :=
  let element := ((List.ofFn shares).zip coefficients).foldl
    (fun element p => element + elementAt p.1.data start * p.2) 0
  element.toBasisA.coefs.zipIdx.mapM fun p => toI8 (start + p.2) p.1

/-- `reconstruct_5_parties` -/
def reconstruct5Parties (shares : Fin 5 → IrisSecretSharedVector) : Outcome (List (BitVec 8)) := do
  let coefficients ← deg4LagrangePolysAtZero
  let chunks ← (List.range (irisVectorSize / 4)).mapM fun chunkIndex =>
    reconstructChunk shares coefficients (chunkIndex * 4)
  return chunks.flatten

/-! ## Two of three parties -/

/-- `deg_1_lagrange_polys_at_zero` -/
def deg1LagrangePolysAtZero (myId otherId : Fin 3) : Outcome (GaloisRingElement .monomial) := do
  let i := myId.val + 1
  let j := otherId.val + 1
  let res := 1 * -(← point j)
  let inv ← ((← point i) - (← point j)).inverse
  return res * inv

/-- `deg_1_lagrange_poly_at_v` -/
def deg1LagrangePolyAtV (myId otherId v : Nat) : Outcome (GaloisRingElement .monomial) :=
  if ¬ myId < 15 then .panicked "assertion failed: my_id < 15"
  else if ¬ otherId < 15 then .panicked "assertion failed: other_id < 15"
  else if ¬ v < 15 then .panicked "assertion failed: v < 15"
  else do
    let i := myId + 1
    let j := otherId + 1
    let v := v + 1
    let res := (← point v) - (← point j)
    let inv ← ((← point i) - (← point j)).inverse
    return res * inv

/-- What a party of `test_secret_sharing_correctness` adds to the vector. -/
def weightedBasisA (coefficient : GaloisRingElement .monomial) : List (BitVec 16) → List (BitVec 16)
  | s0 :: s1 :: s2 :: s3 :: rest =>
    let element : GaloisRingElement .monomial := ⟨s0, s1, s2, s3⟩
    (element * coefficient).toBasisA.coefs ++ weightedBasisA coefficient rest
  | _ => []

end AmpcCommon.Galois
