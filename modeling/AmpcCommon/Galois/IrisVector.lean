import AmpcCommon.Galois.GaloisRing

/-!
# Secret sharing of embedding vectors

The model of `secret_share` and `multiply_lagrange_coeffs` of `iris_vector.rs` (the face vectors have
the same code): a vector of `i8` values is cut into chunks of four, each chunk is read in basis A and
shared over the Galois ring. The vectors of the source have 512 entries; the model takes any length.
-/

namespace AmpcCommon.Galois

open ShamirGaloisRingShare

/-- The loop of `secret_share` over the chunks of four values. -/
def secretShareLoop : List (BitVec 8) → U16Stream → Fin 3 → List (BitVec 16)
  | v0 :: v1 :: v2 :: v3 :: rest, rng =>
    let element : GaloisRingElement .a :=
      ⟨v0.signExtend 16, v1.signExtend 16, v2.signExtend 16, v3.signExtend 16⟩
    let (share, rng') := encode3Mat element.toMonomial rng
    fun j => (share j).y.coefs ++ secretShareLoop rest rng' j
  | _, _ => fun _ => []

/-- `secret_share` -/
def secretShare (v : List (BitVec 8)) (rng : U16Stream) : Outcome (Fin 3 → List (BitVec 16)) :=
  if v.length % 4 ≠ 0 then
    .bail s!"Vector size must be divisible by 4, got {v.length}"
  else .ok (secretShareLoop v rng)

/-- `lagrange_coeffs[id - 1]` -/
def lagrangeCoeff (coeffs : List (GaloisRingElement .monomial)) (id : Nat) :
    Outcome (GaloisRingElement .monomial) :=
  if id = 0 then .panicked "attempt to subtract with overflow"
  else match coeffs[id - 1]? with
    | some c => .ok c
    | none => .panicked "index out of bounds"

/-- The loop of `multiply_lagrange_coeffs` over the chunks of four values. -/
def multiplyLagrangeLoop (coeffs : List (GaloisRingElement .monomial)) (id : Nat) :
    List (BitVec 16) → Outcome (List (BitVec 16))
  | [] => .ok []
  | s0 :: s1 :: s2 :: s3 :: rest => do
    let element : GaloisRingElement .monomial := ⟨s0, s1, s2, s3⟩
    let element := element * (← lagrangeCoeff coeffs id)
    let rest ← multiplyLagrangeLoop coeffs id rest
    return element.toBasisB.coefs ++ rest
  | _ => .panicked "index out of bounds"

/-- `multiply_lagrange_coeffs` -/
def multiplyLagrangeCoeffs (share : List (BitVec 16)) (id : Nat) : Outcome (List (BitVec 16)) := do
  multiplyLagrangeLoop (← deg2LagrangePolysAtZero) id share

/-- The wrapping dot product of two `u16` vectors. -/
def wrappingDot (x y : List (BitVec 16)) : BitVec 16 := (List.zipWith (· * ·) x y).sum

/-- The integer dot product of two `i8` vectors. -/
def integerDot (v w : List (BitVec 8)) : Int :=
  (List.zipWith (fun a b => a.toInt * b.toInt) v w).sum

end AmpcCommon.Galois
