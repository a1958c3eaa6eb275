import AmpcCommon.Galois.IrisVector

/-!
# Shamir sharing among three and five parties

The model of the encoders and the reconstruction of `ampc-secret-sharing/src/galois.rs`. The encoders with the suffix
`Mat` only add, the others evaluate the sharing polynomial. The shares of an array are a function on their indices.
-/

namespace AmpcCommon.Galois

open GaloisRingElement

/-- `GaloisRingElement::random` -/
def GaloisRingElement.random (rng : U16Stream) : GaloisRingElement .monomial × U16Stream :=
  (⟨rng 0, rng 1, rng 2, rng 3⟩, rng.drop 4)

/-- The closure `mul_x` of `encode_5_mat`. As `x^4 = x + 1`, multiplication by `x` costs one addition. -/
def GaloisRingElement.mulX (a : GaloisRingElement .monomial) : GaloisRingElement .monomial :=
  ⟨a.c3, a.c0 + a.c3, a.c1, a.c2⟩

namespace ShamirGaloisRingShare

/-- An operator on shares: it asserts that the ids are equal. -/
def sameId (op : GaloisRingElement .monomial → GaloisRingElement .monomial → GaloisRingElement .monomial)
    (x y : ShamirGaloisRingShare) : Outcome ShamirGaloisRingShare :=
  if x.id ≠ y.id then .panicked "ids must be equal" else .ok ⟨x.id, op x.y y.y⟩

/-- `Add for ShamirGaloisRingShare` -/
def add : ShamirGaloisRingShare → ShamirGaloisRingShare → Outcome ShamirGaloisRingShare := sameId (· + ·)

/-- `Mul for ShamirGaloisRingShare` -/
def mul : ShamirGaloisRingShare → ShamirGaloisRingShare → Outcome ShamirGaloisRingShare := sameId (· * ·)

/-- `Sub for ShamirGaloisRingShare` -/
def sub : ShamirGaloisRingShare → ShamirGaloisRingShare → Outcome ShamirGaloisRingShare := sameId (· - ·)

/-- The point of the share with the index `index`; the sequence has sixteen entries. -/
def sharePointOf (index : Nat) : GaloisRingElement .monomial := exceptionalSequence.getD (index + 1) 0

/-- `encode_3` -/
def encode3 (input : GaloisRingElement .monomial) (rng : U16Stream) : (Fin 3 → ShamirGaloisRingShare) × U16Stream :=
  let (r, rng) := random rng
  (fun i => ⟨i + 1, input + r * sharePointOf i⟩, rng)

/-- `encode_5` -/
def encode5 (input : GaloisRingElement .monomial) (rng : U16Stream) : (Fin 5 → ShamirGaloisRingShare) × U16Stream :=
  let (r, rng) := random rng
  let (t, rng) := random rng
  (fun index =>
    let z := sharePointOf index
    ⟨index + 1, input + (r + t * z) * z⟩, rng)

/-- `encode_5_mat` -/
def encode5Mat (input : GaloisRingElement .monomial) (rng : U16Stream) : (Fin 5 → ShamirGaloisRingShare) × U16Stream :=
  let s := input
  let (r, rng) := random rng
  let (t, rng) := random rng
  let q := r + t
  let tx := mulX t
  let txx := mulX tx
  let y1 := s + q
  let y2 := s + mulX (r + tx)
  let y4 := s + mulX (mulX (r + txx))
  -- twice `x * t` and twice `x^2 * t`
  let dx := tx + tx
  let dxx := mulX dx
  let y3 := y2 + q + dx
  let y5 := y4 + q + dxx
  (![⟨1, y1⟩, ⟨2, y2⟩, ⟨3, y3⟩, ⟨4, y4⟩, ⟨5, y5⟩], rng)

/-- `deg_4_lagrange_polys_at_zero` -/
def deg4LagrangePolysAtZero : Outcome (List (GaloisRingElement .monomial)) := degKLagrangePolysAtZero 5

/-- `s.y * lagrange_polys_at_zero[s.id - 1]` -/
def weighted (lagrangePolysAtZero : List (GaloisRingElement .monomial)) (s : ShamirGaloisRingShare) :
    Outcome (GaloisRingElement .monomial) := do
  let coeff ← lagrangeCoeff lagrangePolysAtZero s.id
  return s.y * coeff

/-- `.reduce(|a, b| a + b).unwrap()` -/
def sumTerms : List (GaloisRingElement .monomial) → Outcome (GaloisRingElement .monomial)
  | [] => .panicked "called Option::unwrap() on a None value"
  | a :: l => .ok (l.foldl (· + ·) a)

/-- What the functions that reconstruct have in common. -/
def reconstructWith {n : Nat} (polys : Outcome (List (GaloisRingElement .monomial)))
    (shares : Fin n → ShamirGaloisRingShare) : Outcome (GaloisRingElement .monomial) := do
  let lagrangePolysAtZero ← polys
  let terms ← (List.ofFn shares).mapM (weighted lagrangePolysAtZero)
  sumTerms terms

/-- `reconstruct_deg_2_shares` -/
def reconstructDeg2Shares (shares : Fin 3 → ShamirGaloisRingShare) : Outcome (GaloisRingElement .monomial) :=
  reconstructWith deg2LagrangePolysAtZero shares

/-- `reconstruct_deg_4_shares` -/
def reconstructDeg4Shares (shares : Fin 5 → ShamirGaloisRingShare) : Outcome (GaloisRingElement .monomial) :=
  reconstructWith deg4LagrangePolysAtZero shares

/-! ## Interpolation from a part of the shares -/

/-- The inner loop of `any_three_of_five_shares_reconstruct`: the coefficient of the share `share` at zero. -/
def coefficientLoop (share : ShamirGaloisRingShare) :
    List ShamirGaloisRingShare → GaloisRingElement .monomial → Outcome (GaloisRingElement .monomial)
  | [], coefficient => .ok coefficient
  | other :: subset, coefficient => do
    let coefficient ← if other.id ≠ share.id then lagrangeFactor share.id other.id coefficient else .ok coefficient
    coefficientLoop share subset coefficient

/-- The outer loop of `any_three_of_five_shares_reconstruct`. -/
def subsetLoop (subset : List ShamirGaloisRingShare) :
    List ShamirGaloisRingShare → GaloisRingElement .monomial → Outcome (GaloisRingElement .monomial)
  | [], reconstructed => .ok reconstructed
  | share :: shares, reconstructed => do
    let coefficient ← coefficientLoop share subset 1
    subsetLoop subset shares (reconstructed + share.y * coefficient)

/-- The interpolation at zero of `any_three_of_five_shares_reconstruct`. -/
def reconstructSubset (subset : List ShamirGaloisRingShare) : Outcome (GaloisRingElement .monomial) :=
  subsetLoop subset subset 0

end ShamirGaloisRingShare

end AmpcCommon.Galois
