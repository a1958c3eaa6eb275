import AmpcCommon.Base.Counts
import AmpcCommon.Base.Outcome
import Mathlib.Data.BitVec
import Mathlib.Data.Fin.VecNotation

/-!
# The Galois ring of degree four and Shamir shares over it

The model of `ampc-secret-sharing/src/galois.rs` (module `degree4`): elements of
`Z/2^16[x]/(x^4 - x - 1)` by their four `u16` coefficients in one of three bases, exponentiation and
inversion, the changes of basis with their hard-coded matrices, and Shamir sharing among three
parties with the Lagrange coefficients at zero.
-/

namespace AmpcCommon.Galois

/-- The bases an element can be written in. -/
inductive Basis where
  | a
  | b
  | monomial
  deriving Repr, DecidableEq

/-- An element of the Galois ring, by its coefficients in the given basis. -/
@[ext] structure GaloisRingElement (basis : Basis) where
  c0 : BitVec 16
  c1 : BitVec 16
  c2 : BitVec 16
  c3 : BitVec 16
  deriving Repr, DecidableEq

namespace GaloisRingElement

variable {basis : Basis}

/-- The coefficients as a list, as the vectors of shares hold them. -/
def coefs (x : GaloisRingElement basis) : List (BitVec 16) := [x.c0, x.c1, x.c2, x.c3]

instance : Zero (GaloisRingElement .monomial) := ⟨⟨0, 0, 0, 0⟩⟩

instance : One (GaloisRingElement .monomial) := ⟨⟨1, 0, 0, 0⟩⟩

instance : Add (GaloisRingElement basis) :=
  ⟨fun x y => ⟨x.c0 + y.c0, x.c1 + y.c1, x.c2 + y.c2, x.c3 + y.c3⟩⟩

instance : Sub (GaloisRingElement basis) :=
  ⟨fun x y => ⟨x.c0 - y.c0, x.c1 - y.c1, x.c2 - y.c2, x.c3 - y.c3⟩⟩

instance : Neg (GaloisRingElement basis) :=
  ⟨fun x => ⟨-x.c0, -x.c1, -x.c2, -x.c3⟩⟩

instance : Mul (GaloisRingElement .monomial) where
  mul x y :=
    { c0 := x.c0 * y.c0 + x.c1 * y.c3 + x.c2 * y.c2 + x.c3 * y.c1
      c1 := x.c0 * y.c1 + x.c1 * y.c0 + x.c1 * y.c3 + x.c2 * y.c2 + x.c3 * y.c1 + x.c2 * y.c3 +
        x.c3 * y.c2
      c2 := x.c0 * y.c2 + x.c1 * y.c1 + x.c2 * y.c0 + x.c2 * y.c3 + x.c3 * y.c2 + x.c3 * y.c3
      c3 := x.c0 * y.c3 + x.c1 * y.c2 + x.c2 * y.c1 + x.c3 * y.c0 + x.c3 * y.c3 }

/-- `EXCEPTIONAL_SEQUENCE` -/
def exceptionalSequence : List (GaloisRingElement .monomial) :=
  [⟨0, 0, 0, 0⟩, ⟨1, 0, 0, 0⟩, ⟨0, 1, 0, 0⟩, ⟨1, 1, 0, 0⟩,
    ⟨0, 0, 1, 0⟩, ⟨1, 0, 1, 0⟩, ⟨0, 1, 1, 0⟩, ⟨1, 1, 1, 0⟩,
    ⟨0, 0, 0, 1⟩, ⟨1, 0, 0, 1⟩, ⟨0, 1, 0, 1⟩, ⟨1, 1, 0, 1⟩,
    ⟨0, 0, 1, 1⟩, ⟨1, 0, 1, 1⟩, ⟨0, 1, 1, 1⟩, ⟨1, 1, 1, 1⟩]

/-- The loop of `pow`. An exponent below `2^32` is halved at most 31 times until it is at most one,
so `fuel` is never used up. -/
def powLoop : Nat → GaloisRingElement .monomial → GaloisRingElement .monomial → Nat →
    GaloisRingElement .monomial
  | 0, x, y, _ => x * y
  | fuel + 1, x, y, exp =>
    if exp > 1 then
      if exp % 2 = 1 then powLoop fuel (x * x) (x * y) ((exp - 1) / 2)
      else powLoop fuel (x * x) y (exp / 2)
    else x * y

/-- Basic exponentiation by squaring. -/
def pow (x : GaloisRingElement .monomial) (exp : Nat) : GaloisRingElement .monomial :=
  if exp = 0 then 1 else powLoop 32 x 1 exp

/-- Inversion by exponentiation by `(p^r - 1) * p^(m-1) - 1`, with `p = 2`, `r = 4`, `m = 16`. -/
def inverse (x : GaloisRingElement .monomial) : Outcome (GaloisRingElement .monomial) :=
  if x.coefs.all fun c => c % 2 == 0 then .panicked "Element has no inverse"
  else .ok (x.pow ((2 ^ 4 - 1) * 2 ^ (16 - 1) - 1))

/-- Multiplication with the matrix `S⁻¹`. -/
def toBasisA (x : GaloisRingElement .monomial) : GaloisRingElement .a :=
  { c0 := x.c0
    c1 := x.c1 + x.c0 * 7454
    c2 := x.c2 + x.c0 * 35057 + x.c1 * 40342
    c3 := x.c3 + x.c0 * 37176 + x.c1 * 61738 + x.c2 * 8525 }

/-- Multiplication with the matrix `(S * S)⁻¹`. -/
def toBasisB (x : GaloisRingElement .monomial) : GaloisRingElement .b :=
  { c0 := x.c0 * 16038 + x.c1 * 45700 + x.c2 * 28361 + x.c3 * 37176
    c1 := x.c0 * 45700 + x.c1 * 28361 + x.c2 * 37176 + x.c3 * 61738
    c2 := x.c0 * 28361 + x.c1 * 37176 + x.c2 * 61738 + x.c3 * 8525
    c3 := x.c0 * 37176 + x.c1 * 61738 + x.c2 * 8525 + x.c3 * 1 }

/-- Multiplication with the matrix `S`. -/
def toMonomial (x : GaloisRingElement .a) : GaloisRingElement .monomial :=
  { c0 := x.c0
    c1 := x.c1 + x.c0 * 58082
    c2 := x.c2 + x.c0 * 60579 + x.c1 * 25194
    c3 := x.c3 + x.c0 * 17325 + x.c1 * 51956 + x.c2 * 57011 }

end GaloisRingElement

open GaloisRingElement

/-- A source of random `u16` values, as the values it will give. -/
abbrev U16Stream := Nat → BitVec 16

/-- The stream after `n` values have been drawn. -/
def U16Stream.drop (rng : U16Stream) (n : Nat) : U16Stream := fun i => rng (n + i)

/-- `ShamirGaloisRingShare` -/
structure ShamirGaloisRingShare where
  id : Nat
  y : GaloisRingElement .monomial
  deriving Repr, DecidableEq

namespace ShamirGaloisRingShare

/-- `encode_3_mat`: the shares `input + e * random` at the points `1`, `x` and `1 + x`, and the
stream behind the four values drawn. -/
def encode3Mat (input : GaloisRingElement .monomial) (rng : U16Stream) :
    (Fin 3 → ShamirGaloisRingShare) × U16Stream :=
  let r4 := rng 0
  let r5 := rng 1
  let r6 := rng 2
  let r7 := rng 3
  let share1 : GaloisRingElement .monomial :=
    ⟨input.c0 + r4, input.c1 + r5, input.c2 + r6, input.c3 + r7⟩
  let share2 : GaloisRingElement .monomial :=
    ⟨input.c0 + r7, input.c1 + r4 + r7, input.c2 + r5, input.c3 + r6⟩
  let share3 : GaloisRingElement .monomial :=
    ⟨share2.c0 + r4, share2.c1 + r5, share2.c2 + r6, share2.c3 + r7⟩
  (![⟨1, share1⟩, ⟨2, share2⟩, ⟨3, share3⟩], rng.drop 4)

/-- `EXCEPTIONAL_SEQUENCE[i]` -/
def point (i : Nat) : Outcome (GaloisRingElement .monomial) :=
  match exceptionalSequence[i]? with
  | some e => .ok e
  | none => .panicked "index out of bounds"

/-- One factor of the `i`-th Lagrange coefficient at zero. -/
def lagrangeFactor (i j : Nat) (res : GaloisRingElement .monomial) :
    Outcome (GaloisRingElement .monomial) := do
  let res := res * -(← point j)
  let inv ← ((← point i) - (← point j)).inverse
  return res * inv

/-- The inner loop of `deg_k_lagrange_polys_at_zero`. -/
def lagrangeLoop (i : Nat) :
    List Nat → GaloisRingElement .monomial → Outcome (GaloisRingElement .monomial)
  | [], res => .ok res
  | j :: js, res => do
    let res ← if j ≠ i then lagrangeFactor i j res else .ok res
    lagrangeLoop i js res

/-- `deg_k_lagrange_polys_at_zero::<N>` -/
def degKLagrangePolysAtZero (n : Nat) : Outcome (List (GaloisRingElement .monomial)) :=
  if 0 < n ∧ n < exceptionalSequence.length then
    (List.range' 1 n).mapM fun i => lagrangeLoop i (List.range' 1 n) 1
  else .panicked
    "Lagrange interpolation requires between 1 and 15 nonzero evaluation points"

/-- `deg_2_lagrange_polys_at_zero` -/
def deg2LagrangePolysAtZero : Outcome (List (GaloisRingElement .monomial)) :=
  degKLagrangePolysAtZero 3

end ShamirGaloisRingShare

end AmpcCommon.Galois
