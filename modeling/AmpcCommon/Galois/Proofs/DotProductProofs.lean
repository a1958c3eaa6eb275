import AmpcCommon.Galois.IrisVector
import AmpcCommon.Galois.Proofs.RingProofs
import Mathlib.Data.Int.ModEq
import Mathlib.Data.Fintype.Basic
import Mathlib.Algebra.BigOperators.Fin
import Mathlib.Tactic.FinCases
import Mathlib.Tactic.LinearCombination

/-!
# The Galois-ring dot product

`project` is the linear functional of the ring that the matrix of basis B belongs to: the coefficient
dot product of `x.toBasisB` and `y` is `project (x * y)`. It maps the product of two elements given in
basis A to the dot product of their coefficients. As `project` is additive, summing the local dot
products of the three parties interpolates the product of the secrets at zero.
-/

namespace AmpcCommon.Galois

open GaloisRingElement ShamirGaloisRingShare

theorem u16_modulus : (65536 : BitVec 16) = 0 := rfl

/-- The functional whose values at `1, x, x², x³` are the first row of the matrix of basis B. -/
def project (z : GaloisRingElement .monomial) : BitVec 16 :=
  z.c0 * 16038 + z.c1 * 45700 + z.c2 * 28361 + z.c3 * 37176

/-- The dot product of the coefficients of two elements. -/
def coefDot {basis basis' : Basis} (x : GaloisRingElement basis)
    (y : GaloisRingElement basis') : BitVec 16 :=
  x.c0 * y.c0 + x.c1 * y.c1 + x.c2 * y.c2 + x.c3 * y.c3

theorem project_add (x y : GaloisRingElement .monomial) :
    project (x + y) = project x + project y := by
  simp only [project, add_c0, add_c1, add_c2, add_c3]
  ring

/-- The matrix of basis B turns the ring product followed by `project` into a dot product. -/
theorem coefDot_toBasisB (x y : GaloisRingElement .monomial) :
    coefDot x.toBasisB y = project (x * y) := by
  simp only [coefDot, toBasisB, project, mul_c0, mul_c1, mul_c2, mul_c3]
  -- the matrix has its entries reduced modulo 2^16
  linear_combination -(x.c2 * y.c3 + x.c3 * y.c2 + x.c3 * y.c3) * u16_modulus

/-- The matrix of basis A is orthogonal for the form `project (x * y)`. -/
theorem project_toMonomial (v w : GaloisRingElement .a) :
    project (v.toMonomial * w.toMonomial) = coefDot v w := by
  simp only [coefDot, toMonomial, project, mul_c0, mul_c1, mul_c2, mul_c3]
  linear_combination (13477247198 * v.c0 * w.c0 + 10061082207 * v.c0 * w.c1 +
    8010212106 * v.c0 * w.c2 + 140501 * v.c0 * w.c3 + 10061082207 * v.c1 * w.c0 +
    6256052467 * v.c1 * w.c1 + 4585420168 * v.c1 * w.c2 + 80429 * v.c1 * w.c3 +
    8010212106 * v.c2 * w.c0 + 4585420168 * v.c2 * w.c1 + 3250432571 * v.c2 * w.c2 +
    57013 * v.c2 * w.c3 + 140501 * v.c3 * w.c0 + 80429 * v.c3 * w.c1 + 57013 * v.c3 * w.c2 +
    v.c3 * w.c3) * u16_modulus

/-! ## Interpolation at zero -/

/-- The points the shares are evaluated at: `1`, `x` and `1 + x`. -/
def sharePoint : Fin 3 → GaloisRingElement .monomial :=
  ![⟨1, 0, 0, 0⟩, ⟨0, 1, 0, 0⟩, ⟨1, 1, 0, 0⟩]

/-- The Lagrange coefficients at zero for these points. -/
def lagrangeAtZero : Fin 3 → GaloisRingElement .monomial :=
  ![⟨1, 2, 2, 2⟩, ⟨-1, -2, -2, -2⟩, ⟨1, 0, 0, 0⟩]

theorem deg2LagrangePolysAtZero_eq :
    deg2LagrangePolysAtZero = .ok (List.ofFn lagrangeAtZero) := by
  decide +kernel

theorem sum_lagrangeAtZero : ∑ j, lagrangeAtZero j = 1 := by
  decide

theorem sum_lagrangeAtZero_mul : ∑ j, lagrangeAtZero j * sharePoint j = 0 := by
  decide

theorem sum_lagrangeAtZero_mul_mul :
    ∑ j, lagrangeAtZero j * sharePoint j * sharePoint j = 0 := by
  decide

/-- The first four values of a stream, as a ring element. -/
def maskOf (rng : U16Stream) : GaloisRingElement .monomial := ⟨rng 0, rng 1, rng 2, rng 3⟩

/-- The addition-only circuit evaluates a polynomial of degree one at the three points. -/
theorem encode3Mat_y (input : GaloisRingElement .monomial) (rng : U16Stream) (j : Fin 3) :
    ((encode3Mat input rng).1 j).y = input + sharePoint j * maskOf rng := by
  fin_cases j <;> ext1 <;> simp [encode3Mat, sharePoint, maskOf] <;> ring

/-- Products of shares interpolate to the product of the secrets. -/
theorem sum_lagrange_shares (a c r s : GaloisRingElement .monomial) :
    ∑ j, (a + sharePoint j * r) * lagrangeAtZero j * (c + sharePoint j * s) = a * c := by
  have h0 := sum_lagrangeAtZero
  have h1 := sum_lagrangeAtZero_mul
  have h2 := sum_lagrangeAtZero_mul_mul
  rw [Fin.sum_univ_three] at h0 h1 h2 ⊢
  linear_combination a * c * h0 + (a * s + r * c) * h1 + r * s * h2

/-- One chunk: the local dot products of the three parties add up to the dot product of the
secrets. -/
theorem sum_coefDot_chunk (v w : GaloisRingElement .a) (rng rng' : U16Stream) :
    ∑ j, coefDot (((encode3Mat v.toMonomial rng).1 j).y * lagrangeAtZero j).toBasisB
      ((encode3Mat w.toMonomial rng').1 j).y = coefDot v w := by
  simp only [coefDot_toBasisB, encode3Mat_y]
  rw [Fin.sum_univ_three, ← project_add, ← project_add, ← Fin.sum_univ_three
    (fun j => (v.toMonomial + sharePoint j * maskOf rng) * lagrangeAtZero j *
      (w.toMonomial + sharePoint j * maskOf rng')), sum_lagrange_shares, project_toMonomial]

/-! ## Vectors -/

theorem lagrangeCoeff_ofFn (j : Fin 3) :
    lagrangeCoeff (List.ofFn lagrangeAtZero) (j + 1) = .ok (lagrangeAtZero j) := by
  fin_cases j <;> rfl

theorem multiplyLagrangeLoop_append {x : GaloisRingElement .monomial} {rest m : List (BitVec 16)}
    {j : Fin 3}
    (h : multiplyLagrangeLoop (List.ofFn lagrangeAtZero) (j + 1) rest = .ok m) :
    multiplyLagrangeLoop (List.ofFn lagrangeAtZero) (j + 1) (x.coefs ++ rest) =
      .ok ((x * lagrangeAtZero j).toBasisB.coefs ++ m) := by
  simp only [coefs, List.cons_append, List.nil_append, multiplyLagrangeLoop]
  rw [lagrangeCoeff_ofFn, h]
  rfl

theorem wrappingDot_append {basis basis' : Basis} (x : GaloisRingElement basis)
    (y : GaloisRingElement basis') (m s : List (BitVec 16)) :
    wrappingDot (x.coefs ++ m) (y.coefs ++ s) = coefDot x y + wrappingDot m s := by
  simp [wrappingDot, coefs, coefDot]
  ring

theorem signExtend_eq_intCast (v : BitVec 8) : v.signExtend 16 = ((v.toInt : Int) : BitVec 16) := rfl

/-- The parties' local dot products of two shared vectors add up to the dot product of the
vectors. -/
theorem sum_wrappingDot (n : Nat) (v w : List (BitVec 8)) (hv : v.length = 4 * n)
    (hw : w.length = 4 * n) (rng rng' : U16Stream) :
    ∃ m : Fin 3 → List (BitVec 16),
      (∀ j : Fin 3, multiplyLagrangeLoop (List.ofFn lagrangeAtZero) (j + 1) (secretShareLoop v rng j) =
        .ok (m j)) ∧
      ∑ j, wrappingDot (m j) (secretShareLoop w rng' j) = ((integerDot v w : Int) : BitVec 16) := by
  induction n generalizing v w rng rng' with
  | zero =>
    obtain rfl := List.length_eq_zero_iff.mp hv
    obtain rfl := List.length_eq_zero_iff.mp hw
    exact ⟨fun _ => [], fun _ => rfl, rfl⟩
  | succ n ih =>
    obtain ⟨v0, v1, v2, v3, vs, rfl⟩ : ∃ a b c d l, v = a :: b :: c :: d :: l := by
      match v, hv with
      | a :: b :: c :: d :: l, _ => exact ⟨a, b, c, d, l, rfl⟩
    obtain ⟨w0, w1, w2, w3, ws, rfl⟩ : ∃ a b c d l, w = a :: b :: c :: d :: l := by
      match w, hw with
      | a :: b :: c :: d :: l, _ => exact ⟨a, b, c, d, l, rfl⟩
    simp only [List.length_cons] at hv hw
    obtain ⟨m, hm, hsum⟩ := ih vs ws (by omega) (by omega) (rng.drop 4) (rng'.drop 4)
    set ev : GaloisRingElement .a :=
      ⟨v0.signExtend 16, v1.signExtend 16, v2.signExtend 16, v3.signExtend 16⟩ with hev
    set ew : GaloisRingElement .a :=
      ⟨w0.signExtend 16, w1.signExtend 16, w2.signExtend 16, w3.signExtend 16⟩ with hew
    refine ⟨fun j => (((encode3Mat ev.toMonomial rng).1 j).y * lagrangeAtZero j).toBasisB.coefs ++ m j,
      fun j => multiplyLagrangeLoop_append (hm j), ?_⟩
    calc ∑ j, wrappingDot ((((encode3Mat ev.toMonomial rng).1 j).y *
            lagrangeAtZero j).toBasisB.coefs ++ m j)
          (((encode3Mat ew.toMonomial rng').1 j).y.coefs ++ secretShareLoop ws (rng'.drop 4) j)
        = coefDot ev ew + ((integerDot vs ws : Int) : BitVec 16) := by
          simp only [wrappingDot_append]
          rw [Finset.sum_add_distrib, sum_coefDot_chunk, hsum]
      _ = ((integerDot (v0 :: v1 :: v2 :: v3 :: vs) (w0 :: w1 :: w2 :: w3 :: ws) : Int) :
            BitVec 16) := by
          simp only [hev, hew, coefDot, signExtend_eq_intCast, integerDot, List.zipWith_cons_cons,
            List.sum_cons]
          push_cast
          ring

theorem modEq_of_intCast_eq {a b : Int} (h : (a : BitVec 16) = (b : BitVec 16)) :
    a ≡ b [ZMOD 2 ^ 16] := by
  have h' : (BitVec.ofInt 16 a).toNat = (BitVec.ofInt 16 b).toNat := congrArg BitVec.toNat h
  rw [BitVec.toNat_ofInt, BitVec.toNat_ofInt] at h'
  rw [Int.ModEq]
  omega

/-- **The Galois-ring dot product is exact.** For two `i8` vectors of one length divisible by four and
any randomness, both sharings succeed, and when every party multiplies its share of the first vector
by its Lagrange coefficient and takes the wrapping dot product with its share of the second, the three
results add up to the integer dot product modulo `2^16`. -/
theorem galois_dot_exact (v w : List (BitVec 8)) (hlen : v.length = w.length)
    (hdiv : v.length % 4 = 0) (rng rng' : U16Stream) :
    ∃ sv sw : Fin 3 → List (BitVec 16), secretShare v rng = .ok sv ∧ secretShare w rng' = .ok sw ∧
      ∃ m : Fin 3 → List (BitVec 16), (∀ j, multiplyLagrangeCoeffs (sv j) (j + 1) = .ok (m j)) ∧
        ((∑ j, (wrappingDot (m j) (sw j)).toNat : Nat) : Int) ≡ integerDot v w [ZMOD 2 ^ 16] := by
  obtain ⟨m, hm, hsum⟩ := sum_wrappingDot (v.length / 4) v w (by omega) (by omega) rng rng'
  refine ⟨secretShareLoop v rng, secretShareLoop w rng', ?_, ?_, m, fun j => ?_, ?_⟩
  · rw [secretShare, if_neg (not_not.mpr hdiv)]
  · rw [secretShare, if_neg (not_not.mpr (hlen ▸ hdiv))]
  · rw [multiplyLagrangeCoeffs, deg2LagrangePolysAtZero_eq, Outcome.ok_bind]
    exact hm j
  · refine modEq_of_intCast_eq ?_
    rw [← hsum, Int.cast_natCast, Nat.cast_sum]
    refine Finset.sum_congr rfl fun j _ => ?_
    show BitVec.ofNat 16 (wrappingDot (m j) (secretShareLoop w rng' j)).toNat = _
    rw [BitVec.ofNat_toNat, BitVec.setWidth_eq]

theorem galois_dot_exact_eight :
    ∃ sv sw : Fin 3 → List (BitVec 16),
      secretShare [-128, 127, 3, -4, 5, 6, 7, 8] (fun i => BitVec.ofNat 16 (31 * i)) = .ok sv ∧
      secretShare [1, -2, 127, -128, -1, 0, 2, 9] (fun i => BitVec.ofNat 16 (77 * i)) = .ok sw ∧
      ∃ m : Fin 3 → List (BitVec 16), (∀ j, multiplyLagrangeCoeffs (sv j) (j + 1) = .ok (m j)) ∧
        ((∑ j, (wrappingDot (m j) (sw j)).toNat : Nat) : Int) ≡ 592 [ZMOD 2 ^ 16] := by
  have hdot : integerDot [-128, 127, 3, -4, 5, 6, 7, 8] [1, -2, 127, -128, -1, 0, 2, 9] = 592 := by
    decide
  rw [← hdot]
  exact galois_dot_exact _ _ (by decide) (by decide) _ _

end AmpcCommon.Galois
