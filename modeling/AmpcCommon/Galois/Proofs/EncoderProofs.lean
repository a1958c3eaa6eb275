import AmpcCommon.Galois.Proofs.DotProductProofs
import AmpcCommon.Galois.Proofs.UnitProofs
import AmpcCommon.Galois.Shamir

/-!
# The encoders

The encoders that only add return the same shares as those that evaluate the sharing polynomial, and draw the same
values (`encode5Mat_eq`, `encode3Mat_eq`). The points of the shares are `1`, `x`, `1 + x`, `x^2` and `1 + x^2`.
-/

namespace AmpcCommon.Galois

open GaloisRingElement ShamirGaloisRingShare

/-- The element `x`. -/
def GaloisRingElement.gen : GaloisRingElement .monomial := ⟨0, 1, 0, 0⟩

theorem GaloisRingElement.mulX_eq (a : GaloisRingElement .monomial) : mulX a = gen * a := by
  ext1 <;> simp [mulX, gen]

theorem GaloisRingElement.toQuotient_gen : toQuotient gen = AdjoinRoot.root modulus := by
  have hzero : residue gen.c0 = 0 := map_zero residue
  have hone : residue gen.c1 = 1 := map_one residue
  have hzero' : residue gen.c2 = 0 := map_zero residue
  have hzero'' : residue gen.c3 = 0 := map_zero residue
  rw [toQuotient_eq, hzero, hone, hzero', hzero'', map_zero, map_one]
  ring

theorem GaloisRingElement.toQuotient_one : toQuotient 1 = 1 := map_one quotientEquiv

theorem GaloisRingElement.toQuotient_pow (x : GaloisRingElement .monomial) (n : Nat) :
    toQuotient (x ^ n) = toQuotient x ^ n := map_pow quotientEquiv x n

namespace ShamirGaloisRingShare

/-- The points of five shares. -/
def fivePoints : Fin 5 → GaloisRingElement .monomial := ![1, gen, 1 + gen, gen ^ 2, 1 + gen ^ 2]

theorem sharePointOf_eq (i : Fin 5) : sharePointOf i = fivePoints i := by
  fin_cases i
  · rfl
  · rfl
  · show _ = (1 : GaloisRingElement .monomial) + gen
    rfl
  · show _ = gen ^ 2
    rw [pow_two]
    rfl
  · show _ = 1 + gen ^ 2
    rw [pow_two]
    rfl

theorem encode5_y (input : GaloisRingElement .monomial) (rng : U16Stream) (i : Fin 5) :
    ((encode5 input rng).1 i).y =
      input + (random rng).1 * fivePoints i + (random (rng.drop 4)).1 * fivePoints i ^ 2 := by
  rw [← sharePointOf_eq]
  show input + ((random rng).1 + (random (rng.drop 4)).1 * sharePointOf i) * sharePointOf i = _
  ring

theorem encode5Mat_y (input : GaloisRingElement .monomial) (rng : U16Stream) (i : Fin 5) :
    ((encode5Mat input rng).1 i).y =
      input + (random rng).1 * fivePoints i + (random (rng.drop 4)).1 * fivePoints i ^ 2 := by
  obtain ⟨r, hr⟩ : ∃ r, r = (random rng).1 := ⟨_, rfl⟩
  obtain ⟨t, ht⟩ : ∃ t, t = (random (rng.drop 4)).1 := ⟨_, rfl⟩
  rw [← hr, ← ht]
  have hmat : (encode5Mat input rng).1 i = (![⟨1, input + (r + t)⟩, ⟨2, input + mulX (r + mulX t)⟩,
      ⟨3, input + mulX (r + mulX t) + (r + t) + (mulX t + mulX t)⟩, ⟨4, input + mulX (mulX (r + mulX (mulX t)))⟩,
      ⟨5, input + mulX (mulX (r + mulX (mulX t))) + (r + t) + mulX (mulX t + mulX t)⟩] :
        Fin 5 → ShamirGaloisRingShare) i := by
    rw [hr, ht]
    rfl
  rw [hmat]
  simp only [mulX_eq]
  fin_cases i
  · show input + (r + t) = input + r * 1 + t * 1 ^ 2
    ring
  · show input + gen * (r + gen * t) = input + r * gen + t * gen ^ 2
    ring
  · show input + gen * (r + gen * t) + (r + t) + (gen * t + gen * t) = input + r * (1 + gen) + t * (1 + gen) ^ 2
    ring
  · show input + gen * (gen * (r + gen * (gen * t))) = input + r * gen ^ 2 + t * (gen ^ 2) ^ 2
    ring
  · show input + gen * (gen * (r + gen * (gen * t))) + (r + t) + gen * (gen * t + gen * t) =
      input + r * (1 + gen ^ 2) + t * (1 + gen ^ 2) ^ 2
    ring

theorem encode5Mat_id (input : GaloisRingElement .monomial) (rng : U16Stream) (i : Fin 5) :
    ((encode5Mat input rng).1 i).id = i + 1 := by
  fin_cases i <;> rfl

theorem share_ext {x y : ShamirGaloisRingShare} (hid : x.id = y.id) (hy : x.y = y.y) : x = y := by
  cases x
  cases y
  cases hid
  cases hy
  rfl

/-- The circuit of additions returns the values of the polynomial. -/
theorem encode5Mat_eq (input : GaloisRingElement .monomial) (rng : U16Stream) :
    encode5Mat input rng = encode5 input rng := by
  refine Prod.ext (funext fun i => share_ext (encode5Mat_id input rng i) ?_) rfl
  rw [encode5Mat_y, encode5_y]

theorem encode3_y (input : GaloisRingElement .monomial) (rng : U16Stream) (i : Fin 3) :
    ((encode3 input rng).1 i).y = input + (random rng).1 * fivePoints (i.castLE (by decide)) := by
  rw [← sharePointOf_eq]
  rfl

theorem sharePoint_eq (i : Fin 3) : sharePoint i = fivePoints (i.castLE (by decide)) := by
  fin_cases i <;> rfl

theorem encode3Mat_value (input : GaloisRingElement .monomial) (rng : U16Stream) (i : Fin 3) :
    ((encode3Mat input rng).1 i).y = input + (random rng).1 * fivePoints (i.castLE (by decide)) := by
  rw [encode3Mat_y, sharePoint_eq, mul_comm]
  rfl

theorem encode3Mat_id (input : GaloisRingElement .monomial) (rng : U16Stream) (i : Fin 3) :
    ((encode3Mat input rng).1 i).id = i + 1 := by
  fin_cases i <;> rfl

theorem encode3Mat_eq (input : GaloisRingElement .monomial) (rng : U16Stream) :
    encode3Mat input rng = encode3 input rng := by
  refine Prod.ext (funext fun i => share_ext (encode3Mat_id input rng i) ?_) rfl
  rw [encode3Mat_value, encode3_y]

/-! ## The sharing polynomials in the quotient -/

/-- The points of five shares, in the quotient. -/
noncomputable def quotientPoints : Fin 5 → AdjoinRoot modulus :=
  ![1, AdjoinRoot.root modulus, 1 + AdjoinRoot.root modulus, AdjoinRoot.root modulus ^ 2,
    1 + AdjoinRoot.root modulus ^ 2]

theorem toQuotient_fivePoints (i : Fin 5) : toQuotient (fivePoints i) = quotientPoints i := by
  fin_cases i
  · exact toQuotient_one
  · exact toQuotient_gen
  · show toQuotient (1 + gen) = 1 + AdjoinRoot.root modulus
    rw [toQuotient_add, toQuotient_one, toQuotient_gen]
  · show toQuotient (gen ^ 2) = AdjoinRoot.root modulus ^ 2
    rw [toQuotient_pow, toQuotient_gen]
  · show toQuotient (1 + gen ^ 2) = 1 + AdjoinRoot.root modulus ^ 2
    rw [toQuotient_add, toQuotient_one, toQuotient_pow, toQuotient_gen]

/-- **The encoders.** The encoders that only add return the same shares as the plain ones and draw eight and four
values, as these do; the shares are the values of the sharing polynomials modulo `x^4 - x - 1`. -/
theorem encoders_agree (input : GaloisRingElement .monomial) (rng : U16Stream) :
    (encode5Mat input rng = encode5 input rng ∧ (encode5 input rng).2 = rng.drop 8 ∧
      ∀ i, toQuotient ((encode5Mat input rng).1 i).y = toQuotient input + toQuotient (random rng).1 * quotientPoints i +
        toQuotient (random (rng.drop 4)).1 * quotientPoints i ^ 2) ∧
    (encode3Mat input rng = encode3 input rng ∧ (encode3 input rng).2 = rng.drop 4 ∧
      ∀ i : Fin 3, toQuotient ((encode3Mat input rng).1 i).y =
        toQuotient input + toQuotient (random rng).1 * quotientPoints (i.castLE (by decide))) := by
  refine ⟨⟨encode5Mat_eq input rng, ?_, fun i => ?_⟩, ⟨encode3Mat_eq input rng, rfl, fun i => ?_⟩⟩
  · funext i
    show rng (4 + (4 + i)) = rng (8 + i)
    rw [← Nat.add_assoc]
  · rw [encode5Mat_y, toQuotient_add, toQuotient_add, toQuotient_mul, toQuotient_mul, toQuotient_pow,
      toQuotient_fivePoints]
  · rw [encode3Mat_value, toQuotient_add, toQuotient_mul, toQuotient_fivePoints]

end ShamirGaloisRingShare

end AmpcCommon.Galois
