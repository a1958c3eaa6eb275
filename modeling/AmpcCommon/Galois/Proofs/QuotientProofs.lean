import AmpcCommon.Galois.Proofs.RingProofs
import Mathlib.Data.ZMod.Basic
import Mathlib.RingTheory.AdjoinRoot
import Mathlib.Tactic.ComputeDegree
import Mathlib.Tactic.LinearCombination

/-!
# The Galois ring is a quotient of the polynomials

The elements in the monomial basis are the polynomials of degree at most three over `Z/2^16` (`toPoly`), and the
coefficient formulas of the source multiply them modulo `x^4 - x - 1` (`quotientEquiv`).
-/

namespace AmpcCommon.Galois.GaloisRingElement

open Polynomial

/-- A `u16`, as a residue modulo `2^16`. -/
def residue : BitVec 16 ≃+* ZMod (2 ^ 16) := BitVec.equivFin.trans (ZMod.finEquiv (2 ^ 16))

instance : Fact (1 < 2 ^ 16) := ⟨by norm_num⟩

/-- The polynomial `x^4 - x - 1`. -/
noncomputable def modulus : (ZMod (2 ^ 16))[X] := X ^ 4 - X - 1

theorem monic_modulus : modulus.Monic := by
  unfold modulus
  monicity!

theorem degree_modulus : modulus.degree = 4 := by
  unfold modulus
  compute_degree!

/-- The polynomial of an element. -/
noncomputable def toPoly (x : GaloisRingElement .monomial) : (ZMod (2 ^ 16))[X] :=
  C (residue x.c0) + C (residue x.c1) * X + C (residue x.c2) * X ^ 2 + C (residue x.c3) * X ^ 3

theorem degree_toPoly_lt (x : GaloisRingElement .monomial) : (toPoly x).degree < 4 := by
  have hle : (toPoly x).degree ≤ 3 := by
    unfold toPoly
    compute_degree
  exact hle.trans_lt (by decide)

theorem coeff_toPoly (x : GaloisRingElement .monomial) :
    (toPoly x).coeff 0 = residue x.c0 ∧ (toPoly x).coeff 1 = residue x.c1 ∧ (toPoly x).coeff 2 = residue x.c2 ∧
      (toPoly x).coeff 3 = residue x.c3 := by
  refine ⟨?_, ?_, ?_, ?_⟩ <;> simp [toPoly, coeff_X, coeff_C]

theorem toPoly_injective : Function.Injective toPoly := by
  intro x y h
  obtain ⟨hx0, hx1, hx2, hx3⟩ := coeff_toPoly x
  obtain ⟨hy0, hy1, hy2, hy3⟩ := coeff_toPoly y
  rw [h] at hx0 hx1 hx2 hx3
  exact GaloisRingElement.ext (residue.injective (hx0.symm.trans hy0)) (residue.injective (hx1.symm.trans hy1))
    (residue.injective (hx2.symm.trans hy2)) (residue.injective (hx3.symm.trans hy3))

/-- Every polynomial of a degree below four is the one of an element. -/
theorem exists_toPoly_eq {f : (ZMod (2 ^ 16))[X]} (hf : f.degree < 4) : ∃ x, toPoly x = f := by
  refine ⟨⟨residue.symm (f.coeff 0), residue.symm (f.coeff 1), residue.symm (f.coeff 2), residue.symm (f.coeff 3)⟩, ?_⟩
  have hnat : f.natDegree < 4 := by
    by_cases h0 : f = 0
    · rw [h0, natDegree_zero]
      decide
    · exact (natDegree_lt_iff_degree_lt h0).mpr hf
  conv_rhs => rw [f.as_sum_range' 4 hnat]
  simp [toPoly, Finset.sum_range_succ, ← C_mul_X_pow_eq_monomial]

/-- The class of an element. -/
noncomputable def toQuotient (x : GaloisRingElement .monomial) : AdjoinRoot modulus := AdjoinRoot.mk modulus (toPoly x)

theorem root_pow_four : (AdjoinRoot.root modulus) ^ 4 = AdjoinRoot.root modulus + 1 := by
  have h : AdjoinRoot.mk modulus (X ^ 4 - X - 1) = 0 := AdjoinRoot.mk_self
  rw [map_sub, map_sub, map_pow, map_one, AdjoinRoot.mk_X] at h
  linear_combination h

theorem toQuotient_eq (x : GaloisRingElement .monomial) :
    toQuotient x = AdjoinRoot.of modulus (residue x.c0) +
      AdjoinRoot.of modulus (residue x.c1) * AdjoinRoot.root modulus +
      AdjoinRoot.of modulus (residue x.c2) * AdjoinRoot.root modulus ^ 2 +
      AdjoinRoot.of modulus (residue x.c3) * AdjoinRoot.root modulus ^ 3 := by
  unfold toQuotient toPoly
  simp only [map_add, map_mul, map_pow, AdjoinRoot.mk_C, AdjoinRoot.mk_X]

theorem toQuotient_add (x y : GaloisRingElement .monomial) : toQuotient (x + y) = toQuotient x + toQuotient y := by
  simp only [toQuotient_eq, add_c0, add_c1, add_c2, add_c3, map_add]
  ring

theorem toQuotient_mul (x y : GaloisRingElement .monomial) : toQuotient (x * y) = toQuotient x * toQuotient y := by
  simp only [toQuotient_eq, mul_c0, mul_c1, mul_c2, mul_c3, map_add, map_mul]
  generalize AdjoinRoot.of modulus (residue x.c0) = x0
  generalize AdjoinRoot.of modulus (residue x.c1) = x1
  generalize AdjoinRoot.of modulus (residue x.c2) = x2
  generalize AdjoinRoot.of modulus (residue x.c3) = x3
  generalize AdjoinRoot.of modulus (residue y.c0) = y0
  generalize AdjoinRoot.of modulus (residue y.c1) = y1
  generalize AdjoinRoot.of modulus (residue y.c2) = y2
  generalize AdjoinRoot.of modulus (residue y.c3) = y3
  have h := root_pow_four
  generalize AdjoinRoot.root modulus = z at h ⊢
  -- the powers from the fourth one on are reduced
  linear_combination -((x1 * y3 + x2 * y2 + x3 * y1) + (x2 * y3 + x3 * y2) * z + x3 * y3 * z ^ 2) * h

theorem toQuotient_injective : Function.Injective toQuotient := by
  intro x y h
  refine toPoly_injective (sub_eq_zero.mp ?_)
  by_contra hne
  have hdvd : modulus ∣ toPoly x - toPoly y := AdjoinRoot.mk_eq_mk.mp h
  have hdegree : (toPoly x - toPoly y).degree < modulus.degree := by
    rw [degree_modulus]
    exact (degree_sub_le _ _).trans_lt (max_lt (degree_toPoly_lt x) (degree_toPoly_lt y))
  exact monic_modulus.not_dvd_of_degree_lt hne hdegree hdvd

theorem toQuotient_surjective : Function.Surjective toQuotient := by
  intro y
  obtain ⟨f, rfl⟩ := AdjoinRoot.mk_surjective y
  have hdegree : (f %ₘ modulus).degree < 4 := by
    rw [← degree_modulus]
    exact degree_modByMonic_lt f monic_modulus
  obtain ⟨x, hx⟩ := exists_toPoly_eq hdegree
  refine ⟨x, ?_⟩
  unfold toQuotient
  rw [hx, AdjoinRoot.mk_eq_mk, modByMonic_eq_sub_mul_div, sub_sub_cancel_left, dvd_neg]
  exact dvd_mul_right _ _

/-- The elements with the operations of the source are the polynomials modulo `x^4 - x - 1`. -/
noncomputable def quotientEquiv : GaloisRingElement .monomial ≃+* AdjoinRoot modulus where
  toEquiv := Equiv.ofBijective toQuotient ⟨toQuotient_injective, toQuotient_surjective⟩
  map_mul' := toQuotient_mul
  map_add' := toQuotient_add

theorem card_eq : Nat.card (GaloisRingElement .monomial) = 2 ^ 64 := by
  have e : GaloisRingElement .monomial ≃ BitVec 16 × BitVec 16 × BitVec 16 × BitVec 16 :=
    { toFun := fun x => (x.c0, x.c1, x.c2, x.c3)
      invFun := fun v => ⟨v.1, v.2.1, v.2.2.1, v.2.2.2⟩
      left_inv := fun _ => rfl
      right_inv := fun _ => rfl }
  have hword : Nat.card (BitVec 16) = 2 ^ 16 := by
    rw [Nat.card_congr BitVec.equivFin.toEquiv, Nat.card_fin]
  rw [Nat.card_congr e, Nat.card_prod, Nat.card_prod, Nat.card_prod, hword]
  norm_num

end AmpcCommon.Galois.GaloisRingElement
