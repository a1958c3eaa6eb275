import Mathlib.LinearAlgebra.Lagrange

/-!
# Interpolation at points with invertible differences

Over a commutative ring a polynomial is determined by its values at more points than its degree as soon as the
differences of the points are units (`eq_of_evals_eq`). The value at zero is then a linear combination of the values at
the points, with the coefficients `atZero` (`sum_eval_mul_atZero`).
-/

namespace UnitInterpolation

open Polynomial

variable {A ι : Type*} [CommRing A] {s : Finset ι} {x : ι → A}

/-- The differences of the points are units. -/
def UnitDifferences (s : Finset ι) (x : ι → A) : Prop := ∀ i ∈ s, ∀ j ∈ s, i ≠ j → IsUnit (x i - x j)

theorem UnitDifferences.mono {t : Finset ι} (h : UnitDifferences s x) (hts : t ⊆ s) : UnitDifferences t x :=
  fun i hi j hj hij => h i (hts hi) j (hts hj) hij

/-- A polynomial that vanishes at the points is a multiple of the polynomial with these roots. -/
theorem nodal_dvd (h : UnitDifferences s x) {f : A[X]} (hf : ∀ i ∈ s, f.eval (x i) = 0) :
    Lagrange.nodal s x ∣ f := by
  refine Finset.prod_dvd_of_coprime ?_ ?_
  · intro i hi j hj hij
    exact isCoprime_X_sub_C_of_isUnit_sub (h i hi j hj hij)
  · intro i hi
    exact dvd_iff_isRoot.mpr (hf i hi)

theorem eq_zero_of_evals_eq_zero (h : UnitDifferences s x) {f : A[X]} (hdegree : f.degree < s.card)
    (hf : ∀ i ∈ s, f.eval (x i) = 0) : f = 0 := by
  rcases subsingleton_or_nontrivial A with hsub | hnontrivial
  · exact Subsingleton.elim f 0
  · by_contra hne
    rw [← Lagrange.degree_nodal (v := x)] at hdegree
    exact (Lagrange.nodal_monic).not_dvd_of_degree_lt hne hdegree (nodal_dvd h hf)

theorem eq_of_evals_eq (h : UnitDifferences s x) {f g : A[X]} (hfd : f.degree < s.card) (hgd : g.degree < s.card)
    (hfg : ∀ i ∈ s, f.eval (x i) = g.eval (x i)) : f = g := by
  refine sub_eq_zero.mp (eq_zero_of_evals_eq_zero h ((degree_sub_le f g).trans_lt (max_lt hfd hgd)) ?_)
  intro i hi
  rw [eval_sub, hfg i hi, sub_self]

variable [DecidableEq ι]

/-- The coefficient of the value at the `i`-th point in the value at zero. -/
noncomputable def atZero (s : Finset ι) (x : ι → A) (i : ι) : A :=
  ∏ j ∈ s.erase i, -x j * Ring.inverse (x i - x j)

/-- The polynomial that is one at the `i`-th point and zero at the others. -/
noncomputable def basis (s : Finset ι) (x : ι → A) (i : ι) : A[X] :=
  ∏ j ∈ s.erase i, (X - C (x j)) * C (Ring.inverse (x i - x j))

theorem eval_zero_basis (i : ι) : (basis s x i).eval 0 = atZero s x i := by
  simp [basis, atZero, eval_prod]

theorem eval_basis_self (h : UnitDifferences s x) {i : ι} (hi : i ∈ s) : (basis s x i).eval (x i) = 1 := by
  rw [basis, eval_prod]
  refine Finset.prod_eq_one fun j hj => ?_
  obtain ⟨hji, hj⟩ := Finset.mem_erase.mp hj
  rw [eval_mul, eval_sub, eval_X, eval_C, eval_C, Ring.mul_inverse_cancel _ (h i hi j hj hji.symm)]

theorem eval_basis_of_ne {i j : ι} (hj : j ∈ s) (hij : i ≠ j) : (basis s x i).eval (x j) = 0 := by
  rw [basis, eval_prod]
  refine Finset.prod_eq_zero (Finset.mem_erase.mpr ⟨hij.symm, hj⟩) ?_
  simp

theorem degree_basis_lt {i : ι} (hi : i ∈ s) : (basis s x i).degree < s.card := by
  have hle : (basis s x i).degree ≤ (s.erase i).card := by
    refine (degree_prod_le _ _).trans ((Finset.sum_le_card_nsmul _ _ 1 fun j _ => ?_).trans (by simp))
    refine (degree_mul_le _ _).trans ?_
    calc (X - C (x j)).degree + (C (Ring.inverse (x i - x j))).degree ≤ 1 + 0 :=
          add_le_add (degree_X_sub_C_le _) degree_C_le
      _ = 1 := add_zero 1
  refine hle.trans_lt ?_
  exact_mod_cast Finset.card_erase_lt_of_mem hi

/-- Every polynomial of a degree below the number of points is the combination of the basis with its values. -/
theorem eq_sum_basis (h : UnitDifferences s x) {f : A[X]} (hdegree : f.degree < s.card) :
    f = ∑ i ∈ s, C (f.eval (x i)) * basis s x i := by
  refine eq_of_evals_eq h hdegree ?_ ?_
  · refine (degree_sum_le _ _).trans_lt ((Finset.sup_lt_iff (WithBot.bot_lt_coe _)).mpr fun i hi => ?_)
    refine (degree_mul_le _ _).trans_lt (lt_of_le_of_lt ?_ (degree_basis_lt (x := x) hi))
    calc (C (f.eval (x i))).degree + (basis s x i).degree ≤ 0 + (basis s x i).degree :=
          add_le_add_left degree_C_le _
      _ = (basis s x i).degree := zero_add _
  · intro i hi
    rw [eval_finsetSum, Finset.sum_eq_single_of_mem i hi]
    · rw [eval_mul, eval_C, eval_basis_self h hi, mul_one]
    · intro j _ hji
      rw [eval_mul, eval_basis_of_ne hi hji, mul_zero]

/-- The value at zero is the combination of the values at the points. -/
theorem sum_eval_mul_atZero (h : UnitDifferences s x) {f : A[X]} (hdegree : f.degree < s.card) :
    ∑ i ∈ s, f.eval (x i) * atZero s x i = f.eval 0 := by
  conv_rhs => rw [eq_sum_basis h hdegree]
  rw [eval_finsetSum]
  refine Finset.sum_congr rfl fun i _ => ?_
  rw [eval_mul, eval_C, eval_zero_basis]

end UnitInterpolation
