import AmpcCommon.Galois.Proofs.ReconstructProofs
import Mathlib.Data.Fintype.EquivFin

/-!
# Secrecy of the shares

Fewer shares than the polynomial has coefficients, together with the secret, determine the polynomial, so the random
coefficients are determined by the shares (`poly3_injective`, `poly5_injective`). As the ring is finite, the shares are
a bijective image of the randomness: every value of them is equally likely, whatever the secret is.
-/

namespace AmpcCommon.Galois

open GaloisRingElement ShamirGaloisRingShare Polynomial UnitInterpolation

instance : Finite (GaloisRingElement .monomial) := by
  refine Nat.finite_of_card_ne_zero ?_
  rw [card_eq]
  norm_num

/-- A stream that starts with the coefficients of an element. -/
def U16Stream.prepend (r : GaloisRingElement .monomial) (rest : U16Stream) : U16Stream
  | 0 => r.c0
  | 1 => r.c1
  | 2 => r.c2
  | 3 => r.c3
  | i + 4 => rest i

theorem random_prepend (r : GaloisRingElement .monomial) (rest : U16Stream) :
    (random (rest.prepend r)).1 = r := rfl

theorem drop_prepend (r : GaloisRingElement .monomial) (rest : U16Stream) : (rest.prepend r).drop 4 = rest := by
  funext i
  show (rest.prepend r) (4 + i) = rest i
  rw [Nat.add_comm]
  rfl

namespace ShamirGaloisRingShare

theorem exceptional_zero : exceptional 0 = 0 := rfl

theorem poly3_injective {i : Nat} (hi : i < 15) (s : GaloisRingElement .monomial) :
    Function.Injective fun r => (poly3 s r).eval (exceptional (i + 1)) := by
  intro r r' h
  have hunits : UnitDifferences {0, i + 1} exceptional := by
    refine unitDifferences ?_
    simp
    omega
  have hcard : ({0, i + 1} : Finset Nat).card = 2 := Finset.card_pair (Nat.succ_ne_zero i).symm
  have hdegree : ∀ r, (poly3 s r).degree < ({0, i + 1} : Finset Nat).card := by
    intro r
    rw [hcard]
    exact (degree_poly3_le s r).trans_lt (by decide)
  have hpoly := eq_of_evals_eq hunits (hdegree r) (hdegree r') ?_
  · have hcoeff := congrArg (fun f => f.coeff 1) hpoly
    simpa [poly3, coeff_C] using hcoeff
  · simp only [Finset.mem_insert, Finset.mem_singleton, forall_eq_or_imp, forall_eq]
    exact ⟨by rw [exceptional_zero, eval_zero_poly3, eval_zero_poly3], h⟩

theorem poly5_injective {i j : Nat} (hi : i < 15) (hj : j < 15) (hij : i ≠ j) (s : GaloisRingElement .monomial) :
    Function.Injective fun r : GaloisRingElement .monomial × GaloisRingElement .monomial =>
      ((poly5 s r.1 r.2).eval (exceptional (i + 1)), (poly5 s r.1 r.2).eval (exceptional (j + 1))) := by
  intro r r' h
  obtain ⟨hevali, hevalj⟩ := Prod.mk.inj h
  have hunits : UnitDifferences {0, i + 1, j + 1} exceptional := by
    refine unitDifferences ?_
    simp
    omega
  have hcard : ({0, i + 1, j + 1} : Finset Nat).card = 3 := by
    refine Finset.card_eq_three.mpr ⟨0, i + 1, j + 1, ?_, ?_, ?_, rfl⟩ <;> omega
  have hdegree : ∀ r t, (poly5 s r t).degree < ({0, i + 1, j + 1} : Finset Nat).card := by
    intro r t
    rw [hcard]
    exact (degree_poly5_le s r t).trans_lt (by decide)
  have hpoly := eq_of_evals_eq hunits (hdegree r.1 r.2) (hdegree r'.1 r'.2) ?_
  · have hlinear := congrArg (fun f => f.coeff 1) hpoly
    have hquadratic := congrArg (fun f => f.coeff 2) hpoly
    refine Prod.ext ?_ ?_
    · simpa [poly5, coeff_C, coeff_X] using hlinear
    · simpa [poly5, coeff_C, coeff_X] using hquadratic
  · simp only [Finset.mem_insert, Finset.mem_singleton, forall_eq_or_imp, forall_eq]
    exact ⟨by rw [exceptional_zero, eval_zero_poly5, eval_zero_poly5], hevali, hevalj⟩

theorem encode3Mat_prepend (s r : GaloisRingElement .monomial) (rest : U16Stream) (i : Fin 3) :
    (encode3Mat s (rest.prepend r)).1 i = ⟨i + 1, (poly3 s r).eval (exceptional (i + 1))⟩ := by
  rw [encode3Mat_eq, polyShares_encode3 s (rest.prepend r) i, random_prepend]

theorem encode5Mat_prepend (s r t : GaloisRingElement .monomial) (rest : U16Stream) (i : Fin 5) :
    (encode5Mat s ((rest.prepend t).prepend r)).1 i = ⟨i + 1, (poly5 s r t).eval (exceptional (i + 1))⟩ := by
  rw [encode5Mat_eq, polyShares_encode5 s _ i, random_prepend, drop_prepend, random_prepend]

/-- The map from the randomness to one of three shares. -/
def oneShare (rest : U16Stream) (i : Fin 3) (s r : GaloisRingElement .monomial) : GaloisRingElement .monomial :=
  ((encode3Mat s (rest.prepend r)).1 i).y

/-- The map from the randomness to two of five shares. -/
def twoShares (rest : U16Stream) (i j : Fin 5) (s : GaloisRingElement .monomial)
    (r : GaloisRingElement .monomial × GaloisRingElement .monomial) :
    GaloisRingElement .monomial × GaloisRingElement .monomial :=
  (((encode5Mat s ((rest.prepend r.2).prepend r.1)).1 i).y, ((encode5Mat s ((rest.prepend r.2).prepend r.1)).1 j).y)

theorem oneShare_bijective (rest : U16Stream) (i : Fin 3) (s : GaloisRingElement .monomial) :
    Function.Bijective (oneShare rest i s) := by
  have hinj := poly3_injective (i := i) (by omega) s
  have heq : oneShare rest i s = fun r => (poly3 s r).eval (exceptional (i + 1)) := by
    funext r
    unfold oneShare
    rw [encode3Mat_prepend]
  rw [heq]
  exact Finite.injective_iff_bijective.mp hinj

theorem twoShares_bijective (rest : U16Stream) {i j : Fin 5} (hij : i ≠ j) (s : GaloisRingElement .monomial) :
    Function.Bijective (twoShares rest i j s) := by
  have hinj := poly5_injective (i := i) (j := j) (by omega) (by omega) (fun h => hij (Fin.ext h)) s
  have heq : twoShares rest i j s = fun r =>
      ((poly5 s r.1 r.2).eval (exceptional (i + 1)), (poly5 s r.1 r.2).eval (exceptional (j + 1))) := by
    funext r
    unfold twoShares
    rw [encode5Mat_prepend, encode5Mat_prepend]
  rw [heq]
  exact Finite.injective_iff_bijective.mp hinj

/-- Two bijections with one source and one target differ by a permutation of the source. -/
theorem exists_perm_of_bijective {α β : Type} {f g : α → β} (hf : Function.Bijective f) (hg : Function.Bijective g) :
    ∃ π : Equiv.Perm α, ∀ a, f a = g (π a) :=
  ⟨(Equiv.ofBijective f hf).trans (Equiv.ofBijective g hg).symm, fun a =>
    ((Equiv.ofBijective g hg).apply_symm_apply (f a)).symm⟩

/-- **Secrecy.** One of three shares is a bijective image of the random element, and two of five shares are one of the
two random elements; so for any two inputs there is a bijection of the randomness that leaves the shares as they are. -/
theorem shares_below_threshold (rest : U16Stream) :
    (∀ s (i : Fin 3), Function.Bijective (oneShare rest i s)) ∧
    (∀ s (i j : Fin 5), i ≠ j → Function.Bijective (twoShares rest i j s)) ∧
    (∀ s s' (i : Fin 3), ∃ π : Equiv.Perm (GaloisRingElement .monomial), ∀ r,
      (encode3Mat s (rest.prepend r)).1 i = (encode3Mat s' (rest.prepend (π r))).1 i) ∧
    (∀ s s' (i j : Fin 5), i ≠ j →
      ∃ π : Equiv.Perm (GaloisRingElement .monomial × GaloisRingElement .monomial), ∀ r, ∀ k, k = i ∨ k = j →
        (encode5Mat s ((rest.prepend r.2).prepend r.1)).1 k =
          (encode5Mat s' ((rest.prepend (π r).2).prepend (π r).1)).1 k) := by
  refine ⟨fun s i => oneShare_bijective rest i s, fun s i j hij => twoShares_bijective rest hij s, ?_, ?_⟩
  · intro s s' i
    obtain ⟨π, hπ⟩ := exists_perm_of_bijective (oneShare_bijective rest i s) (oneShare_bijective rest i s')
    exact ⟨π, fun r => share_ext ((encode3Mat_id _ _ i).trans (encode3Mat_id _ _ i).symm) (hπ r)⟩
  · intro s s' i j hij
    obtain ⟨π, hπ⟩ := exists_perm_of_bijective (twoShares_bijective rest hij s) (twoShares_bijective rest hij s')
    refine ⟨π, fun r k hk => share_ext ((encode5Mat_id _ _ k).trans (encode5Mat_id _ _ k).symm) ?_⟩
    obtain ⟨hi, hj⟩ := Prod.mk.inj (hπ r)
    rcases hk with rfl | rfl
    · exact hi
    · exact hj

/-- The second and the fourth of five shares of two different inputs. -/
theorem shares_below_threshold_two_four :
    Function.Bijective (twoShares (fun _ => 0) 1 3 ⟨1, 2, 3, 4⟩) ∧
    ∃ π : Equiv.Perm (GaloisRingElement .monomial × GaloisRingElement .monomial), ∀ r, ∀ k, k = 1 ∨ k = 3 →
      (encode5Mat ⟨1, 2, 3, 4⟩ ((U16Stream.prepend r.2 fun _ => 0).prepend r.1)).1 k =
        (encode5Mat ⟨0, 0, 0, 9⟩ ((U16Stream.prepend (π r).2 fun _ => 0).prepend (π r).1)).1 k :=
  ⟨(shares_below_threshold fun _ => 0).2.1 _ 1 3 (by decide),
    (shares_below_threshold fun _ => 0).2.2.2 _ _ 1 3 (by decide)⟩

end ShamirGaloisRingShare

end AmpcCommon.Galois
