import AmpcCommon.Galois.Proofs.QuotientProofs
import Mathlib.NumberTheory.Basic
import Mathlib.Algebra.GroupWithZero.Invertible

/-!
# The units of the Galois ring

An element with an odd coefficient is a unit. Modulo two such an element is one of the fifteen
nonzero elements of the exceptional sequence, whose fifteenth power is one (`two_dvd_pow_sub_one`); squaring lifts a
congruence with one from `2^k` to `2^(k+1)`, so the exponent of the unit group divides `15 * 2^15`
(`pow_exponent`), and `inverse` raises to one less.
-/

namespace AmpcCommon.Galois.GaloisRingElement

variable {x y : GaloisRingElement .monomial}

/-- Some coefficient is odd. -/
def HasOdd (x : GaloisRingElement .monomial) : Prop := ∃ c ∈ x.coefs, c % 2 = 1

instance (x : GaloisRingElement .monomial) : Decidable x.HasOdd :=
  inferInstanceAs (Decidable (∃ c ∈ x.coefs, c % 2 = 1))

/-- All coefficients are even. -/
def AllEven (x : GaloisRingElement .monomial) : Prop := ∀ c ∈ x.coefs, c % 2 = 0

instance (x : GaloisRingElement .monomial) : Decidable x.AllEven :=
  inferInstanceAs (Decidable (∀ c ∈ x.coefs, c % 2 = 0))

theorem toNat_mod_two (c : BitVec 16) : (c % 2).toNat = c.toNat % 2 := BitVec.toNat_umod

theorem mod_two_eq_zero_or_one (c : BitVec 16) : c % 2 = 0 ∨ c % 2 = 1 := by
  rcases Nat.mod_two_eq_zero_or_one c.toNat with h | h
  · left
    exact BitVec.eq_of_toNat_eq ((toNat_mod_two c).trans h)
  · right
    exact BitVec.eq_of_toNat_eq ((toNat_mod_two c).trans h)

theorem hasOdd_iff_not_allEven : x.HasOdd ↔ ¬ x.AllEven := by
  unfold HasOdd AllEven
  constructor
  · rintro ⟨c, hc, hodd⟩ heven
    rw [heven c hc] at hodd
    exact absurd hodd (by decide)
  · intro h
    simp only [not_forall] at h
    obtain ⟨c, hc, hne⟩ := h
    exact ⟨c, hc, (mod_two_eq_zero_or_one c).resolve_left hne⟩

/-! ## Residues modulo two -/

/-- The coefficients modulo two. -/
def lowBits (x : GaloisRingElement .monomial) : GaloisRingElement .monomial :=
  ⟨x.c0 % 2, x.c1 % 2, x.c2 % 2, x.c3 % 2⟩

theorem two_c0 (z : GaloisRingElement .monomial) : ((2 : GaloisRingElement .monomial) * z).c0 = 2 * z.c0 := by
  rw [two_mul, two_mul, add_c0]

theorem two_c1 (z : GaloisRingElement .monomial) : ((2 : GaloisRingElement .monomial) * z).c1 = 2 * z.c1 := by
  rw [two_mul, two_mul, add_c1]

theorem two_c2 (z : GaloisRingElement .monomial) : ((2 : GaloisRingElement .monomial) * z).c2 = 2 * z.c2 := by
  rw [two_mul, two_mul, add_c2]

theorem two_c3 (z : GaloisRingElement .monomial) : ((2 : GaloisRingElement .monomial) * z).c3 = 2 * z.c3 := by
  rw [two_mul, two_mul, add_c3]

theorem eq_mod_add_div (c : BitVec 16) : c = c % 2 + 2 * (c / 2) := by
  have hdiv : (c / 2).toNat = c.toNat / 2 := BitVec.toNat_udiv
  have htwo : (2 : BitVec 16).toNat = 2 := rfl
  refine BitVec.eq_of_toNat_eq ?_
  rw [BitVec.toNat_add, BitVec.toNat_mul, toNat_mod_two, hdiv, htwo]
  have := c.isLt
  omega

theorem eq_lowBits_add (x : GaloisRingElement .monomial) :
    x = lowBits x + 2 * ⟨x.c0 / 2, x.c1 / 2, x.c2 / 2, x.c3 / 2⟩ := by
  refine GaloisRingElement.ext ?_ ?_ ?_ ?_
  · rw [add_c0, two_c0]
    exact eq_mod_add_div x.c0
  · rw [add_c1, two_c1]
    exact eq_mod_add_div x.c1
  · rw [add_c2, two_c2]
    exact eq_mod_add_div x.c2
  · rw [add_c3, two_c3]
    exact eq_mod_add_div x.c3

theorem two_dvd_sub_lowBits (x : GaloisRingElement .monomial) : 2 ∣ x - lowBits x := by
  refine ⟨⟨x.c0 / 2, x.c1 / 2, x.c2 / 2, x.c3 / 2⟩, ?_⟩
  exact sub_eq_of_eq_add' (eq_lowBits_add x)

theorem lowBits_eq_zero (h : x.AllEven) : lowBits x = 0 := by
  simp only [AllEven, coefs, List.forall_mem_cons] at h
  exact GaloisRingElement.ext h.1 h.2.1 h.2.2.1 h.2.2.2.1

theorem lowBits_mem (x : GaloisRingElement .monomial) : lowBits x ∈ exceptionalSequence := by
  unfold lowBits
  rcases mod_two_eq_zero_or_one x.c0 with h0 | h0 <;> rcases mod_two_eq_zero_or_one x.c1 with h1 | h1 <;>
    rcases mod_two_eq_zero_or_one x.c2 with h2 | h2 <;> rcases mod_two_eq_zero_or_one x.c3 with h3 | h3 <;>
    rw [h0, h1, h2, h3] <;> decide

theorem hasOdd_iff : x.HasOdd ↔ lowBits x ≠ ⟨0, 0, 0, 0⟩ := by
  rw [hasOdd_iff_not_allEven]
  refine not_congr ⟨lowBits_eq_zero, fun h0 => ?_⟩
  simp only [AllEven, coefs, List.forall_mem_cons]
  exact ⟨congrArg c0 h0, congrArg c1 h0, congrArg c2 h0, congrArg c3 h0, by simp⟩

theorem lowBits_mem_tail (h : x.HasOdd) : lowBits x ∈ exceptionalSequence.tail :=
  (List.mem_cons.mp (lowBits_mem x)).resolve_left (hasOdd_iff.mp h)

/-- The field with sixteen elements: the fifteenth powers of its nonzero elements are one. -/
theorem lowBits_pow_fifteen : ∀ e ∈ exceptionalSequence.tail, lowBits (e.pow 15) = ⟨1, 0, 0, 0⟩ := by
  decide +kernel

theorem two_dvd_pow_sub_one (h : x.HasOdd) : 2 ∣ x ^ 15 - 1 := by
  have hlow : 2 ∣ lowBits x ^ 15 - 1 := by
    have hdvd := two_dvd_sub_lowBits ((lowBits x).pow 15)
    rw [lowBits_pow_fifteen _ (lowBits_mem_tail h), pow_eq _ 15 (by decide)] at hdvd
    exact hdvd
  have hpow : x - lowBits x ∣ x ^ 15 - lowBits x ^ 15 := sub_dvd_pow_sub_pow x (lowBits x) 15
  have hsum := dvd_add ((two_dvd_sub_lowBits x).trans hpow) hlow
  rwa [sub_add_sub_cancel] at hsum

/-! ## Inversion -/

theorem two_pow_sixteen : (2 : GaloisRingElement .monomial) ^ 16 = 0 := by
  rw [← pow_eq _ 16 (by decide)]
  decide +kernel

/-- The exponent of the group of units divides `(2^4 - 1) * 2^15`. -/
theorem pow_exponent (h : x.HasOdd) : x ^ (15 * 2 ^ 15) = 1 := by
  have hdvd : ((2 : Nat) : GaloisRingElement .monomial) ∣ x ^ 15 - 1 := by
    exact_mod_cast two_dvd_pow_sub_one h
  have hlift := dvd_sub_pow_of_dvd_sub hdvd 15
  rw [Nat.cast_ofNat, two_pow_sixteen, zero_dvd_iff, one_pow, ← pow_mul] at hlift
  exact sub_eq_zero.mp hlift

theorem inverse_eq_pow (h : x.HasOdd) : x.inverse = .ok (x ^ (15 * 2 ^ 15 - 1)) := by
  have heven : ¬ (x.coefs.all fun c => c % 2 == 0) = true := by
    simp only [List.all_eq_true, beq_iff_eq]
    exact hasOdd_iff_not_allEven.mp h
  have hexp : (2 ^ 4 - 1) * 2 ^ (16 - 1) - 1 = 15 * 2 ^ 15 - 1 := by norm_num
  unfold inverse
  rw [if_neg heven, hexp]
  exact congrArg Except.ok (pow_eq x (15 * 2 ^ 15 - 1) (by norm_num))

theorem mul_pow_exponent (h : x.HasOdd) : x * x ^ (15 * 2 ^ 15 - 1) = 1 := by
  rw [← pow_succ', Nat.sub_add_cancel (by decide), pow_exponent h]

theorem HasOdd.isUnit (h : x.HasOdd) : IsUnit x := IsUnit.of_mul_eq_one _ (mul_pow_exponent h)

/-- The inverse of the source is that of the ring. -/
theorem inverse_eq (h : x.HasOdd) : x.inverse = .ok (Ring.inverse x) := by
  have hpow : x ^ (15 * 2 ^ 15 - 1) = 1 * Ring.inverse x :=
    (Ring.eq_mul_inverse_iff_mul_eq _ _ _ h.isUnit).mpr ((mul_comm _ x).trans (mul_pow_exponent h))
  rw [inverse_eq_pow h, hpow, one_mul]

theorem inverse_eq_panicked_iff : (∃ msg, x.inverse = .panicked msg) ↔ x.AllEven := by
  constructor
  · rintro ⟨msg, hmsg⟩
    by_contra heven
    rw [inverse_eq_pow (hasOdd_iff_not_allEven.mpr heven)] at hmsg
    cases hmsg
  · intro heven
    refine ⟨"Element has no inverse", ?_⟩
    unfold inverse
    rw [if_pos (List.all_eq_true.mpr fun c hc => beq_iff_eq.mpr (heven c hc))]

/-- **The ring and its units.** The elements are the polynomials over `Z/2^16` modulo `x^4 - x - 1`, with the
multiplication of the source; `pow` is the power; an element with an odd coefficient is a unit, and `inverse` inverts
it; on the others `inverse` panics. -/
theorem ring_and_units :
    (∃ φ : GaloisRingElement .monomial ≃+* AdjoinRoot modulus, ∀ x, φ x = AdjoinRoot.mk modulus (toPoly x)) ∧
    Nat.card (GaloisRingElement .monomial) = 2 ^ 64 ∧
    (∀ (x : GaloisRingElement .monomial) (e : BitVec 32), x.pow e.toNat = (List.replicate e.toNat x).prod) ∧
    (∀ x : GaloisRingElement .monomial, x.HasOdd → ∃ y, x.inverse = .ok y ∧ x * y = 1) ∧
    (∀ x : GaloisRingElement .monomial, (∃ msg, x.inverse = .panicked msg) ↔ x.AllEven) := by
  refine ⟨⟨quotientEquiv, fun x => rfl⟩, card_eq, ?_, ?_, fun x => inverse_eq_panicked_iff⟩
  · intro x e
    rw [pow_eq x _ e.isLt, List.prod_replicate]
  · intro x h
    exact ⟨_, inverse_eq_pow h, mul_pow_exponent h⟩

/-- An element with one odd coefficient is inverted. -/
theorem inverse_of_one_odd : ∃ y, (⟨2, 4, 7, 0⟩ : GaloisRingElement .monomial).inverse = .ok y ∧ ⟨2, 4, 7, 0⟩ * y = 1 :=
  ring_and_units.2.2.2.1 ⟨2, 4, 7, 0⟩ ⟨7, by decide, by decide⟩

end AmpcCommon.Galois.GaloisRingElement
