import AmpcCommon.Galois.GaloisRing
import Mathlib.Tactic.Ring

/-!
# The Galois ring is a commutative ring

The coefficient formulas of the source make the elements in the monomial basis a commutative ring;
`pow` computes its powers.
-/

namespace AmpcCommon.Galois.GaloisRingElement

section Coefficients

variable {basis : Basis} (x y : GaloisRingElement basis)

@[simp] theorem add_c0 : (x + y).c0 = x.c0 + y.c0 := rfl

@[simp] theorem add_c1 : (x + y).c1 = x.c1 + y.c1 := rfl

@[simp] theorem add_c2 : (x + y).c2 = x.c2 + y.c2 := rfl

@[simp] theorem add_c3 : (x + y).c3 = x.c3 + y.c3 := rfl

@[simp] theorem neg_c0 : (-x).c0 = -x.c0 := rfl

@[simp] theorem neg_c1 : (-x).c1 = -x.c1 := rfl

@[simp] theorem neg_c2 : (-x).c2 = -x.c2 := rfl

@[simp] theorem neg_c3 : (-x).c3 = -x.c3 := rfl

end Coefficients

variable (x y z : GaloisRingElement .monomial)

@[simp] theorem zero_c0 : (0 : GaloisRingElement .monomial).c0 = 0 := rfl

@[simp] theorem zero_c1 : (0 : GaloisRingElement .monomial).c1 = 0 := rfl

@[simp] theorem zero_c2 : (0 : GaloisRingElement .monomial).c2 = 0 := rfl

@[simp] theorem zero_c3 : (0 : GaloisRingElement .monomial).c3 = 0 := rfl

@[simp] theorem one_c0 : (1 : GaloisRingElement .monomial).c0 = 1 := rfl

@[simp] theorem one_c1 : (1 : GaloisRingElement .monomial).c1 = 0 := rfl

@[simp] theorem one_c2 : (1 : GaloisRingElement .monomial).c2 = 0 := rfl

@[simp] theorem one_c3 : (1 : GaloisRingElement .monomial).c3 = 0 := rfl

@[simp] theorem mul_c0 : (x * y).c0 =
    x.c0 * y.c0 + x.c1 * y.c3 + x.c2 * y.c2 + x.c3 * y.c1 := rfl

@[simp] theorem mul_c1 : (x * y).c1 = x.c0 * y.c1 + x.c1 * y.c0 + x.c1 * y.c3 + x.c2 * y.c2 +
    x.c3 * y.c1 + x.c2 * y.c3 + x.c3 * y.c2 := rfl

@[simp] theorem mul_c2 : (x * y).c2 = x.c0 * y.c2 + x.c1 * y.c1 + x.c2 * y.c0 + x.c2 * y.c3 +
    x.c3 * y.c2 + x.c3 * y.c3 := rfl

@[simp] theorem mul_c3 : (x * y).c3 =
    x.c0 * y.c3 + x.c1 * y.c2 + x.c2 * y.c1 + x.c3 * y.c0 + x.c3 * y.c3 := rfl

theorem mul_assoc_coefs : x * y * z = x * (y * z) := by
  ext1 <;> simp <;> ring

theorem left_distrib_coefs : x * (y + z) = x * y + x * z := by
  ext1 <;> simp <;> ring

theorem mul_comm_coefs : x * y = y * x := by
  ext1 <;> simp <;> ring

instance : CommRing (GaloisRingElement .monomial) where
  add_assoc x y z := by ext1 <;> simp <;> ring
  zero_add x := by ext1 <;> simp
  add_zero x := by ext1 <;> simp
  nsmul := nsmulRec
  zsmul := zsmulRec
  neg_add_cancel x := by ext1 <;> simp
  sub_eq_add_neg x y := by ext1 <;> exact sub_eq_add_neg _ _
  add_comm x y := by ext1 <;> simp <;> ring
  left_distrib := left_distrib_coefs
  right_distrib x y z := by
    rw [mul_comm_coefs, left_distrib_coefs, mul_comm_coefs z x, mul_comm_coefs z y]
  zero_mul x := by ext1 <;> simp
  mul_zero x := by ext1 <;> simp
  mul_assoc := mul_assoc_coefs
  one_mul x := by ext1 <;> simp
  mul_one x := by ext1 <;> simp
  mul_comm := mul_comm_coefs

/-- The loop multiplies `y` by the power that is left. -/
theorem powLoop_eq (fuel exp : Nat) (hexp : 0 < exp) (hfuel : exp < 2 ^ (fuel + 1)) :
    powLoop fuel x y exp = x ^ exp * y := by
  induction fuel generalizing x y exp with
  | zero =>
    obtain rfl : exp = 1 := by omega
    rw [powLoop, pow_one]
  | succ fuel ih =>
    rw [powLoop]
    split_ifs with h1 hodd
    · have hhalf : exp = 2 * ((exp - 1) / 2) + 1 := by omega
      rw [ih _ _ _ (by omega) (by rw [pow_succ] at hfuel; omega)]
      conv_rhs => rw [hhalf, pow_succ, pow_mul]
      ring
    · have hhalf : exp = 2 * (exp / 2) := by omega
      rw [ih _ _ _ (by omega) (by rw [pow_succ] at hfuel; omega)]
      conv_rhs => rw [hhalf, pow_mul]
      ring
    · obtain rfl : exp = 1 := by omega
      rw [pow_one]

/-- `pow` is the power of the ring, for every `u32` exponent. -/
theorem pow_eq (exp : Nat) (hexp : exp < 2 ^ 32) : x.pow exp = x ^ exp := by
  rw [pow]
  split_ifs with h0
  · rw [h0, pow_zero]
  · rw [powLoop_eq x 1 32 exp (by omega) (by omega), mul_one]

end AmpcCommon.Galois.GaloisRingElement
