import Mathlib.Data.Nat.Bitwise

/-!
# One bit of a number

The numbers with the bit `e` clear are the lower halves of the blocks of `2 ^ (e + 1)` numbers. Setting this bit adds
`2 ^ e`, and clearing it subtracts `2 ^ e`.
-/

namespace SingleBit

/-- The bit `e` is clear in the lower half of every block of `2 ^ (e + 1)` numbers. -/
theorem and_two_pow_eq_zero_iff (n e : Nat) : n &&& 2 ^ e = 0 ↔ n % (2 * 2 ^ e) < 2 ^ e := by
  have hpos := Nat.two_pow_pos e
  have hmod : n % (2 * 2 ^ e) = n % 2 ^ e + 2 ^ e * (n / 2 ^ e % 2) := by
    rw [Nat.mul_comm 2, Nat.mod_mul]
  have hlt := Nat.mod_lt n hpos
  rw [Nat.and_two_pow, Nat.testBit_eq_decide_div_mod_eq, hmod]
  rcases Nat.mod_two_eq_zero_or_one (n / 2 ^ e) with h | h
  · simp [h, hlt]
  · simp [h]

theorem and_two_pow_of_ne_zero {n e : Nat} (h : n &&& 2 ^ e ≠ 0) : n &&& 2 ^ e = 2 ^ e := by
  rw [Nat.and_two_pow] at h ⊢
  cases hbit : n.testBit e with
  | false =>
    rw [hbit] at h
    exact absurd (Nat.zero_mul _) h
  | true => exact Nat.one_mul _

/-- Setting a bit that is clear. -/
theorem add_two_pow_eq_xor {n e : Nat} (h : n &&& 2 ^ e = 0) : n + 2 ^ e = n ^^^ 2 ^ e := by
  have hbit : n.testBit e = false := by
    have htest := congrArg (Nat.testBit · e) h
    simpa using htest
  have hdiv : (2 ^ e + n) / 2 ^ (e + 1) = n / 2 ^ (e + 1) := by
    rw [and_two_pow_eq_zero_iff] at h
    rw [Nat.pow_succ, Nat.mul_comm _ 2]
    have hpos : 0 < 2 * 2 ^ e := Nat.mul_pos Nat.two_pos (Nat.two_pow_pos e)
    rw [Nat.add_div hpos, Nat.div_eq_of_lt (by omega), Nat.mod_eq_of_lt (show 2 ^ e < 2 * 2 ^ e by omega),
      if_neg (by omega)]
    omega
  apply Nat.eq_of_testBit_eq
  intro k
  rw [Nat.add_comm, Nat.testBit_xor, Nat.testBit_two_pow]
  rcases Nat.lt_trichotomy k e with hk | rfl | hk
  · rw [Nat.testBit_two_pow_add_gt hk]
    simp [hk.ne']
  · rw [Nat.testBit_two_pow_add_eq, hbit]
    simp
  · obtain ⟨d, rfl⟩ : ∃ d, k = d + (e + 1) := ⟨k - (e + 1), by omega⟩
    rw [← Nat.testBit_div_two_pow, hdiv, Nat.testBit_div_two_pow]
    simp [hk.ne]


theorem add_two_pow_and_ne_zero {n e : Nat} (h : n &&& 2 ^ e = 0) : (n + 2 ^ e) &&& 2 ^ e ≠ 0 := by
  rw [add_two_pow_eq_xor h, Nat.and_xor_distrib_right, h, Nat.and_self, Nat.zero_xor]
  exact (Nat.two_pow_pos e).ne'

/-- Clearing a bit that is set. -/
theorem xor_two_pow_of_ne_zero {n e : Nat} (h : n &&& 2 ^ e ≠ 0) :
    (n ^^^ 2 ^ e) &&& 2 ^ e = 0 ∧ (n ^^^ 2 ^ e) + 2 ^ e = n := by
  have hclear : (n ^^^ 2 ^ e) &&& 2 ^ e = 0 := by
    rw [Nat.and_xor_distrib_right, and_two_pow_of_ne_zero h, Nat.and_self, Nat.xor_self]
  refine ⟨hclear, ?_⟩
  rw [add_two_pow_eq_xor hclear, Nat.xor_assoc, Nat.xor_self, Nat.xor_zero]

/-- A clear bit is set without leaving a range of whole blocks. -/
theorem add_two_pow_lt {n e N : Nat} (hN : 2 ^ (e + 1) ∣ N) (hn : n < N) (h : n &&& 2 ^ e = 0) : n + 2 ^ e < N := by
  rw [and_two_pow_eq_zero_iff] at h
  rw [Nat.pow_succ, Nat.mul_comm] at hN
  obtain ⟨blocks, rfl⟩ := hN
  have hdiv := Nat.div_add_mod n (2 * 2 ^ e)
  have hq : n / (2 * 2 ^ e) < blocks := Nat.div_lt_of_lt_mul hn
  have hle := Nat.mul_le_mul_left (2 * 2 ^ e) hq
  rw [Nat.succ_eq_add_one, Nat.mul_add] at hle
  omega

/-- Going back a quarter of a block of `4 * P` numbers. -/
theorem sub_mod_of_le {n P : Nat} (hP : 0 < P) (hn : P ≤ n) :
    P ≤ n % (2 * (2 * P)) ∧ (n - P) % (2 * (2 * P)) = n % (2 * (2 * P)) - P ∨
      n % (2 * (2 * P)) < P ∧ (n - P) % (2 * (2 * P)) = n % (2 * (2 * P)) + 3 * P := by
  have hadd := Nat.add_mod (n - P) P (2 * (2 * P))
  rw [Nat.sub_add_cancel hn, Nat.mod_eq_of_lt (show P < 2 * (2 * P) by omega)] at hadd
  have hlt := Nat.mod_lt (n - P) (show 0 < 2 * (2 * P) by omega)
  by_cases hfits : (n - P) % (2 * (2 * P)) + P < 2 * (2 * P)
  · rw [Nat.mod_eq_of_lt hfits] at hadd
    omega
  · have hsmall : (n - P) % (2 * (2 * P)) + P - 2 * (2 * P) < 2 * (2 * P) := by omega
    rw [Nat.mod_eq_sub_mod (Nat.not_lt.mp hfits), Nat.mod_eq_of_lt hsmall] at hadd
    omega

end SingleBit
