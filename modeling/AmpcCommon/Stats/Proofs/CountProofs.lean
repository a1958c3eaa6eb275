import AmpcCommon.Protocol.Proofs.SecretProofs
import AmpcCommon.Stats.Buckets

/-!
# Counting, proofs

The sum of injected bits is a number of secrets, and the numbers of two classes that exclude each other add up.
-/

namespace AmpcCommon.Stats

open Protocol

/-- Exact arithmetic in the place of `f64`. -/
instance : F64 ℚ where
  ofInt z := z
  mul := (· * ·)
  div := (· / ·)
  roundBoundary x := round (x * 10 ^ 12) / 10 ^ 12
  translateThresholdA t :=
    if 0 ≤ t ∧ t ≤ 1 then .ok (BitVec.ofNat 32 ⌊(1 - 2 * t) * 2 ^ 16⌋₊)
    else .panicked "Threshold must be in the range [0, 1]"
  matchThresholdRatio := 375 / 1000
  matchThresholdRatioReauth := 1 / 2

variable {α : Type}

theorem toNat_decide (P : Prop) [Decidable P] : (decide P).toNat = if P then 1 else 0 := by
  by_cases h : P <;> simp [h]

/-- The sum of indicators counts. -/
theorem sum_indicator (K : Nat) (p : α → Bool) (l : List α) :
    (l.map fun x => indicator K (p x)).sum = BitVec.ofNat K (l.countP p) := by
  induction l with
  | nil => rfl
  | cons x l ih =>
    rw [List.map_cons, List.sum_cons, ih, List.countP_cons, Nat.add_comm, BitVec.ofNat_add]
    cases p x <;> rfl

theorem toNat_count {K : Nat} {l : List α} (h : l.length < 2 ^ K) (p : α → Bool) :
    (BitVec.ofNat K (l.countP p)).toNat = l.countP p := by
  rw [BitVec.toNat_ofNat]
  exact Nat.mod_eq_of_lt (List.countP_le_length.trans_lt h)

theorem if_toNat : ∀ b : Bool, (if b = true then 1 else 0) = b.toNat := by decide

/-- What every element contributes alike to two sums of counts. -/
theorem countP_add_eq {p q p' q' : α → Bool} (l : List α)
    (h : ∀ x, (p x).toNat + (q x).toNat = (p' x).toNat + (q' x).toNat) :
    l.countP p + l.countP q = l.countP p' + l.countP q' := by
  induction l with
  | nil => rfl
  | cons x l ih =>
    have hx := h x
    simp only [List.countP_cons, if_toNat]
    omega

/-- The elements of a class, by those of its two parts. -/
theorem countP_eq_add {p q r : α → Bool} (l : List α) (h : ∀ x, (p x).toNat = (q x).toNat + (r x).toNat) :
    l.countP p = l.countP q + l.countP r := by
  induction l with
  | nil => rfl
  | cons x l ih =>
    have hx := h x
    simp only [List.countP_cons, if_toNat]
    omega

/-- A subtraction gives the difference, in a build with overflow checks and in one without. -/
theorem usizeSub_eq_ok {overflowChecks : Bool} {x y z : Nat} (hx : x < 2 ^ 32) (hy : y < 2 ^ 32) (hz : z < 2 ^ 32) :
    usizeSub overflowChecks x y = .ok z ↔ x = y + z := by
  unfold usizeSub
  by_cases hle : y ≤ x
  · rw [if_pos hle, Except.ok.injEq]
    omega
  · rw [if_neg hle]
    cases overflowChecks with
    | true =>
      refine ⟨nofun, ?_⟩
      intro h
      omega
    | false =>
      show (Except.ok (2 ^ 64 + x - y) : Outcome Nat) = .ok z ↔ x = y + z
      rw [Except.ok.injEq]
      omega

end AmpcCommon.Stats
