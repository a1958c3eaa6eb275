import Mathlib.Order.Monotone.Basic
import Mathlib.Data.List.Basic
import Mathlib.Tactic.Ring

/-!
# Cutting a list into pieces

`Cuts.piece` is what lies between two neighbouring cuts of a list. The pieces between monotone cuts, one after the
other, are the list again (`Cuts.flatten_pieces`). `Cuts.balanced` are the cuts into a number of pieces whose
lengths differ by at most one.
-/

namespace Cuts

variable {α : Type}

/-- The piece of `l` between the cuts `i` and `i + 1`. -/
def piece (cut : Nat → Nat) (l : List α) (i : Nat) : List α := (l.drop (cut i)).take (cut (i + 1) - cut i)

theorem flatten_pieces {cut : Nat → Nat} (hmono : Monotone cut) (hzero : cut 0 = 0) (l : List α) (k : Nat) :
    ((List.range k).map (piece cut l)).flatten = l.take (cut k) := by
  induction k with
  | zero => simp [hzero]
  | succ k ih =>
    have hle : cut k ≤ cut (k + 1) := hmono (Nat.le_succ k)
    rw [List.range_succ, List.map_append, List.flatten_append, ih]
    have hsplit : cut (k + 1) = cut k + (cut (k + 1) - cut k) := by omega
    rw [hsplit, List.take_add]
    simp [piece]

theorem length_piece {cut : Nat → Nat} {l : List α} {i : Nat} (h : cut (i + 1) ≤ l.length) :
    (piece cut l i).length = cut (i + 1) - cut i := by
  unfold piece
  rw [List.length_take, List.length_drop]
  omega

/-- Cut `i` of `len` elements into `k` pieces: the first `len % k` pieces have one element more. -/
def balanced (len k i : Nat) : Nat := i * (len / k) + min i (len % k)

theorem balanced_zero (len k : Nat) : balanced len k 0 = 0 := by simp [balanced]

theorem balanced_succ (len k i : Nat) :
    balanced len k (i + 1) = balanced len k i + len / k + if i < len % k then 1 else 0 := by
  unfold balanced
  by_cases hi : i < len % k
  · rw [if_pos hi, min_eq_left (by omega), min_eq_left (by omega)]
    ring
  · rw [if_neg hi, min_eq_right (by omega), min_eq_right (by omega)]
    ring

theorem balanced_mono (len k : Nat) : Monotone (balanced len k) := by
  refine monotone_nat_of_le_succ fun i => ?_
  rw [balanced_succ]
  exact (Nat.le_add_right _ _).trans (Nat.le_add_right _ _)

theorem balanced_last {len k : Nat} (hk : 0 < k) : balanced len k k = len := by
  have hmod : len % k < k := Nat.mod_lt len hk
  unfold balanced
  rw [min_eq_right hmod.le, Nat.div_add_mod]

end Cuts
