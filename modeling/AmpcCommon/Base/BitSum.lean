import Mathlib.Data.Nat.Bitwise
import Mathlib.Data.BitVec
import Mathlib.Tactic.Ring
import Mathlib.Tactic.Positivity

/-!
# Sums of bit lists

Numbers as lists of bits, the least significant one first. Three numbers are added by full adders, which
leave a list of sums and a list of majorities (`value_sums_majorities`), and by a ripple of carries over two
lists (`ripple`). The carries and the bits of the sum are read off the ripple.
-/

namespace AmpcCommon.BitSum

/-- The number a list of bits stands for. -/
def value : List Bool → Nat
  | [] => 0
  | b :: bs => b.toNat + 2 * value bs

@[simp] theorem value_nil : value [] = 0 := rfl

@[simp] theorem value_cons (b : Bool) (bs : List Bool) : value (b :: bs) = b.toNat + 2 * value bs := rfl

/-- The carry after the bits `ss` and `cs` and the carry `k` have been added. -/
def ripple : List Bool → List Bool → Bool → Bool
  | s :: ss, c :: cs, k => ripple ss cs (k ^^ ((s ^^ k) && (c ^^ k)))
  | _, _, k => k

/-- The sum bits of three numbers. -/
def sums (a b c : List Bool) : List Bool := List.zipWith xor a (List.zipWith xor b c)

/-- The majorities of the bits of three numbers. -/
def majorities (a b c : List Bool) : List Bool :=
  List.zipWith xor (List.zipWith and (List.zipWith xor a c) (List.zipWith xor b c)) c

theorem length_sums {a b c : List Bool} (hb : b.length = a.length) (hc : c.length = a.length) :
    (sums a b c).length = a.length := by
  simp [sums, hb, hc]

theorem length_majorities {a b c : List Bool} (hb : b.length = a.length) (hc : c.length = a.length) :
    (majorities a b c).length = a.length := by
  simp [majorities, hb, hc]

theorem toNat_fullAdder : ∀ a b c : Bool,
    (a ^^ (b ^^ c)).toNat + 2 * (((a ^^ c) && (b ^^ c)) ^^ c).toNat = a.toNat + b.toNat + c.toNat := by
  decide

/-- The full adders keep the sum. -/
theorem value_sums_majorities {a b c : List Bool} (hb : b.length = a.length) (hc : c.length = a.length) :
    value (sums a b c) + 2 * value (majorities a b c) = value a + value b + value c := by
  induction a generalizing b c with
  | nil =>
    cases List.length_eq_zero_iff.mp hb
    cases List.length_eq_zero_iff.mp hc
    rfl
  | cons x a ih =>
    obtain ⟨y, b, rfl⟩ := List.exists_cons_of_length_eq_add_one hb
    obtain ⟨z, c, rfl⟩ := List.exists_cons_of_length_eq_add_one hc
    have hih := ih (Nat.succ.inj hb) (Nat.succ.inj hc)
    have hbit := toNat_fullAdder x y z
    simp only [sums, majorities] at hih ⊢
    simp only [List.zipWith_cons_cons, value_cons]
    omega

theorem value_append (as bs : List Bool) : value (as ++ bs) = value as + 2 ^ as.length * value bs := by
  induction as with
  | nil => simp [value]
  | cons a as ih =>
    rw [List.cons_append, List.length_cons, Nat.pow_succ]
    rw [value_cons, value_cons, ih]
    ring

/-- The low bits of a bit vector. -/
theorem value_range_mod {n : Nat} (x : BitVec n) (m : Nat) :
    value ((List.range m).map x.getLsbD) = x.toNat % 2 ^ m := by
  induction m with
  | zero => simp [Nat.mod_one]
  | succ m ih =>
    rw [List.range_succ, List.map_append, value_append, ih, Nat.mod_pow_succ, List.length_map,
      List.length_range, ← Nat.toNat_testBit, BitVec.testBit_toNat]
    simp

/-- The bits of a bit vector. -/
theorem value_range {n : Nat} (x : BitVec n) : value ((List.range n).map x.getLsbD) = x.toNat := by
  rw [value_range_mod, Nat.mod_eq_of_lt x.isLt]

theorem toNat_half : ∀ s c k : Bool,
    (s.toNat + c.toNat + k.toNat) / 2 = (k ^^ ((s ^^ k) && (c ^^ k))).toNat := by
  decide

/-- The ripple is the carry out of the sum. -/
theorem ripple_toNat {ss cs : List Bool} (h : ss.length = cs.length) (k : Bool) :
    (ripple ss cs k).toNat = (value ss + value cs + k.toNat) / 2 ^ ss.length := by
  induction ss generalizing cs k with
  | nil =>
    cases List.length_eq_zero_iff.mp h.symm
    simp [ripple, value]
  | cons s ss ih =>
    obtain ⟨c, cs, rfl⟩ := List.exists_cons_of_length_eq_add_one h.symm
    have hhalf := toNat_half s c k
    have hsum : (value (s :: ss) + value (c :: cs) + k.toNat) / 2 =
        value ss + value cs + (k ^^ ((s ^^ k) && (c ^^ k))).toNat := by
      rw [value_cons, value_cons]
      omega
    rw [ripple, ih (Nat.succ.inj h), ← hsum, Nat.div_div_eq_div_mul, List.length_cons, Nat.pow_succ, Nat.mul_comm 2]

/-- One more position of the ripple. -/
theorem ripple_take_succ {ss cs : List Bool} (k : Bool) {n : Nat} (hs : n < ss.length) (hc : n < cs.length) :
    ripple (ss.take (n + 1)) (cs.take (n + 1)) k =
      (ripple (ss.take n) (cs.take n) k ^^ ((ss.getD n false ^^ ripple (ss.take n) (cs.take n) k) &&
        (cs.getD n false ^^ ripple (ss.take n) (cs.take n) k))) := by
  induction n generalizing ss cs k with
  | zero =>
    obtain ⟨s, ss, rfl⟩ := List.exists_cons_of_length_pos hs
    obtain ⟨c, cs, rfl⟩ := List.exists_cons_of_length_pos hc
    rfl
  | succ n ih =>
    obtain ⟨s, ss, rfl⟩ := List.exists_cons_of_length_pos (Nat.zero_lt_of_lt hs)
    obtain ⟨c, cs, rfl⟩ := List.exists_cons_of_length_pos (Nat.zero_lt_of_lt hc)
    exact ih _ (Nat.lt_of_succ_lt_succ hs) (Nat.lt_of_succ_lt_succ hc)

/-- A bit of the sum. -/
theorem testBit_add {ss cs : List Bool} (h : ss.length = cs.length) (k : Bool) {i : Nat} (hi : i < ss.length) :
    (value ss + value cs + k.toNat).testBit i =
      (ss.getD i false ^^ cs.getD i false ^^ ripple (ss.take i) (cs.take i) k) := by
  induction ss generalizing cs k i with
  | nil => cases hi
  | cons s ss ih =>
    obtain ⟨c, cs, rfl⟩ := List.exists_cons_of_length_eq_add_one h.symm
    have hhalf := toNat_half s c k
    cases i with
    | zero =>
      have hparity : ∀ s c k : Bool, decide ((s.toNat + c.toNat + k.toNat) % 2 = 1) = (s ^^ c ^^ k) := by decide
      show _ = (s ^^ c ^^ k)
      rw [Nat.testBit_zero, ← hparity]
      rw [value_cons, value_cons]
      congr 2
      omega
    | succ i =>
      have hsum : (value (s :: ss) + value (c :: cs) + k.toNat) / 2 =
          value ss + value cs + (k ^^ ((s ^^ k) && (c ^^ k))).toNat := by
        rw [value_cons, value_cons]
        omega
      rw [Nat.testBit_succ, hsum, ih (Nat.succ.inj h) _ (Nat.lt_of_succ_lt_succ hi)]
      rfl

/-! ## Three numbers -/

/-- The carry out of the two lowest positions of the sums and the majorities. -/
def carry2 (s c : List Bool) : Bool := s.getD 1 false && c.getD 0 false

theorem value_eq_drop {l : List Bool} (h : 0 < l.length) :
    value l = (l.getD 0 false).toNat + 2 * value (l.drop 1) := by
  cases l with
  | nil => cases h
  | cons b bs => rfl

/-- The sum above the two lowest positions. -/
theorem sum_div_four {s c : List Bool} (hs : 2 ≤ s.length) (hc : 1 ≤ c.length) :
    (value s + 2 * value c) / 4 = value (s.drop 2) + value (c.drop 1) + (carry2 s c).toNat := by
  have hbit : ∀ x y z : Bool, (x.toNat + 2 * (y.toNat + z.toNat)) / 4 = (y && z).toNat := by decide
  have h0 := value_eq_drop (l := s) (by omega)
  have h1 : value (s.drop 1) = ((s.drop 1).getD 0 false).toNat + 2 * value (s.drop 2) := by
    rw [value_eq_drop (l := s.drop 1) (by rw [List.length_drop]; omega), List.drop_drop]
  have h2 := value_eq_drop (l := c) hc
  have h3 := hbit (s.getD 0 false) (s.getD 1 false) (c.getD 0 false)
  have hget : (s.drop 1).getD 0 false = s.getD 1 false := by simp
  rw [hget] at h1
  unfold carry2
  omega

/-- The carry out of all positions but the last one of the majorities. -/
def carryOut (s c : List Bool) : Bool := ripple (s.drop 2) (c.dropLast.drop 1) (carry2 s c)

/-- What three numbers of one width add to the positions above this width. -/
theorem sum_div_pow {s c : List Bool} {n : Nat} (hs : s.length = n + 2) (hc : c.length = n + 2) :
    (value s + 2 * value c) / 2 ^ (n + 2) = (c.getD (n + 1) false).toNat + (carryOut s c).toNat := by
  have hlast : value (c.drop 1) = value (c.dropLast.drop 1) + 2 ^ n * (c.getD (n + 1) false).toNat := by
    have hne : c ≠ [] := List.ne_nil_of_length_pos (by omega)
    have hsplit : c.drop 1 = c.dropLast.drop 1 ++ [c.getD (n + 1) false] := by
      have hget : c.getD (n + 1) false = c.getLast hne := by
        rw [List.getLast_eq_getElem, List.getD_eq_getElem _ _ (by omega)]
        congr 1
        omega
      conv_lhs => rw [← List.dropLast_append_getLast hne]
      rw [List.drop_append_of_le_length (by rw [List.length_dropLast]; omega), hget]
    have hlen : (c.dropLast.drop 1).length = n := by
      rw [List.length_drop, List.length_dropLast]
      omega
    rw [hsplit, value_append, hlen]
    simp
  have hlen : (s.drop 2).length = n := by
    rw [List.length_drop]
    omega
  have hlen' : (c.dropLast.drop 1).length = n := by
    rw [List.length_drop, List.length_dropLast]
    omega
  have hfour : 2 ^ (n + 2) = 4 * 2 ^ n := by ring
  rw [hfour, ← Nat.div_div_eq_div_mul, sum_div_four (by omega) (by omega), hlast]
  unfold carryOut
  rw [ripple_toNat (hlen.trans hlen'.symm), hlen, ← Nat.add_assoc, Nat.add_right_comm,
    Nat.add_mul_div_left _ _ (by positivity), Nat.add_comm]

/-- The two bits above the width of three numbers. -/
theorem twoCarries {s c : List Bool} {n : Nat} (hs : s.length = n + 2) (hc : c.length = n + 2) :
    (c.getD (n + 1) false ^^ carryOut s c).toNat + 2 * (c.getD (n + 1) false && carryOut s c).toNat =
      (value s + 2 * value c) / 2 ^ (n + 2) := by
  have hbit : ∀ x y : Bool, (x ^^ y).toNat + 2 * (x && y).toNat = x.toNat + y.toNat := by decide
  rw [sum_div_pow hs hc, hbit]

end AmpcCommon.BitSum
