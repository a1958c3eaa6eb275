import Mathlib.Data.List.Basic
import Mathlib.Tactic.Common

/-!
# Square grids

A grid with `n` rows and columns is stored row by row. Its cells hold the numbers of elements that pass a test of the
row and a test of the column. When an element that passes a test passes all later ones, inclusion–exclusion gives the
number of elements that pass in a row and a column for the first time (`Grid.count_first`).
-/

namespace Grid

variable {α β : Type}

/-- The cells, row by row. -/
def cells (n : Nat) (f : Nat → Nat → α) : List α := (List.range (n * n)).map fun idx => f (idx / n) (idx % n)

@[simp] theorem length_cells (n : Nat) (f : Nat → Nat → α) : (cells n f).length = n * n := by simp [cells]

theorem add_div_mod {n j : Nat} (i : Nat) (hj : j < n) : (i * n + j) / n = i ∧ (i * n + j) % n = j := by
  have hpos : 0 < n := Nat.zero_lt_of_lt hj
  rw [Nat.add_comm, Nat.add_mul_div_right _ _ hpos, Nat.add_mul_mod_self_right, Nat.div_eq_of_lt hj, Nat.zero_add,
    Nat.mod_eq_of_lt hj]
  exact ⟨rfl, rfl⟩

theorem add_lt {n i j : Nat} (hi : i < n) (hj : j < n) : i * n + j < n * n := by
  calc i * n + j < i * n + n := Nat.add_lt_add_left hj _
    _ = (i + 1) * n := (Nat.succ_mul i n).symm
    _ ≤ n * n := Nat.mul_le_mul_right n hi

theorem getElem?_cells {n i j : Nat} (f : Nat → Nat → α) (hi : i < n) (hj : j < n) :
    (cells n f)[i * n + j]? = some (f i j) := by
  obtain ⟨hdiv, hmod⟩ := add_div_mod i hj
  rw [cells, List.getElem?_map, List.getElem?_range (add_lt hi hj), Option.map_some, hdiv, hmod]

/-- All pairs of a row and a column, in the order of the cells. -/
theorem flatMap_range (m n : Nat) (f : Nat → Nat → α) :
    ((List.range m).flatMap fun i => (List.range n).map (f i)) =
      (List.range (m * n)).map fun idx => f (idx / n) (idx % n) := by
  induction m with
  | zero => simp
  | succ m ih =>
    have hrow :
        ((List.range n).map (m * n + ·)).map (fun idx => f (idx / n) (idx % n)) = (List.range n).map (f m) := by
      rw [List.map_map]
      refine List.map_congr_left fun j hj => ?_
      obtain ⟨hdiv, hmod⟩ := add_div_mod m (List.mem_range.mp hj)
      rw [Function.comp_apply, hdiv, hmod]
    rw [List.range_succ, List.flatMap_append, ih, Nat.succ_mul, List.range_add, List.map_append, hrow,
      List.flatMap_singleton]

theorem product_map (m : Nat) (f : Nat → α) (g : Nat → β) :
    ((List.range m).map f).product ((List.range m).map g) = cells m fun i j => (f i, g j) := by
  rw [cells, ← flatMap_range m m fun i j => (f i, g j)]
  simp only [List.product, List.flatMap_map, List.map_map]
  rfl

theorem forall_mem_cells {n : Nat} {f : Nat → Nat → α} {P : α → Prop} (h : ∀ i < n, ∀ j < n, P (f i j)) :
    ∀ x ∈ cells n f, P x := by
  rintro x hx
  obtain ⟨idx, hidx, rfl⟩ := List.mem_map.mp hx
  have hlt := List.mem_range.mp hidx
  have hpos : 0 < n := Nat.pos_of_ne_zero fun hn => by simp [hn] at hlt
  exact h _ ((Nat.div_lt_iff_lt_mul hpos).mpr hlt) _ (Nat.mod_lt _ hpos)

/-- A list over all indices is the grid of its values at a row and a column. -/
theorem map_range_eq_cells {n : Nat} {g : Nat → α} {f : Nat → Nat → α}
    (h : ∀ i < n, ∀ j < n, g (i * n + j) = f i j) : (List.range (n * n)).map g = cells n f := by
  refine List.map_congr_left fun idx hidx => ?_
  have hlt := List.mem_range.mp hidx
  have hpos : 0 < n := Nat.pos_of_ne_zero fun hn => by simp [hn] at hlt
  rw [← h _ ((Nat.div_lt_iff_lt_mul hpos).mpr hlt) _ (Nat.mod_lt _ hpos), Nat.mul_comm, Nat.div_add_mod]

/-! ## Counts -/

variable (p q : Nat → β → Bool)

/-- The test before `i`. -/
def before : Nat → β → Bool
  | 0, _ => false
  | i + 1, x => p i x

/-- The element passes at `i`, and at nothing before it. -/
def first (i : Nat) (x : β) : Bool := p i x && (List.range i).all fun k => !p k x

/-- An element that passes one of the `n` tests passes all later ones. -/
def Grows (n : Nat) (l : List β) : Prop := ∀ x ∈ l, ∀ k i, k ≤ i → i < n → p k x → p i x

theorem Grows.before {p : Nat → β → Bool} {n : Nat} {l : List β} (h : Grows p n l) {i : Nat} (hi : i < n) {x : β}
    (hx : x ∈ l) : before p i x → p i x := by
  cases i with
  | zero => exact nofun
  | succ i => exact h x hx i (i + 1) (Nat.le_succ i) hi

theorem Grows.first {p : Nat → β → Bool} {n : Nat} {l : List β} (h : Grows p n l) {i : Nat} (hi : i < n) {x : β}
    (hx : x ∈ l) : first p i x = (p i x && !Grid.before p i x) := by
  unfold Grid.first
  congr 1
  cases i with
  | zero => rfl
  | succ i =>
    rw [Bool.eq_iff_iff, List.all_eq_true]
    simp only [List.mem_range, Bool.not_eq_true']
    constructor
    · intro hall
      exact hall i (Nat.lt_succ_self i)
    · intro hnot k hk
      by_contra hpass
      rw [Bool.not_eq_false] at hpass
      have hlast := h x hx k i (Nat.le_of_lt_succ hk) (Nat.lt_of_succ_lt hi) hpass
      have hnot : p i x = false := hnot
      rw [hlast] at hnot
      exact absurd hnot (by decide)

/-- The number of elements that pass at the row `i` and the column `j`. -/
def count (l : List β) (i j : Nat) : Nat := l.countP fun x => p i x && q j x

/-- Inclusion–exclusion for one element. -/
theorem countP_inclusion_exclusion {a b c d e : β → Bool} {l : List β}
    (h : ∀ x ∈ l, (a x).toNat + (d x).toNat = (b x).toNat + (c x).toNat + (e x).toNat) :
    l.countP a + l.countP d = l.countP b + l.countP c + l.countP e := by
  have hif : ∀ b : Bool, (if b = true then 1 else 0) = b.toNat := by decide
  induction l with
  | nil => rfl
  | cons x l ih =>
    have hx := h x List.mem_cons_self
    have hl := ih fun y hy => h y (List.mem_cons_of_mem _ hy)
    simp only [List.countP_cons, hif]
    omega

/-- The number of elements that pass at a row and a column for the first time. -/
theorem count_first {n : Nat} {l : List β} (hp : Grows p n l) (hq : Grows q n l) {i j : Nat} (hi : i < n)
    (hj : j < n) :
    count p q l i j + count (before p) (before q) l i j =
      count (before p) q l i j + count p (before q) l i j + count (first p) (first q) l i j := by
  refine countP_inclusion_exclusion fun x hx => ?_
  have hbool : ∀ a a' b b' : Bool, (a' = true → a = true) → (b' = true → b = true) →
      (a && b).toNat + (a' && b').toNat =
        (a' && b).toNat + (a && b').toNat + ((a && !a') && (b && !b')).toNat := by decide
  rw [hp.first hi hx, hq.first hj hx]
  exact hbool _ _ _ _ (hp.before hi hx) (hq.before hj hx)

end Grid
