import AmpcCommon.Base.Grid
import AmpcCommon.Protocol.Proofs.DistanceProofs
import AmpcCommon.Protocol.Proofs.PermutationProofs
import AmpcCommon.Stats.Iris2d
import AmpcCommon.Stats.Proofs.CountProofs

/-!
# Histograms, proofs

Both two-dimensional jobs open a grid of counts, and recover the histogram from it: the outer product of the
comparisons of both sides opens to the number of bundles that pass on both sides (`openCells_succeeds`), and the cells
that `fill_buckets` keeps are those of the histogram (`fillCells_eq`).
-/

namespace AmpcCommon.Stats

open Protocol

/-! ## Filling in the buckets -/

section Cells

variable {β : Type} (p q : Nat → β → Bool) (n : Nat) (l : List β)

/-- The grid that is opened. -/
def openedCells : List (BitVec 32) := Grid.cells n fun i j => BitVec.ofNat 32 (Grid.count p q l i j)

/-- The count of a cell of the histogram. -/
def cellCount : Nat → Nat → Nat := Grid.count (Grid.first p) (Grid.first q) l

/-- The histogram: the cells with a positive count, with the labels of the row and the column. -/
def histogram2d {F : Type} (label : Nat → F × F) : List (Bucket2DResult F) :=
  (Grid.cells n fun i j => (⟨cellCount p q l i j, label i, label j⟩ : Bucket2DResult F)).filter (0 < ·.count)

variable {p q n l}

theorem cumulativeAt_openedCells (hlen : l.length < 2 ^ 32) {i j : Nat} (hi : i < n) (hj : j < n) :
    cumulativeAt (openedCells p q n l) (i * n + j) = Grid.count p q l i j := by
  unfold cumulativeAt openedCells
  rw [Grid.getElem?_cells _ hi hj, Option.getD_some, Grid.count, toNat_count hlen]

theorem count_zero_left (q : Nat → β → Bool) (j : Nat) : Grid.count (Grid.before p) q l 0 j = 0 :=
  List.countP_eq_zero.mpr fun _ _ => Bool.false_ne_true

theorem count_zero_right (p : Nat → β → Bool) (i : Nat) : Grid.count p (Grid.before q) l i 0 = 0 :=
  List.countP_eq_zero.mpr fun x _ => by simp [Grid.before]

/-- What is subtracted and added again is what passes before the row or the column. -/
theorem decumulated_openedCells (hlen : l.length < 2 ^ 32) (hp : Grid.Grows p n l) (hq : Grid.Grows q n l) {i j : Nat}
    (hi : i < n) (hj : j < n) : decumulated n (openedCells p q n l) (i * n + j) = cellCount p q l i j := by
  have hcount := Grid.count_first p q hp hq hi hj
  obtain ⟨hdiv, hmod⟩ := Grid.add_div_mod i hj
  have habove : (if i > 0 then cumulativeAt (openedCells p q n l) (i * n + j - n) else 0) =
      (Grid.count (Grid.before p) q l i j : Int) := by
    cases i with
    | zero => simp [count_zero_left]
    | succ i =>
      rw [if_pos (Nat.succ_pos i), show (i + 1) * n + j - n = i * n + j by rw [Nat.succ_mul]; omega]
      exact cumulativeAt_openedCells hlen (Nat.lt_of_succ_lt hi) hj
  have hleft : (if j > 0 then cumulativeAt (openedCells p q n l) (i * n + j - 1) else 0) =
      (Grid.count p (Grid.before q) l i j : Int) := by
    cases j with
    | zero => simp [count_zero_right]
    | succ j =>
      rw [if_pos (Nat.succ_pos j), show i * n + (j + 1) - 1 = i * n + j by omega]
      exact cumulativeAt_openedCells hlen hi (Nat.lt_of_succ_lt hj)
  have hboth : (if i > 0 ∧ j > 0 then cumulativeAt (openedCells p q n l) (i * n + j - n - 1) else 0) =
      (Grid.count (Grid.before p) (Grid.before q) l i j : Int) := by
    cases i with
    | zero => simp [count_zero_left]
    | succ i =>
      cases j with
      | zero => simp [count_zero_right]
      | succ j =>
        rw [if_pos ⟨Nat.succ_pos i, Nat.succ_pos j⟩,
          show (i + 1) * n + (j + 1) - n - 1 = i * n + j by rw [Nat.succ_mul]; omega]
        exact cumulativeAt_openedCells hlen (Nat.lt_of_succ_lt hi) (Nat.lt_of_succ_lt hj)
  unfold decumulated cellCount
  simp only [hdiv, hmod, habove, hleft, hboth, cumulativeAt_openedCells hlen hi hj]
  omega

/-- No count is negative, so the clamping does nothing, and the histogram is reported. -/
theorem fillCells_eq {F : Type} (hlen : l.length < 2 ^ 32) (hp : Grid.Grows p n l) (hq : Grid.Grows q n l)
    (label : Nat → F × F) : fillCells label n (openedCells p q n l) = histogram2d p q n l label := by
  unfold fillCells histogram2d Grid.cells
  rw [List.filter_map, ← List.filterMap_eq_map, List.filterMap_filter]
  refine List.filterMap_congr fun idx hidx => ?_
  have hlt := List.mem_range.mp hidx
  have hpos : 0 < n := Nat.pos_of_ne_zero fun hn => by simp [hn] at hlt
  have hidx : idx / n * n + idx % n = idx := by
    rw [Nat.mul_comm]
    exact Nat.div_add_mod idx n
  have hcell := decumulated_openedCells hlen hp hq ((Nat.div_lt_iff_lt_mul hpos).mpr hlt) (Nat.mod_lt idx hpos)
  rw [hidx] at hcell
  obtain ⟨count, hcount⟩ : ∃ count, cellCount p q l (idx / n) (idx % n) = count := ⟨_, rfl⟩
  rw [hcell, hcount]
  have hnonneg : ¬ ((count : Int) < 0) := not_lt.mpr (Int.natCast_nonneg count)
  by_cases hpositive : 0 < count
  · simp [hnonneg, hcount, hpositive]
  · simp [hnonneg, hcount, hpositive]

end Cells

/-! ## The outer product -/

variable {R : Type} [Rng R]

theorem zeroShares_succeeds (n : Nat) :
    Succeeds (fun _ => (zeroShares n : Proc R _)) fun r =>
      (∀ p, (r p).length = n) ∧ ∀ i, (Rep3.sum fun p => (r p).getD i 0) = 0 := by
  induction n with
  | zero => exact Succeeds.pure ⟨fun p => rfl, fun i => rfl⟩
  | succ n ih =>
    refine (genZeroShare_succeeds .u32).bind fun share hshare => ih.bind fun shares hshares => Succeeds.pure ?_
    obtain ⟨hlen, hsum⟩ := hshares
    refine ⟨fun p => congrArg (· + 1) (hlen p), fun i => ?_⟩
    cases i with
    | zero => exact hshare
    | succ i => exact hsum i

/-- The loop adds to every cell the products of its pair of chunks. -/
theorem addProducts_eq (jobSize : Nat) (pairs : List (List (Share 32) × List (Share 32)))
    (hpairs : ∀ c ∈ pairs, c.1.length = jobSize ∧ c.2.length = jobSize) (done cells : List (BitVec 32))
    (hlen : cells.length = pairs.length) :
    addProducts pairs done.length (done ++ cells) =
      .ok (done ++ List.zipWith (fun share c => share + productSum c.1 c.2) cells pairs) := by
  induction pairs generalizing done cells with
  | nil =>
    have hnil : cells = [] := List.length_eq_zero_iff.mp hlen
    subst hnil
    rfl
  | cons c pairs ih =>
    cases cells with
    | nil => cases hlen
    | cons cell cells =>
      obtain ⟨hleft, hright⟩ := hpairs c List.mem_cons_self
      have hget : (done ++ cell :: cells)[done.length]? = some cell := by simp
      have hset : (done ++ cell :: cells).set done.length (cell + productSum c.1 c.2) =
          (done ++ [cell + productSum c.1 c.2]) ++ cells := by simp
      have hnext := ih (fun c' hc' => hpairs c' (List.mem_cons_of_mem _ hc')) (done ++ [cell + productSum c.1 c.2])
        cells
        (Nat.succ.inj hlen)
      rw [List.length_append] at hnext
      simp only [addProducts, hleft, hright, ne_eq, not_true_eq_false, if_false, hget, hset]
      refine hnext.trans ?_
      rw [List.append_assoc]
      rfl

/-- The loop over the pairs of chunks of a grid. -/
theorem addProducts_cells {n jobSize : Nat} {f g : Nat → List (Share 32)} (hf : ∀ i < n, (f i).length = jobSize)
    (hg : ∀ j < n, (g j).length = jobSize) {cells : List (BitVec 32)} (hlen : cells.length = n * n) :
    ∃ summed, addProducts (Grid.cells n fun i j => (f i, g j)) 0 cells = .ok summed ∧ summed.length = n * n ∧
      ∀ idx < n * n, summed.getD idx 0 = cells.getD idx 0 + productSum (f (idx / n)) (g (idx % n)) := by
  have hpairs : ∀ c ∈ Grid.cells n (fun i j => (f i, g j)), c.1.length = jobSize ∧ c.2.length = jobSize :=
    Grid.forall_mem_cells fun i hi j hj => ⟨hf i hi, hg j hj⟩
  have hcount : cells.length = (Grid.cells n fun i j => (f i, g j)).length := by rw [hlen, Grid.length_cells]
  refine ⟨_, addProducts_eq jobSize _ hpairs [] cells hcount, by simp [hlen], fun idx hidx => ?_⟩
  have hidx' : idx < cells.length := hlen.symm ▸ hidx
  rw [List.getD_eq_getElem _ _ (by simpa [hlen] using hidx), List.getD_eq_getElem _ _ hidx']
  simp [Grid.cells]

theorem foldl_add_eq_sum {K : Nat} (l : List (BitVec K)) : l.foldl (· + ·) 0 = l.sum := by
  rw [List.foldl_eq_foldr, List.sum]

/-- The local products of the parties add up to the products of the secrets. -/
theorem sum_productSum (xs ys : List (Rep3 32)) :
    (Rep3.sum fun p => productSum (xs.map (Rep3.view p)) (ys.map (Rep3.view p))) =
      (List.zipWith (· * ·) (xs.map Rep3.sum) (ys.map Rep3.sum)).sum := by
  unfold productSum
  simp only [foldl_add_eq_sum]
  induction xs generalizing ys with
  | nil => simp [Rep3.sum]
  | cons x xs ih =>
    cases ys with
    | nil => simp [Rep3.sum]
    | cons y ys =>
      simp only [List.map_cons, List.zipWith_cons_cons, List.sum_cons]
      rw [sum_add, sum_mul, ih]

/-- A chunk of the comparisons for every threshold. -/
theorem chunks_comparisons {β : Type} {p : Nat → β → Bool} {n : Nat} {l : List β} {v : Party → List (Share 32)}
    (hl : l.length ≠ 0)
    (h : SharesOf v ((List.range n).flatMap fun i => l.map fun x => indicator 32 (p i x))) :
    ∃ zs : Nat → List (Rep3 32),
      (∀ r, chunks l.length (v r) = (List.range n).map fun i => (zs i).map (Rep3.view r)) ∧
      ∀ i < n, (zs i).map Rep3.sum = l.map fun x => indicator 32 (p i x) := by
  obtain ⟨xs, hx, hsum⟩ := h
  have hchunks : (chunks l.length xs).map (List.map Rep3.sum) =
      (List.range n).map fun i => l.map fun x => indicator 32 (p i x) := by
    rw [← chunks_map, hsum, List.flatMap_def]
    refine chunks_flatten (Nat.pos_of_ne_zero hl) fun b hb => ?_
    obtain ⟨i, -, rfl⟩ := List.mem_map.mp hb
    exact List.length_map _
  have hcount : (chunks l.length xs).length = n := by
    have hlengths := congrArg List.length hchunks
    simpa using hlengths
  refine ⟨fun i => (chunks l.length xs).getD i [], fun r => ?_, fun i hi => ?_⟩
  · rw [hx r, chunks_map]
    refine List.ext_getElem (by simp [hcount]) fun i hi hi' => ?_
    rw [List.length_map] at hi
    rw [List.getElem_map, List.getElem_map, List.getElem_range]
    exact congrArg _ (List.getD_eq_getElem _ _ hi).symm
  · have hi' := hcount.symm ▸ hi
    have hget := congrArg (fun m => m[i]?) hchunks
    simp only [List.getElem?_map, List.getElem?_range hi, List.getElem?_eq_getElem hi', Option.map_some,
      Option.some.injEq] at hget
    exact (congrArg _ (List.getD_eq_getElem _ _ hi')).trans hget

/-- The products of two comparisons count the bundles that pass both. -/
theorem sum_products {β : Type} (a b : β → Bool) (l : List β) :
    (List.zipWith (· * ·) (l.map fun x => indicator 32 (a x)) (l.map fun x => indicator 32 (b x))).sum =
      BitVec.ofNat 32 (l.countP fun x => a x && b x) := by
  rw [List.zipWith_map, List.zipWith_self, ← sum_indicator]
  congr 1
  refine List.map_congr_left fun x _ => ?_
  cases a x <;> cases b x <;> rfl

/-- All parties obtain the grid of counts. -/
theorem openCells_succeeds {β : Type} {p q : Nat → β → Bool} {n : Nat} {l : List β}
    {left right : Party → List (Share 32)}
    (hleft : SharesOf left ((List.range n).flatMap fun i => l.map fun x => indicator 32 (p i x)))
    (hright : SharesOf right ((List.range n).flatMap fun i => l.map fun x => indicator 32 (q i x))) :
    Succeeds (fun r => (openCells l.length n (left r) (right r) : Proc R _)) fun cells =>
      ∀ r, cells r = openedCells p q n l := by
  unfold openCells
  refine (zeroShares_succeeds (n * n)).bind fun zeros hzeros => ?_
  obtain ⟨hlen, hzero⟩ := hzeros
  by_cases hl : l.length = 0
  · simp only [hl, ne_eq, not_true_eq_false, if_false]
    refine (openRingElementBroadcast_succeeds (t := .u32) hlen).mono fun cells hcells r => ?_
    have hnil : l = [] := List.length_eq_zero_iff.mp hl
    subst hnil
    rw [hcells r]
    exact List.map_congr_left fun idx _ => hzero idx
  · simp only [ne_eq, hl, not_false_eq_true, if_true]
    obtain ⟨xs, hx, hxsum⟩ := chunks_comparisons hl hleft
    obtain ⟨ys, hy, hysum⟩ := chunks_comparisons hl hright
    have hlength : ∀ {zs : Nat → List (Rep3 32)} {f : Nat → β → Bool},
        (∀ i < n, (zs i).map Rep3.sum = l.map fun x => indicator 32 (f i x)) →
          ∀ r, ∀ i < n, ((zs i).map (Rep3.view r)).length = l.length := by
      intro zs f h r i hi
      have hlengths := congrArg List.length (h i hi)
      simpa using hlengths
    choose summed hsummed hlen' hcell using fun r =>
      addProducts_cells (hlength hxsum r) (hlength hysum r) (hlen r)
    have hadd : ∀ r, addProducts ((chunks l.length (left r)).product (chunks l.length (right r))) 0 (zeros r) =
        .ok (summed r) := by
      intro r
      rw [hx r, hy r, ← hsummed r]
      exact congrArg (addProducts · 0 (zeros r))
        (Grid.product_map n (fun i => (xs i).map (Rep3.view r)) fun j => (ys j).map (Rep3.view r))
    have hvalue : ∀ i < n, ∀ j < n, (Rep3.sum fun r => (summed r).getD (i * n + j) 0) =
        BitVec.ofNat 32 (Grid.count p q l i j) := by
      intro i hi j hj
      obtain ⟨hdiv, hmod⟩ := Grid.add_div_mod i hj
      simp only [hcell _ _ (Grid.add_lt hi hj), hdiv, hmod]
      rw [sum_add, hzero, sum_productSum, hxsum i hi, hysum j hj, sum_products, zero_add]
      rfl
    refine Succeeds.lift_bind hadd
      ((openRingElementBroadcast_succeeds (t := .u32) hlen').mono fun cells hcells r => ?_)
    rw [hcells r]
    exact Grid.map_range_eq_cells hvalue

/-! ## Reports -/

/-- The result of a job: in every schedule all parties open the same counts, no cell is negative after
inclusion–exclusion, and every party reports the histogram. -/
def ReportsHistogram {β F : Type} (p q : Nat → β → Bool) (n : Nat) (bundles : List β) (label : Nat → F × F)
    (cells : Party → Proc R (List (BitVec 32))) (job : Party → Proc R (BucketStatistics2D F)) (σ : Party → Prf R) :
    Prop :=
  (Network.Settles nextParty (fun r => cells r (σ r)) fun o => ∀ r, (o r).1 = .ok (openedCells p q n bundles)) ∧
  (∀ i < n, ∀ j < n, 0 ≤ decumulated n (openedCells p q n bundles) (i * n + j)) ∧
  Network.Settles nextParty (fun r => job r (σ r)) fun o =>
    ∀ r, ∃ stats, (o r).1 = .ok stats ∧ stats.buckets = histogram2d p q n bundles label

omit [Rng R] in
/-- A job that fills in the buckets from the cells. -/
theorem reportsHistogram {β F : Type} {p q : Nat → β → Bool} {n : Nat} {bundles : List β}
    (hlen : bundles.length < 2 ^ 32) (hp : Grid.Grows p n bundles) (hq : Grid.Grows q n bundles) {label : Nat → F × F}
    {cells : Party → Proc R (List (BitVec 32))} {job : Party → Proc R (BucketStatistics2D F)}
    (hcells : Succeeds cells fun o => ∀ r, o r = openedCells p q n bundles)
    (hjob : Succeeds job fun o => ∀ r, (o r).buckets = fillCells label n (openedCells p q n bundles))
    {σ : Party → Prf R} (hσ : Lockstep σ) : ReportsHistogram p q n bundles label cells job σ := by
  obtain ⟨opened, _, hjoint, -, hopened⟩ := hcells σ hσ
  obtain ⟨stats, _, hreport, -, hstats⟩ := hjob σ hσ
  refine ⟨hjoint.settles fun r => congrArg Except.ok (hopened r), ?_, hreport.settles fun r => ⟨_, rfl, ?_⟩⟩
  · intro i hi j hj
    rw [decumulated_openedCells hlen hp hq hi hj]
    exact Int.natCast_nonneg _
  · rw [hstats r]
    exact fillCells_eq hlen hp hq label

end AmpcCommon.Stats
