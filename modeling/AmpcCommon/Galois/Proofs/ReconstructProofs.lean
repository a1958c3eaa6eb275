import AmpcCommon.Base.UnitInterpolation
import AmpcCommon.Galois.Proofs.EncoderProofs

/-!
# Reconstruction

The differences of the exceptional sequence are units (`unitDifferences`), so the coefficients that the source computes
by exponentiation are those of the interpolation at zero (`degKLagrangePolysAtZero_eq`). Shares are the values of a
polynomial (`PolyShares`); sums and products of shares are shares of the sum and the product, and enough of them give
back the value at zero, in any order (`reconstructWith_eq`, `reconstructSubset_eq`).
-/

namespace AmpcCommon.Galois

open GaloisRingElement ShamirGaloisRingShare Polynomial UnitInterpolation

/-- `EXCEPTIONAL_SEQUENCE[i]`, below its length. -/
def exceptional (i : Nat) : GaloisRingElement .monomial := exceptionalSequence.getD i 0

theorem lowBits_exceptional_sub :
    ∀ i < 16, ∀ j < 16, i ≠ j → lowBits (exceptional i - exceptional j) ≠ ⟨0, 0, 0, 0⟩ := by
  decide +kernel

/-- The elements of the sequence differ in the parity of a coefficient. -/
theorem hasOdd_exceptional_sub {i j : Nat} (hi : i < 16) (hj : j < 16) (hij : i ≠ j) :
    (exceptional i - exceptional j).HasOdd :=
  hasOdd_iff.mpr (lowBits_exceptional_sub i hi j hj hij)

theorem unitDifferences {s : Finset Nat} (hs : ∀ i ∈ s, i < 16) : UnitDifferences s exceptional :=
  fun i hi j hj hij => (hasOdd_exceptional_sub (hs i hi) (hs j hj) hij).isUnit

namespace ShamirGaloisRingShare

theorem point_eq {i : Nat} (hi : i < 16) : point i = .ok (exceptional i) := by
  have hget : exceptionalSequence[i]? = some (exceptional i) := by
    unfold exceptional
    rw [List.getD_eq_getElem?_getD, List.getElem?_eq_getElem (l := exceptionalSequence) hi]
    rfl
  unfold point
  rw [hget]

/-- A factor of a Lagrange coefficient at zero. -/
noncomputable def factorAtZero (i j : Nat) : GaloisRingElement .monomial :=
  -exceptional j * Ring.inverse (exceptional i - exceptional j)

theorem lagrangeFactor_eq {i j : Nat} (hi : i < 16) (hj : j < 16) (hij : i ≠ j) (res : GaloisRingElement .monomial) :
    lagrangeFactor i j res = .ok (res * factorAtZero i j) := by
  have hinv := inverse_eq (hasOdd_exceptional_sub hi hj hij)
  unfold lagrangeFactor
  simp only [point_eq hi, point_eq hj, Outcome.ok_bind, hinv]
  show Except.ok (res * -exceptional j * _) = _
  rw [mul_assoc]
  rfl

/-- The loop multiplies the factors of the other points. -/
theorem lagrangeLoop_eq {i : Nat} (hi : i < 16) {js : List Nat} (hjs : ∀ j ∈ js, j < 16)
    (res : GaloisRingElement .monomial) :
    lagrangeLoop i js res = .ok (res * ((js.filter (· ≠ i)).map (factorAtZero i)).prod) := by
  induction js generalizing res with
  | nil =>
    rw [List.filter_nil, List.map_nil, List.prod_nil, mul_one]
    rfl
  | cons j js ih =>
    rw [List.forall_mem_cons] at hjs
    unfold lagrangeLoop
    by_cases hij : j ≠ i
    · rw [if_pos hij, lagrangeFactor_eq hi hjs.1 hij.symm, Outcome.ok_bind, List.filter_cons_of_pos (by simpa),
        List.map_cons, List.prod_cons, ← mul_assoc]
      exact ih hjs.2 _
    · rw [if_neg hij, Outcome.ok_bind, List.filter_cons_of_neg (by simpa using hij)]
      exact ih hjs.2 res

theorem prod_factors {i : Nat} {js : List Nat} (hnodup : js.Nodup) :
    ((js.filter (· ≠ i)).map (factorAtZero i)).prod = atZero js.toFinset exceptional i := by
  have herase : js.toFinset.erase i = (js.filter (· ≠ i)).toFinset := by
    ext j
    simp [and_comm]
  unfold atZero
  rw [herase, List.prod_toFinset _ (hnodup.filter _)]
  rfl

/-- The coefficients of the source are those of the interpolation at zero. -/
theorem degKLagrangePolysAtZero_eq {n : Nat} (hpos : 0 < n) (hn : n < 16) :
    degKLagrangePolysAtZero n =
      .ok ((List.range' 1 n).map (atZero (List.range' 1 n).toFinset exceptional)) := by
  have hlt : ∀ j ∈ List.range' 1 n, j < 16 := by
    intro j hj
    rw [List.mem_range'_1] at hj
    omega
  unfold degKLagrangePolysAtZero
  rw [if_pos ⟨hpos, hn⟩]
  refine Outcome.mapM_eq_ok fun i hi => ?_
  rw [lagrangeLoop_eq (hlt i hi) hlt, one_mul, prod_factors List.nodup_range']

/-! ## Shares of a polynomial -/

/-- The shares are the values of the polynomial at the points of their ids. -/
def PolyShares {n : Nat} (f : (GaloisRingElement .monomial)[X]) (shares : Fin n → ShamirGaloisRingShare) : Prop :=
  ∀ i, shares i = ⟨i + 1, f.eval (exceptional (i + 1))⟩

section Operators

variable {n : Nat} {f g : (GaloisRingElement .monomial)[X]} {x y : Fin n → ShamirGaloisRingShare}

theorem PolyShares.id_eq (hx : PolyShares f x) (i : Fin n) : (x i).id = i + 1 := by
  rw [hx i]

theorem PolyShares.y_eq (hx : PolyShares f x) (i : Fin n) : (x i).y = f.eval (exceptional (i + 1)) := by
  rw [hx i]

theorem PolyShares.add (hx : PolyShares f x) (hy : PolyShares g y) :
    ∃ z, (∀ i, add (x i) (y i) = .ok (z i)) ∧ PolyShares (f + g) z := by
  refine ⟨fun i => ⟨i + 1, (f + g).eval (exceptional (i + 1))⟩, fun i => ?_, fun i => rfl⟩
  dsimp only
  rw [hx i, hy i, eval_add]
  exact if_neg (not_not.mpr rfl)

theorem PolyShares.mul (hx : PolyShares f x) (hy : PolyShares g y) :
    ∃ z, (∀ i, mul (x i) (y i) = .ok (z i)) ∧ PolyShares (f * g) z := by
  refine ⟨fun i => ⟨i + 1, (f * g).eval (exceptional (i + 1))⟩, fun i => ?_, fun i => rfl⟩
  dsimp only
  rw [hx i, hy i, eval_mul]
  exact if_neg (not_not.mpr rfl)

/-- The ids of `n` shares. -/
abbrev ids (n : Nat) : Finset Nat := (List.range' 1 n).toFinset

theorem ids_lt (hn : n < 16) : ∀ i ∈ ids n, i < 16 := by
  intro i hi
  rw [List.mem_toFinset, List.mem_range'_1] at hi
  omega

theorem card_ids : (ids n).card = n := by
  rw [List.toFinset_card_of_nodup List.nodup_range', List.length_range']

theorem sum_ids (h : Nat → GaloisRingElement .monomial) : ∑ i ∈ ids n, h i = ∑ i : Fin n, h (i + 1) := by
  have hmap : (List.range' 1 n).map h = List.ofFn fun i : Fin n => h (i + 1) :=
    List.ext_getElem (by simp) fun i hi hi' => by simp [Nat.add_comm]
  rw [List.sum_toFinset _ List.nodup_range', hmap, List.sum_ofFn]

theorem lagrangeCoeff_ids (h : Nat → GaloisRingElement .monomial) (i : Fin n) :
    lagrangeCoeff ((List.range' 1 n).map h) (i + 1) = .ok (h (i + 1)) := by
  have hget : ((List.range' 1 n).map h)[(i : Nat)]? = some (h (i + 1)) := by
    simp [i.isLt, Nat.add_comm]
  unfold lagrangeCoeff
  rw [if_neg (Nat.succ_ne_zero _), Nat.add_sub_cancel, hget]

theorem foldl_add_eq (l : List (GaloisRingElement .monomial)) (a : GaloisRingElement .monomial) :
    l.foldl (· + ·) a = a + l.sum := by
  induction l generalizing a with
  | nil => rw [List.foldl_nil, List.sum_nil, add_zero]
  | cons b l ih => rw [List.foldl_cons, ih, List.sum_cons, add_assoc]

theorem sumTerms_eq {terms : List (GaloisRingElement .monomial)} (h : terms ≠ []) : sumTerms terms = .ok terms.sum := by
  cases terms with
  | nil => exact absurd rfl h
  | cons a terms =>
    rw [List.sum_cons, ← foldl_add_eq]
    rfl

/-- Shares of a polynomial, in any order, reconstruct its value at zero. -/
theorem reconstructWith_eq (hpos : 0 < n) (hn : n < 16) (hdegree : f.degree < n) (hx : PolyShares f x)
    (σ : Equiv.Perm (Fin n)) : reconstructWith (degKLagrangePolysAtZero n) (x ∘ σ) = .ok (f.eval 0) := by
  have hterms : (List.ofFn (x ∘ σ)).mapM (weighted ((List.range' 1 n).map (atZero (ids n) exceptional))) =
      .ok (List.ofFn fun i => f.eval (exceptional (σ i + 1)) * atZero (ids n) exceptional (σ i + 1)) := by
    refine (Outcome.mapM_eq_ok (g := fun s => s.y * atZero (ids n) exceptional s.id) fun s hs => ?_).trans ?_
    · obtain ⟨i, rfl⟩ := List.mem_ofFn.mp hs
      unfold weighted
      simp only [Function.comp_apply, hx (σ i), lagrangeCoeff_ids, Outcome.ok_bind]
      rfl
    · rw [List.map_ofFn]
      simp only [Function.comp_def, hx.id_eq, hx.y_eq]
  have hne : List.ofFn (fun i => f.eval (exceptional (σ i + 1)) * atZero (ids n) exceptional (σ i + 1)) ≠ [] := by
    rw [Ne, List.ofFn_eq_nil_iff]
    exact hpos.ne'
  unfold reconstructWith
  rw [degKLagrangePolysAtZero_eq hpos hn, Outcome.ok_bind, hterms, Outcome.ok_bind, sumTerms_eq hne, List.sum_ofFn,
    Equiv.sum_comp σ fun i : Fin n => f.eval (exceptional (i + 1)) * atZero (ids n) exceptional (i + 1),
    ← sum_ids fun i => f.eval (exceptional i) * atZero (ids n) exceptional i,
    sum_eval_mul_atZero (unitDifferences (ids_lt hn)) (card_ids.symm ▸ hdegree)]

/-! ## A part of the shares -/

theorem coefficientLoop_eq (share : ShamirGaloisRingShare) (subset : List ShamirGaloisRingShare)
    (coefficient : GaloisRingElement .monomial) :
    coefficientLoop share subset coefficient =
      lagrangeLoop share.id (subset.map ShamirGaloisRingShare.id) coefficient := by
  induction subset generalizing coefficient with
  | nil => rfl
  | cons other subset ih =>
    rw [List.map_cons]
    unfold coefficientLoop lagrangeLoop
    simp only [ih]

/-- The loop adds the terms of the shares. -/
theorem subsetLoop_eq {subset : List ShamirGaloisRingShare} (hids : (subset.map ShamirGaloisRingShare.id).Nodup)
    (hlt : ∀ i ∈ subset.map ShamirGaloisRingShare.id, i < 16) {shares : List ShamirGaloisRingShare}
    (hshares : ∀ share ∈ shares, share ∈ subset) (reconstructed : GaloisRingElement .monomial) :
    subsetLoop subset shares reconstructed = .ok (reconstructed + (shares.map fun share =>
      share.y * atZero (subset.map ShamirGaloisRingShare.id).toFinset exceptional share.id).sum) := by
  induction shares generalizing reconstructed with
  | nil =>
    rw [List.map_nil, List.sum_nil, add_zero]
    rfl
  | cons share shares ih =>
    rw [List.forall_mem_cons] at hshares
    have hid : share.id < 16 := hlt _ (List.mem_map_of_mem hshares.1)
    unfold subsetLoop
    rw [coefficientLoop_eq, lagrangeLoop_eq hid hlt, one_mul, prod_factors hids, Outcome.ok_bind, ih hshares.2,
      List.map_cons, List.sum_cons, add_assoc]

/-- As many shares as the polynomial has coefficients give back its value at zero. -/
theorem reconstructSubset_eq {m : Nat} (hn : n < 16) (hdegree : f.degree < m) (hx : PolyShares f x)
    (k : Fin m ↪ Fin n) : reconstructSubset (List.ofFn fun i => x (k i)) = .ok (f.eval 0) := by
  have hids : (List.ofFn fun i => x (k i)).map ShamirGaloisRingShare.id = List.ofFn fun i => (k i : Nat) + 1 := by
    rw [List.map_ofFn]
    simp only [Function.comp_def, hx.id_eq]
  have hnodup : (List.ofFn fun i => (k i : Nat) + 1).Nodup := by
    rw [List.nodup_ofFn]
    intro i j hij
    exact k.injective (Fin.ext (Nat.succ_injective hij))
  have hlt : ∀ i ∈ List.ofFn fun i => (k i : Nat) + 1, i < 16 := by
    intro i hi
    obtain ⟨j, rfl⟩ := List.mem_ofFn.mp hi
    have := (k j).isLt
    omega
  have hcard : (List.ofFn fun i => (k i : Nat) + 1).toFinset.card = m := by
    rw [List.toFinset_card_of_nodup hnodup, List.length_ofFn]
  have hunits : UnitDifferences (List.ofFn fun i => (k i : Nat) + 1).toFinset exceptional :=
    unitDifferences fun i hi => hlt i (List.mem_toFinset.mp hi)
  have hsum := sum_eval_mul_atZero hunits (f := f) (hcard.symm ▸ hdegree)
  unfold reconstructSubset
  rw [subsetLoop_eq (hids ▸ hnodup) (hids ▸ hlt) (fun share h => h), zero_add, hids, ← hsum,
    List.sum_toFinset _ hnodup, List.map_ofFn, List.map_ofFn]
  simp only [Function.comp_def, hx.id_eq, hx.y_eq]

end Operators

/-! ## The encoders -/

/-- The sharing polynomial of `encode_3`. -/
noncomputable def poly3 (s r : GaloisRingElement .monomial) : (GaloisRingElement .monomial)[X] := C r * X + C s

/-- The sharing polynomial of `encode_5`. -/
noncomputable def poly5 (s r t : GaloisRingElement .monomial) : (GaloisRingElement .monomial)[X] :=
  C t * X ^ 2 + C r * X + C s

theorem degree_poly3_le (s r : GaloisRingElement .monomial) : (poly3 s r).degree ≤ 1 := degree_linear_le

theorem degree_poly5_le (s r t : GaloisRingElement .monomial) : (poly5 s r t).degree ≤ 2 := degree_quadratic_le

theorem eval_zero_poly3 (s r : GaloisRingElement .monomial) : (poly3 s r).eval 0 = s := by
  simp [poly3]

theorem eval_zero_poly5 (s r t : GaloisRingElement .monomial) : (poly5 s r t).eval 0 = s := by
  simp [poly5]

theorem polyShares_encode3 (s : GaloisRingElement .monomial) (rng : U16Stream) :
    PolyShares (poly3 s (random rng).1) (encode3 s rng).1 := by
  intro i
  show ShamirGaloisRingShare.mk (i + 1) (s + (random rng).1 * exceptional (i + 1)) = _
  simp only [poly3, eval_add, eval_mul, eval_C, eval_X]
  congr 1
  ring

theorem polyShares_encode5 (s : GaloisRingElement .monomial) (rng : U16Stream) :
    PolyShares (poly5 s (random rng).1 (random (rng.drop 4)).1) (encode5 s rng).1 := by
  intro i
  show ShamirGaloisRingShare.mk (i + 1) (s + ((random rng).1 + (random (rng.drop 4)).1 * exceptional (i + 1)) *
    exceptional (i + 1)) = _
  simp only [poly5, eval_add, eval_mul, eval_C, eval_X, eval_pow]
  congr 1
  ring

/-- The shares of a polynomial of degree at most `d`, with the secret at zero. -/
def SharesOfDegree {n : Nat} (d : Nat) (s : GaloisRingElement .monomial) (shares : Fin n → ShamirGaloisRingShare) :
    Prop :=
  ∃ f : (GaloisRingElement .monomial)[X], f.degree ≤ d ∧ f.eval 0 = s ∧ PolyShares f shares

theorem sharesOfDegree_encode3
    {enc : GaloisRingElement .monomial → U16Stream → (Fin 3 → ShamirGaloisRingShare) × U16Stream}
    (henc : enc ∈ [encode3, encode3Mat]) (s : GaloisRingElement .monomial) (rng : U16Stream) :
    SharesOfDegree 1 s (enc s rng).1 := by
  have heq : enc s rng = encode3 s rng := by
    rcases List.mem_pair.mp henc with rfl | rfl
    · rfl
    · exact encode3Mat_eq s rng
  rw [heq]
  exact ⟨_, degree_poly3_le _ _, eval_zero_poly3 _ _, polyShares_encode3 s rng⟩

theorem sharesOfDegree_encode5
    {enc : GaloisRingElement .monomial → U16Stream → (Fin 5 → ShamirGaloisRingShare) × U16Stream}
    (henc : enc ∈ [encode5, encode5Mat]) (s : GaloisRingElement .monomial) (rng : U16Stream) :
    SharesOfDegree 2 s (enc s rng).1 := by
  have heq : enc s rng = encode5 s rng := by
    rcases List.mem_pair.mp henc with rfl | rfl
    · rfl
    · exact encode5Mat_eq s rng
  rw [heq]
  exact ⟨_, degree_poly5_le _ _ _, eval_zero_poly5 _ _ _, polyShares_encode5 s rng⟩

/-- The shares are combined one by one, and in any order the results reconstruct `value`. -/
def Reconstructs {n : Nat} (op : ShamirGaloisRingShare → ShamirGaloisRingShare → Outcome ShamirGaloisRingShare)
    (reconstruct : (Fin n → ShamirGaloisRingShare) → Outcome (GaloisRingElement .monomial))
    (x y : Fin n → ShamirGaloisRingShare) (value : GaloisRingElement .monomial) : Prop :=
  ∃ z : Fin n → ShamirGaloisRingShare, (∀ i, op (x i) (y i) = .ok (z i)) ∧
    ∀ σ : Equiv.Perm (Fin n), reconstruct (z ∘ σ) = .ok value

section Combination

variable {n d : Nat} {a b : GaloisRingElement .monomial} {x y : Fin n → ShamirGaloisRingShare}

theorem SharesOfDegree.mul_reconstructs (hx : SharesOfDegree d a x) (hy : SharesOfDegree d b y) (hn : n < 16)
    (hd : d + d < n) : Reconstructs mul (reconstructWith (degKLagrangePolysAtZero n)) x y (a * b) := by
  obtain ⟨f, hf, hfa, hfx⟩ := hx
  obtain ⟨g, hg, hgb, hgy⟩ := hy
  obtain ⟨z, hz, hfg⟩ := hfx.mul hgy
  have hdegree : (f * g).degree < n := by
    refine ((degree_mul_le f g).trans (add_le_add hf hg)).trans_lt ?_
    exact_mod_cast hd
  refine ⟨z, hz, fun σ => ?_⟩
  rw [reconstructWith_eq (by omega) hn hdegree hfg σ, eval_mul, hfa, hgb]

theorem SharesOfDegree.add_reconstructs (hx : SharesOfDegree d a x) (hy : SharesOfDegree d b y) (hn : n < 16)
    (hd : d < n) : Reconstructs add (reconstructWith (degKLagrangePolysAtZero n)) x y (a + b) := by
  obtain ⟨f, hf, hfa, hfx⟩ := hx
  obtain ⟨g, hg, hgb, hgy⟩ := hy
  obtain ⟨z, hz, hfg⟩ := hfx.add hgy
  have hdegree : (f + g).degree < n := by
    refine ((degree_add_le f g).trans (max_le hf hg)).trans_lt ?_
    exact_mod_cast hd
  refine ⟨z, hz, fun σ => ?_⟩
  rw [reconstructWith_eq (by omega) hn hdegree hfg σ, eval_add, hfa, hgb]

theorem SharesOfDegree.subset_reconstructs {m : Nat} (hx : SharesOfDegree d a x) (hn : n < 16) (hd : d < m)
    (k : Fin m ↪ Fin n) : reconstructSubset (List.ofFn fun i => x (k i)) = .ok a := by
  obtain ⟨f, hf, rfl, hfx⟩ := hx
  have hdegree : f.degree < m := by
    refine hf.trans_lt ?_
    exact_mod_cast hd
  exact reconstructSubset_eq hn hdegree hfx k

end Combination

/-- **Reconstruction.** For all ring elements and streams, with both encoders: products and sums of three shares give
back the product and the sum in any order, and so do those of five shares; any three of the five shares interpolate to
the input. -/
theorem shamir_reconstructs :
    (∀ enc ∈ [encode3, encode3Mat], ∀ enc' ∈ [encode3, encode3Mat], ∀ a b rng rng',
      Reconstructs mul reconstructDeg2Shares (enc a rng).1 (enc' b rng').1 (a * b) ∧
      Reconstructs add reconstructDeg2Shares (enc a rng).1 (enc' b rng').1 (a + b)) ∧
    (∀ enc ∈ [encode5, encode5Mat], ∀ enc' ∈ [encode5, encode5Mat], ∀ a b rng rng',
      Reconstructs mul reconstructDeg4Shares (enc a rng).1 (enc' b rng').1 (a * b) ∧
      Reconstructs add reconstructDeg4Shares (enc a rng).1 (enc' b rng').1 (a + b)) ∧
    (∀ enc ∈ [encode5, encode5Mat], ∀ a rng, ∀ k : Fin 3 ↪ Fin 5,
      reconstructSubset (List.ofFn fun i => (enc a rng).1 (k i)) = .ok a) := by
  refine ⟨?_, ?_, ?_⟩
  · intro enc henc enc' henc' a b rng rng'
    have hx := sharesOfDegree_encode3 henc a rng
    have hy := sharesOfDegree_encode3 henc' b rng'
    exact ⟨hx.mul_reconstructs hy (by decide) (by decide), hx.add_reconstructs hy (by decide) (by decide)⟩
  · intro enc henc enc' henc' a b rng rng'
    have hx := sharesOfDegree_encode5 henc a rng
    have hy := sharesOfDegree_encode5 henc' b rng'
    exact ⟨hx.mul_reconstructs hy (by decide) (by decide), hx.add_reconstructs hy (by decide) (by decide)⟩
  · intro enc henc a rng k
    exact (sharesOfDegree_encode5 henc a rng).subset_reconstructs (by decide) (by decide) k

/-- Products of shares of the two encoders, and the last three of five shares. -/
theorem shamir_reconstructs_mixed :
    Reconstructs mul reconstructDeg2Shares (encode3 ⟨1, 2, 3, 4⟩ fun i => BitVec.ofNat 16 i).1
      (encode3Mat ⟨5, 0, 0, 9⟩ fun i => BitVec.ofNat 16 (7 * i)).1 (⟨1, 2, 3, 4⟩ * ⟨5, 0, 0, 9⟩) ∧
    reconstructSubset (List.ofFn fun i : Fin 3 => (encode5Mat ⟨1, 2, 3, 4⟩ fun i => BitVec.ofNat 16 i).1 (i.natAdd 2)) =
      .ok ⟨1, 2, 3, 4⟩ :=
  ⟨(shamir_reconstructs.1 encode3 (by simp) encode3Mat (by simp) _ _ _ _).1,
    shamir_reconstructs.2.2 encode5Mat (by simp) _ _ (Fin.natAddEmb 2)⟩

end ShamirGaloisRingShare

end AmpcCommon.Galois
