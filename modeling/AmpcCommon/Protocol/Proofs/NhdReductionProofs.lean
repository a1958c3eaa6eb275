import Mathlib.Tactic.FieldSimp
import Mathlib.Tactic.LinearCombination
import AmpcCommon.Protocol.Proofs.ReductionProofs

/-!
# Reduction to minimal normalized distances, proofs

The normalized distance of a pair is its numerator by its mask, up to constants (`nhd_eq`), so the cross product of two
numerators and masks has the sign of the comparison (`nhd_lt_iff`). The cubic form stays in the signed range of 48
bits (`abs_nhdCross_le`), and the reduction of groups with this comparison leaves minimal normalized distances.
-/

namespace AmpcCommon.Protocol

open GroupReduction

/-! ## The normalized distance -/

/-- `reference_nhd`, as a rational number. -/
def nhd (d : Int × Int) : ℚ := 9 / 20 - (9 / 20 - (d.2 - d.1) / (2 * d.2)) * (d.2 / 16384 + 9 / 20)

/-- The numerator that `nhd_cross_mul` computes. -/
def nhdNumerator (d : Int × Int) : Int := d.2 * (d.2 - 10 * d.1) - 73728 * d.1

/-- A positive mask of at most `2^14` bits, and a code of at most the mask. -/
structure NhdFits (d : Int × Int) : Prop where
  mask_pos : 0 < d.2
  mask_le : d.2 ≤ 16384
  code_le : |d.1| ≤ d.2

theorem nhd_eq {d : Int × Int} (h : 0 < d.2) : nhd d = nhdNumerator d / d.2 / 327680 + 189 / 400 := by
  have hne : (d.2 : ℚ) ≠ 0 := by exact_mod_cast h.ne'
  unfold nhd nhdNumerator
  push_cast
  field_simp
  ring

/-- The cross product of the numerators and the masks is the comparison. -/
theorem nhd_lt_iff {d e : Int × Int} (hd : 0 < d.2) (he : 0 < e.2) :
    nhd d < nhd e ↔ nhdNumerator d * e.2 - nhdNumerator e * d.2 < 0 := by
  have hd' : (0 : ℚ) < d.2 := by exact_mod_cast hd
  have he' : (0 : ℚ) < e.2 := by exact_mod_cast he
  have hscale : (0 : ℚ) < 327680 := by norm_num
  rw [nhd_eq hd, nhd_eq he, add_lt_add_iff_right, div_lt_div_iff_of_pos_right hscale, div_lt_div_iff₀ hd' he', sub_neg]
  exact_mod_cast Iff.rfl

/-! ## Bounds -/

theorem NhdFits.abs_product_le {d : Int × Int} (h : NhdFits d) : |d.2 * (d.2 - 10 * d.1)| ≤ 16384 * (11 * 16384) := by
  obtain ⟨hpos, hmask, hcode⟩ := h
  have hlinear : |d.2 - 10 * d.1| ≤ 11 * 16384 := by
    rw [abs_le] at hcode ⊢
    constructor <;> omega
  rw [abs_mul, abs_of_pos hpos]
  exact mul_le_mul hmask hlinear (abs_nonneg _) (by norm_num)

theorem NhdFits.abs_numerator_le {d : Int × Int} (h : NhdFits d) :
    |nhdNumerator d| ≤ 16384 * (11 * 16384) + 73728 * 16384 := by
  have hproduct := h.abs_product_le
  obtain ⟨hpos, hmask, hcode⟩ := h
  have hcorrection : |73728 * d.1| ≤ 73728 * 16384 := by
    rw [abs_le] at hcode ⊢
    constructor <;> omega
  exact (abs_sub _ _).trans (add_le_add hproduct hcorrection)

theorem NhdFits.abs_numerator_mul_le {d e : Int × Int} (hd : NhdFits d) (he : NhdFits e) :
    |nhdNumerator d * e.2| ≤ (16384 * (11 * 16384) + 73728 * 16384) * 16384 := by
  rw [abs_mul, abs_of_pos he.mask_pos]
  exact mul_le_mul hd.abs_numerator_le he.mask_le he.mask_pos.le (by norm_num)

/-- The cross product is at most `16384^2 * (22 * 16384 + 147456)`. -/
theorem abs_nhdCross_le {d e : Int × Int} (hd : NhdFits d) (he : NhdFits e) :
    |nhdNumerator d * e.2 - nhdNumerator e * d.2| ≤ 2 * ((16384 * (11 * 16384) + 73728 * 16384) * 16384) := by
  rw [two_mul]
  exact (abs_sub _ _).trans (add_le_add (hd.abs_numerator_mul_le he) (he.abs_numerator_mul_le hd))

/-! ## The ring with 48 bits -/

/-- A code and a mask in the ring with 48 bits. -/
def toRing48 (d : Int × Int) : BitVec 48 × BitVec 48 := (BitVec.ofInt 48 d.1, BitVec.ofInt 48 d.2)

/-- The product of the first round, and the numerator that is made from it. -/
def ringProduct (d : BitVec 48 × BitVec 48) : BitVec 48 := d.2 * (d.2 - d.1 * nhdLinearCoeff)

def ringNumerator (d : BitVec 48 × BitVec 48) : BitVec 48 := ringProduct d - d.1 * nhdCorrection

/-- The cross product of the second round. -/
def nhdCross (d e : BitVec 48 × BitVec 48) : BitVec 48 := ringNumerator d * e.2 - ringNumerator e * d.2

theorem ringProduct_toRing48 (d : Int × Int) : ringProduct (toRing48 d) = BitVec.ofInt 48 (d.2 * (d.2 - 10 * d.1)) := by
  have hcoeff : nhdLinearCoeff = BitVec.ofInt 48 10 := rfl
  unfold ringProduct toRing48
  rw [hcoeff, ← BitVec.ofInt_mul, ← ofInt_sub, ← BitVec.ofInt_mul, mul_comm d.1]

theorem ringNumerator_toRing48 (d : Int × Int) : ringNumerator (toRing48 d) = BitVec.ofInt 48 (nhdNumerator d) := by
  have hcorrection : nhdCorrection = BitVec.ofInt 48 73728 := rfl
  have hcode : (toRing48 d).1 = BitVec.ofInt 48 d.1 := rfl
  unfold ringNumerator nhdNumerator
  rw [ringProduct_toRing48, hcorrection, hcode, ← BitVec.ofInt_mul, ← ofInt_sub, mul_comm d.1]

theorem ringNumerator_mul_toRing48 (d e : Int × Int) :
    ringNumerator (toRing48 d) * (toRing48 e).2 = BitVec.ofInt 48 (nhdNumerator d * e.2) := by
  rw [ringNumerator_toRing48, BitVec.ofInt_mul]
  rfl

theorem nhdCross_toRing48 (d e : Int × Int) :
    nhdCross (toRing48 d) (toRing48 e) = BitVec.ofInt 48 (nhdNumerator d * e.2 - nhdNumerator e * d.2) := by
  unfold nhdCross
  rw [ringNumerator_mul_toRing48, ringNumerator_mul_toRing48, ofInt_sub]

/-- The sign of the cross product is the comparison. -/
theorem msb_nhdCross {d e : Int × Int} (hd : NhdFits d) (he : NhdFits e) :
    (nhdCross (toRing48 d) (toRing48 e)).msb = decide (nhd d < nhd e) := by
  have hbound := abs_le.mp (abs_nhdCross_le hd he)
  rw [nhdCross_toRing48, msb_ofInt_of_bounds 47 (by omega) (by omega)]
  exact decide_eq_decide.mpr (nhd_lt_iff hd.mask_pos he.mask_pos).symm

/-! ## The protocol -/

theorem sum_nhdProduct (z : Rep3Distance 48) : (Rep3.sum fun p => nhdProduct (z.view p)) = ringProduct z.value := by
  have hlinear : ∀ p, nhdProduct (z.view p) =
      (z.2.view p).mul (Rep3.view p fun r => z.2 r - z.1 r * nhdLinearCoeff) := fun p => rfl
  simp only [hlinear]
  refine (sum_mul z.2 _).trans (congrArg (z.2.sum * ·) ?_)
  show Rep3.sum (fun r => z.2 r - z.1 r * nhdLinearCoeff) = z.2.sum - z.1.sum * nhdLinearCoeff
  unfold Rep3.sum
  ring

/-- A numerator from the shares of the product. -/
theorem sum_numerator {product : Rep3 48} {z : Rep3Distance 48} (h : product.sum = ringProduct z.value) :
    (Rep3.sum fun r => product r - z.1 r * nhdCorrection) = ringNumerator z.value := by
  unfold ringNumerator
  rw [← h]
  show (Rep3.sum fun r => product r - z.1 r * nhdCorrection) = product.sum - z.1.sum * nhdCorrection
  unfold Rep3.sum
  ring

variable {R : Type} [Rng R]

/-- The shares of the products, two for every pair. -/
theorem nhdProducts_succeeds {v : Party → List (DistancePair 48)} {qs : List (Rep3Distance 48 × Rep3Distance 48)}
    (hq : ∀ p, v p = qs.map fun q => (q.1.view p, q.2.view p)) :
    Succeeds (α := List (Share 48)) (fun p => (reshareProducts .ring48 (2 * qs.length) fun k =>
      nhdProduct (if k % 2 = 0 then ((v p).getD (k / 2) (⟨0, 0⟩, ⟨0, 0⟩)).1
        else ((v p).getD (k / 2) (⟨0, 0⟩, ⟨0, 0⟩)).2) : Proc R _)) fun r =>
      ∃ ps : List (Rep3 48), Shares r ps ∧ ∀ i, (hi : i < qs.length) →
        (ps.getD (2 * i) 0).sum = ringProduct qs[i].1.value ∧
        (ps.getD (2 * i + 1) 0).sum = ringProduct qs[i].2.value := by
  refine (reshareProducts_succeeds (t := .ring48) _ _).mono fun r hr => ?_
  obtain ⟨ps, -, hshares, hsum⟩ := IsReshare.exists_components (K := 48) hr
  refine ⟨ps, hshares, fun i hi => ?_⟩
  have heven : 2 * i / 2 = i ∧ 2 * i % 2 = 0 := by omega
  have hodd : (2 * i + 1) / 2 = i ∧ (2 * i + 1) % 2 = 1 := by omega
  have hpair : ∀ p, (v p).getD i (⟨0, 0⟩, ⟨0, 0⟩) = (qs[i].1.view p, qs[i].2.view p) := by
    intro p
    rw [hq p, getD_map_of_lt hi]
  constructor
  · rw [hsum _ (by omega)]
    simp only [heven.1, heven.2, hpair, if_true]
    exact sum_nhdProduct qs[i].1
  · rw [hsum _ (by omega)]
    simp only [hodd.1, hodd.2, hpair, one_ne_zero, if_false]
    exact sum_nhdProduct qs[i].2

/-- The cross products of the pairs. -/
theorem nhdCrossMul_succeeds {v : Party → List (DistancePair 48)}
    {ds : List ((BitVec 48 × BitVec 48) × (BitVec 48 × BitVec 48))} (h : PairsOf v ds) :
    Succeeds (fun p => (nhdCrossMul (v p) : Proc R _)) fun r => SharesOf r (ds.map fun d => nhdCross d.1 d.2) := by
  have hlen := h.length
  obtain ⟨qs, hq, rfl⟩ := h
  rw [List.length_map] at hlen
  simp only [nhdCrossMul, hlen]
  refine (nhdProducts_succeeds hq).bind fun products hproducts => ?_
  obtain ⟨ps, hp, hproduct⟩ := hproducts
  refine (reshareProducts_succeeds (t := .ring48) _ _).mono fun r hr => ?_
  refine IsReshare.sharesOf (K := 48) hr (by rw [List.length_map, List.length_map]) fun i hi => ?_
  rw [List.length_map, List.length_map] at hi
  obtain ⟨hfirst, hsecond⟩ := hproduct i hi
  have hrange : i < (List.range qs.length).length := by rwa [List.length_range]
  have hexpr : ∀ p, ((products p).getD (2 * i) 0 - (qs[i].1.view p).codeDot.mulConst nhdCorrection).mul
        (qs[i].2.view p).maskDot -
      ((products p).getD (2 * i + 1) 0 - (qs[i].2.view p).codeDot.mulConst nhdCorrection).mul
        (qs[i].1.view p).maskDot =
      (Rep3.view p fun r => ps.getD (2 * i) 0 r - qs[i].1.1 r * nhdCorrection).mul (qs[i].2.2.view p) -
      (Rep3.view p fun r => ps.getD (2 * i + 1) 0 r - qs[i].2.1 r * nhdCorrection).mul (qs[i].1.2.view p) := by
    intro p
    rw [hp.getD, hp.getD]
    rfl
  simp only [hq, getD_map_of_lt hrange, getD_map_of_lt hi, List.getElem_map, List.getElem_range]
  refine (congrArg Rep3.sum (funext hexpr)).trans ?_
  rw [sum_sub, sum_mul, sum_mul, sum_numerator hfirst, sum_numerator hsecond]
  rfl

/-- The comparison of pairs: the signs of the cross products. -/
theorem nhdObliviousCrossCompare_succeeds (sid : BitVec 32) {v : Party → List (DistancePair 48)}
    {ds : List ((BitVec 48 × BitVec 48) × (BitVec 48 × BitVec 48))} (h : PairsOf v ds) :
    Succeeds (fun p => (nhdObliviousCrossCompare ⟨p, sid⟩ (v p) : Proc R _)) fun r =>
      SharesBits r (ds.map fun d => BitVec.ofBool (nhdCross d.1 d.2).msb) := by
  simp only [nhdObliviousCrossCompare]
  exact (nhdCrossMul_succeeds h).bind fun diff hdiff => extractMsbBatch_map (t := .ring48) sid hdiff

/-- A pair is reduced to the first distance when the cross product is negative. -/
def nhdReducePair (d e : BitVec 48 × BitVec 48) : BitVec 48 × BitVec 48 := selectDistance (nhdCross d e).msb d e

theorem nhdMinOfPairBatch_succeeds (sid : BitVec 32) {v : Party → List (DistancePair 48)}
    {ds : List ((BitVec 48 × BitVec 48) × (BitVec 48 × BitVec 48))} (h : PairsOf v ds) :
    Succeeds (fun p => (nhdMinOfPairBatch ⟨p, sid⟩ (v p) : Proc R _)) fun r =>
      DistancesOf r (ds.map fun d => nhdReducePair d.1 d.2) := by
  have hlifted : Succeeds (fun p => (nhdObliviousCrossCompareLifted ⟨p, sid⟩ (v p) : Proc R _)) fun r =>
      SharesOf (K := 48) r (ds.map fun d => indicator 48 (nhdCross d.1 d.2).msb) := by
    simp only [nhdObliviousCrossCompareLifted, nhdObliviousCrossCompare, bind_assoc]
    exact (nhdCrossMul_succeeds h).bind fun diff hdiff => msbInject_map (t := .ring48) .ring48 sid hdiff
  exact hlifted.bind fun _ hbits => conditionallySelectDistance_succeeds (t := .ring48) h hbits

/-! ## The reduction -/

/-- The distance with the smaller normalized distance; the second one when they are equal. -/
def nhdMin (d e : Int × Int) : Int × Int := if nhd d < nhd e then d else e

theorem selects_nhdMin : Selects NhdFits (fun d e => nhd d ≤ nhd e) nhdMin where
  mem d e := by
    unfold nhdMin
    split
    · exact .inl rfl
    · exact .inr rfl
  le_left d e _ _ := by
    unfold nhdMin
    split
    · exact le_refl _
    · rename_i h
      exact not_lt.mp h
  le_right d e _ _ := by
    unfold nhdMin
    split
    · rename_i h
      exact h.le
    · exact le_refl _
  refl _ _ := le_refl _
  trans _ _ _ _ _ _ := le_trans
  stays _ _ _ _ h := if_neg (not_lt.mpr h)

theorem nhdReducePair_toRing48 {d e : Int × Int} (hd : NhdFits d) (he : NhdFits e) :
    nhdReducePair (toRing48 d) (toRing48 e) = toRing48 (nhdMin d e) := by
  unfold nhdReducePair nhdMin selectDistance
  rw [msb_nhdCross hd he]
  by_cases h : nhd d < nhd e
  · simp [h]
  · simp [h]

/-- `m` has a minimal normalized distance in the group. -/
def IsMinNhd (group : List (Int × Int)) (m : Int × Int) : Prop := m ∈ group ∧ ∀ e ∈ group, nhd m ≤ nhd e

theorem nhdReduceToMinDistanceBatch_succeeds (sid : BitVec 32) {v : Party → List (List (DistanceShare 48))}
    {groups : List (List (Int × Int))} (hv : GroupsIn toRing48 v groups) (hne : ∀ group ∈ groups, group ≠ [])
    (hfits : ∀ group ∈ groups, ∀ d ∈ group, NhdFits d) :
    Succeeds (fun p => (nhdReduceToMinDistanceBatch ⟨p, sid⟩ (v p) : Proc R _)) fun r =>
      DistancesOf r (groups.map fun group => toRing48 (reduced nhdMin group)) :=
  reduceToMinWith_succeeds (fun h => nhdMinOfPairBatch_succeeds sid h) selects_nhdMin
    (fun _ _ => nhdReducePair_toRing48) hv hne hfits

/-- A number and the value it has in the ring; it is below `2^47`. -/
def Represents (x : BitVec 48) (z : Int) : Prop := x.toInt = z ∧ |z| < 2 ^ 47

theorem represents_ofInt {z : Int} (h : |z| < 2 ^ 47) : Represents (BitVec.ofInt 48 z) z := by
  obtain ⟨hlow, hhigh⟩ := abs_lt.mp h
  exact ⟨toInt_ofInt_of_bounds 47 hlow.le hhigh, h⟩

theorem nhdCrossMul_represents {d e : Int × Int} (hd : NhdFits d) (he : NhdFits e) :
    Represents (ringProduct (toRing48 d)) (d.2 * (d.2 - 10 * d.1)) ∧
    Represents (ringNumerator (toRing48 d)) (nhdNumerator d) ∧
    Represents (ringNumerator (toRing48 d) * (toRing48 e).2) (nhdNumerator d * e.2) ∧
    Represents (nhdCross (toRing48 d) (toRing48 e)) (nhdNumerator d * e.2 - nhdNumerator e * d.2) := by
  rw [ringProduct_toRing48, ringNumerator_mul_toRing48, ringNumerator_toRing48, nhdCross_toRing48]
  refine ⟨represents_ofInt ?_, represents_ofInt ?_, represents_ofInt ?_, represents_ofInt ?_⟩
  · exact hd.abs_product_le.trans_lt (by norm_num)
  · exact hd.abs_numerator_le.trans_lt (by norm_num)
  · exact (hd.abs_numerator_mul_le he).trans_lt (by norm_num)
  · exact (abs_nhdCross_le hd he).trans_lt (by norm_num)

variable {σ : Party → Prf R}

/-- **Minimal normalized distances.** For masks of at most `2^14` and codes of at most the mask, no product that
`nhd_cross_mul` forms leaves the signed range of 48 bits; the bit of a comparison tells whether the first normalized
distance is smaller; and every group is reduced to a member with a minimal normalized distance. -/
theorem nhdReduceToMinDistanceBatch_correct (sid : BitVec 32) (hσ : Lockstep σ) :
    (∀ d e, NhdFits d → NhdFits e →
      Represents (ringProduct (toRing48 d)) (d.2 * (d.2 - 10 * d.1)) ∧
      Represents (ringNumerator (toRing48 d)) (nhdNumerator d) ∧
      Represents (ringNumerator (toRing48 d) * (toRing48 e).2) (nhdNumerator d * e.2) ∧
      Represents (nhdCross (toRing48 d) (toRing48 e)) (nhdNumerator d * e.2 - nhdNumerator e * d.2)) ∧
    (∀ (pairs : List ((Int × Int) × (Int × Int))) (v : Party → List (DistancePair 48)),
      (∀ q ∈ pairs, NhdFits q.1 ∧ NhdFits q.2) → PairsOf v (pairs.map fun q => (toRing48 q.1, toRing48 q.2)) →
      (Network.Settles nextParty (fun p => nhdCrossMul (v p) (σ p)) fun o => ∃ r, (∀ p, (o p).1 = .ok (r p)) ∧
        SharesOf r (pairs.map fun q => nhdCross (toRing48 q.1) (toRing48 q.2))) ∧
      Network.Settles nextParty (fun p => nhdObliviousCrossCompare ⟨p, sid⟩ (v p) (σ p)) fun o =>
        ∃ r, (∀ p, (o p).1 = .ok (r p)) ∧
          SharesBits r (pairs.map fun q => BitVec.ofBool (decide (nhd q.1 < nhd q.2)))) ∧
    (∀ (groups : List (List (Int × Int))) (v : Party → List (List (DistanceShare 48))),
      (∀ group ∈ groups, group ≠ []) → (∀ group ∈ groups, ∀ d ∈ group, NhdFits d) → GroupsIn toRing48 v groups →
      Network.Settles nextParty (fun p => nhdReduceToMinDistanceBatch ⟨p, sid⟩ (v p) (σ p)) fun o =>
        ∃ r ms, (∀ p, (o p).1 = .ok (r p)) ∧ DistancesOf r (ms.map toRing48) ∧ List.Forall₂ IsMinNhd groups ms) := by
  refine ⟨fun d e hd he => nhdCrossMul_represents hd he, ?_, ?_⟩
  · intro pairs v hfits hv
    have hsigns : (pairs.map fun q => BitVec.ofBool (decide (nhd q.1 < nhd q.2))) =
        (pairs.map fun q => (toRing48 q.1, toRing48 q.2)).map fun d => BitVec.ofBool (nhdCross d.1 d.2).msb := by
      rw [List.map_map]
      refine List.map_congr_left fun q hq => ?_
      obtain ⟨hfirst, hsecond⟩ := hfits q hq
      rw [Function.comp_apply, msb_nhdCross hfirst hsecond]
    constructor
    · obtain ⟨r, _, hjoint, -, hr⟩ := nhdCrossMul_succeeds (R := R) hv σ hσ
      rw [List.map_map] at hr
      exact hjoint.settles ⟨r, fun _ => rfl, hr⟩
    · obtain ⟨r, _, hjoint, -, hr⟩ := nhdObliviousCrossCompare_succeeds (R := R) sid hv σ hσ
      rw [← hsigns] at hr
      exact hjoint.settles ⟨r, fun _ => rfl, hr⟩
  · intro groups v hne hfits hv
    obtain ⟨r, _, hjoint, -, hr⟩ := nhdReduceToMinDistanceBatch_succeeds (R := R) sid hv hne hfits σ hσ
    refine hjoint.settles ⟨r, groups.map (reduced nhdMin), fun _ => rfl, ?_, ?_⟩
    · rw [List.map_map]
      exact hr
    · rw [List.forall₂_map_right_iff, List.forall₂_same]
      exact fun group hg =>
        ⟨reduced_mem selects_nhdMin (hne group hg), reduced_le selects_nhdMin (hfits group hg)⟩

/-- A group in which the fraction of different bits and the normalized distance have different minima. -/
def nhdGroup : List (Int × Int) := [(32, 40), (7800, 10000)]

theorem nhdReduceToMinDistanceBatch_correct_two :
    Network.Settles nextParty
      (fun p => nhdReduceToMinDistanceBatch ⟨p, 1⟩ (shareGroups toRing48 [nhdGroup] p) (stepStreams p)) fun o =>
      ∃ r ms, (∀ p, (o p).1 = .ok (r p)) ∧ DistancesOf r (ms.map toRing48) ∧ List.Forall₂ IsMinNhd [nhdGroup] ms := by
  have hfits : ∀ group ∈ [nhdGroup], ∀ d ∈ group, NhdFits d := by
    simp only [nhdGroup, List.forall_mem_cons]
    exact ⟨⟨⟨by norm_num, by norm_num, by norm_num⟩, ⟨by norm_num, by norm_num, by norm_num⟩, by simp⟩, by simp⟩
  have hne : ∀ group ∈ [nhdGroup], group ≠ [] := by simp [nhdGroup]
  obtain ⟨-, -, hreduce⟩ := nhdReduceToMinDistanceBatch_correct 1 lockstep_stepStreams
  exact hreduce [nhdGroup] (shareGroups toRing48 [nhdGroup]) hne hfits (groupsIn_shareGroups toRing48 _)

end AmpcCommon.Protocol
