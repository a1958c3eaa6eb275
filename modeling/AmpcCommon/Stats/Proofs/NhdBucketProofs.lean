import AmpcCommon.Protocol.Proofs.NhdReductionProofs
import AmpcCommon.Stats.Proofs.BucketProofs

/-!
# Buckets of normalized distances, proofs

The comparison of a normalized distance with a truncated threshold is exact: the value whose sign is taken is not
negative when the distance is at most the threshold, on the scale of the thresholds (`msb_nhdThreshold`). A group passes
when one of its distances does.
-/

namespace AmpcCommon.Stats

open Protocol

/-! ## The comparison with a threshold -/

/-- The normalized distance is at most the threshold; a threshold is given in units of `1 / (25 * B)`. -/
def NhdPasses (threshold : Nat) (d : Int × Int) : Prop := nhd d ≤ threshold / (25 * 2 ^ 16)

instance (threshold : Nat) (d : Int × Int) : Decidable (NhdPasses threshold d) := inferInstanceAs (Decidable (_ ≤ _))

/-- What is compared with zero, as a number. -/
def nhdMargin (d : Int × Int) (threshold : Nat) : Int := threshold * d.2 - (5 * nhdNumerator d + 774144 * d.2)

theorem nhdValue_toRing48 (d : Int × Int) (threshold : Nat) :
    nhdValue (toRing48 d) threshold = BitVec.ofInt 48 (nhdMargin d threshold) := by
  have h50 : 50#48 = BitVec.ofInt 48 50 := rfl
  have h5 : 5#48 = BitVec.ofInt 48 5 := rfl
  have hcode : 368640#48 = BitVec.ofInt 48 368640 := rfl
  have hthreshold : nhdThresholdA threshold = BitVec.ofInt 48 (774144 - threshold) := by
    rw [ofInt_sub]
    rfl
  unfold nhdValue toRing48
  simp only [h50, h5, hcode, hthreshold, ← BitVec.ofInt_mul, ← ofInt_sub, ← BitVec.ofInt_add]
  congr 1
  unfold nhdMargin nhdNumerator
  ring

theorem nhdPasses_iff {d : Int × Int} (hd : 0 < d.2) (threshold : Nat) :
    NhdPasses threshold d ↔ 0 ≤ nhdMargin d threshold := by
  have hd' : (0 : ℚ) < d.2 := by exact_mod_cast hd
  have hdiff : (threshold : ℚ) / (25 * 2 ^ 16) - nhd d = 1 / (25 * 2 ^ 16) / d.2 * (nhdMargin d threshold : ℚ) := by
    rw [nhd_eq hd]
    unfold nhdMargin
    push_cast
    field_simp
    ring
  have hunit : (0 : ℚ) < 1 / (25 * 2 ^ 16) / d.2 := by positivity
  unfold NhdPasses
  rw [← sub_nonneg, hdiff, mul_nonneg_iff_of_pos_left hunit]
  exact_mod_cast Iff.rfl

theorem nhdMargin_bounds {d : Int × Int} (h : NhdFits d) {threshold : Nat} (hthreshold : threshold ≤ 2 ^ 32) :
    -2 ^ 47 ≤ nhdMargin d threshold ∧ nhdMargin d threshold < 2 ^ 47 := by
  have hnumerator := abs_le.mp h.abs_numerator_le
  have hlow : 0 ≤ (threshold : Int) * d.2 := mul_nonneg (Int.natCast_nonneg _) h.mask_pos.le
  have hhigh : (threshold : Int) * d.2 ≤ 2 ^ 32 * 16384 := by
    have hle : (threshold : Int) ≤ 2 ^ 32 := by exact_mod_cast hthreshold
    exact Int.mul_le_mul hle h.mask_le h.mask_pos.le (by norm_num)
  have hpos := h.mask_pos
  have hmask := h.mask_le
  unfold nhdMargin
  constructor <;> omega

/-- The sign that is inverted. -/
theorem msb_nhdThreshold {d : Int × Int} (h : NhdFits d) {threshold : Nat} (hthreshold : threshold ≤ 2 ^ 32) :
    (nhdValue (toRing48 d) threshold).msb = !decide (NhdPasses threshold d) := by
  obtain ⟨hlow, hhigh⟩ := nhdMargin_bounds h hthreshold
  rw [nhdValue_toRing48, msb_ofInt_of_bounds 47 hlow hhigh, ← decide_not]
  refine decide_eq_decide.mpr ?_
  rw [nhdPasses_iff h.mask_pos, not_le]

/-- A distance that passes a threshold passes the larger ones. -/
theorem NhdPasses.mono {t t' : Nat} {d : Int × Int} (h : NhdPasses t d) (hle : t ≤ t') : NhdPasses t' d := by
  have hscale : (0 : ℚ) ≤ 25 * 2 ^ 16 := by positivity
  exact h.trans (div_le_div_of_nonneg_right (by exact_mod_cast hle) hscale)

/-! ## The comparisons -/

theorem xor_not (x : Rep3 1) : (Rep3.xor fun q => ~~~x q) = ~~~x.xor := by
  have hnot : ∀ a b c : BitVec 1, ~~~a ^^^ ~~~b ^^^ ~~~c = ~~~(a ^^^ b ^^^ c) := by decide
  exact hnot _ _ _

/-- The complements of all components share the complements. -/
theorem sharesBits_not {v : Party → List (Share 1)} {bits : List (BitVec 1)} (h : SharesBits v bits) :
    SharesBits (fun p => (v p).map Share.not) (bits.map (~~~·)) := by
  obtain ⟨xs, hx, rfl⟩ := h
  refine ⟨xs.map fun x q => ~~~x q, fun p => ?_, ?_⟩
  · show (v p).map Share.not = _
    rw [hx p, List.map_map, List.map_map]
    rfl
  · rw [List.map_map, List.map_map]
    exact List.map_congr_left fun x _ => xor_not x

theorem sharesBits_append {v w : Party → List (Share 1)} {xs ys : List (BitVec 1)} (hv : SharesBits v xs)
    (hw : SharesBits w ys) : SharesBits (fun p => v p ++ w p) (xs ++ ys) := by
  obtain ⟨xs, hx, rfl⟩ := hv
  obtain ⟨ys, hy, rfl⟩ := hw
  refine ⟨xs ++ ys, fun p => ?_, List.map_append⟩
  show v p ++ w p = _
  rw [hx p, hy p, List.map_append]

variable {R : Type} [Rng R]

/-- The loop appends the inverted signs, one threshold after the other. -/
theorem nhdThresholdLoop_succeeds (sid : BitVec 32) {v : Party → List (DistanceShare 48)} {ds : List (Int × Int)}
    (hv : DistancesOf v (ds.map toRing48)) (hds : ∀ d ∈ ds, NhdFits d) {thresholds : List Nat}
    (hthresholds : ∀ t ∈ thresholds, t ≤ 2 ^ 32) {msbs : Party → List (Share 1)} {done : List (BitVec 1)}
    (hmsbs : SharesBits msbs done) :
    Succeeds (fun p => (nhdThresholdLoop ⟨p, sid⟩ (v p) thresholds (msbs p) : Proc R _)) fun r =>
      SharesBits r (done ++ thresholds.flatMap fun t => ds.map fun d => BitVec.ofBool (NhdPasses t d)) := by
  induction thresholds generalizing msbs done with
  | nil =>
    rw [List.flatMap_nil, List.append_nil]
    exact Succeeds.pure hmsbs
  | cons t ts ih =>
    have ht := hthresholds t List.mem_cons_self
    refine (nhdGreaterThanThreshold_succeeds sid hv t).bind fun results hresults => ?_
    have hpassed : ((ds.map toRing48).map fun d => BitVec.ofBool (nhdValue d t).msb).map (~~~·) =
        ds.map fun d => BitVec.ofBool (NhdPasses t d) := by
      have hnot : ∀ b : Bool, ~~~BitVec.ofBool (!b) = BitVec.ofBool b := by decide
      rw [List.map_map, List.map_map]
      refine List.map_congr_left fun d hd => ?_
      rw [Function.comp_apply, Function.comp_apply, msb_nhdThreshold (hds d hd) ht, hnot]
    have hnext := sharesBits_append hmsbs (sharesBits_not hresults)
    rw [hpassed] at hnext
    have hrest := ih (fun t' ht' => hthresholds t' (List.mem_cons_of_mem _ ht')) hnext
    rw [List.append_assoc] at hrest
    exact hrest

/-- For one threshold after the other, every distance is compared with it. -/
theorem nhdCompareAgainstThresholdsBatched_succeeds (sid : BitVec 32) {v : Party → List (DistanceShare 48)}
    {ds : List (Int × Int)} (hv : DistancesOf v (ds.map toRing48)) (hds : ∀ d ∈ ds, NhdFits d) {thresholds : List Nat}
    (hthresholds : ∀ t ∈ thresholds, t ≤ 2 ^ 32) :
    Succeeds (fun p => (nhdCompareAgainstThresholdsBatched ⟨p, sid⟩ thresholds (v p) : Proc R _)) fun r =>
      SharesOf r (thresholds.flatMap fun t => ds.map fun d => indicator 32 (NhdPasses t d)) := by
  unfold nhdCompareAgainstThresholdsBatched
  have hempty : SharesBits (fun _ => []) [] := ⟨[], fun _ => rfl, rfl⟩
  refine (nhdThresholdLoop_succeeds sid hv hds hthresholds hempty).bind fun msbs hmsbs => ?_
  refine (bitInject_sharesOf (t := .u32) sid hmsbs).mono fun r hr => ?_
  have hbit : ∀ b : Bool, (BitVec.ofBool b).setWidth 32 = indicator 32 b := by decide
  rw [List.nil_append, List.map_flatMap] at hr
  simp only [List.map_map] at hr
  have hmap : (thresholds.flatMap fun t => ds.map fun d => indicator 32 (NhdPasses t d)) =
      thresholds.flatMap fun t => ds.map (BitVec.setWidth 32 ∘ fun d => BitVec.ofBool (NhdPasses t d)) := by
    refine List.flatMap_congr fun t _ => List.map_congr_left fun d _ => ?_
    exact (hbit _).symm
  rw [hmap]
  exact hr

/-! ## Groups -/

/-- A minimum of every group. -/
theorem nhdReduce_mins (sid : BitVec 32) {v : Party → List (List (DistanceShare 48))} {groups : List (List (Int × Int))}
    (hv : GroupsIn toRing48 v groups) (hne : ∀ group ∈ groups, group ≠ [])
    (hfits : ∀ group ∈ groups, ∀ d ∈ group, NhdFits d) :
    Succeeds (fun p => (nhdReduceToMinDistanceBatch ⟨p, sid⟩ (v p) : Proc R _)) fun r =>
      ∃ ms, DistancesOf r (ms.map toRing48) ∧ List.Forall₂ IsMinNhd groups ms := by
  refine (nhdReduceToMinDistanceBatch_succeeds sid hv hne hfits).mono fun r hr => ?_
  refine ⟨groups.map (GroupReduction.reduced nhdMin), ?_, ?_⟩
  · rw [List.map_map]
    exact hr
  · rw [List.forall₂_map_right_iff, List.forall₂_same]
    exact fun group hg => ⟨GroupReduction.reduced_mem selects_nhdMin (hne group hg),
      GroupReduction.reduced_le selects_nhdMin (hfits group hg)⟩

/-- A member with a minimal distance passes when any member does. -/
theorem nhdPasses_min_iff {threshold : Nat} {group : List (Int × Int)} {m : Int × Int} (hm : IsMinNhd group m) :
    NhdPasses threshold m ↔ ∃ d ∈ group, NhdPasses threshold d := by
  constructor
  · intro hpass
    exact ⟨m, hm.1, hpass⟩
  · rintro ⟨d, hd, hpass⟩
    exact (hm.2 d hd).trans hpass

/-- The number of groups with a distance that is at most the threshold. -/
def groupsNhdPassing (groups : List (List (Int × Int))) (threshold : Nat) : Nat :=
  groups.countP fun group => ∃ d ∈ group, NhdPasses threshold d

theorem countP_nhdMins {groups : List (List (Int × Int))} {ms : List (Int × Int)}
    (hmin : List.Forall₂ IsMinNhd groups ms) (threshold : Nat) :
    ms.countP (fun m => NhdPasses threshold m) = groupsNhdPassing groups threshold := by
  have hbits : groups.map (fun group => decide (∃ d ∈ group, NhdPasses threshold d)) =
      ms.map fun m => decide (NhdPasses threshold m) :=
    map_eq_of_forall₂ hmin fun group _ m hm => (decide_eq_decide.mpr (nhdPasses_min_iff hm)).symm
  have hcount := congrArg (List.countP id) hbits
  rw [List.countP_map, List.countP_map] at hcount
  exact hcount.symm

/-- The members of a list of minima have the properties of the groups. -/
theorem forall_mins {P : Int × Int → Prop} {groups : List (List (Int × Int))} {ms : List (Int × Int)}
    (hmin : List.Forall₂ IsMinNhd groups ms) (h : ∀ group ∈ groups, ∀ d ∈ group, P d) : ∀ m ∈ ms, P m := by
  intro m hm
  obtain ⟨i, hi, rfl⟩ := List.getElem_of_mem hm
  have hget := hmin.get (hmin.length_eq.symm ▸ hi) hi
  exact h _ (List.getElem_mem _) _ hget.1

theorem compareMinThresholdBucketsScoreNormalization_succeeds (sid : BitVec 32) {groups : List (List (Int × Int))}
    {v : Party → List (List (DistanceShare 48))} (hv : GroupsIn toRing48 v groups) (hne : groups ≠ [])
    (hgroups : ∀ group ∈ groups, group ≠ []) (hfits : ∀ group ∈ groups, ∀ d ∈ group, NhdFits d) {thresholds : List Nat}
    (hthresholds : ∀ t ∈ thresholds, t ≤ 2 ^ 32) :
    Succeeds (fun p => (compareMinThresholdBucketsScoreNormalization ⟨p, sid⟩ thresholds (v p) : Proc R _)) fun r =>
      SharesOf r (thresholds.map fun t => BitVec.ofNat 32 (groupsNhdPassing groups t)) := by
  unfold compareMinThresholdBucketsScoreNormalization
  refine (nhdReduce_mins sid hv hgroups hfits).bind fun reduced hreduced => ?_
  obtain ⟨ms, hms, hmin⟩ := hreduced
  have hlen : ∀ p, (reduced p).length = ms.length := by
    intro p
    rw [hms.length, List.length_map]
  have hn : ms.length ≠ 0 := by
    rw [← hmin.length_eq]
    exact fun h => hne (List.length_eq_zero_iff.mp h)
  unfold nhdCompareThresholdBuckets
  simp only [hlen]
  refine (nhdCompareAgainstThresholdsBatched_succeeds sid hms (forall_mins hmin hfits) hthresholds).bind
    fun sums hsums => ?_
  obtain ⟨r, hr, hshares⟩ := sumChunks_sharesOf hn (fun t _ => List.length_map _) hsums
  refine Succeeds.lift hr ?_
  simp only [sum_indicator, countP_nhdMins hmin] at hshares
  exact hshares

end AmpcCommon.Stats
