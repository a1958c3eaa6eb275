import AmpcCommon.Protocol.Matching
import AmpcCommon.Protocol.Proofs.NhdReductionProofs
import AmpcCommon.Protocol.Proofs.ReductionProofs
import AmpcCommon.Protocol.Proofs.SwapProofs
import AmpcCommon.Protocol.Proofs.ThresholdProofs

/-!
# Opened decisions, proofs

There are three ways to compare a distance with a threshold: on a lifted distance, on a raw code and a lifted mask, and,
for the threshold of the statistics, on raw shares in a circuit. All of them open the same bits (`IsGreater`). The
opened comparisons of pairs are those of the numbers, and a selection takes the id along with the distance.
-/

namespace AmpcCommon.Protocol

/-! ## Matches -/

/-- The fractional distance is greater than the threshold: the code is too small for the mask. -/
def IsGreater (a : BitVec 32) (d : Int × Int) : Prop := d.1 * 2 ^ 16 < d.2 * a.toNat

instance (a : BitVec 32) (d : Int × Int) : Decidable (IsGreater a d) := inferInstanceAs (Decidable (_ < _))

/-- The bits of a list of distances. -/
def greaterBits (a : BitVec 32) (ds : List (Int × Int)) : List (BitVec 1) :=
  ds.map fun d => BitVec.ofBool (IsGreater a d)

theorem greaterDiff_eq (a : BitVec 32) (d : Int × Int) :
    (toRing d).1 * thresholdB - (toRing d).2 * a = BitVec.ofInt 32 (d.1 * 2 ^ 16 - d.2 * a.toNat) := by
  have hofNat : a = BitVec.ofInt 32 a.toNat := by simp
  rw [ofInt_sub, BitVec.ofInt_mul, BitVec.ofInt_mul, ← hofNat]
  rfl

theorem msb_greaterDiff {a : BitVec 32} (ha : a.toNat ≤ 2 ^ 16) {d : Int × Int} (h : DistanceInRange d) :
    (BitVec.ofInt 32 (d.1 * 2 ^ 16 - d.2 * a.toNat)).msb = decide (IsGreater a d) := by
  obtain ⟨hlow, hhigh⟩ := thresholdDiff_bounds ha h
  obtain ⟨hpos, hmask, hcode⟩ := h
  rw [abs_le] at hcode
  have hprod : d.2 * (a.toNat : Int) ≤ 16383 * 2 ^ 16 := by
    have hle : (a.toNat : Int) ≤ 2 ^ 16 := by exact_mod_cast ha
    exact Int.mul_le_mul hmask hle (by positivity) (by norm_num)
  have hnonneg : 0 ≤ d.2 * (a.toNat : Int) := by positivity
  rw [msb_ofInt (by omega) (by omega)]
  exact decide_eq_decide.mpr (by unfold IsGreater; omega)

/-- The encodings of a code and a mask in 16 bits, in the larger ring. -/
theorem shl_ofInt (z : Int) : (BitVec.ofInt 16 z).setWidth 32 <<< 16 = BitVec.ofInt 32 (z * 2 ^ 16) := by
  refine BitVec.eq_of_toNat_eq ?_
  rw [BitVec.toNat_shiftLeft, BitVec.toNat_setWidth_of_le (by decide), BitVec.toNat_ofInt, BitVec.toNat_ofInt,
    Nat.shiftLeft_eq]
  omega

theorem setWidth_ofInt {z : Int} (hlow : 0 ≤ z) (hhigh : z < 2 ^ 16) :
    (BitVec.ofInt 16 z).setWidth 32 = BitVec.ofInt 32 z := by
  refine BitVec.eq_of_toNat_eq ?_
  rw [BitVec.toNat_setWidth_of_le (by decide), BitVec.toNat_ofInt, BitVec.toNat_ofInt]
  omega

theorem rawDiff_eq (a : BitVec 32) (d : Int × Int) :
    (BitVec.ofInt 16 d.1).setWidth 32 <<< 16 - BitVec.ofInt 32 d.2 * a =
      BitVec.ofInt 32 (d.1 * 2 ^ 16 - d.2 * a.toNat) := by
  have hofNat : a = BitVec.ofInt 32 a.toNat := by simp
  have hmul : BitVec.ofInt 32 (d.2 * a.toNat) = BitVec.ofInt 32 d.2 * a := by rw [BitVec.ofInt_mul, ← hofNat]
  rw [shl_ofInt, ofInt_sub, hmul]

section Paths

variable {R : Type} [Rng R] {ds : List (Int × Int)} {a : BitVec 32}

theorem map_msb_eq (ha : a.toNat ≤ 2 ^ 16) (hds : ∀ d ∈ ds, DistanceInRange d) :
    (ds.map fun d => BitVec.ofBool (BitVec.ofInt 32 (d.1 * 2 ^ 16 - d.2 * a.toNat)).msb) = greaterBits a ds :=
  List.map_congr_left fun d hd => congrArg BitVec.ofBool (msb_greaterDiff ha (hds d hd))

/-- The comparison of lifted distances. -/
theorem fhdGreaterThanThreshold_succeeds (sid : BitVec 32) {v : Party → List (DistanceShare 32)}
    (hv : DistancesOf v (ds.map toRing)) (ha : a.toNat ≤ 2 ^ 16) (hds : ∀ d ∈ ds, DistanceInRange d) :
    Succeeds (fun p => (fhdGreaterThanThreshold ⟨p, sid⟩ (v p) a : Proc R _)) fun r =>
      SharesBits r (greaterBits a ds) := by
  obtain ⟨zs, hz, hvalues⟩ := hv
  have hdiffs : SharesOf (fun p => (v p).map fun d => d.codeDot.mulConst thresholdB - d.maskDot.mulConst a)
      (ds.map fun d => BitVec.ofInt 32 (d.1 * 2 ^ 16 - d.2 * a.toNat)) := by
    refine ⟨zs.map fun z q => z.1 q * thresholdB - z.2 q * a, fun p => ?_, ?_⟩
    · show (v p).map _ = _
      rw [hz p, List.map_map, List.map_map]
      rfl
    · have hsum : ∀ z : Rep3Distance 32, (Rep3.sum fun q => z.1 q * thresholdB - z.2 q * a) =
          z.value.1 * thresholdB - z.value.2 * a := by
        intro z
        show _ = z.1.sum * thresholdB - z.2.sum * a
        unfold Rep3.sum
        ring
      have hmap : zs.map (fun z => z.value.1 * thresholdB - z.value.2 * a) =
          (ds.map toRing).map fun d => d.1 * thresholdB - d.2 * a := by
        rw [← hvalues, List.map_map]
        rfl
      rw [List.map_map, Function.comp_def]
      simp only [hsum]
      rw [hmap, List.map_map]
      exact List.map_congr_left fun d _ => greaterDiff_eq a d
  unfold fhdGreaterThanThreshold
  rw [← map_msb_eq ha hds]
  exact extractMsbBatch_map (t := .u32) sid hdiffs

/-- The difference of a raw code and a lifted mask. -/
def rawDiff (a : BitVec 32) (x : Rep3 16) (z : Rep3 32) : Rep3 32 := fun q => (x q).setWidth 32 <<< 16 - z q * a

theorem sum_rawDiff (a : BitVec 32) (x : Rep3 16) (z : Rep3 32) :
    (rawDiff a x z).sum = x.sum.setWidth 32 <<< 16 - z.sum * a := by
  rw [← sum_shl (by decide)]
  simp only [Rep3.sum, rawDiff]
  ring

/-- The comparison of raw codes and lifted masks. -/
theorem preLiftedMasks_succeeds (sid : BitVec 32) {codes : Party → List (Share 16)} {masks : Party → List (Share 32)}
    (hcodes : SharesOf codes (ds.map fun d => BitVec.ofInt 16 d.1))
    (hmasks : SharesOf masks (ds.map fun d => BitVec.ofInt 32 d.2)) (ha : a.toNat ≤ 2 ^ 16)
    (hds : ∀ d ∈ ds, DistanceInRange d) :
    Succeeds (fun p => (fhdGreaterThanThresholdPreLiftedMasks ⟨p, sid⟩ (codes p) (masks p) a : Proc R _)) fun r =>
      SharesBits r (greaterBits a ds) := by
  have hlen : ∀ p, (codes p).length = (masks p).length := by
    intro p
    rw [hcodes.length, hmasks.length, List.length_map, List.length_map]
  obtain ⟨xs, hx, hxsum⟩ := hcodes
  obtain ⟨zs, hz, hzsum⟩ := hmasks
  have hdiffs : SharesOf (fun p => List.zipWith (fun (codeDot : Share 16) (maskDot : Share 32) =>
      mulLift2kTo32 16 codeDot - ⟨maskDot.a * a, maskDot.b * a⟩) (codes p) (masks p))
      (ds.map fun d => BitVec.ofInt 32 (d.1 * 2 ^ 16 - d.2 * a.toNat)) := by
    refine ⟨List.zipWith (rawDiff a) xs zs, fun p => ?_, ?_⟩
    · show List.zipWith _ (codes p) (masks p) = _
      rw [hx p, hz p, List.zipWith_map, List.map_zipWith]
      rfl
    · calc (List.zipWith (rawDiff a) xs zs).map Rep3.sum
          = List.zipWith (fun (x : BitVec 16) (z : BitVec 32) => x.setWidth 32 <<< 16 - z * a) (xs.map Rep3.sum)
            (zs.map Rep3.sum) := by
            rw [List.map_zipWith, List.zipWith_map]
            simp only [sum_rawDiff]
        _ = ds.map fun d => (BitVec.ofInt 16 d.1).setWidth 32 <<< 16 - BitVec.ofInt 32 d.2 * a := by
            rw [hxsum, hzsum, List.zipWith_map, List.zipWith_self]
        _ = ds.map fun d => BitVec.ofInt 32 (d.1 * 2 ^ 16 - d.2 * a.toNat) :=
            List.map_congr_left fun d _ => rawDiff_eq a d
  simp only [fhdGreaterThanThresholdPreLiftedMasks, hlen, ne_eq, not_true_eq_false, if_false]
  rw [← map_msb_eq ha hds]
  exact extractMsbBatch_map (t := .u32) sid hdiffs

/-- The masks are lifted first. -/
theorem liftedMasks_succeeds (sid : BitVec 32) {codes masks : Party → List (Share 16)}
    (hcodes : SharesOf codes (ds.map fun d => BitVec.ofInt 16 d.1))
    (hmasks : SharesOf masks (ds.map fun d => BitVec.ofInt 16 d.2)) (ha : a.toNat ≤ 2 ^ 16)
    (hds : ∀ d ∈ ds, DistanceInRange d) :
    Succeeds (fun p => (liftFhdMaskDots ⟨p, sid⟩ (masks p) >>= fun lifted =>
      fhdGreaterThanThresholdPreLiftedMasks ⟨p, sid⟩ (codes p) lifted a : Proc R _)) fun r =>
      SharesBits r (greaterBits a ds) := by
  have hlen := hmasks.length
  obtain ⟨ys, hy, hysum⟩ := hmasks
  refine (lift_succeeds (R := R) (C := True) sid hlen fun _ => hy).bind fun lifted hlifted => ?_
  obtain ⟨zs, hz, hzsum⟩ := hlifted.2 trivial
  refine preLiftedMasks_succeeds sid hcodes ⟨zs, hz, ?_⟩ ha hds
  calc zs.map Rep3.sum = (ys.map Rep3.sum).map fun y => y.setWidth 32 := by rw [hzsum, List.map_map]; rfl
    _ = ds.map fun d => (BitVec.ofInt 16 d.2).setWidth 32 := by rw [hysum, List.map_map]; rfl
    _ = ds.map fun d => BitVec.ofInt 32 d.2 := by
        refine List.map_congr_left fun d hd => ?_
        obtain ⟨hpos, hmask, -⟩ := hds d hd
        exact setWidth_ofInt (by omega) (by omega)

/-- The comparison with the threshold of the statistics, in a circuit. -/
theorem anonStatsThreshold_succeeds (sid : BitVec 32) {codes masks : Party → List (Share 16)}
    (hcodes : SharesOf codes (ds.map fun d => BitVec.ofInt 16 d.1))
    (hmasks : SharesOf masks (ds.map fun d => BitVec.ofInt 16 d.2)) (hds : ∀ d ∈ ds, DistanceInRange d) :
    Succeeds (fun p => (fhdGreaterThanAnonStatsThreshold ⟨p, sid⟩ (codes p) (masks p) : Proc R _)) fun r =>
      SharesBits r (greaterBits (2 ^ 14) ds) := by
  have hxlen := hcodes.length
  have hylen := hmasks.length
  obtain ⟨xs, hx, hxsum⟩ := hcodes
  obtain ⟨ys, hy, hysum⟩ := hmasks
  have hxn : xs.length = ds.length := by simpa using congrArg List.length hxsum
  have hyn : ys.length = ds.length := by simpa using congrArg List.length hysum
  have hlen : xs.length = ys.length := hxn.trans hyn.symm
  unfold fhdGreaterThanAnonStatsThreshold
  refine (extractAnonStatsMsbBatch_carries (R := R) (C := True) sid hx.length
    (fun p => (hy.length p).trans hlen.symm) hlen (fun _ => hx) fun _ => hy).mono fun r hr => ?_
  obtain ⟨bits, hbits, hxor⟩ := hr.2 trivial
  refine ⟨bits, hbits, (hxor.trans (map_range_thresholdBit hlen)).trans ?_⟩
  rw [hxsum, hysum, thresholdBits, List.zipWith_map, List.zipWith_self]
  refine List.map_congr_left fun d hd => ?_
  obtain ⟨hpos, hmask, -⟩ := hds d hd
  have hpow : (2 ^ 14 : BitVec 32).toNat = 2 ^ 14 := rfl
  have hmask16 : (BitVec.ofInt 16 d.2).setWidth 32 = BitVec.ofInt 32 d.2 := setWidth_ofInt (by omega) (by omega)
  rw [← getBitAsBit_diff, hmask16, rawDiff_eq, getBitAsBit_last, msb_greaterDiff (by rw [hpow]; decide) (hds d hd)]

/-- Whatever the order of the steps is, all parties open the bits. -/
def Opens {α : Type} (x : Party → Proc R (List α)) (σ : Party → Prf R) (values : List α) : Prop :=
  Network.Settles nextParty (fun p => x p (σ p)) fun o => ∀ p, (o p).1 = .ok values

omit [Rng R] in
theorem opens_of_succeeds {α : Type} {x : Party → Proc R (List α)} {values : List α}
    (h : Succeeds x fun r => ∀ p, r p = values) {σ : Party → Prf R} (hσ : Lockstep σ) : Opens x σ values := by
  obtain ⟨r, _, hjoint, -, hr⟩ := h σ hσ
  exact hjoint.settles fun p => congrArg Except.ok (hr p)

omit [Rng R] in
theorem openBits_succeeds {x : Party → Proc R (List (Share 1))} {bits : List (BitVec 1)}
    (h : Succeeds x fun r => SharesBits r bits) :
    Succeeds (fun p => x p >>= fun r => openBin r) fun r => ∀ p, r p = bits := by
  refine h.bind fun r hr => ?_
  obtain ⟨zs, hz, rfl⟩ := hr
  exact openBin_succeeds hz

/-- **Matches.** For all distances in range, every translated threshold up to `2^16`, every sharing, session and stream
and in every schedule: the comparison of lifted distances and that of raw codes and lifted masks open for every distance
whether it is greater than the threshold, and at the threshold of the statistics so does the circuit on raw shares. -/
theorem match_decisions_agree (sid : BitVec 32) (ds : List (Int × Int)) (hds : ∀ d ∈ ds, DistanceInRange d)
    (a : BitVec 32) (ha : a.toNat ≤ 2 ^ 16) (σ : Party → Prf R) (hσ : Lockstep σ)
    (lifted : Party → List (DistanceShare 32)) (hlifted : DistancesOf lifted (ds.map toRing))
    (codes masks : Party → List (Share 16)) (hcodes : SharesOf codes (ds.map fun d => BitVec.ofInt 16 d.1))
    (hmasks : SharesOf masks (ds.map fun d => BitVec.ofInt 16 d.2)) :
    Opens (fun p => fhdGreaterThanThreshold ⟨p, sid⟩ (lifted p) a >>= fun r => openBin r) σ (greaterBits a ds) ∧
    Opens (fun p => (liftFhdMaskDots ⟨p, sid⟩ (masks p) >>= fun lifted =>
      fhdGreaterThanThresholdPreLiftedMasks ⟨p, sid⟩ (codes p) lifted a) >>= fun r => openBin r) σ (greaterBits a ds) ∧
    (a = 2 ^ 14 → Opens (fun p => fhdGreaterThanAnonStatsThreshold ⟨p, sid⟩ (codes p) (masks p) >>= fun r => openBin r)
      σ (greaterBits a ds)) := by
  refine ⟨?_, ?_, ?_⟩
  · exact opens_of_succeeds (openBits_succeeds (fhdGreaterThanThreshold_succeeds sid hlifted ha hds)) hσ
  · exact opens_of_succeeds (openBits_succeeds (liftedMasks_succeeds sid hcodes hmasks ha hds)) hσ
  · rintro rfl
    exact opens_of_succeeds (openBits_succeeds (anonStatsThreshold_succeeds sid hcodes hmasks hds)) hσ

end Paths

/-- A sharing of a value of 16 bits. -/
def share16 (z : Int) : Rep3 16 := ![BitVec.ofInt 16 z - 3, 1, 2]

theorem sharesOf_share16 (l : List Int) :
    SharesOf (fun p => l.map fun z => (share16 z).view p) (l.map (BitVec.ofInt 16)) := by
  refine ⟨l.map share16, fun p => ?_, ?_⟩
  · rw [List.map_map]
    rfl
  · rw [List.map_map]
    refine List.map_congr_left fun z _ => ?_
    show BitVec.ofInt 16 z - 3 + 1 + 2 = BitVec.ofInt 16 z
    ring

/-- A sharing of distances. -/
def shareDistances (ds : List (Int × Int)) (p : Party) : List (DistanceShare 32) :=
  ds.map fun d => (shareDistance (toRing d)).view p

theorem distancesOf_shareDistances (ds : List (Int × Int)) : DistancesOf (shareDistances ds) (ds.map toRing) := by
  refine ⟨ds.map fun d => shareDistance (toRing d), fun p => ?_, ?_⟩
  · rw [List.map_map]
    rfl
  · rw [List.map_map]
    exact List.map_congr_left fun d _ => value_shareDistance (toRing d)

/-- A match at the threshold of the statistics, and a distance that is greater. -/
theorem match_decisions_agree_two :
    Opens (fun p => fhdGreaterThanThreshold ⟨p, 1⟩ (shareDistances [(10, 20), (5, 100)] p) (2 ^ 14) >>= fun r =>
      openBin r) stepStreams [0, 1] ∧
    Opens (fun p => fhdGreaterThanAnonStatsThreshold ⟨p, 1⟩ ([10, 5].map fun z => (share16 z).view p)
      ([20, 100].map fun z => (share16 z).view p) >>= fun r => openBin r) stepStreams [0, 1] := by
  have hds : ∀ d ∈ [((10, 20) : Int × Int), (5, 100)], DistanceInRange d := by
    simp only [List.forall_mem_cons]
    exact ⟨⟨by norm_num, by norm_num, by norm_num⟩, ⟨by norm_num, by norm_num, by norm_num⟩, by simp⟩
  obtain ⟨hlifted, -, hraw⟩ := match_decisions_agree 1 [(10, 20), (5, 100)] hds (2 ^ 14) (by decide) stepStreams
    lockstep_stepStreams _ (distancesOf_shareDistances _) _ _ (sharesOf_share16 [10, 5]) (sharesOf_share16 [20, 100])
  exact ⟨hlifted, hraw rfl⟩

/-! ## Opened comparisons -/

section Comparisons

theorem convertBit_ofBool (b : Bool) : convertBit (BitVec.ofBool b) = b := by
  cases b <;> rfl

theorem not_msb {K : Nat} (x : BitVec K) : (!x.msb) = decide (0 ≤ x.toInt) := by
  rw [BitVec.msb_eq_toInt, ← decide_not]
  exact decide_eq_decide.mpr not_lt

variable {R : Type} [Rng R]

omit [Rng R] in
theorem openBits_map {β : Type} {x : Party → Proc R (List (Share 1))} {bits : List (BitVec 1)}
    (h : Succeeds x fun r => SharesBits r bits) (f : BitVec 1 → β) :
    Succeeds (fun p => x p >>= fun r => openBin r >>= fun opened => pure (opened.map f)) fun r =>
      ∀ p, r p = bits.map f := by
  refine h.bind fun r hr => ?_
  obtain ⟨zs, hz, rfl⟩ := hr
  refine (openBin_succeeds hz).bind fun opened hopened => Succeeds.pure fun p => ?_
  rw [hopened p]

theorem obliviousCrossCompare_succeeds (sid : BitVec 32) {v : Party → List (DistancePair 32)}
    {ds : List ((BitVec 32 × BitVec 32) × (BitVec 32 × BitVec 32))} (h : PairsOf v ds) :
    Succeeds (fun p => (obliviousCrossCompare ⟨p, sid⟩ (v p) : Proc R _)) fun r =>
      SharesBits r (ds.map fun d => BitVec.ofBool (cross d.1 d.2).msb) := by
  unfold obliviousCrossCompare
  exact (crossMul_succeeds h).bind fun diff hdiff => extractMsbBatch_map (t := .u32) sid hdiff

theorem msb_cross {d1 d2 : Int × Int} (h1 : DistanceFits d1) (h2 : DistanceFits d2) :
    (cross (toRing d1) (toRing d2)).msb = decide (d2.1 * d1.2 < d1.1 * d2.2) := by
  obtain ⟨hlow, hhigh⟩ := h2.mul_bounds h1
  obtain ⟨hlow', hhigh'⟩ := h1.mul_bounds h2
  rw [cross_toRing, msb_ofInt (by omega) (by omega)]
  exact decide_eq_decide.mpr (by omega)

/-- **Opened comparisons.** In every schedule all parties open, for a pair of distances, whether the first one is
smaller, in the ring with 32 bits by the fractions and in the ring with 48 bits by the normalized distances; and for a
value of 16 bits its sign, where `gte_zero_and_open_u16` is the negation of `lt_zero_and_open_u16`. -/
theorem comparisons_open (sid : BitVec 32) (σ : Party → Prf R) (hσ : Lockstep σ) :
    (∀ (pairs : List ((Int × Int) × (Int × Int))) (v : Party → List (DistancePair 32)),
      (∀ q ∈ pairs, DistanceFits q.1 ∧ DistanceFits q.2) → PairsOf v (pairs.map fun q => (toRing q.1, toRing q.2)) →
      Opens (fun p => crossCompare ⟨p, sid⟩ (v p)) σ (pairs.map fun q => decide (¬ Closer q.2 q.1))) ∧
    (∀ (pairs : List ((Int × Int) × (Int × Int))) (v : Party → List (DistancePair 48)),
      (∀ q ∈ pairs, NhdFits q.1 ∧ NhdFits q.2) → PairsOf v (pairs.map fun q => (toRing48 q.1, toRing48 q.2)) →
      Opens (fun p => nhdCrossCompare ⟨p, sid⟩ (v p)) σ (pairs.map fun q => decide (nhd q.1 < nhd q.2))) ∧
    (∀ (values : List (BitVec 16)) (v : Party → List (Share 16)), SharesOf v values →
      Opens (fun p => ltZeroAndOpenU16 ⟨p, sid⟩ (v p)) σ (values.map fun x => decide (x.toInt < 0)) ∧
      Opens (fun p => gteZeroAndOpenU16 ⟨p, sid⟩ (v p)) σ (values.map fun x => decide (0 ≤ x.toInt))) := by
  refine ⟨?_, ?_, ?_⟩
  · intro pairs v hfits hv
    have hopen := openBits_map (obliviousCrossCompare_succeeds (R := R) sid hv) convertBit
    refine opens_of_succeeds (hopen.mono fun r hr p => ?_) hσ
    rw [hr p, List.map_map, List.map_map]
    refine List.map_congr_left fun q hq => ?_
    obtain ⟨hfirst, hsecond⟩ := hfits q hq
    rw [Function.comp_apply, Function.comp_apply, convertBit_ofBool, msb_cross hfirst hsecond]
    exact decide_eq_decide.mpr not_le.symm
  · intro pairs v hfits hv
    have hopen := openBits_map (nhdObliviousCrossCompare_succeeds (R := R) sid hv) convertBit
    refine opens_of_succeeds (hopen.mono fun r hr p => ?_) hσ
    rw [hr p, List.map_map, List.map_map]
    refine List.map_congr_left fun q hq => ?_
    obtain ⟨hfirst, hsecond⟩ := hfits q hq
    rw [Function.comp_apply, Function.comp_apply, convertBit_ofBool, msb_nhdCross hfirst hsecond]
  · intro values v hv
    have hmap : SharesOf v (values.map fun x => x) := by rwa [List.map_id']
    have hbits := extractMsbBatch_map (R := R) (t := .u16) sid hmap
    refine ⟨opens_of_succeeds ((openBits_map hbits convertBit).mono fun r hr p => ?_) hσ,
      opens_of_succeeds ((openBits_map hbits fun x => !convertBit x).mono fun r hr p => ?_) hσ⟩
    · rw [hr p, List.map_map]
      refine List.map_congr_left fun x _ => ?_
      exact (convertBit_ofBool _).trans (BitVec.msb_eq_toInt)
    · rw [hr p, List.map_map]
      refine List.map_congr_left fun x _ => ?_
      exact (congrArg not (convertBit_ofBool _)).trans (not_msb x)

end Comparisons

/-- A sharing of pairs of distances. -/
def sharePairs {K : Nat} (enc : Int × Int → BitVec K × BitVec K) (pairs : List ((Int × Int) × (Int × Int)))
    (p : Party) : List (DistancePair K) :=
  pairs.map fun q => ((shareDistance (enc q.1)).view p, (shareDistance (enc q.2)).view p)

theorem pairsOf_sharePairs {K : Nat} (enc : Int × Int → BitVec K × BitVec K)
    (pairs : List ((Int × Int) × (Int × Int))) :
    PairsOf (sharePairs enc pairs) (pairs.map fun q => (enc q.1, enc q.2)) := by
  refine ⟨pairs.map fun q => (shareDistance (enc q.1), shareDistance (enc q.2)), fun p => ?_, ?_⟩
  · rw [List.map_map]
    rfl
  · rw [List.map_map]
    exact List.map_congr_left fun q _ => Prod.ext (value_shareDistance _) (value_shareDistance _)

theorem nhd_lt_nhd : nhd (32, 40) < nhd (31, 40) ∧ ¬ nhd (31, 40) < nhd (32, 40) := by
  have hlt : nhd (32, 40) < nhd (31, 40) := by
    unfold nhd
    norm_num
  exact ⟨hlt, hlt.not_gt⟩

/-- Pairs with the smaller distance first and last, and a negative and a positive value. -/
theorem comparisons_open_two :
    Opens (fun p => crossCompare ⟨p, 1⟩ (sharePairs toRing [((9, 10), (8, 10)), ((8, 10), (9, 10))] p)) stepStreams
      [true, false] ∧
    Opens (fun p => nhdCrossCompare ⟨p, 1⟩
      (sharePairs toRing48 [((32, 40), (31, 40)), ((31, 40), (32, 40))] p)) stepStreams [true, false] ∧
    Opens (fun p => gteZeroAndOpenU16 ⟨p, 1⟩ ([-3, 4].map fun z => (share16 z).view p)) stepStreams [false, true] := by
  obtain ⟨hcross, hnhd, hsign⟩ := comparisons_open 1 stepStreams lockstep_stepStreams
  refine ⟨?_, ?_, ?_⟩
  · refine hcross _ _ ?_ (pairsOf_sharePairs toRing _)
    have h8 : DistanceFits (8, 10) := ⟨by norm_num, by norm_num, by norm_num, by norm_num⟩
    have h9 : DistanceFits (9, 10) := ⟨by norm_num, by norm_num, by norm_num, by norm_num⟩
    simp only [List.forall_mem_cons]
    exact ⟨⟨h9, h8⟩, ⟨h8, h9⟩, by simp⟩
  · have h31 : NhdFits (31, 40) := ⟨by norm_num, by norm_num, by norm_num⟩
    have h32 : NhdFits (32, 40) := ⟨by norm_num, by norm_num, by norm_num⟩
    have hopens := hnhd [((32, 40), (31, 40)), ((31, 40), (32, 40))] _
      (List.forall_mem_cons.mpr ⟨⟨h32, h31⟩, List.forall_mem_singleton.mpr ⟨h31, h32⟩⟩) (pairsOf_sharePairs toRing48 _)
    rwa [List.map_cons, List.map_cons, List.map_nil, decide_eq_true nhd_lt_nhd.1, decide_eq_false nhd_lt_nhd.2]
      at hopens
  · exact (hsign _ _ (sharesOf_share16 [-3, 4])).2

/-! ## Selection with shared ids -/

section Selection

variable {K : Nat}

theorem tuples3_range (n : Nat) (f : Nat → Share K) :
    tuples3 ((List.range (n * 3)).map f) =
      (List.range n).map fun j => (f (j * 3), ⟨f (j * 3 + 1), f (j * 3 + 2)⟩) := by
  induction n generalizing f with
  | zero => rfl
  | succ n ih =>
    have hrange : List.range ((n + 1) * 3) = 0 :: 1 :: 2 :: (List.range (n * 3)).map (· + 3) := by
      rw [show (n + 1) * 3 = n * 3 + 1 + 1 + 1 by omega, List.range_succ_eq_map, List.range_succ_eq_map,
        List.range_succ_eq_map]
      simp only [List.map_cons, List.map_map]
      rfl
    rw [hrange, List.range_succ_eq_map, List.map_cons, List.map_cons, List.map_cons, tuples3, List.map_map, ih,
      List.map_cons, List.map_map]
    congr 1
    refine List.map_congr_left fun j _ => ?_
    simp only [Function.comp_apply, Nat.succ_eq_add_one, Nat.add_mul]

theorem sharedIdField_eq (p : Party) (left right : List (Triple K)) (j f : Nat) :
    sharedIdField (left.map (viewTriple p)) (right.map (viewTriple p)) j f =
      ((tripleField (left.getD j (0, 0, 0)) f).view p, (tripleField (right.getD j (0, 0, 0)) f).view p) := by
  unfold sharedIdField
  simp only [viewTriple_getD]
  match f with
  | 0 => rfl
  | 1 => rfl
  | _ + 2 => rfl

/-- The entries that a list of bits selects. -/
def selectEntries {α : Type} (bs : List Bool) (left right : List α) : List α :=
  List.zipWith (fun b q => if b then q.1 else q.2) bs (left.zip right)

variable {R : Type} [Rng R] {t : RingTy}

theorem conditionallySelectDistancesWithSharedIds_succeeds {left right : List (Triple t.bits)} (hne : left ≠ [])
    (hright : right.length = left.length) {bs : List Bool} (hbs : bs.length = left.length)
    {c : Party → List (Share t.bits)} (hc : SharesOf c (bs.map (indicator t.bits))) :
    Succeeds (fun p => (conditionallySelectDistancesWithSharedIds t (left.map (viewTriple p))
      (right.map (viewTriple p)) (c p) : Proc R _)) fun r =>
      EntriesOf r (selectEntries bs (left.map openTriple) (right.map openTriple)) := by
  have hcn : ∀ p, (c p).length = left.length := by
    intro p
    rw [hc.length, List.length_map, hbs]
  have hempty : ∀ p, (left.map (viewTriple p)).isEmpty = false := by simpa using hne
  simp only [conditionallySelectDistancesWithSharedIds, hempty, List.length_map, hcn, hright, ne_eq, not_true_eq_false,
    if_false, Bool.false_eq_true]
  refine (reshareMux_succeeds (by decide) (fun p => (hcn p).ge) _).bind fun flat hflat => Succeeds.pure ?_
  obtain ⟨ps, hpn, hps, hsum⟩ := hflat.exists_components
  obtain ⟨cs, hcs, hbits⟩ := hc
  refine ⟨(List.range left.length).map fun j => (ps.getD (j * 3) 0, ps.getD (j * 3 + 1) 0, ps.getD (j * 3 + 2) 0),
    fun p => ?_, ?_⟩
  · have hall : ps = (List.range (left.length * 3)).map fun i => ps.getD i 0 := by
      refine List.ext_getElem (by simp [hpn]) fun i hi hi' => ?_
      rw [List.getElem_map, List.getElem_range, List.getD_eq_getElem _ _ hi]
    show tuples3 (flat p) = _
    rw [hps p, hall, List.map_map, tuples3_range, List.map_map]
    simp only [← hall]
    rfl
  · have hcslen : cs.length = left.length := by
      have hlengths := congrArg List.length hbits
      rw [List.length_map, List.length_map] at hlengths
      exact hlengths.trans hbs
    refine List.ext_getElem (by simp [selectEntries, hbs, hright]) fun j hj hj' => ?_
    have hlt : j < left.length := by simpa using hj
    have hjr : j < right.length := hright.symm ▸ hlt
    have hjc : j < cs.length := hcslen.symm ▸ hlt
    have hjb : j < bs.length := hbs.symm ▸ hlt
    have hbit : cs[j].sum = indicator t.bits bs[j] := by
      have hget := congrArg (fun l => l.getD j 0) hbits
      rw [getD_map_of_lt hjc, getD_map_of_lt hjb] at hget
      exact hget
    have hfield : ∀ f, f < 3 → (ps.getD (j * 3 + f) 0).sum =
        (tripleField (if bs[j] then left[j] else right[j]) f).sum := by
      intro f hf
      rw [hsum _ (by omega), sum_muxExpr_field
        (g := fun p => sharedIdField (left.map (viewTriple p)) (right.map (viewTriple p))) hcs
        (fun p => sharedIdField_eq p left right j f) hjc hf, hbit, List.getD_eq_getElem _ _ hlt,
        List.getD_eq_getElem _ _ hjr]
      cases bs[j] with
      | false =>
        show 0 * _ + _ = _
        rw [zero_mul, zero_add]
        rfl
      | true =>
        show 1 * _ + _ = _
        rw [one_mul, sub_add_cancel]
        rfl
    simp only [selectEntries, List.getElem_map, List.getElem_range, List.getElem_zipWith, List.getElem_zip]
    rw [← apply_ite openTriple]
    exact Prod.ext (hfield 0 (by decide)) (Prod.ext (hfield 1 (by decide)) (hfield 2 (by decide)))

/-- Empty lists and lists of different lengths are errors, found in this order. -/
theorem conditionallySelectDistancesWithSharedIds_bails {l r : List (IdDistance t.bits)} {c : List (Share t.bits)}
    (h : l = [] ∨ c.length ≠ l.length ∨ r.length ≠ l.length) :
    (conditionallySelectDistancesWithSharedIds t l r c : Proc R _) = Proc.lift (.bail
      (if l = [] then "Distances must not be empty"
      else if l.length ≠ c.length then "Number of distances must match number of control bits"
      else "Left and right distances must have the same length")) := by
  unfold conditionallySelectDistancesWithSharedIds
  by_cases hl : l = []
  · rw [if_pos hl, if_pos (List.isEmpty_iff.mpr hl)]
  · have hempty : ¬ l.isEmpty = true := mt List.isEmpty_iff.mp hl
    rw [if_neg hl, if_neg hempty]
    by_cases hc : l.length ≠ c.length
    · rw [if_pos hc, if_pos hc]
    · have hr : l.length ≠ r.length := by
        rcases h with h | h | h
        · exact absurd h hl
        · exact absurd h.symm hc
        · exact h.symm
      rw [if_neg hc, if_neg hc, if_pos hr]

omit [Rng R] in
theorem settles_of_bails {α : Type} {x : Party → Proc R α} {m : Party → String}
    (h : ∀ p, x p = Proc.lift (.bail (m p))) {σ : Party → Prf R} (hσ : Lockstep σ) :
    Network.Settles nextParty (fun p => x p (σ p)) fun o => ∀ p, (o p).1 = .bail (m p) := by
  have hends : Ends (fun p => (Proc.lift (.bail (m p)) : Proc R α)) fun o => ∀ p, o p = .bail (m p) :=
    Ends.lift fun _ => rfl
  simp only [h]
  exact hends.settles hσ

/-- An entry with its distance in the ring. -/
def ringEntry (e : BitVec 32 × Int × Int) : BitVec 32 × BitVec 32 × BitVec 32 := (e.1, toRing e.2)

/-- The distances of two lists of entries, in pairs. -/
def distancePairs (left right : List (IdDistance 32)) : List (DistancePair 32) :=
  (left.zip right).map fun q => (q.1.2, q.2.2)

theorem pairsOf_distancePairs {left right : List (Triple 32)} {xs ys : List (BitVec 32 × Int × Int)}
    (hx : left.map openTriple = xs.map ringEntry) (hy : right.map openTriple = ys.map ringEntry) :
    PairsOf (fun p => distancePairs (left.map (viewTriple p)) (right.map (viewTriple p)))
      ((xs.zip ys).map fun q => (toRing q.1.2, toRing q.2.2)) := by
  refine ⟨(left.zip right).map fun q => (q.1.2, q.2.2), fun p => ?_, ?_⟩
  · show distancePairs (left.map (viewTriple p)) (right.map (viewTriple p)) = _
    unfold distancePairs
    rw [List.zip_map, List.map_map, List.map_map]
    rfl
  · calc ((left.zip right).map fun q => (q.1.2, q.2.2)).map (fun q => (Rep3Distance.value q.1, Rep3Distance.value q.2))
          = ((left.map openTriple).zip (right.map openTriple)).map fun q => (q.1.2, q.2.2) := by
            rw [List.zip_map, List.map_map, List.map_map]
            rfl
      _ = (xs.zip ys).map fun q => (toRing q.1.2, toRing q.2.2) := by
            rw [hx, hy, List.zip_map, List.map_map]
            rfl

/-- The bits of the comparison select the entry with the smaller distance; the right one when they are equal. -/
theorem selectEntries_closer {xs ys : List (BitVec 32 × Int × Int)} (hx : ∀ e ∈ xs, DistanceFits e.2)
    (hy : ∀ e ∈ ys, DistanceFits e.2) :
    selectEntries ((xs.zip ys).map fun q => (cross (toRing q.1.2) (toRing q.2.2)).msb) (xs.map ringEntry)
      (ys.map ringEntry) = (xs.zip ys).map fun q => ringEntry (if Closer q.2.2 q.1.2 then q.2 else q.1) := by
  unfold selectEntries
  rw [List.zip_map, List.zipWith_map, List.zipWith_self]
  refine List.map_congr_left fun q hq => ?_
  obtain ⟨hfirst, hsecond⟩ := List.of_mem_zip hq
  rw [msb_cross (hx q.1 hfirst) (hy q.2 hsecond)]
  by_cases h : Closer q.2.2 q.1.2
  · have hnot : ¬ q.2.2.1 * q.1.2.2 < q.1.2.1 * q.2.2.2 := not_lt.mpr h
    simp [h, hnot]
  · have hlt : q.2.2.1 * q.1.2.2 < q.1.2.1 * q.2.2.2 := not_le.mp h
    simp [h, hlt]

/-- **Selection with shared ids.** In every ring the control bits select whole entries, so that the opened id belongs to
the opened distance. With the bits of the comparison the entry with the smaller distance is left, with its id. Empty
lists and lists of different lengths are errors at all parties. -/
theorem conditionallySelectDistancesWithSharedIds_correct (sid : BitVec 32) (σ : Party → Prf R) (hσ : Lockstep σ) :
    (∀ (t : RingTy) (xs ys : List (BitVec t.bits × BitVec t.bits × BitVec t.bits))
      (l r : Party → List (IdDistance t.bits)) (bs : List Bool) (c : Party → List (Share t.bits)), EntriesOf l xs →
      EntriesOf r ys → SharesOf c (bs.map (indicator t.bits)) → xs ≠ [] → ys.length = xs.length →
      bs.length = xs.length →
      SettlesOn (fun p => conditionallySelectDistancesWithSharedIds t (l p) (r p) (c p)) σ (selectEntries bs xs ys)) ∧
    (∀ (xs ys : List (BitVec 32 × Int × Int)) (l r : Party → List (IdDistance 32)), EntriesOf l (xs.map ringEntry) →
      EntriesOf r (ys.map ringEntry) → xs ≠ [] → ys.length = xs.length → (∀ e ∈ xs, DistanceFits e.2) →
      (∀ e ∈ ys, DistanceFits e.2) →
      SettlesOn (t := .u32) (fun p => obliviousCrossCompareLifted ⟨p, sid⟩ (distancePairs (l p) (r p)) >>= fun bits =>
        conditionallySelectDistancesWithSharedIds .u32 (l p) (r p) bits) σ
        ((xs.zip ys).map fun q => ringEntry (if Closer q.2.2 q.1.2 then q.2 else q.1))) ∧
    (∀ (t : RingTy) (l r : Party → List (IdDistance t.bits)) (c : Party → List (Share t.bits)),
      (∀ p, l p = [] ∨ (c p).length ≠ (l p).length ∨ (r p).length ≠ (l p).length) →
      Network.Settles nextParty (fun p => conditionallySelectDistancesWithSharedIds t (l p) (r p) (c p) (σ p)) fun o =>
        ∀ p, (o p).1 = .bail
          (if l p = [] then "Distances must not be empty"
          else if (l p).length ≠ (c p).length then "Number of distances must match number of control bits"
          else "Left and right distances must have the same length")) := by
  have hcount : ∀ {K : Nat} {α : Type} {zs : List (Triple K)} {l : List α}
      {f : α → BitVec K × BitVec K × BitVec K}, zs.map openTriple = l.map f → zs.length = l.length := by
    intro K α zs l f h
    simpa using congrArg List.length h
  refine ⟨?_, ?_, ?_⟩
  · intro t xs ys l r bs c hl hr hc hne hlen hbs
    obtain ⟨zs, hz, rfl⟩ := hl
    obtain ⟨ws, hw, rfl⟩ := hr
    obtain rfl := funext hz
    obtain rfl := funext hw
    rw [List.length_map] at hbs
    rw [List.length_map, List.length_map] at hlen
    have hne' : zs ≠ [] := by simpa using hne
    obtain ⟨o, _, hjoint, -, ho⟩ :=
      conditionallySelectDistancesWithSharedIds_succeeds (R := R) hne' hlen hbs hc σ hσ
    exact hjoint.settles ⟨o, fun _ => rfl, ho⟩
  · intro xs ys l r hl hr hne hlen hx hy
    obtain ⟨zs, hz, hopenz⟩ := hl
    obtain ⟨ws, hw, hopenw⟩ := hr
    obtain rfl := funext hz
    obtain rfl := funext hw
    have hzn := hcount hopenz
    have hwn := hcount hopenw
    have hne' : zs ≠ [] := by
      rintro rfl
      exact hne (List.length_eq_zero_iff.mp hzn.symm)
    have hrun : Succeeds (fun p => (obliviousCrossCompareLifted ⟨p, sid⟩ (distancePairs (zs.map (viewTriple p))
        (ws.map (viewTriple p))) >>= fun bits => conditionallySelectDistancesWithSharedIds .u32 (zs.map (viewTriple p))
        (ws.map (viewTriple p)) bits : Proc R _)) fun r => EntriesOf r
          ((xs.zip ys).map fun q => ringEntry (if Closer q.2.2 q.1.2 then q.2 else q.1)) := by
      refine (obliviousCrossCompareLifted_succeeds sid (pairsOf_distancePairs hopenz hopenw)).bind fun bits hbits => ?_
      have hindicators : SharesOf bits (((xs.zip ys).map fun q => (cross (toRing q.1.2) (toRing q.2.2)).msb).map
          (indicator 32)) := by
        rw [List.map_map] at hbits ⊢
        exact hbits
      have hbs : ((xs.zip ys).map fun q => (cross (toRing q.1.2) (toRing q.2.2)).msb).length = zs.length := by
        rw [List.length_map, List.length_zip, hlen, Nat.min_self, hzn]
      have hselect := conditionallySelectDistancesWithSharedIds_succeeds (R := R) (t := .u32) hne'
        (hwn.trans (hlen.trans hzn.symm)) hbs hindicators
      have hentries := selectEntries_closer hx hy
      rw [← hopenz, ← hopenw] at hentries
      exact hselect.mono fun o (ho : EntriesOf (K := 32) o _) => hentries ▸ ho
    obtain ⟨o, _, hjoint, -, ho⟩ := hrun σ hσ
    exact hjoint.settles ⟨o, fun _ => rfl, ho⟩
  · intro t l r c h
    exact settles_of_bails (fun p => conditionallySelectDistancesWithSharedIds_bails (h p)) hσ

end Selection

/-- A sharing of an entry. -/
def shareEntry (e : BitVec 32 × Int × Int) : Triple 32 := (![e.1 - 1, 1, 0], shareDistance (toRing e.2))

theorem entriesOf_shareEntry (l : List (BitVec 32 × Int × Int)) :
    EntriesOf (fun p => l.map fun e => viewTriple p (shareEntry e)) (l.map ringEntry) := by
  refine ⟨l.map shareEntry, fun p => ?_, ?_⟩
  · rw [List.map_map]
    rfl
  · rw [List.map_map]
    refine List.map_congr_left fun e _ => Prod.ext ?_ (value_shareDistance (toRing e.2))
    show e.1 - 1 + 1 + 0 = e.1
    ring

/-- The second entry is smaller in the first place, and an empty list is an error. -/
theorem conditionallySelectDistancesWithSharedIds_correct_two :
    SettlesOn (t := .u32) (fun p => obliviousCrossCompareLifted ⟨p, 1⟩ (distancePairs
        ([(7, 8, 10), (5, 9, 10)].map fun e => viewTriple p (shareEntry e))
        ([(6, 9, 10), (4, 1, 10)].map fun e => viewTriple p (shareEntry e))) >>= fun bits =>
      conditionallySelectDistancesWithSharedIds .u32
        ([(7, 8, 10), (5, 9, 10)].map fun e => viewTriple p (shareEntry e))
        ([(6, 9, 10), (4, 1, 10)].map fun e => viewTriple p (shareEntry e)) bits) stepStreams
      [ringEntry (6, 9, 10), ringEntry (5, 9, 10)] ∧
    Network.Settles nextParty (fun p => conditionallySelectDistancesWithSharedIds .u32 [] [] [] (stepStreams p))
      fun o => ∀ p : Party, (o p).1 = .bail "Distances must not be empty" := by
  have hfits : ∀ c : Int, 0 ≤ c → c < 10 → DistanceFits (c, 10) := by
    intro c hlow hhigh
    exact ⟨by simp only; omega, by simp only; omega, by norm_num, by norm_num⟩
  obtain ⟨-, hcloser, hempty⟩ := conditionallySelectDistancesWithSharedIds_correct 1 stepStreams lockstep_stepStreams
  constructor
  · refine hcloser _ _ _ _ (entriesOf_shareEntry [(7, 8, 10), (5, 9, 10)])
      (entriesOf_shareEntry [(6, 9, 10), (4, 1, 10)]) (by simp) rfl ?_ ?_
    · simp only [List.forall_mem_cons]
      exact ⟨hfits 8 (by norm_num) (by norm_num), hfits 9 (by norm_num) (by norm_num), by simp⟩
    · simp only [List.forall_mem_cons]
      exact ⟨hfits 9 (by norm_num) (by norm_num), hfits 1 (by norm_num) (by norm_num), by simp⟩
  · exact hempty .u32 (fun _ => []) (fun _ => []) (fun _ => []) fun _ => Or.inl rfl

end AmpcCommon.Protocol
