import AmpcCommon.Protocol.Nhd
import AmpcCommon.Protocol.Proofs.DistanceProofs
import AmpcCommon.Protocol.Proofs.OpeningProofs
import AmpcCommon.Protocol.Proofs.PlainIdsProofs

/-!
# Normalized thresholds, proofs

Both threshold functions test the sign of a polynomial, and with `cd = md - 2 * hd` the polynomials are negatives of
each other (`nhdValue_eq`, `nhdPlaintextIsMatch_eq`). Neither overflows. Both inequalities are strict, so the functions
differ exactly at the zeros (`nhd_thresholds_agree_iff`).
-/

namespace AmpcCommon.Protocol

/-! ## The polynomial -/

/-- What `nhd_plaintext_is_match` compares with zero, as a number. -/
def nhdPolynomial (hd md : BitVec 16) (threshold : Nat) : Int :=
  md.toNat * (100 * hd.toNat - 45 * md.toNat) + (405504 - threshold) * md.toNat + 737280 * hd.toNat

/-- The code and mask dot products of a masked Hamming distance, in the ring with 48 bits. -/
def nhdDistance (d : BitVec 16 × BitVec 16) : BitVec 48 × BitVec 48 :=
  (BitVec.ofInt 48 (d.2.toNat - 2 * d.1.toNat), BitVec.ofInt 48 d.2.toNat)

/-- What `nhd_greater_than_threshold` compares with zero. -/
def nhdValue (d : BitVec 48 × BitVec 48) (threshold : Nat) : BitVec 48 :=
  d.2 * (d.1 * 50#48 - d.2 * 5#48) - d.2 * nhdThresholdA threshold + d.1 * 368640#48

theorem nhdPolynomial_bounds {hd md : BitVec 16} {threshold : Nat} (hle : hd.toNat ≤ md.toNat)
    (hthreshold : threshold ≤ 25 * 2 ^ 16) :
    -2 ^ 47 < nhdPolynomial hd md threshold ∧ nhdPolynomial hd md threshold < 2 ^ 47 := by
  have hmd : md.toNat ≤ 65535 := Nat.le_of_lt_succ md.isLt
  have hhd : hd.toNat ≤ 65535 := hle.trans hmd
  have hmh : md.toNat * hd.toNat ≤ 65535 * 65535 := Nat.mul_le_mul hmd hhd
  have hmm : md.toNat * md.toNat ≤ 65535 * 65535 := Nat.mul_le_mul hmd hmd
  have htm : threshold * md.toNat ≤ 25 * 2 ^ 16 * 65535 := Nat.mul_le_mul hthreshold hmd
  have heq : nhdPolynomial hd md threshold = 100 * ((md.toNat * hd.toNat : Nat) : Int) -
      45 * ((md.toNat * md.toNat : Nat) : Int) + 405504 * md.toNat - ((threshold * md.toNat : Nat) : Int) +
      737280 * hd.toNat := by
    unfold nhdPolynomial
    push_cast
    ring
  rw [heq]
  omega

/-- The two polynomials are negatives of each other. -/
theorem nhdValue_eq (d : BitVec 16 × BitVec 16) (threshold : Nat) :
    nhdValue (nhdDistance d) threshold = BitVec.ofInt 48 (-nhdPolynomial d.1 d.2 threshold) := by
  have h50 : 50#48 = BitVec.ofInt 48 50 := rfl
  have h5 : 5#48 = BitVec.ofInt 48 5 := rfl
  have hcode : 368640#48 = BitVec.ofInt 48 368640 := rfl
  have hthreshold : nhdThresholdA threshold = BitVec.ofInt 48 (774144 - threshold) := by
    rw [ofInt_sub]
    rfl
  unfold nhdValue nhdDistance
  simp only [h50, h5, hcode, hthreshold, ← BitVec.ofInt_mul, ← ofInt_sub, ← BitVec.ofInt_add]
  congr 1
  unfold nhdPolynomial
  ring

theorem nhdPlaintextIsMatch_eq {hd md : BitVec 16} {threshold : Nat} (hle : hd.toNat ≤ md.toNat)
    (hthreshold : threshold ≤ 25 * 2 ^ 16) :
    nhdPlaintextIsMatch hd md threshold = decide (nhdPolynomial hd md threshold < 0) := by
  have hvalue : md.setWidth 64 * (100#64 * hd.setWidth 64 - 45#64 * md.setWidth 64) +
      (405504#64 - BitVec.ofNat 64 threshold) * md.setWidth 64 + 737280#64 * hd.setWidth 64 =
        BitVec.ofInt 64 (nhdPolynomial hd md threshold) := by
    have h100 : 100#64 = BitVec.ofInt 64 100 := rfl
    have h45 : 45#64 = BitVec.ofInt 64 45 := rfl
    have hcorrection : 737280#64 = BitVec.ofInt 64 737280 := rfl
    have hplain : 405504#64 - BitVec.ofNat 64 threshold = BitVec.ofInt 64 (405504 - threshold) := by
      rw [ofInt_sub]
      rfl
    have hwiden : ∀ x : BitVec 16, x.setWidth 64 = BitVec.ofInt 64 x.toNat := by
      intro x
      exact BitVec.eq_of_toNat_eq (by simp)
    simp only [h100, h45, hcorrection, hplain, hwiden, ← BitVec.ofInt_mul, ← ofInt_sub, ← BitVec.ofInt_add]
    rfl
  obtain ⟨hlow, hhigh⟩ := nhdPolynomial_bounds hle hthreshold
  have hint : (BitVec.ofInt 64 (nhdPolynomial hd md threshold)).toInt = nhdPolynomial hd md threshold := by
    rw [BitVec.toInt_ofInt, Int.bmod_eq_of_le_mul_two (by omega) (by omega)]
  unfold nhdPlaintextIsMatch
  simp only [hvalue, BitVec.slt, hint]
  rfl

/-- The sign bit that is opened. -/
theorem msb_nhdValue {d : BitVec 16 × BitVec 16} {threshold : Nat} (hle : d.1.toNat ≤ d.2.toNat)
    (hthreshold : threshold ≤ 25 * 2 ^ 16) :
    (nhdValue (nhdDistance d) threshold).msb = decide (0 < nhdPolynomial d.1 d.2 threshold) := by
  obtain ⟨hlow, hhigh⟩ := nhdPolynomial_bounds hle hthreshold
  rw [nhdValue_eq, msb_ofInt_of_bounds 47 (by omega) (by omega)]
  exact decide_eq_decide.mpr (by omega)

/-! ## The protocol -/

section Programs

variable {R : Type} [Rng R]

/-- The comparison with a threshold leaves the sign of the polynomial. -/
theorem nhdGreaterThanThreshold_succeeds (sid : BitVec 32) {v : Party → List (DistanceShare 48)}
    {ds : List (BitVec 48 × BitVec 48)} (hv : DistancesOf v ds) (threshold : Nat) :
    Succeeds (fun p => (nhdGreaterThanThreshold ⟨p, sid⟩ (v p) threshold : Proc R _)) fun r =>
      SharesBits r (ds.map fun d => BitVec.ofBool (nhdValue d threshold).msb) := by
  have hn := hv.length
  obtain ⟨zs, hz, rfl⟩ := hv
  rw [List.length_map] at hn
  simp only [nhdGreaterThanThreshold, hn]
  refine (reshareProducts_succeeds (t := .ring48) zs.length _).bind fun products hproducts => ?_
  have hshares : SharesOf (K := 48) products (zs.map fun z => z.value.2 * (z.value.1 * 50#48 - z.value.2 * 5#48)) := by
    refine IsReshare.sharesOf (K := 48) hproducts (List.length_map _) fun i hi => ?_
    rw [List.length_map] at hi
    simp only [hz, getD_map_of_lt hi, List.getElem_map]
    have hlinear : ∀ p, (Rep3Distance.view p zs[i]).codeDot.mulConst 50#48 -
        (Rep3Distance.view p zs[i]).maskDot.mulConst 5#48 =
        Rep3.view p fun q => zs[i].1 q * 50#48 - zs[i].2 q * 5#48 := fun p => rfl
    simp only [hlinear]
    refine (sum_mul zs[i].2 _).trans (congrArg (zs[i].2.sum * ·) ?_)
    show Rep3.sum (fun q => zs[i].1 q * 50#48 - zs[i].2 q * 5#48) = zs[i].1.sum * 50#48 - zs[i].2.sum * 5#48
    unfold Rep3.sum
    ring
  obtain ⟨ps, hps, hsum⟩ := hshares
  have hlen : ps.length = zs.length := by
    have hlengths := congrArg List.length hsum
    rw [List.length_map, List.length_map] at hlengths
    exact hlengths
  have hresults : SharesOf (K := 48) (fun p => List.zipWith (fun (product : Share 48) (d : DistanceShare 48) =>
      product - d.maskDot.mulConst (nhdThresholdA threshold) + d.codeDot.mulConst 368640#48) (products p) (v p))
      (zs.map fun z => nhdValue z.value threshold) := by
    refine ⟨List.zipWith (fun (x : Rep3 48) (z : Rep3Distance 48) q =>
      x q - z.2 q * nhdThresholdA threshold + z.1 q * 368640#48) ps zs, fun p => ?_, ?_⟩
    · have hzip : ∀ xs : List (Rep3 48), List.zipWith (fun (product : Share 48) (d : DistanceShare 48) =>
          product - d.maskDot.mulConst (nhdThresholdA threshold) + d.codeDot.mulConst 368640#48)
          (xs.map (Rep3.view p)) (zs.map (Rep3Distance.view p)) = _ := fun xs => List.zipWith_map
      show List.zipWith _ (products p) (v p) = _
      rw [hps p, hz p]
      refine (hzip ps).trans ?_
      rw [List.map_zipWith]
      rfl
    · refine List.ext_getElem (by simp [hlen]) fun i hi hi' => ?_
      have hip : i < ps.length := by
        rw [List.length_map] at hi'
        omega
      have hiz : i < zs.length := by omega
      have hproduct : ps[i].sum = zs[i].value.2 * (zs[i].value.1 * 50#48 - zs[i].value.2 * 5#48) := by
        have hget := congrArg (fun l => l.getD i 0) hsum
        rw [getD_map_of_lt hip, getD_map_of_lt hiz] at hget
        exact hget
      rw [List.getElem_map, List.getElem_map, List.getElem_zipWith]
      unfold nhdValue
      rw [← hproduct]
      show (Rep3.sum fun q => ps[i] q - zs[i].2 q * nhdThresholdA threshold + zs[i].1 q * 368640#48) =
        ps[i].sum - zs[i].2.sum * nhdThresholdA threshold + zs[i].1.sum * 368640#48
      unfold Rep3.sum
      ring
  have hds : ((zs.map Rep3Distance.value).map fun d => BitVec.ofBool (nhdValue d threshold).msb) =
      zs.map fun z => BitVec.ofBool (nhdValue z.value threshold).msb := List.map_map
  rw [hds]
  exact extractMsbBatch_map (t := .ring48) sid hresults

/-- The opened bits. -/
theorem openedThreshold_succeeds (sid : BitVec 32) {v : Party → List (DistanceShare 48)}
    {ds : List (BitVec 48 × BitVec 48)} (hv : DistancesOf v ds) (threshold : Nat) :
    Succeeds (fun p => (nhdGreaterThanThreshold ⟨p, sid⟩ (v p) threshold >>= openBin : Proc R _)) fun r =>
      ∀ p, r p = ds.map fun d => BitVec.ofBool (nhdValue d threshold).msb := by
  refine (nhdGreaterThanThreshold_succeeds sid hv threshold).bind fun r hr => ?_
  obtain ⟨bits, hbits, hxor⟩ := hr
  exact (openBin_succeeds hbits).mono fun o ho p => (ho p).trans hxor

/-- All parties open the same bits, and a bit is zero where the plaintext function reports a match. -/
def ThresholdsAgree (l : List (BitVec 16 × BitVec 16)) (threshold : Nat) (o : Party → Outcome (List (BitVec 1))) :
    Prop :=
  ∃ bits, (∀ p, o p = .ok bits) ∧
    List.Forall₂ (fun d b => nhdPlaintextIsMatch d.1 d.2 threshold = true ↔ b = 0) l bits

/-- A list of bits that are given by a test, compared with another one. -/
theorem forall₂_ofBool_iff {α : Type} (P : α → Prop) (f : α → Bool) (l : List α) :
    List.Forall₂ (fun d b => P d ↔ b = 0) l (l.map fun d => BitVec.ofBool (f d)) ↔ ∀ d ∈ l, (P d ↔ f d = false) := by
  have hbit : ∀ b : Bool, BitVec.ofBool b = 0 ↔ b = false := by decide
  rw [List.forall₂_map_right_iff, List.forall₂_same]
  simp only [hbit]

theorem thresholdsAgree_ok_iff (l : List (BitVec 16 × BitVec 16)) (threshold : Nat) (f : BitVec 16 × BitVec 16 → Bool) :
    ThresholdsAgree l threshold (fun _ => .ok (l.map fun d => BitVec.ofBool (f d))) ↔
      ∀ d ∈ l, (nhdPlaintextIsMatch d.1 d.2 threshold = true ↔ f d = false) := by
  rw [← forall₂_ofBool_iff]
  constructor
  · rintro ⟨bits, hok, hall⟩
    obtain rfl := Except.ok.inj (hok 0)
    exact hall
  · intro hall
    exact ⟨_, fun p => rfl, hall⟩

theorem thresholdsAgree_iff (sid : BitVec 32) (l : List (BitVec 16 × BitVec 16)) {v : Party → List (DistanceShare 48)}
    (hv : DistancesOf v (l.map nhdDistance)) (threshold : Nat) {σ : Party → Prf R} (hσ : Lockstep σ) :
    (Network.Settles nextParty (fun p => (nhdGreaterThanThreshold ⟨p, sid⟩ (v p) threshold >>= openBin) (σ p))
      fun o => ThresholdsAgree l threshold fun p => (o p).1) ↔
        ∀ d ∈ l, (nhdPlaintextIsMatch d.1 d.2 threshold = true ↔ (nhdValue (nhdDistance d) threshold).msb = false) := by
  obtain ⟨r, hr, hiff⟩ := (openedThreshold_succeeds (R := R) sid hv threshold).settles_iff hσ
    (ThresholdsAgree l threshold)
  rw [← thresholdsAgree_ok_iff l threshold fun d => (nhdValue (nhdDistance d) threshold).msb, hiff]
  simp only [hr, List.map_map, Function.comp_def]

/-- **The thresholds.** For all masked distances, every truncated threshold in its range, and every sharing, session and
stream: the plaintext function and the protocol agree exactly when the polynomial that both compare with zero is not
zero. -/
theorem nhd_thresholds_agree_iff (sid : BitVec 32) (l : List (BitVec 16 × BitVec 16))
    (hl : ∀ d ∈ l, d.1.toNat ≤ d.2.toNat) (threshold : Nat) (hthreshold : threshold ≤ 25 * 2 ^ 16)
    (v : Party → List (DistanceShare 48)) (hv : DistancesOf v (l.map nhdDistance)) (σ : Party → Prf R)
    (hσ : Lockstep σ) :
    (Network.Settles nextParty (fun p => (nhdGreaterThanThreshold ⟨p, sid⟩ (v p) threshold >>= openBin) (σ p))
      fun o => ThresholdsAgree l threshold fun p => (o p).1) ↔
        ∀ d ∈ l, nhdPolynomial d.1 d.2 threshold ≠ 0 := by
  rw [thresholdsAgree_iff sid l hv threshold hσ]
  refine forall₂_congr fun d hd => ?_
  rw [nhdPlaintextIsMatch_eq (hl d hd) hthreshold, msb_nhdValue (hl d hd) hthreshold]
  simp only [decide_eq_true_eq, decide_eq_false_iff_not]
  omega

end Programs

/-- A sharing of masked distances. -/
def nhdShares (l : List (BitVec 16 × BitVec 16)) (p : Party) : List (DistanceShare 48) :=
  l.map fun d => Rep3Distance.view p (![(nhdDistance d).1 - 5, 2, 3], ![(nhdDistance d).2 - 1, 0, 1])

theorem distancesOf_nhdShares (l : List (BitVec 16 × BitVec 16)) : DistancesOf (nhdShares l) (l.map nhdDistance) := by
  refine ⟨l.map fun d => (![(nhdDistance d).1 - 5, 2, 3], ![(nhdDistance d).2 - 1, 0, 1]), fun p => ?_, ?_⟩
  · rw [List.map_map]
    rfl
  · rw [List.map_map]
    refine List.map_congr_left fun d _ => Prod.ext ?_ ?_
    · show (nhdDistance d).1 - 5 + 2 + 3 = (nhdDistance d).1
      rw [add_assoc, show (2 : BitVec 48) + 3 = 5 from rfl, sub_add_cancel]
    · show (nhdDistance d).2 - 1 + 0 + 1 = (nhdDistance d).2
      rw [add_zero, sub_add_cancel]

/-- At the threshold ratio 0.375 both functions say that 100 of 500 bits are a match. -/
theorem nhd_thresholds_agree_match :
    Network.Settles nextParty (fun p => (nhdGreaterThanThreshold ⟨p, 0⟩ (nhdShares [(100, 500)] p) 614400 >>= openBin)
      (stepStreams p)) fun o => ThresholdsAgree [(100, 500)] 614400 fun p => (o p).1 :=
  (nhd_thresholds_agree_iff 0 [(100, 500)] (by simp) 614400 (by decide) (nhdShares [(100, 500)])
    (distancesOf_nhdShares _) stepStreams lockstep_stepStreams).mpr (by simp [nhdPolynomial])

/-- No bit of one differs at the truncated threshold 405459, and none of none at any threshold: the plaintext function
reports no match, the opened bit is zero. -/
theorem nhd_thresholds_disagree :
    (¬ Network.Settles nextParty (fun p => (nhdGreaterThanThreshold ⟨p, 0⟩ (nhdShares [(0, 1)] p) 405459 >>= openBin)
      (stepStreams p)) fun o => ThresholdsAgree [(0, 1)] 405459 fun p => (o p).1) ∧
    ¬ Network.Settles nextParty (fun p => (nhdGreaterThanThreshold ⟨p, 0⟩ (nhdShares [(0, 0)] p) 614400 >>= openBin)
      (stepStreams p)) fun o => ThresholdsAgree [(0, 0)] 614400 fun p => (o p).1 := by
  constructor
  · intro h
    have hagree := (thresholdsAgree_iff 0 _ (distancesOf_nhdShares _) _ lockstep_stepStreams).mp h (0, 1) (by simp)
    revert hagree
    decide
  · intro h
    have hagree := (thresholdsAgree_iff 0 _ (distancesOf_nhdShares _) _ lockstep_stepStreams).mp h (0, 0) (by simp)
    revert hagree
    decide

end AmpcCommon.Protocol
