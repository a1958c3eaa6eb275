import AmpcCommon.Stats.Face
import AmpcCommon.Stats.Proofs.CountProofs

/-!
# Face statistics, proofs

A distance and a threshold are compared through the sign of their difference modulo `2^16`. So a distance is not only
counted where it is: it is also taken off the bucket of the distance opposite to it, which is `2^15` away
(`cumulative_add_misplaced`). The histogram is right when no such bucket exists.
-/

namespace AmpcCommon.Stats

open Protocol

/-- The number of distances in a bucket. -/
def bucketCount (distances : List (BitVec 16)) (low high : BitVec 16) : Nat :=
  distances.countP fun d => low.toInt ≤ d.toInt ∧ d.toInt < high.toInt

/-- The true histogram. -/
def histogram (F : Type) [F64 F] (distances thresholds : List (BitVec 16)) : List (BucketResult F) :=
  (thresholds.zip thresholds.tail).map fun (low, high) =>
    ⟨bucketCount distances low high, F64.ofInt low.toInt, F64.ofInt high.toInt⟩

/-- The value that is `2^15` away, modulo `2^16`. -/
def opposite (d : BitVec 16) : BitVec 16 := d + 0x8000#16

/-- The opposite of a distance lies between two of the thresholds. -/
def Misplaced (thresholds : List (BitVec 16)) (d : BitVec 16) : Prop :=
  (∃ low ∈ thresholds, low.toInt ≤ (opposite d).toInt) ∧ ∃ high ∈ thresholds, (opposite d).toInt < high.toInt

instance (thresholds : List (BitVec 16)) (d : BitVec 16) : Decidable (Misplaced thresholds d) :=
  @instDecidableAnd _ _ (List.decidableBEx _ thresholds) (List.decidableBEx _ thresholds)

/-- The count that is opened for a threshold. -/
def cumulative (distances : List (BitVec 16)) (threshold : BitVec 16) : Nat :=
  distances.countP fun d => (d - threshold).msb

/-- The distances whose opposite is in a bucket. -/
def misplacedCount (distances : List (BitVec 16)) (low high : BitVec 16) : Nat :=
  distances.countP fun d => low.toInt ≤ (opposite d).toInt ∧ (opposite d).toInt < high.toInt

/-! ## Counts -/

theorem toInt_opposite (d : BitVec 16) :
    (opposite d).toInt = if d.toInt < 0 then d.toInt + 2 ^ 15 else d.toInt - 2 ^ 15 := by
  have hlow := BitVec.le_toInt d
  have hhigh := BitVec.toInt_lt (x := d)
  have hsign : (0x8000#16).toInt = -2 ^ 15 := rfl
  unfold opposite
  rw [BitVec.toInt_add, hsign, Int.bmod_def]
  split_ifs <;> omega

/-- The sign bit of a difference modulo `2^16`. -/
theorem msb_sub_eq (d t : BitVec 16) : (d - t).msb =
    decide (d.toInt < t.toInt ∧ t.toInt ≤ d.toInt + 2 ^ 15 ∨ t.toInt + 2 ^ 15 ≤ d.toInt) := by
  have hd := BitVec.le_toInt d
  have hd' := BitVec.toInt_lt (x := d)
  have ht := BitVec.le_toInt t
  have ht' := BitVec.toInt_lt (x := t)
  rw [BitVec.msb_eq_toInt, BitVec.toInt_sub, Int.bmod_def, decide_eq_decide]
  split_ifs <;> omega

/-- The sign of a difference, by the signs of the differences as numbers. -/
theorem msb_sub (d t : BitVec 16) :
    (d - t).msb.toNat + (decide (d.toInt < 0)).toNat =
      (decide (d.toInt < t.toInt)).toNat + (decide (t.toInt ≤ (opposite d).toInt)).toNat := by
  have hd := BitVec.le_toInt d
  have hd' := BitVec.toInt_lt (x := d)
  have ht := BitVec.le_toInt t
  have ht' := BitVec.toInt_lt (x := t)
  rw [msb_sub_eq, toInt_opposite]
  simp only [toNat_decide]
  by_cases hneg : d.toInt < 0
  · rw [if_pos hneg, if_pos hneg]
    split_ifs <;> omega
  · rw [if_neg hneg, if_neg hneg]
    split_ifs <;> omega

theorem cumulative_add (distances : List (BitVec 16)) (t : BitVec 16) :
    cumulative distances t + distances.countP (fun d => d.toInt < 0) =
      distances.countP (fun d => d.toInt < t.toInt) + distances.countP fun d => t.toInt ≤ (opposite d).toInt :=
  countP_add_eq distances fun d => msb_sub d t

/-- The values below the end of an interval are those below its start and those in it. -/
theorem toNat_lt_eq_add {low high : Int} (h : low ≤ high) (x : Int) :
    (decide (x < high)).toNat = (decide (x < low)).toNat + (decide (low ≤ x ∧ x < high)).toNat := by
  simp only [toNat_decide]
  split_ifs <;> omega

/-- The values from the start of an interval on are those from its end on and those in it. -/
theorem toNat_le_eq_add {low high : Int} (h : low ≤ high) (x : Int) :
    (decide (low ≤ x)).toNat = (decide (high ≤ x)).toNat + (decide (low ≤ x ∧ x < high)).toNat := by
  simp only [toNat_decide]
  split_ifs <;> omega

/-- The count of a bucket is off by the distances that are opposite to it. -/
theorem cumulative_add_misplaced (distances : List (BitVec 16)) {low high : BitVec 16} (h : low.toInt ≤ high.toInt) :
    cumulative distances high + misplacedCount distances low high =
      cumulative distances low + bucketCount distances low high := by
  have hlow := cumulative_add distances low
  have hhigh := cumulative_add distances high
  have hbelow : distances.countP (fun d => d.toInt < high.toInt) =
      distances.countP (fun d => d.toInt < low.toInt) + bucketCount distances low high :=
    countP_eq_add distances fun d => toNat_lt_eq_add h d.toInt
  have habove : distances.countP (fun d => low.toInt ≤ (opposite d).toInt) =
      distances.countP (fun d => high.toInt ≤ (opposite d).toInt) + misplacedCount distances low high :=
    countP_eq_add distances fun d => toNat_le_eq_add h (opposite d).toInt
  omega

theorem lt_of_mem_zip_tail {thresholds : List (BitVec 16)} (h : thresholds.Pairwise fun t t' => t.toInt < t'.toInt)
    {q : BitVec 16 × BitVec 16} (hq : q ∈ thresholds.zip thresholds.tail) : q.1.toInt < q.2.toInt := by
  obtain ⟨i, hi, rfl⟩ := List.getElem_of_mem hq
  rw [List.getElem_zip, List.getElem_tail]
  exact List.pairwise_iff_getElem.mp h i (i + 1) _ _ (Nat.lt_succ_self i)

/-- A value between two elements of an increasing list is between two that follow each other. -/
theorem exists_zip_tail {thresholds : List (BitVec 16)} (h : thresholds.Pairwise fun t t' => t.toInt < t'.toInt)
    (z : Int) : (∃ q ∈ thresholds.zip thresholds.tail, q.1.toInt ≤ z ∧ z < q.2.toInt) ↔
      (∃ low ∈ thresholds, low.toInt ≤ z) ∧ ∃ high ∈ thresholds, z < high.toInt := by
  induction thresholds with
  | nil => simp
  | cons t thresholds ih =>
    cases thresholds with
    | nil =>
      simp
    | cons t' thresholds =>
      rw [List.pairwise_cons] at h
      have hlt := h.1 t' List.mem_cons_self
      have hrest := (List.pairwise_cons.mp h.2).1
      have ih := ih h.2
      simp only [List.tail_cons, List.zip_cons_cons, List.mem_cons, exists_eq_or_imp] at ih ⊢
      rw [ih]
      by_cases hz : z < t'.toInt
      · have hnone : ¬ ∃ low ∈ thresholds, low.toInt ≤ z := by
          rintro ⟨low, hlow, hle⟩
          have := hrest low hlow
          omega
        simp [hz, hnone]
      · have hz' : ¬ z < t.toInt := by omega
        have hle : t'.toInt ≤ z := by omega
        simp [hz, hz', hle]

/-- No distance is opposite to a bucket when none is opposite to a value between two thresholds. -/
theorem misplacedCount_eq_zero_iff {distances thresholds : List (BitVec 16)}
    (h : thresholds.Pairwise fun t t' => t.toInt < t'.toInt) :
    (∀ q ∈ thresholds.zip thresholds.tail, misplacedCount distances q.1 q.2 = 0) ↔
      ∀ d ∈ distances, ¬ Misplaced thresholds d := by
  have hcount : ∀ low high : BitVec 16, misplacedCount distances low high = 0 ↔
      ∀ d ∈ distances, ¬ (low.toInt ≤ (opposite d).toInt ∧ (opposite d).toInt < high.toInt) := by
    intro low high
    unfold misplacedCount
    rw [List.countP_eq_zero]
    simp only [decide_eq_true_eq]
  simp only [hcount]
  constructor
  · intro hall d hd hmisplaced
    obtain ⟨q, hq, hlow, hhigh⟩ := (exists_zip_tail h (opposite d).toInt).mpr hmisplaced
    exact hall q hq d hd ⟨hlow, hhigh⟩
  · intro hall q hq d hd hbetween
    exact hall d hd ((exists_zip_tail h (opposite d).toInt).mp ⟨q, hq, hbetween⟩)

/-! ## The buckets -/

theorem mapM_eq_ok_map_iff {α β : Type} {f : α → Outcome β} {g : α → β} {l : List α} :
    l.mapM f = .ok (l.map g) ↔ ∀ a ∈ l, f a = .ok (g a) := by
  refine ⟨fun h => ?_, Outcome.mapM_eq_ok⟩
  induction l with
  | nil => simp
  | cons a l ih =>
    rw [List.mapM_cons] at h
    obtain ⟨b, hb, h⟩ := Outcome.bind_eq_ok.mp h
    obtain ⟨bs, hbs, h⟩ := Outcome.bind_eq_ok.mp h
    cases h
    simp only [List.mem_cons, forall_eq_or_imp]
    exact ⟨hb, ih hbs⟩

variable {F : Type} [F64 F]

/-- The buckets are the true ones exactly when no distance is misplaced. -/
theorem faceBuckets_eq_histogram_iff (overflowChecks : Bool) {distances thresholds : List (BitVec 16)}
    (hlen : distances.length < 2 ^ 32) (h : thresholds.Pairwise fun t t' => t.toInt < t'.toInt) :
    (faceBuckets overflowChecks (thresholds.map fun t => BitVec.ofNat 32 (cumulative distances t)) thresholds :
      Outcome (List (BucketResult F))) = .ok (histogram F distances thresholds) ↔
      ∀ d ∈ distances, ¬ Misplaced thresholds d := by
  rw [← misplacedCount_eq_zero_iff h]
  unfold faceBuckets histogram
  rw [if_neg (by simp)]
  have hzip : (thresholds.map fun t => BitVec.ofNat 32 (cumulative distances t)).zip thresholds =
      thresholds.map fun t => (BitVec.ofNat 32 (cumulative distances t), t) := by
    rw [List.zip, List.zipWith_map_left, List.zipWith_self]
  simp only [hzip, ← List.map_tail, List.zip_map, List.mapM_map]
  rw [mapM_eq_ok_map_iff]
  refine forall₂_congr fun q hq => ?_
  have hcount := cumulative_add_misplaced distances (lt_of_mem_zip_tail h hq).le
  have hbound : ∀ p : BitVec 16 → Bool, distances.countP p < 2 ^ 32 :=
    fun p => List.countP_le_length.trans_lt hlen
  have hsub : usizeSub overflowChecks (cumulative distances q.2) (cumulative distances q.1) =
      .ok (bucketCount distances q.1 q.2) ↔ misplacedCount distances q.1 q.2 = 0 := by
    refine (usizeSub_eq_ok (hbound _) (hbound _) (hbound _)).trans ?_
    show cumulative distances q.2 = cumulative distances q.1 + bucketCount distances q.1 q.2 ↔ _
    omega
  rw [← hsub]
  show (usizeSub overflowChecks (BitVec.ofNat 32 (cumulative distances q.2)).toNat
    (BitVec.ofNat 32 (cumulative distances q.1)).toNat >>= _) = _ ↔ _
  rw [cumulative, cumulative, toNat_count hlen, toNat_count hlen, Outcome.bind_eq_ok]
  constructor
  · rintro ⟨count, hok, hres⟩
    cases hres
    exact hok
  · intro hok
    exact ⟨_, hok, rfl⟩

/-! ## The job -/

variable {R : Type} [Rng R]

omit [F64 F] in
theorem sharesOf_cumulative {v : Party → List (Share 32)} {distances : List (BitVec 16)} {threshold : BitVec 16}
    (h : SharesOf v ((distances.map (· - threshold)).map fun x => indicator 32 x.msb)) :
    SharesOf (fun p => [(v p).foldl (· + ·) 0]) [BitVec.ofNat 32 (cumulative distances threshold)] := by
  have hsum := h.sum
  rw [List.map_map] at hsum
  have hcount := sum_indicator 32 (fun d => (d - threshold).msb) distances
  exact hcount ▸ hsum

theorem faceSums_succeeds (sid : BitVec 32) {v : Party → List (Share 16)} {distances : List (BitVec 16)}
    (h : SharesOf v distances) (thresholds : List (BitVec 16)) :
    Succeeds (fun p => (faceSums ⟨p, sid⟩ (v p) thresholds : Proc R _)) fun r =>
      SharesOf r (thresholds.map fun t => BitVec.ofNat 32 (cumulative distances t)) := by
  induction thresholds with
  | nil => exact Succeeds.pure SharesOf.nil
  | cons threshold thresholds ih =>
    have hshifted := h.subPub sid threshold
    have hbits := msbInject_sharesOf (R := R) (t := .u16) .u32 sid hshifted
    refine Succeeds.of_assoc (hbits.bind fun sums hsums => ?_)
    refine ih.bind fun rest hrest => Succeeds.pure ?_
    exact (sharesOf_cumulative hsums).append hrest

omit [F64 F] [Rng R] in
theorem joint_lift_map {α β : Type} (o : Party → Outcome α) (f : Party → α → β) (σ : Party → Prf R) :
    Joint (fun p => (Proc.lift (o p) >>= fun a => pure (f p a) : Proc R β)) σ (fun p => (o p).map (f p)) σ := by
  unfold Joint
  have hprog : (fun p => (Proc.lift (o p) >>= fun a => pure (f p a) : Proc R β) (σ p)) =
      fun p => .pure ((o p).map (f p), σ p) := by
    funext p
    show (Process.pure (o p, σ p)).bind (Proc.andThen _) = _
    cases o p <;> rfl
  rw [hprog]
  exact Network.Completes.pure _

/-- The statistics with the given buckets. -/
def faceReport (clock : Nat → DateTime) (jobSize : Nat) (config : AnonStatsServerConfig)
    (operation : Option AnonStatsOperation) (startTimestamp : Option DateTime) (buckets : List (BucketResult F)) :
    BucketStatistics F :=
  { (faceStatistics clock jobSize config operation startTimestamp : BucketStatistics F) with
    buckets := buckets, endTimeUtcTimestamp := some (clock 2) }

section Job

variable (overflowChecks : Bool) (clock : Party → Nat → DateTime) (sid : BitVec 32) (partyId : Party → Nat)
  (config : AnonStatsServerConfig) (operation : Option AnonStatsOperation) (startTimestamp : Party → Option DateTime)

/-- The job of a party: the parties have the same thresholds. -/
def faceJob (v : Party → List (Share 16)) (p : Party) : Proc R (BucketStatistics F) :=
  processFaceDistanceJob overflowChecks (clock p) ⟨p, sid⟩ (v p) { config with partyId := partyId p } operation
    (startTimestamp p)

/-- The job completes, and every party reports what `faceBuckets` makes of the cumulative counts. -/
theorem faceJob_joint {v : Party → List (Share 16)} {distances : List (BitVec 16)} (h : SharesOf v distances)
    {σ : Party → Prf R} (hσ : Lockstep σ) :
    ∃ σ', Joint (faceJob (F := F) overflowChecks clock sid partyId config operation startTimestamp v) σ
      (fun p => (faceBuckets overflowChecks
          (config.faceBucketThresholds.map fun t => BitVec.ofNat 32 (cumulative distances t))
          config.faceBucketThresholds).map
        (faceReport (clock p) distances.length { config with partyId := partyId p } operation
          (startTimestamp p))) σ' := by
  obtain ⟨opened, σ', hjoint, -, hopened⟩ := ((faceSums_succeeds (R := R) sid h config.faceBucketThresholds).bind
    fun sums hsums => openRing_succeeds (R := R) (t := .u32) hsums) σ hσ
  refine ⟨σ', ?_⟩
  have hlast := Joint.bind (f := fun p opened =>
      Proc.lift (faceBuckets overflowChecks opened config.faceBucketThresholds) >>= fun buckets =>
        pure (faceReport (F := F) (clock p) (v p).length { config with partyId := partyId p } operation
          (startTimestamp p) buckets)) hjoint (joint_lift_map _ _ σ')
  simp only [hopened, h.length] at hlast
  unfold faceJob processFaceDistanceJob
  simp only [h.length]
  exact hlast.of_assoc

/-- **Face statistics.** For every list of distances, every sharing, session and stream and in every schedule: the job
succeeds at every party with the true histogram exactly when no distance is `2^15` away, modulo `2^16`, from a value
between the first and the last threshold. -/
theorem processFaceDistanceJob_correct_iff (distances : List (BitVec 16)) (hlen : distances.length < 2 ^ 32)
    (hthresholds : config.faceBucketThresholds.Pairwise fun t t' => t.toInt < t'.toInt) (xs : List (Rep3 16))
    (hxs : xs.map Rep3.sum = distances) (σ : Party → Prf R) (hσ : Lockstep σ) :
    (Network.Settles nextParty (fun p => processFaceDistanceJob (F := F) overflowChecks (clock p) ⟨p, sid⟩
        (xs.map (Rep3.view p)) { config with partyId := partyId p } operation (startTimestamp p) (σ p)) fun o =>
      ∀ p, ∃ stats, (o p).1 = .ok stats ∧ stats.buckets = histogram F distances config.faceBucketThresholds) ↔
    ∀ d ∈ distances, ¬ Misplaced config.faceBucketThresholds d := by
  have hshares : SharesOf (fun p => xs.map (Rep3.view p)) distances := ⟨xs, fun p => rfl, hxs⟩
  obtain ⟨σ', hjoint⟩ := faceJob_joint (F := F) overflowChecks clock sid partyId config operation startTimestamp
    hshares hσ
  refine (Network.Completes.settles_iff hjoint).trans ?_
  rw [← faceBuckets_eq_histogram_iff (F := F) overflowChecks hlen hthresholds]
  generalize (faceBuckets overflowChecks _ config.faceBucketThresholds : Outcome (List (BucketResult F))) = o
  constructor
  · intro h
    obtain ⟨stats, hok, hbuckets⟩ := h 0
    cases o with
    | ok buckets =>
      cases hok
      exact congrArg Except.ok hbuckets
    | error e => cases hok
  · intro h p
    rw [h]
    exact ⟨_, rfl, rfl⟩

end Job

theorem processFaceDistanceJob_correct_iff_three :
    (Network.Settles nextParty (fun p => processFaceDistanceJob (F := ℚ) true (fun _ => 0) ⟨p, 1⟩
        ([![0xffff, 5, 3], ![0, 0xfff0, 0], ![100, 0, 100]].map (Rep3.view p))
        ⟨p.val, 0, 0, [0xff00, 0, 100], []⟩ none none (stepStreams p)) fun o =>
      ∀ p, ∃ stats, (o p).1 = .ok stats ∧ stats.buckets = histogram ℚ [7, 0xfff0, 200] [0xff00, 0, 100]) ∧
    (histogram ℚ [7, 0xfff0, 200] [0xff00, 0, 100]).map BucketResult.count = [1, 1] := by
  have hplaced : ∀ d ∈ [7, 0xfff0, 200], ¬ Misplaced [0xff00, 0, 100] d := by
    simp only [List.forall_mem_cons]
    exact ⟨by decide, by decide, by decide, nofun⟩
  refine ⟨(processFaceDistanceJob_correct_iff true (fun _ _ => 0) 1 Fin.val ⟨0, 0, 0, [0xff00, 0, 100], []⟩ none
    (fun _ => none) [7, 0xfff0, 200] (by simp) (by decide) [![0xffff, 5, 3], ![0, 0xfff0, 0], ![100, 0, 100]]
    (by decide) stepStreams lockstep_stepStreams).mpr hplaced, by decide⟩

/-- The job with the distance 32767 and the thresholds -1 and 0. -/
def extremeJob (overflowChecks : Bool) (p : Party) : Proc StepRng (BucketStatistics ℚ) :=
  processFaceDistanceJob overflowChecks (fun _ => 0) ⟨p, 1⟩ ([![0x7fff, 0, 0]].map (Rep3.view p))
    ⟨p.val, 0, 0, [0xffff, 0], []⟩ none none

/-- The distance is counted below -1 and not below 0: with overflow checks the subtraction panics, and without them the
count of the only bucket, where there is no distance, is `2^64 - 1`. -/
theorem extremeJob_settles :
    (Network.Settles nextParty (fun p => extremeJob true p (stepStreams p)) fun o =>
      ∀ p, (o p).1 = .panicked "attempt to subtract with overflow") ∧
    (Network.Settles nextParty (fun p => extremeJob false p (stepStreams p)) fun o =>
      ∀ p, ∃ stats, (o p).1 = .ok stats ∧ stats.buckets.map BucketResult.count = [2 ^ 64 - 1]) ∧
    (¬ Network.Settles nextParty (fun p => extremeJob true p (stepStreams p)) fun o =>
      ∀ p, ∃ stats, (o p).1 = .ok stats ∧ stats.buckets = histogram ℚ [0x7fff] [0xffff, 0]) ∧
    (¬ Network.Settles nextParty (fun p => extremeJob false p (stepStreams p)) fun o =>
      ∀ p, ∃ stats, (o p).1 = .ok stats ∧ stats.buckets = histogram ℚ [0x7fff] [0xffff, 0]) := by
  have hshares : SharesOf (fun p => [![0x7fff, 0, 0]].map (Rep3.view (K := 16) p)) [0x7fff] :=
    ⟨_, fun p => rfl, rfl⟩
  have hjoint := fun overflowChecks => faceJob_joint (F := ℚ) overflowChecks (fun _ _ => 0) 1 Fin.val
    ⟨0, 0, 0, [0xffff, 0], []⟩ none (fun _ => none) hshares lockstep_stepStreams
  obtain ⟨_, hchecked⟩ := hjoint true
  obtain ⟨_, hwrapped⟩ := hjoint false
  refine ⟨hchecked.settles fun p => rfl, hwrapped.settles fun p => ⟨_, rfl, rfl⟩, ?_, ?_⟩
  · intro h
    obtain ⟨stats, hok, -⟩ := (Network.Completes.settles_iff hchecked).mp h 0
    cases hok
  · intro h
    obtain ⟨stats, hok, hbuckets⟩ := (Network.Completes.settles_iff hwrapped).mp h 0
    cases hok
    have hcounts := congrArg (List.map BucketResult.count) hbuckets
    revert hcounts
    decide

end AmpcCommon.Stats
