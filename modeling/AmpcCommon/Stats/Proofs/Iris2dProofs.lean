import AmpcCommon.Stats.Proofs.HistogramProofs

/-!
# Two-dimensional statistics, proofs

Both jobs are instances of the outer product: a bundle passes a threshold on a side when the smallest distance of the
side passes it (`MinPasses`), or when the score of the side is below it. In both cases the tests grow with the
thresholds, so the report is the histogram.
-/

namespace AmpcCommon.Stats

open Protocol

/-! ## Smallest distances -/

/-- A smallest distance of the group passes the threshold. -/
def MinPasses (a : BitVec 32) (group : List (Int × Int)) : Prop := ∃ m ∈ group, IsMinDistance group m ∧ Passes a m

instance (a : BitVec 32) (group : List (Int × Int)) : Decidable (MinPasses a group) := List.decidableBEx _ group

theorem Passes.closer {a : BitVec 32} {m e : Int × Int} (hm : 0 < m.2) (he : 0 < e.2) (h : Passes a e)
    (hcloser : Closer m e) : Passes a m := by
  unfold Passes Closer at *
  refine lt_of_mul_lt_mul_right ?_ he.le
  calc m.2 * a.toNat * e.2 = e.2 * a.toNat * m.2 := by ring
    _ < e.1 * 2 ^ 16 * m.2 := Int.mul_lt_mul_of_pos_right h hm
    _ = e.1 * m.2 * 2 ^ 16 := by ring
    _ ≤ m.1 * e.2 * 2 ^ 16 := Int.mul_le_mul_of_nonneg_right hcloser (by norm_num)
    _ = m.1 * 2 ^ 16 * e.2 := by ring

/-- The smallest distances of a group pass the same thresholds. -/
theorem minPasses_iff {a : BitVec 32} {group : List (Int × Int)} {m : Int × Int} (hm : IsMinDistance group m)
    (hgroup : ∀ d ∈ group, DistanceInRange d) : MinPasses a group ↔ Passes a m := by
  constructor
  · rintro ⟨e, he, -, hpass⟩
    exact Passes.closer (hgroup m hm.1).fits.mask_pos (hgroup e he).fits.mask_pos hpass (hm.2 e he)
  · intro hpass
    exact ⟨m, hm.1, hm, hpass⟩

theorem Passes.mono {a a' : BitVec 32} {d : Int × Int} (hd : 0 ≤ d.2) (h : Passes a d) (hle : a'.toNat ≤ a.toNat) :
    Passes a' d := by
  have hmul : d.2 * (a'.toNat : Int) ≤ d.2 * a.toNat := Int.mul_le_mul_of_nonneg_left (by exact_mod_cast hle) hd
  exact hmul.trans_lt h

theorem map_eq_of_forall₂ {α β γ : Type} {r : α → β → Prop} {as : List α} {bs : List β} (h : List.Forall₂ r as bs)
    {f : α → γ} {g : β → γ} (hfg : ∀ a ∈ as, ∀ b, r a b → f a = g b) : as.map f = bs.map g := by
  induction h with
  | nil => rfl
  | cons hr _ ih =>
    rw [List.map_cons, List.map_cons, hfg _ List.mem_cons_self _ hr,
      ih fun a ha b hab => hfg a (List.mem_cons_of_mem _ ha) b hab]

/-- The comparisons of the smallest distances. -/
theorem map_passes {β : Type} {side : β → List (Int × Int)} {bundles : List β} {ms : List (Int × Int)}
    (hmin : List.Forall₂ IsMinDistance (bundles.map side) ms) (hrange : ∀ b ∈ bundles, ∀ d ∈ side b, DistanceInRange d)
    (a : BitVec 32) : ms.map (fun m => indicator 32 (Passes a m)) =
      bundles.map fun b => indicator 32 (MinPasses a (side b)) := by
  refine (map_eq_of_forall₂ (List.forall₂_map_left_iff.mp hmin) fun b hb m hm => ?_).symm
  rw [decide_eq_decide.mpr (minPasses_iff hm (hrange b hb))]

/-- The comparisons with a list of thresholds, by the positions of the thresholds. -/
theorem flatMap_comparisons {α β : Type} {terms : List α} {d : α} {l : List β} {p : α → β → Bool}
    {f : α → List (BitVec 32)} (h : ∀ a ∈ terms, f a = l.map fun x => indicator 32 (p a x)) :
    terms.flatMap f =
      (List.range terms.length).flatMap fun i => l.map fun x => indicator 32 (p (terms.getD i d) x) := by
  have hterms : terms = (List.range terms.length).map fun i => terms.getD i d := by
    refine List.ext_getElem (by simp) fun i hi hi' => ?_
    rw [List.getElem_map, List.getElem_range, List.getD_eq_getElem _ _ hi]
  rw [List.flatMap_congr h]
  nth_rewrite 1 [hterms]
  rw [List.flatMap_map]

theorem getD_of_pairwise {α : Type} {r : α → α → Prop} {l : List α} {d : α} (h : l.Pairwise r) (hrefl : ∀ a, r a a)
    {i j : Nat} (hij : i ≤ j) (hj : j < l.length) : r (l.getD i d) (l.getD j d) := by
  rw [List.getD_eq_getElem _ _ (hij.trans_lt hj), List.getD_eq_getElem _ _ hj]
  rcases Nat.lt_or_eq_of_le hij with hlt | rfl
  · exact List.pairwise_iff_getElem.mp h i j _ _ hlt
  · exact hrefl _

variable {R : Type} [Rng R] {F : Type} [F64 F]

/-! ## Fractional distances -/

/-- The distances of the left and of the right side. -/
abbrev Bundle := List (Int × Int) × List (Int × Int)

/-- The sides of a bundle are not empty, and their distances in range. -/
structure Bundle.Valid (b : Bundle) : Prop where
  left_ne : b.1 ≠ []
  right_ne : b.2 ≠ []
  left_range : ∀ d ∈ b.1, DistanceInRange d
  right_range : ∀ d ∈ b.2, DistanceInRange d

/-- The left side passes the threshold number `i`. -/
def leftPasses (terms : List (BitVec 32)) (i : Nat) (b : Bundle) : Bool := MinPasses (terms.getD i 0) b.1

/-- The right side passes the threshold number `i`. -/
def rightPasses (terms : List (BitVec 32)) (i : Nat) (b : Bundle) : Bool := MinPasses (terms.getD i 0) b.2

/-- With non-increasing terms, what passes a threshold passes the later ones. -/
theorem minPasses_grows {terms : List (BitVec 32)} (h : terms.Pairwise fun a a' => a'.toNat ≤ a.toNat)
    {g : Bundle → List (Int × Int)} {bundles : List Bundle}
    (hrange : ∀ b ∈ bundles, ∀ d ∈ g b, DistanceInRange d) :
    Grid.Grows (fun i b => decide (MinPasses (terms.getD i 0) (g b))) terms.length bundles := by
  intro b hb k i hki hi hpass
  obtain ⟨m, hm, hmin, hpass⟩ := of_decide_eq_true hpass
  have hle : (terms.getD i 0).toNat ≤ (terms.getD k 0).toNat := getD_of_pairwise h (fun a => le_refl _) hki hi
  exact decide_eq_true ⟨m, hm, hmin, Passes.mono (hrange b hb m hm).fits.mask_pos.le hpass hle⟩

theorem process2dCells_succeeds (sid : BitVec 32) {bundles : List Bundle} (hvalid : ∀ b ∈ bundles, b.Valid)
    {terms : List (BitVec 32)} (hterms : ∀ a ∈ terms, a.toNat ≤ 2 ^ 16)
    {left right : Party → List (List (DistanceShare 32))} (hleft : GroupsOf left (bundles.map Prod.fst))
    (hright : GroupsOf right (bundles.map Prod.snd)) :
    Succeeds (fun p => (process2dCells ⟨p, sid⟩ bundles.length terms.length terms (left p) (right p) : Proc R _))
      fun cells => ∀ p, cells p = openedCells (leftPasses terms) (rightPasses terms) terms.length bundles := by
  have hl : ∀ b ∈ bundles, ∀ d ∈ b.1, DistanceInRange d := fun b hb => (hvalid b hb).left_range
  have hr : ∀ b ∈ bundles, ∀ d ∈ b.2, DistanceInRange d := fun b hb => (hvalid b hb).right_range
  have hreduceLeft := reduceToMinDistanceBatch_succeeds (R := R) sid hleft
    (List.forall_mem_map.mpr fun b hb => (hvalid b hb).left_ne)
    (List.forall_mem_map.mpr fun b hb d hd => (hl b hb d hd).fits)
  have hreduceRight := reduceToMinDistanceBatch_succeeds (R := R) sid hright
    (List.forall_mem_map.mpr fun b hb => (hvalid b hb).right_ne)
    (List.forall_mem_map.mpr fun b hb d hd => (hr b hb d hd).fits)
  have hrange : ∀ {side : Bundle → List (Int × Int)} {ms : List (Int × Int)},
      List.Forall₂ IsMinDistance (bundles.map side) ms → (∀ b ∈ bundles, ∀ d ∈ side b, DistanceInRange d) →
        ∀ m ∈ ms, DistanceInRange m := by
    intro side ms hmin hside m hm
    obtain ⟨i, hi, rfl⟩ := List.getElem_of_mem hm
    have hmin := hmin.get (hmin.length_eq.symm ▸ hi) hi
    simp only [List.get_eq_getElem, List.getElem_map] at hmin
    exact hside _ (List.getElem_mem _) _ hmin.1
  unfold process2dCells
  refine hreduceLeft.bind fun minLeft hminLeft => hreduceRight.bind fun minRight hminRight => ?_
  obtain ⟨ms, hms, hmin⟩ := hminLeft
  obtain ⟨ms', hms', hmin'⟩ := hminRight
  refine (compareAgainstThresholdsBatched_succeeds sid hms (hrange hmin hl) hterms).bind fun comparisonsLeft hcl => ?_
  refine (compareAgainstThresholdsBatched_succeeds sid hms' (hrange hmin' hr) hterms).bind
    fun comparisonsRight hcr => ?_
  rw [flatMap_comparisons (d := 0) fun a _ => map_passes hmin hl a] at hcl
  rw [flatMap_comparisons (d := 0) fun a _ => map_passes hmin' hr a] at hcr
  exact openCells_succeeds hcl hcr

theorem length_of_mapM {α β : Type} {f : α → Outcome β} {l : List α} {bs : List β} (h : l.mapM f = .ok bs) :
    bs.length = l.length := by
  induction l generalizing bs with
  | nil =>
    cases h
    rfl
  | cons a l ih =>
    rw [List.mapM_cons] at h
    obtain ⟨b, -, h⟩ := Outcome.bind_eq_ok.mp h
    obtain ⟨bs, hbs, h⟩ := Outcome.bind_eq_ok.mp h
    cases h
    rw [List.length_cons, ih hbs, List.length_cons]

/-! ## Scores -/

/-- The left score is below the threshold number `i`. -/
def leftBelow (thresholds : List (BitVec 16)) (i : Nat) (b : BitVec 16 × BitVec 16) : Bool :=
  b.1.toInt < (thresholds.getD i 0).toInt

/-- The right score is below the threshold number `i`. -/
def rightBelow (thresholds : List (BitVec 16)) (i : Nat) (b : BitVec 16 × BitVec 16) : Bool :=
  b.2.toInt < (thresholds.getD i 0).toInt

theorem below_grows {thresholds : List (BitVec 16)} (h : thresholds.Pairwise fun t t' => t.toInt ≤ t'.toInt)
    {g : BitVec 16 × BitVec 16 → BitVec 16} (bundles : List (BitVec 16 × BitVec 16)) :
    Grid.Grows (fun i b => decide ((g b).toInt < (thresholds.getD i 0).toInt)) thresholds.length bundles := by
  intro b _ k i hki hi hpass
  have hle : (thresholds.getD k 0).toInt ≤ (thresholds.getD i 0).toInt :=
    getD_of_pairwise h (fun t => le_refl _) hki hi
  exact decide_eq_true ((of_decide_eq_true hpass).trans_le hle)

/-- The difference with a threshold does not overflow. -/
def ScoreFits (thresholds : List (BitVec 16)) (score : BitVec 16) : Prop :=
  ∀ t ∈ thresholds, -2 ^ 15 ≤ score.toInt - t.toInt ∧ score.toInt - t.toInt < 2 ^ 15

theorem msb_score {t score : BitVec 16} (hlow : -2 ^ 15 ≤ score.toInt - t.toInt)
    (hhigh : score.toInt - t.toInt < 2 ^ 15) : (score - t).msb = decide (score.toInt < t.toInt) := by
  rw [BitVec.msb_eq_toInt, BitVec.toInt_sub, Int.bmod_eq_of_le_mul_two (by omega) (by omega)]
  exact decide_eq_decide.mpr (by omega)

theorem compareAgainstThresholdsDi_succeeds (sid : BitVec 32) {v : Party → List (Share 16)}
    {distances : List (BitVec 16)}
    (h : SharesOf v distances) (thresholds : List (BitVec 16)) :
    Succeeds (fun p => (compareAgainstThresholdsDi ⟨p, sid⟩ (v p) thresholds : Proc R _)) fun r =>
      SharesOf r (thresholds.flatMap fun t => distances.map fun d => indicator 32 (d - t).msb) := by
  induction thresholds with
  | nil => exact Succeeds.pure SharesOf.nil
  | cons threshold thresholds ih =>
    have hbits := msbInject_sharesOf (R := R) (t := .u16) .u32 sid (h.subPub sid threshold)
    refine Succeeds.of_assoc (hbits.bind fun injected hinjected => ?_)
    refine ih.bind fun rest hrest => Succeeds.pure ?_
    have hmap : (distances.map (· - threshold)).map (fun x => indicator 32 x.msb) =
        distances.map fun d => indicator 32 (d - threshold).msb := List.map_map
    rw [List.flatMap_cons, ← hmap]
    exact SharesOf.append (K := 32) hinjected hrest

theorem processDi2dCells_succeeds (sid : BitVec 32) {bundles : List (BitVec 16 × BitVec 16)}
    {thresholds : List (BitVec 16)} (hleft : ∀ b ∈ bundles, ScoreFits thresholds b.1)
    (hright : ∀ b ∈ bundles, ScoreFits thresholds b.2) {jobs : Party → AnonStatsMapping (Share 16 × Share 16)}
    (hjobsLeft : SharesOf (fun p => (jobs p).intoBundles.map Prod.fst) (bundles.map Prod.fst))
    (hjobsRight : SharesOf (fun p => (jobs p).intoBundles.map Prod.snd) (bundles.map Prod.snd)) :
    Succeeds (fun p => (processDi2dCells ⟨p, sid⟩ (jobs p) thresholds : Proc R _)) fun cells =>
      ∀ p, cells p = openedCells (leftBelow thresholds) (rightBelow thresholds) thresholds.length bundles := by
  have hlen : ∀ p, (jobs p).len = bundles.length := by
    intro p
    have hlength := hjobsLeft.length p
    simpa [AnonStatsMapping.intoBundles, AnonStatsMapping.len] using hlength
  have hbits : ∀ {side : BitVec 16 × BitVec 16 → BitVec 16}, (∀ b ∈ bundles, ScoreFits thresholds (side b)) →
      ∀ t ∈ thresholds, (bundles.map side).map (fun d => indicator 32 (d - t).msb) =
        bundles.map fun b => indicator 32 (decide ((side b).toInt < t.toInt)) := by
    intro side hside t ht
    rw [List.map_map]
    refine List.map_congr_left fun b hb => ?_
    obtain ⟨hlow, hhigh⟩ := hside b hb t ht
    exact congrArg (indicator 32) (msb_score hlow hhigh)
  unfold processDi2dCells
  simp only [hlen]
  refine (compareAgainstThresholdsDi_succeeds sid hjobsLeft thresholds).bind fun comparisonsLeft hcl => ?_
  refine (compareAgainstThresholdsDi_succeeds sid hjobsRight thresholds).bind fun comparisonsRight hcr => ?_
  rw [flatMap_comparisons (d := 0) (hbits hleft)] at hcl
  rw [flatMap_comparisons (d := 0) (hbits hright)] at hcr
  exact openCells_succeeds hcl hcr

/-! ## The jobs -/

section Jobs

variable (clock : Party → Nat → DateTime) (sid : BitVec 32) (partyId : Party → Nat) (origin : Party → AnonStatsOrigin)
  (config : AnonStatsServerConfig) (operation : Option AnonStatsOperation) (startTimestamp : Party → Option DateTime)

theorem numBuckets2d_partyId (id : Nat) :
    numBuckets2d { config with partyId := id } operation = numBuckets2d config operation := by
  rcases operation with _ | operation
  · rfl
  · cases operation <;> rfl

/-- The ranges of the report. -/
def irisRange (config : AnonStatsServerConfig) (operation : Option AnonStatsOperation) : Nat → F × F :=
  stepRange (F64.div (upperThreshold2d operation) (F64.ofInt (numBuckets2d config operation)))

/-- The job of a party. -/
def irisJob (jobSize : Nat) (left right : Party → List (List (DistanceShare 32))) (p : Party) :
    Proc R (BucketStatistics2D F) :=
  process2dInner (clock p) ⟨p, sid⟩ jobSize (left p) (right p) (origin p) { config with partyId := partyId p } operation
    (startTimestamp p)

/-- The job of a party for deep identifiers. -/
def diJob (samplingRate : UInt8) (leftOppositeMirrorMatch rightOppositeMirrorMatch : Bool)
    (jobs : Party → AnonStatsMapping (Share 16 × Share 16)) (p : Party) : Proc R (BucketStatistics2D F) :=
  processDi2dAnonStatsJob (clock p) ⟨p, sid⟩ (jobs p) (origin p) { config with partyId := partyId p } operation
    (startTimestamp p) samplingRate leftOppositeMirrorMatch rightOppositeMirrorMatch

theorem irisJob_reports {bundles : List Bundle} (hlen : bundles.length < 2 ^ 32)
    (hvalid : ∀ b ∈ bundles, b.Valid) {terms : List (BitVec 32)}
    (hcalculate : calculateIrisThresholdA (numBuckets2d config operation) (upperThreshold2d operation : F) = .ok terms)
    (hsorted : terms.Pairwise fun a a' => a'.toNat ≤ a.toNat) (hterms : ∀ a ∈ terms, a.toNat ≤ 2 ^ 16)
    {left right : Party → List (List (DistanceShare 32))} (hleft : GroupsOf left (bundles.map Prod.fst))
    (hright : GroupsOf right (bundles.map Prod.snd)) {σ : Party → Prf R} (hσ : Lockstep σ) :
    ReportsHistogram (leftPasses terms) (rightPasses terms) (numBuckets2d config operation) bundles
      (irisRange config operation)
      (fun p => process2dCells ⟨p, sid⟩ bundles.length (numBuckets2d config operation) terms (left p) (right p))
      (irisJob (F := F) clock sid partyId origin config operation startTimestamp bundles.length left right) σ := by
  have hcount : terms.length = numBuckets2d config operation := by
    rw [length_of_mapM hcalculate, List.length_range]
  have hgrowsLeft := minPasses_grows hsorted (g := Prod.fst) fun b hb => (hvalid b hb).left_range
  have hgrowsRight := minPasses_grows hsorted (g := Prod.snd) fun b hb => (hvalid b hb).right_range
  have hcells := process2dCells_succeeds (R := R) sid hvalid hterms hleft hright
  rw [hcount] at hgrowsLeft hgrowsRight hcells
  refine reportsHistogram hlen hgrowsLeft hgrowsRight hcells ?_ hσ
  unfold irisJob process2dInner
  simp only [numBuckets2d_partyId]
  refine Succeeds.lift_bind (a := fun _ => terms) (fun p => hcalculate) ?_
  refine hcells.bind fun cells hcells => Succeeds.pure fun p => ?_
  exact congrArg (fillCells (irisRange config operation) (numBuckets2d config operation)) (hcells p)

theorem diJob_reports (samplingRate : UInt8) (leftOppositeMirrorMatch rightOppositeMirrorMatch : Bool)
    {bundles : List (BitVec 16 × BitVec 16)} (hlen : bundles.length < 2 ^ 32)
    (hsorted : config.di2dBucketThresholds.Pairwise fun t t' => t.toInt ≤ t'.toInt)
    (hleft : ∀ b ∈ bundles, ScoreFits config.di2dBucketThresholds b.1)
    (hright : ∀ b ∈ bundles, ScoreFits config.di2dBucketThresholds b.2)
    {jobs : Party → AnonStatsMapping (Share 16 × Share 16)}
    (hjobsLeft : SharesOf (fun p => (jobs p).intoBundles.map Prod.fst) (bundles.map Prod.fst))
    (hjobsRight : SharesOf (fun p => (jobs p).intoBundles.map Prod.snd) (bundles.map Prod.snd)) {σ : Party → Prf R}
    (hσ : Lockstep σ) :
    ReportsHistogram (leftBelow config.di2dBucketThresholds) (rightBelow config.di2dBucketThresholds)
      config.di2dBucketThresholds.length bundles (bucketLimits config.di2dBucketThresholds)
      (fun p => processDi2dCells ⟨p, sid⟩ (jobs p) config.di2dBucketThresholds)
      (diJob (F := F) clock sid partyId origin config operation startTimestamp samplingRate leftOppositeMirrorMatch
        rightOppositeMirrorMatch jobs) σ := by
  have hcells := processDi2dCells_succeeds (R := R) sid hleft hright hjobsLeft hjobsRight
  refine reportsHistogram hlen (below_grows hsorted (g := Prod.fst) bundles)
    (below_grows hsorted (g := Prod.snd) bundles) hcells ?_ hσ
  unfold diJob processDi2dAnonStatsJob
  refine hcells.bind fun cells hcells => Succeeds.pure fun p => ?_
  exact congrArg (fillCells (bucketLimits config.di2dBucketThresholds) config.di2dBucketThresholds.length) (hcells p)

/-- **Two-dimensional statistics.** For every list of bundles, every sharing, session and stream: the jobs report the
histogram, for all terms that do not increase and are at most `2^16`, and for all thresholds that do not decrease. -/
theorem histograms_correct (σ : Party → Prf R) (hσ : Lockstep σ) :
    (∀ (bundles : List Bundle), bundles.length < 2 ^ 32 → (∀ b ∈ bundles, b.Valid) → ∀ (terms : List (BitVec 32)),
      calculateIrisThresholdA (numBuckets2d config operation) (upperThreshold2d operation : F) = .ok terms →
      (terms.Pairwise fun a a' => a'.toNat ≤ a.toNat) → (∀ a ∈ terms, a.toNat ≤ 2 ^ 16) →
      ∀ (left right : Party → List (List (DistanceShare 32))), GroupsOf left (bundles.map Prod.fst) →
      GroupsOf right (bundles.map Prod.snd) →
      ReportsHistogram (leftPasses terms) (rightPasses terms) (numBuckets2d config operation) bundles
        (irisRange config operation)
        (fun p => process2dCells ⟨p, sid⟩ bundles.length (numBuckets2d config operation) terms (left p) (right p))
        (irisJob (F := F) clock sid partyId origin config operation startTimestamp bundles.length left right) σ) ∧
    (∀ (bundles : List (BitVec 16 × BitVec 16)), bundles.length < 2 ^ 32 →
      (config.di2dBucketThresholds.Pairwise fun t t' => t.toInt ≤ t'.toInt) →
      (∀ b ∈ bundles, ScoreFits config.di2dBucketThresholds b.1 ∧ ScoreFits config.di2dBucketThresholds b.2) →
      ∀ (jobs : Party → AnonStatsMapping (Share 16 × Share 16)),
      SharesOf (fun p => (jobs p).intoBundles.map Prod.fst) (bundles.map Prod.fst) →
      SharesOf (fun p => (jobs p).intoBundles.map Prod.snd) (bundles.map Prod.snd) →
      ∀ (samplingRate : UInt8) (leftOppositeMirrorMatch rightOppositeMirrorMatch : Bool),
      ReportsHistogram (leftBelow config.di2dBucketThresholds) (rightBelow config.di2dBucketThresholds)
        config.di2dBucketThresholds.length bundles (bucketLimits config.di2dBucketThresholds)
        (fun p => processDi2dCells ⟨p, sid⟩ (jobs p) config.di2dBucketThresholds)
        (diJob (F := F) clock sid partyId origin config operation startTimestamp samplingRate leftOppositeMirrorMatch
          rightOppositeMirrorMatch jobs) σ) := by
  constructor
  · intro bundles hlen hvalid terms hcalculate hsorted hterms left right hleft hright
    exact irisJob_reports clock sid partyId origin config operation startTimestamp hlen hvalid hcalculate hsorted hterms
      hleft hright hσ
  · intro bundles hlen hsorted hfits jobs hleft hright samplingRate leftOppositeMirrorMatch rightOppositeMirrorMatch
    exact diJob_reports clock sid partyId origin config operation startTimestamp samplingRate leftOppositeMirrorMatch
      rightOppositeMirrorMatch hlen hsorted (fun b hb => (hfits b hb).1) (fun b hb => (hfits b hb).2) hleft hright hσ

end Jobs

/-- A sharing of a distance. -/
def sharedDistance (d : Int × Int) : Rep3Distance 32 :=
  (![BitVec.ofInt 32 d.1 - 7, 5, 2], ![BitVec.ofInt 32 d.2 - 1, 0, 1])

theorem groupsOf_sharedDistance {groups : List (List (Int × Int))}
    (h : groups.map (List.map fun d => (sharedDistance d).value) = groups.map (List.map toRing)) :
    GroupsOf (fun p => groups.map (List.map fun d => (sharedDistance d).view p)) groups := by
  refine ⟨groups.map (List.map sharedDistance), fun p => ?_, ?_⟩
  · simp [Function.comp_def]
  · simpa [Function.comp_def] using h

/-- Two bundles: one passes the first threshold on the left and only the second one on the right, the other the second
one on the left and the first one on the right. -/
def twoBundles : List Bundle := [([(8, 10), (9, 10)], [(5, 10)]), ([(4, 10)], [(9, 10)])]

theorem twoBundles_valid : ∀ b ∈ twoBundles, b.Valid := by
  have hrange : ∀ d ∈ [((8, 10) : Int × Int), (9, 10), (5, 10), (4, 10)], DistanceInRange d := by
    simp only [List.forall_mem_cons]
    exact ⟨⟨by decide, by decide, by decide⟩, ⟨by decide, by decide, by decide⟩, ⟨by decide, by decide, by decide⟩,
      ⟨by decide, by decide, by decide⟩, by simp⟩
  unfold twoBundles
  simp only [List.forall_mem_cons]
  refine ⟨⟨by simp, by simp, ?_, ?_⟩, ⟨by simp, by simp, ?_, ?_⟩, by simp⟩ <;>
    (simp only [List.forall_mem_cons]; simp [hrange])

theorem calculateIrisThresholdA_two :
    calculateIrisThresholdA 2 (upperThreshold2d none : ℚ) = .ok [40960, 16384] := by
  have hterm : ∀ x : Nat, F64.mul (F64.div (upperThreshold2d none : ℚ) (F64.ofInt (2 : Nat))) (F64.ofInt (x + 1)) =
      375 / 1000 / 2 * (x + 1) := by
    intro x
    show (375 / 1000 : ℚ) / (((2 : Nat) : Int) : ℚ) * (((x : Int) + 1 : Int) : ℚ) = _
    push_cast
    rfl
  unfold calculateIrisThresholdA
  simp only [hterm]
  have h0 : F64.translateThresholdA (375 / 1000 / 2 * (((0 : Nat) : ℚ) + 1)) = .ok 40960 := by
    show (if _ then _ else _) = _
    rw [if_pos (by norm_num)]
    norm_num
    rfl
  have h1 : F64.translateThresholdA (375 / 1000 / 2 * (((1 : Nat) : ℚ) + 1)) = .ok 16384 := by
    show (if _ then _ else _) = _
    rw [if_pos (by norm_num)]
    norm_num
    rfl
  show List.mapM _ [0, 1] = _
  rw [List.mapM_cons, List.mapM_cons, h0, h1]
  rfl

/-- Scores of one bundle, shared. -/
def oneScore (p : Party) : AnonStatsMapping (Share 16 × Share 16) :=
  ⟨[(7, (Rep3.view p ![0xffec, 3, 0xfffd], Rep3.view p ![1, 1, 1]))]⟩

theorem histograms_correct_two :
    (ReportsHistogram (leftPasses [40960, 16384]) (rightPasses [40960, 16384]) 2 twoBundles
        (irisRange (F := ℚ) ⟨0, 2, 0, [], [0xfff6, 5]⟩ none)
        (fun p => process2dCells ⟨p, 1⟩ 2 2 [40960, 16384]
          (twoBundles.map fun b => b.1.map fun d => (sharedDistance d).view p)
          (twoBundles.map fun b => b.2.map fun d => (sharedDistance d).view p))
        (irisJob (fun _ _ => 0) 1 Fin.val (fun _ => ⟨.mirror⟩) ⟨0, 2, 0, [], [0xfff6, 5]⟩ none (fun _ => none) 2
          (fun p => twoBundles.map fun b => b.1.map fun d => (sharedDistance d).view p)
          fun p => twoBundles.map fun b => b.2.map fun d => (sharedDistance d).view p) stepStreams ∧
      (histogram2d (F := ℚ) (leftPasses [40960, 16384]) (rightPasses [40960, 16384]) 2 twoBundles fun _ => (0, 0)).map
        Bucket2DResult.count = [1, 1]) ∧
    (ReportsHistogram (leftBelow [0xfff6, 5]) (rightBelow [0xfff6, 5]) 2 [(0xffec, 3)] (bucketLimits [0xfff6, 5])
        (fun p => processDi2dCells ⟨p, 1⟩ (oneScore p) [0xfff6, 5])
        (diJob (F := ℚ) (fun _ _ => 0) 1 Fin.val (fun _ => ⟨.mirror⟩) ⟨0, 2, 0, [], [0xfff6, 5]⟩ none (fun _ => none) 10
          false true oneScore) stepStreams ∧
      (histogram2d (F := ℚ) (leftBelow [0xfff6, 5]) (rightBelow [0xfff6, 5]) 2 [(0xffec, 3)] fun _ => (0, 0)).map
        Bucket2DResult.count = [1]) := by
  have hcorrect := histograms_correct (F := ℚ) (fun _ _ => 0) 1 Fin.val (fun _ => ⟨.mirror⟩)
    ⟨0, 2, 0, [], [0xfff6, 5]⟩ none (fun _ => none) stepStreams lockstep_stepStreams
  refine ⟨⟨?_, by decide⟩, ?_, by decide⟩
  · exact hcorrect.1 twoBundles (by simp [twoBundles]) twoBundles_valid [40960, 16384] calculateIrisThresholdA_two
      (by simp) (by simp) (fun p => (twoBundles.map Prod.fst).map (List.map fun d => (sharedDistance d).view p))
      (fun p => (twoBundles.map Prod.snd).map (List.map fun d => (sharedDistance d).view p))
      (groupsOf_sharedDistance (by decide)) (groupsOf_sharedDistance (by decide))
  · have hfits : ScoreFits [0xfff6, 5] 0xffec ∧ ScoreFits [0xfff6, 5] 3 := by
      simp only [ScoreFits, List.forall_mem_cons]
      simp
    exact hcorrect.2 [(0xffec, 3)] (by simp) (by simp) (by simpa using hfits) oneScore
      ⟨[![0xffec, 3, 0xfffd]], fun p => rfl, by decide⟩ ⟨[![1, 1, 1]], fun p => rfl, by decide⟩ 10 false true

end AmpcCommon.Stats
