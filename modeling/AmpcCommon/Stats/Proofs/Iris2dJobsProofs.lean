import AmpcCommon.Stats.Iris2dJobs
import AmpcCommon.Stats.Proofs.Iris1dProofs

/-!
# Two-dimensional jobs, proofs

The raw jobs lift both sides and go on as the lifted ones; a cell of the report counts the bundles that pass a threshold
on the left and one on the right for the first time. The test of a side is that one of its distances passes.
-/

namespace AmpcCommon.Stats

open Protocol

variable {R : Type} [Rng R] {F : Type}

/-! ## Both sides of the bundles -/

/-- Shares of bundles, by the sides. -/
structure SidesIn {K : Nat} (enc : Int × Int → BitVec K × BitVec K)
    (jobs : Party → AnonStatsMapping (DistanceBundle2D K)) (bundles : List Bundle) : Prop where
  left : GroupsIn enc (fun p => (jobs p).intoBundles.map Prod.fst) (bundles.map Prod.fst)
  right : GroupsIn enc (fun p => (jobs p).intoBundles.map Prod.snd) (bundles.map Prod.snd)

theorem SidesIn.len {K : Nat} {enc : Int × Int → BitVec K × BitVec K}
    {jobs : Party → AnonStatsMapping (DistanceBundle2D K)} {bundles : List Bundle} (h : SidesIn enc jobs bundles)
    (p : Party) : (jobs p).len = bundles.length := by
  have hlengths := congrArg List.length (h.left.map_length p)
  simpa [AnonStatsMapping.intoBundles, AnonStatsMapping.len] using hlengths

theorem forall_side {P : Int × Int → Prop} {bundles : List Bundle} {side : Bundle → List (Int × Int)}
    (h : ∀ b ∈ bundles, ∀ d ∈ side b, P d) : ∀ group ∈ bundles.map side, ∀ d ∈ group, P d :=
  List.forall_mem_map.mpr h

omit [Rng R] in
/-- What the lift of the two sides of a bundle leaves, when a program goes on with both. -/
theorem liftSides_succeeds {K : Nat} {α : Type} (sid : BitVec 32) {enc : Int × Int → BitVec K × BitVec K}
    {lift : Session → List (DistanceBundle1D 16) → Proc R (List (DistanceBundle1D K))}
    (hlift : ∀ {v : Party → List (DistanceBundle1D 16)} {groups : List (List (Int × Int))},
      GroupsIn toRing16 v groups → (∀ group ∈ groups, ∀ d ∈ group, LiftFits d) →
        Succeeds (fun p => lift ⟨p, sid⟩ (v p)) fun r => GroupsIn enc r groups)
    {jobs : Party → AnonStatsMapping (DistanceBundle2D 16)} {bundles : List Bundle}
    (hjobs : SidesIn toRing16 jobs bundles) (hleft : ∀ b ∈ bundles, ∀ d ∈ b.1, LiftFits d)
    (hright : ∀ b ∈ bundles, ∀ d ∈ b.2, LiftFits d)
    {k : Party → List (DistanceBundle1D K) → List (DistanceBundle1D K) → Proc R α} {Q : (Party → α) → Prop}
    (hk : ∀ left right, GroupsIn enc left (bundles.map Prod.fst) → GroupsIn enc right (bundles.map Prod.snd) →
      Succeeds (fun p => k p (left p) (right p)) Q) :
    Succeeds (fun p => lift ⟨p, sid⟩ ((jobs p).intoBundles.map Prod.fst) >>= fun left =>
      lift ⟨p, sid⟩ ((jobs p).intoBundles.map Prod.snd) >>= k p left) Q :=
  (hlift hjobs.left (forall_side hleft)).bind fun left hl =>
    (hlift hjobs.right (forall_side hright)).bind fun right hr => hk left right hl hr

/-! ## Reports -/

/-- What a party reports: the histogram, with the number of bundles and the orientation of the job. -/
structure IsReport2d (p q : Nat → Bundle → Bool) (n : Nat) (bundles : List Bundle) (label : Nat → F × F)
    (origin : AnonStatsOrigin) (distanceFunction : DistanceFunction) (stats : BucketStatistics2D F) : Prop where
  buckets : stats.buckets = histogram2d p q n bundles label
  size : stats.matchDistancesBufferSize = bundles.length
  mirror : stats.isMirrorOrientation = (origin.orientation == AnonStatsOrientation.mirror)
  function : stats.distanceFunction = distanceFunction

/-- Whatever the order of the steps is, every party reports the histogram. -/
def Reports2d (p q : Nat → Bundle → Bool) (n : Nat) (bundles : List Bundle) (label : Nat → F × F)
    (origin : Party → AnonStatsOrigin) (distanceFunction : DistanceFunction)
    (job : Party → Proc R (BucketStatistics2D F)) (σ : Party → Prf R) : Prop :=
  Network.Settles nextParty (fun r => job r (σ r)) fun o =>
    ∀ r, ∃ stats, (o r).1 = .ok stats ∧ IsReport2d p q n bundles label (origin r) distanceFunction stats

omit [Rng R] in
theorem Reports2d.of_succeeds {p q : Nat → Bundle → Bool} {n : Nat} {bundles : List Bundle} {label : Nat → F × F}
    {origin : Party → AnonStatsOrigin} {distanceFunction : DistanceFunction}
    {job : Party → Proc R (BucketStatistics2D F)}
    (h : Succeeds job fun stats => ∀ r, IsReport2d p q n bundles label (origin r) distanceFunction (stats r))
    {σ : Party → Prf R} (hσ : Lockstep σ) : Reports2d p q n bundles label origin distanceFunction job σ := by
  obtain ⟨stats, _, hjoint, -, hreport⟩ := h σ hσ
  exact hjoint.settles fun r => ⟨stats r, rfl, hreport r⟩

/-! ## Fractional distances -/

section Fhd

variable [F64 F] (clock : Party → Nat → DateTime) (sid : BitVec 32) (partyId : Party → Nat)
  (origin : Party → AnonStatsOrigin) (config : AnonStatsServerConfig) (operation : Option AnonStatsOperation)
  (startTimestamp : Party → Option DateTime)

theorem process2dInner_succeeds {bundles : List Bundle} (hlen : bundles.length < 2 ^ 32)
    (hvalid : ∀ b ∈ bundles, b.Valid) {terms : List (BitVec 32)}
    (hcalculate : calculateIrisThresholdA (numBuckets2d config operation) (upperThreshold2d operation : F) = .ok terms)
    (hsorted : terms.Pairwise fun a a' => a'.toNat ≤ a.toNat) (hterms : ∀ a ∈ terms, a.toNat ≤ 2 ^ 16)
    {left right : Party → List (DistanceBundle1D 32)} (hleft : GroupsOf left (bundles.map Prod.fst))
    (hright : GroupsOf right (bundles.map Prod.snd)) :
    Succeeds (fun p => (process2dInner (clock p) ⟨p, sid⟩ bundles.length (left p) (right p) (origin p)
        { config with partyId := partyId p } operation (startTimestamp p) : Proc R (BucketStatistics2D F)))
      fun stats => ∀ p, IsReport2d (leftPasses terms) (rightPasses terms) terms.length bundles
        (irisRange config operation) (origin p) .fhd (stats p) := by
  have hcount : numBuckets2d config operation = terms.length := by
    rw [length_of_mapM hcalculate, List.length_range]
  have hgrowsLeft := minPasses_grows hsorted (g := Prod.fst) fun b hb => (hvalid b hb).left_range
  have hgrowsRight := minPasses_grows hsorted (g := Prod.snd) fun b hb => (hvalid b hb).right_range
  have hfill := fillCells_eq hlen hgrowsLeft hgrowsRight (irisRange (F := F) config operation)
  unfold process2dInner
  simp only [numBuckets2d_partyId]
  refine Succeeds.lift_bind (a := fun _ => terms) (fun p => hcalculate) ?_
  rw [hcount]
  refine (process2dCells_succeeds sid hvalid hterms hleft hright).bind fun cells hcells => Succeeds.pure fun p => ?_
  refine ⟨?_, rfl, rfl, rfl⟩
  refine Eq.trans ?_ hfill
  rw [hcells p, irisRange, hcount]
  rfl

/-- **Two-dimensional statistics of fractional distances.** For all bundles with two non-empty sides, all threshold
terms that do not increase, every sharing, session and stream: the job on the raw bundles and the job on the lifted ones
report, at all parties and in every schedule, for every cell the number of bundles whose sides pass its thresholds for
the first time. -/
theorem process2d_jobs_report (bundles : List Bundle) (hlen : bundles.length < 2 ^ 32)
    (hvalid : ∀ b ∈ bundles, b.Valid) (terms : List (BitVec 32))
    (hcalculate : calculateIrisThresholdA (numBuckets2d config operation) (upperThreshold2d operation : F) = .ok terms)
    (hsorted : terms.Pairwise fun a a' => a'.toNat ≤ a.toNat) (hterms : ∀ a ∈ terms, a.toNat ≤ 2 ^ 16)
    (σ : Party → Prf R) (hσ : Lockstep σ) :
    (∀ jobs : Party → AnonStatsMapping (DistanceBundle2D 16), SidesIn toRing16 jobs bundles →
      Reports2d (F := F) (leftPasses terms) (rightPasses terms) terms.length bundles (irisRange config operation) origin
        .fhd (fun p => process2dAnonStatsJob (clock p) ⟨p, sid⟩ (jobs p) (origin p) { config with partyId := partyId p }
          operation (startTimestamp p)) σ) ∧
    (∀ jobs : Party → AnonStatsMapping (DistanceBundle2D 32), SidesIn toRing jobs bundles →
      Reports2d (F := F) (leftPasses terms) (rightPasses terms) terms.length bundles (irisRange config operation) origin
        .fhd (fun p => process2dLiftedAnonStatsJob (clock p) ⟨p, sid⟩ (jobs p) (origin p)
          { config with partyId := partyId p } operation (startTimestamp p)) σ) := by
  have hinner := fun {left right : Party → List (DistanceBundle1D 32)} (hl : GroupsOf left (bundles.map Prod.fst))
    (hr : GroupsOf right (bundles.map Prod.snd)) =>
    process2dInner_succeeds (R := R) (F := F) clock sid partyId origin config operation startTimestamp hlen hvalid
      hcalculate hsorted hterms hl hr
  constructor
  · intro jobs hjobs
    refine Reports2d.of_succeeds ?_ hσ
    unfold process2dAnonStatsJob
    simp only [hjobs.len]
    exact liftSides_succeeds sid (fun hv hfits => liftBundles1d_succeeds sid hv hfits) hjobs
      (fun b hb d hd => DistanceInRange.liftFits ((hvalid b hb).left_range d hd))
      (fun b hb d hd => DistanceInRange.liftFits ((hvalid b hb).right_range d hd)) fun _ _ => hinner
  · intro jobs hjobs
    refine Reports2d.of_succeeds ?_ hσ
    unfold process2dLiftedAnonStatsJob
    simp only [hjobs.len]
    exact hinner hjobs.left hjobs.right

/-- Shared bundles, as those of a job. -/
def sharedJob2d {K : Nat} (enc : Int × Int → BitVec K × BitVec K) (bundles : List Bundle) (p : Party) :
    AnonStatsMapping (DistanceBundle2D K) :=
  ⟨((shareGroups enc (bundles.map Prod.fst) p).zip (shareGroups enc (bundles.map Prod.snd) p)).map fun b => (0, b)⟩

theorem sidesIn_sharedJob2d {K : Nat} (enc : Int × Int → BitVec K × BitVec K) (bundles : List Bundle) :
    SidesIn enc (sharedJob2d enc bundles) bundles := by
  have hlen : ∀ p, (shareGroups enc (bundles.map Prod.fst) p).length =
      (shareGroups enc (bundles.map Prod.snd) p).length := by
    intro p
    simp [shareGroups]
  have hbundles : ∀ p, (sharedJob2d enc bundles p).intoBundles =
      (shareGroups enc (bundles.map Prod.fst) p).zip (shareGroups enc (bundles.map Prod.snd) p) := by
    intro p
    simp [sharedJob2d, AnonStatsMapping.intoBundles, Function.comp_def]
  constructor
  · simp only [hbundles, List.map_fst_zip (hlen _).le]
    exact groupsIn_shareGroups enc _
  · simp only [hbundles, List.map_snd_zip (hlen _).ge]
    exact groupsIn_shareGroups enc _

theorem process2d_jobs_report_two :
    Reports2d (leftPasses [40960, 16384]) (rightPasses [40960, 16384]) 2 twoBundles
      (irisRange (F := ℚ) ⟨0, 2, 2, [], []⟩ none) (fun _ => ⟨.mirror⟩) .fhd
      (fun p => process2dAnonStatsJob (fun _ => 0) ⟨p, 1⟩ (sharedJob2d toRing16 twoBundles p) ⟨.mirror⟩
        ⟨p.val, 2, 2, [], []⟩ none none) stepStreams :=
  (process2d_jobs_report (F := ℚ) (fun _ _ => 0) 1 Fin.val (fun _ => ⟨.mirror⟩) ⟨0, 2, 2, [], []⟩ none (fun _ => none)
    twoBundles (by simp [twoBundles]) twoBundles_valid [40960, 16384] calculateIrisThresholdA_two (by simp) (by simp)
    stepStreams lockstep_stepStreams).1 (sharedJob2d toRing16 twoBundles) (sidesIn_sharedJob2d toRing16 twoBundles)

end Fhd

/-! ## Normalized distances -/

/-- The left side passes the threshold number `i`. -/
def leftNhdPasses (thresholds : List Nat) (i : Nat) (b : Bundle) : Bool := groupNhdPasses thresholds i b.1

/-- The right side passes the threshold number `i`. -/
def rightNhdPasses (thresholds : List Nat) (i : Nat) (b : Bundle) : Bool := groupNhdPasses thresholds i b.2

/-- The sides of a bundle are not empty, and their distances in range. -/
structure NhdValid (b : Bundle) : Prop where
  left_ne : b.1 ≠ []
  right_ne : b.2 ≠ []
  left_fits : ∀ d ∈ b.1, NhdFits d
  right_fits : ∀ d ∈ b.2, NhdFits d

/-- The comparisons of the smallest distances of a side. -/
theorem map_nhdPasses {side : Bundle → List (Int × Int)} {bundles : List Bundle} {ms : List (Int × Int)}
    (hmin : List.Forall₂ IsMinNhd (bundles.map side) ms) (threshold : Nat) :
    ms.map (fun m => indicator 32 (NhdPasses threshold m)) =
      bundles.map fun b => indicator 32 (decide (∃ d ∈ side b, NhdPasses threshold d)) := by
  refine (map_eq_of_forall₂ (List.forall₂_map_left_iff.mp hmin) fun b _ m hm => ?_).symm
  rw [decide_eq_decide.mpr (nhdPasses_min_iff hm)]

/-- The comparisons of a side with all thresholds. -/
theorem nhdSide_succeeds (sid : BitVec 32) {thresholds : List Nat} (hbound : ∀ t ∈ thresholds, t ≤ 2 ^ 32)
    {side : Bundle → List (Int × Int)} {bundles : List Bundle} (hfits : ∀ b ∈ bundles, ∀ d ∈ side b, NhdFits d)
    {ms : List (Int × Int)} (hmin : List.Forall₂ IsMinNhd (bundles.map side) ms)
    {v : Party → List (DistanceShare 48)} (hv : DistancesOf v (ms.map toRing48)) :
    Succeeds (fun p => (nhdCompareAgainstThresholdsBatched ⟨p, sid⟩ thresholds (v p) : Proc R _)) fun r =>
      SharesOf r ((List.range thresholds.length).flatMap fun i =>
        bundles.map fun b => indicator 32 (groupNhdPasses thresholds i (side b))) := by
  have hms := forall_mins hmin (forall_side hfits)
  refine (nhdCompareAgainstThresholdsBatched_succeeds sid hv hms hbound).mono fun r hr => ?_
  rw [flatMap_comparisons (d := 0) fun t _ => map_nhdPasses hmin t] at hr
  exact hr

theorem process2dNhdCells_succeeds (sid : BitVec 32) {bundles : List Bundle} (hvalid : ∀ b ∈ bundles, NhdValid b)
    {thresholds : List Nat} (hbound : ∀ t ∈ thresholds, t ≤ 2 ^ 32)
    {left right : Party → List (DistanceBundle1D 48)} (hleft : GroupsIn toRing48 left (bundles.map Prod.fst))
    (hright : GroupsIn toRing48 right (bundles.map Prod.snd)) :
    Succeeds (fun p => (process2dNhdCells ⟨p, sid⟩ bundles.length thresholds.length thresholds (left p) (right p) :
        Proc R _)) fun cells =>
      ∀ p, cells p = openedCells (leftNhdPasses thresholds) (rightNhdPasses thresholds) thresholds.length bundles := by
  have hl : ∀ b ∈ bundles, ∀ d ∈ b.1, NhdFits d := fun b hb => (hvalid b hb).left_fits
  have hr : ∀ b ∈ bundles, ∀ d ∈ b.2, NhdFits d := fun b hb => (hvalid b hb).right_fits
  have hreduceLeft := nhdReduce_mins (R := R) sid hleft (List.forall_mem_map.mpr fun b hb => (hvalid b hb).left_ne)
    (forall_side hl)
  have hreduceRight := nhdReduce_mins (R := R) sid hright (List.forall_mem_map.mpr fun b hb => (hvalid b hb).right_ne)
    (forall_side hr)
  unfold process2dNhdCells
  refine hreduceLeft.bind fun minLeft hminLeft => hreduceRight.bind fun minRight hminRight => ?_
  obtain ⟨ms, hms, hmin⟩ := hminLeft
  obtain ⟨ms', hms', hmin'⟩ := hminRight
  refine (nhdSide_succeeds sid hbound hl hmin hms).bind fun comparisonsLeft hcl => ?_
  refine (nhdSide_succeeds sid hbound hr hmin' hms').bind fun comparisonsRight hcr => ?_
  exact openCells_succeeds hcl hcr

section Nhd

variable [NhdF64 F] (clock : Party → Nat → DateTime) (sid : BitVec 32) (partyId : Party → Nat)
  (origin : Party → AnonStatsOrigin) (config : IrisServerConfig F) (operation : Option AnonStatsOperation)
  (startTimestamp : Party → Option DateTime)

theorem nhdBuckets2d_partyId (id : Nat) :
    nhdBuckets2d { config with partyId := id } operation = nhdBuckets2d config operation := by
  rcases operation with _ | operation
  · rfl
  · cases operation <;> rfl

/-- The thresholds of an operation. -/
def configThresholds2d : List Nat :=
  nhdThresholds (nhdBuckets2d config operation).1 (nhdBuckets2d config operation).2

theorem length_configThresholds2d :
    (configThresholds2d config operation).length = (nhdBuckets2d config operation).1 := by
  simp [configThresholds2d, nhdThresholds, calculateIrisThresholdScoreNormalization]

theorem process2dNhdInner_succeeds {bundles : List Bundle} (hlen : bundles.length < 2 ^ 32)
    (hvalid : ∀ b ∈ bundles, NhdValid b) (hsorted : (configThresholds2d config operation).Pairwise (· ≤ ·))
    (hbound : ∀ t ∈ configThresholds2d config operation, t ≤ 2 ^ 32) {left right : Party → List (DistanceBundle1D 48)}
    (hleft : GroupsIn toRing48 left (bundles.map Prod.fst)) (hright : GroupsIn toRing48 right (bundles.map Prod.snd)) :
    Succeeds (fun p => (process2dAnonStatsScoreNormalizationInner (clock p) ⟨p, sid⟩ bundles.length (left p) (right p)
        (origin p) { config with partyId := partyId p } operation (startTimestamp p) : Proc R (BucketStatistics2D F)))
      fun stats => ∀ p, IsReport2d (leftNhdPasses (configThresholds2d config operation))
        (rightNhdPasses (configThresholds2d config operation)) (configThresholds2d config operation).length bundles
        (bucketRange (nhdBuckets2d config operation)) (origin p) .nhd (stats p) := by
  have hgrowsLeft : Grid.Grows (leftNhdPasses (configThresholds2d config operation))
      (configThresholds2d config operation).length bundles := fun b hb =>
    groupNhdPasses_grows hsorted (bundles.map Prod.fst) b.1 (List.mem_map_of_mem hb)
  have hgrowsRight : Grid.Grows (rightNhdPasses (configThresholds2d config operation))
      (configThresholds2d config operation).length bundles := fun b hb =>
    groupNhdPasses_grows hsorted (bundles.map Prod.snd) b.2 (List.mem_map_of_mem hb)
  have hfill := fillCells_eq hlen hgrowsLeft hgrowsRight (bucketRange (nhdBuckets2d config operation))
  have hcells := process2dNhdCells_succeeds (R := R) sid hvalid hbound hleft hright
  have hcount := length_configThresholds2d config operation
  unfold process2dAnonStatsScoreNormalizationInner
  simp only [nhdBuckets2d_partyId]
  nth_rewrite 1 [hcount] at hcells
  refine hcells.bind fun cells hcells => Succeeds.pure fun p => ?_
  refine ⟨?_, rfl, rfl, rfl⟩
  refine Eq.trans ?_ hfill
  rw [hcells p, hcount]
  rfl

/-- **Two-dimensional statistics of normalized distances.** For all bundles with two non-empty sides, all thresholds
that do not decrease, every sharing, session and stream: the job on the raw bundles and the job on the lifted ones
report, at all parties and in every schedule, for every cell the number of bundles whose sides pass its thresholds for
the first time. -/
theorem process2d_score_normalization_jobs_report (bundles : List Bundle) (hlen : bundles.length < 2 ^ 32)
    (hvalid : ∀ b ∈ bundles, NhdValid b) (hsorted : (configThresholds2d config operation).Pairwise (· ≤ ·))
    (hbound : ∀ t ∈ configThresholds2d config operation, t ≤ 2 ^ 32) (σ : Party → Prf R) (hσ : Lockstep σ) :
    (∀ jobs : Party → AnonStatsMapping (DistanceBundle2D 16), SidesIn toRing16 jobs bundles →
      Reports2d (leftNhdPasses (configThresholds2d config operation))
        (rightNhdPasses (configThresholds2d config operation)) (configThresholds2d config operation).length bundles
        (bucketRange (nhdBuckets2d config operation)) origin .nhd
        (fun p => process2dAnonStatsScoreNormalizationJob (clock p) ⟨p, sid⟩ (jobs p) (origin p)
          { config with partyId := partyId p } operation (startTimestamp p)) σ) ∧
    (∀ jobs : Party → AnonStatsMapping (DistanceBundle2D 48), SidesIn toRing48 jobs bundles →
      Reports2d (leftNhdPasses (configThresholds2d config operation))
        (rightNhdPasses (configThresholds2d config operation)) (configThresholds2d config operation).length bundles
        (bucketRange (nhdBuckets2d config operation)) origin .nhd
        (fun p => process2dLiftedAnonStatsScoreNormalizationJob (clock p) ⟨p, sid⟩ (jobs p) (origin p)
          { config with partyId := partyId p } operation (startTimestamp p)) σ) := by
  have hinner := fun {left right : Party → List (DistanceBundle1D 48)}
    (hl : GroupsIn toRing48 left (bundles.map Prod.fst)) (hr : GroupsIn toRing48 right (bundles.map Prod.snd)) =>
    process2dNhdInner_succeeds (R := R) clock sid partyId origin config operation startTimestamp hlen hvalid hsorted
      hbound hl hr
  constructor
  · intro jobs hjobs
    refine Reports2d.of_succeeds ?_ hσ
    unfold process2dAnonStatsScoreNormalizationJob
    simp only [hjobs.len]
    exact liftSides_succeeds sid (fun hv hfits => liftBundlesU48_1d_succeeds sid hv hfits) hjobs
      (fun b hb d hd => NhdFits.liftFits ((hvalid b hb).left_fits d hd))
      (fun b hb d hd => NhdFits.liftFits ((hvalid b hb).right_fits d hd)) fun _ _ => hinner
  · intro jobs hjobs
    refine Reports2d.of_succeeds ?_ hσ
    unfold process2dLiftedAnonStatsScoreNormalizationJob
    simp only [hjobs.len]
    exact hinner hjobs.left hjobs.right

end Nhd

/-- Two bundles of the same two groups, with the sides exchanged. -/
def nhdBundles : List Bundle := [(nhdGroup, [(32, 40)]), ([(32, 40)], nhdGroup)]

theorem nhdBundles_valid : ∀ b ∈ nhdBundles, NhdValid b := by
  have hgroup : ∀ d ∈ nhdGroup, NhdFits d := nhdGroups_fits nhdGroup List.mem_cons_self
  have hsingle : ∀ d ∈ [((32, 40) : Int × Int)], NhdFits d :=
    nhdGroups_fits _ (List.mem_cons_of_mem _ List.mem_cons_self)
  have hne : nhdGroup ≠ [] := by simp [nhdGroup]
  simp only [nhdBundles, List.forall_mem_cons]
  exact ⟨⟨hne, by simp, hgroup, hsingle⟩, ⟨by simp, hne, hsingle, hgroup⟩, by simp⟩

theorem process2d_score_normalization_jobs_report_two :
    Reports2d (leftNhdPasses [307200, 614400]) (rightNhdPasses [307200, 614400]) 2 nhdBundles
      (bucketRange (2, (375 / 1000 : ℚ))) (fun _ => ⟨.normal⟩) .nhd
      (fun p => process2dAnonStatsScoreNormalizationJob (fun _ => 0) ⟨p, 1⟩ (sharedJob2d toRing16 nhdBundles p)
        ⟨.normal⟩ { twoBuckets with partyId := p.val } none none) stepStreams := by
  have hthresholds : configThresholds2d twoBuckets none = [307200, 614400] := configThresholds_two
  have hreport := (process2d_score_normalization_jobs_report (F := ℚ) (fun _ _ => 0) 1 Fin.val (fun _ => ⟨.normal⟩)
    twoBuckets none (fun _ => none) nhdBundles (by simp [nhdBundles]) nhdBundles_valid (by rw [hthresholds]; simp)
    (by rw [hthresholds]; simp) stepStreams lockstep_stepStreams).1 (sharedJob2d toRing16 nhdBundles)
    (sidesIn_sharedJob2d toRing16 nhdBundles)
  rw [hthresholds] at hreport
  exact hreport

end AmpcCommon.Stats
