import AmpcCommon.Base.Counts
import AmpcCommon.Stats.Proofs.NhdBucketProofs
import AmpcCommon.Stats.Proofs.RegroupProofs

/-!
# One-dimensional statistics, proofs

The opened counts are cumulative: a group that passes a threshold passes all later ones. The loop of `fill_buckets`
takes the differences, so that a bucket holds the number of groups that pass its threshold and no earlier one
(`fillLoop_eq`). All four jobs report this histogram.
-/

namespace AmpcCommon.Stats

open Protocol

/-! ## The histogram -/

section Histogram

variable {β F : Type} (p : Nat → β → Bool) (n : Nat) (l : List β)

/-- The number of elements that pass a test and none before it, for every test. -/
def histogram1d (label : Nat → F × F) : List (BucketResult F) :=
  (List.range n).map fun i => ⟨l.countP (Grid.first p i), label i⟩

/-- The counts that are opened. -/
def openedCounts : List (BitVec 32) := (List.range n).map fun i => BitVec.ofNat 32 (l.countP (p i))

variable {p n l}

/-- The elements that pass a test are those that pass it first, and those that passed the one before. -/
theorem countP_first (hp : Grid.Grows p n l) {i : Nat} (hi : i < n) :
    l.countP (p i) = l.countP (Grid.first p i) + l.countP (Grid.before p i) := by
  have hsplit : ∀ a b : Bool, (b = true → a = true) → a.toNat = (a && !b).toNat + b.toNat := by decide
  have hbit : ∀ x ∈ l, (p i x).toNat = (Grid.first p i x).toNat + (Grid.before p i x).toNat := by
    intro x hx
    rw [hp.first hi hx]
    exact hsplit _ _ (hp.before hi hx)
  clear hp
  induction l with
  | nil => rfl
  | cons x l ih =>
    have hx := hbit x List.mem_cons_self
    have hl := ih fun y hy => hbit y (List.mem_cons_of_mem _ hy)
    simp only [List.countP_cons, if_toNat]
    omega

/-- The loop leaves the differences: no count is smaller than the one before. -/
theorem fillLoop_range' (hlen : l.length < 2 ^ 32) (hp : Grid.Grows p n l) (label : Nat → F × F) {i m : Nat}
    (him : i + m = n) :
    fillLoop label i (BitVec.ofNat 32 (l.countP (Grid.before p i)))
        ((List.range' i m).map fun j => BitVec.ofNat 32 (l.countP (p j))) =
      (List.range' i m).map fun j => ⟨l.countP (Grid.first p j), label j⟩ := by
  induction m generalizing i with
  | zero => rfl
  | succ m ih =>
    have hi : i < n := by omega
    have hsplit := countP_first hp hi
    have hle : BitVec.ofNat 32 (l.countP (Grid.before p i)) ≤ BitVec.ofNat 32 (l.countP (p i)) := by
      rw [BitVec.le_def, toNat_count hlen, toNat_count hlen]
      omega
    have hcount : (BitVec.ofNat 32 (l.countP (p i)) - BitVec.ofNat 32 (l.countP (Grid.before p i))).toNat =
        l.countP (Grid.first p i) := by
      rw [BitVec.toNat_sub_of_le hle, toNat_count hlen, toNat_count hlen]
      omega
    have hrest := ih (i := i + 1) (by omega)
    rw [List.range'_succ, List.map_cons, List.map_cons, fillLoop]
    simp only [hle, if_true, hcount]
    exact congrArg (_ :: ·) hrest

theorem fillLoop_eq (hlen : l.length < 2 ^ 32) (hp : Grid.Grows p n l) (label : Nat → F × F) :
    fillLoop label 0 0 (openedCounts p n l) = histogram1d p n l label := by
  have hzero : BitVec.ofNat 32 (l.countP (Grid.before p 0)) = 0 := by
    have hnone : l.countP (Grid.before p 0) = 0 := List.countP_eq_zero.mpr fun _ _ => Bool.false_ne_true
    rw [hnone]
    rfl
  have hloop := fillLoop_range' hlen hp label (Nat.zero_add n)
  rw [hzero, ← List.range_eq_range'] at hloop
  exact hloop

/-- The buckets hold every element that passes the last test, once. -/
theorem sum_histogram1d (hp : Grid.Grows p n l) (label : Nat → F × F) :
    ((histogram1d p n l label).map BucketResult.count).sum = l.countP (Grid.before p n) := by
  unfold histogram1d
  rw [List.map_map]
  show ((List.range n).map fun i => l.countP (Grid.first p i)).sum = _
  have hsum : ∀ m ≤ n, ((List.range m).map fun i => l.countP (Grid.first p i)).sum = l.countP (Grid.before p m) := by
    intro m hm
    induction m with
    | zero => exact (List.countP_eq_zero.mpr fun _ _ => Bool.false_ne_true).symm
    | succ m ih =>
      have hsplit := countP_first hp (show m < n by omega)
      rw [List.range_succ, List.map_append, List.sum_append, ih (by omega), List.map_singleton, List.sum_singleton,
        Nat.add_comm]
      exact hsplit.symm
  exact hsum n (le_refl n)

end Histogram

/-! ## The jobs -/

/-- A group passes the threshold number `i` when one of its distances does. -/
def groupPasses (terms : List (BitVec 32)) (i : Nat) (group : List (Int × Int)) : Bool :=
  ∃ d ∈ group, Passes (terms.getD i 0) d

/-- The same for normalized distances. -/
def groupNhdPasses (thresholds : List Nat) (i : Nat) (group : List (Int × Int)) : Bool :=
  ∃ d ∈ group, NhdPasses (thresholds.getD i 0) d

theorem groupPasses_grows {terms : List (BitVec 32)} (h : terms.Pairwise fun a a' => a'.toNat ≤ a.toNat)
    {groups : List (List (Int × Int))} (hrange : ∀ group ∈ groups, ∀ d ∈ group, DistanceInRange d) :
    Grid.Grows (groupPasses terms) terms.length groups := by
  intro group hg k i hki hi hpass
  obtain ⟨d, hd, hpass⟩ := of_decide_eq_true hpass
  have hle : (terms.getD i 0).toNat ≤ (terms.getD k 0).toNat := getD_of_pairwise h (fun a => le_refl _) hki hi
  exact decide_eq_true ⟨d, hd, Passes.mono (hrange group hg d hd).fits.mask_pos.le hpass hle⟩

theorem groupNhdPasses_grows {thresholds : List Nat} (h : thresholds.Pairwise (· ≤ ·))
    (groups : List (List (Int × Int))) : Grid.Grows (groupNhdPasses thresholds) thresholds.length groups := by
  intro group _ k i hki hi hpass
  obtain ⟨d, hd, hpass⟩ := of_decide_eq_true hpass
  have hle : thresholds.getD k 0 ≤ thresholds.getD i 0 := getD_of_pairwise h (fun t => le_refl t) hki hi
  exact decide_eq_true ⟨d, hd, hpass.mono hle⟩

/-- Counts that are listed by the thresholds, listed by their positions. -/
theorem map_eq_openedCounts {α β : Type} {terms : List α} {d : α} {l : List β} {p : α → β → Bool} :
    (terms.map fun a => BitVec.ofNat 32 (l.countP (p a))) =
      openedCounts (fun i => p (terms.getD i d)) terms.length l := by
  refine List.ext_getElem (by simp [openedCounts]) fun i hi hi' => ?_
  have hlt : i < terms.length := by simpa using hi
  simp only [openedCounts, List.getElem_map, List.getElem_range, List.getD_eq_getElem _ _ hlt]

variable {R : Type} [Rng R] {F : Type}

/-- What a party reports: the histogram, with the number of bundles and the labels of the job. -/
structure IsReport {β : Type} (p : Nat → β → Bool) (n : Nat) (bundles : List β) (label : Nat → F × F)
    (origin : StoreOrigin) (distanceFunction : DistanceFunction) (stats : BucketStatistics F) : Prop where
  buckets : stats.buckets = histogram1d p n bundles label
  total : (stats.buckets.map BucketResult.count).sum = bundles.countP (Grid.before p n)
  size : stats.matchDistancesBufferSize = bundles.length
  eye : stats.eye = origin.side
  mirror : stats.isMirrorOrientation = (origin.orientation == AnonStatsOrientation.mirror)
  function : stats.distanceFunction = distanceFunction

/-- Whatever the order of the steps is, every party reports the histogram. -/
def Reports1d {β : Type} (p : Nat → β → Bool) (n : Nat) (bundles : List β) (label : Nat → F × F)
    (origin : Party → StoreOrigin) (distanceFunction : DistanceFunction)
    (job : Party → Proc R (BucketStatistics F)) (σ : Party → Prf R) : Prop :=
  Network.Settles nextParty (fun r => job r (σ r)) fun o =>
    ∀ r, ∃ stats, (o r).1 = .ok stats ∧ IsReport p n bundles label (origin r) distanceFunction stats

section Fhd

variable [F64 F] (clock : Party → Nat → DateTime) (sid : BitVec 32) (partyId : Party → Nat)
  (origin : Party → StoreOrigin) (config : IrisServerConfig F) (operation : Option AnonStatsOperation)
  (startTimestamp : Party → Option DateTime)

/-- The ranges of the buckets. -/
def bucketRange (buckets : Nat × F) : Nat → F × F := stepRange (F64.div buckets.2 (F64.ofInt buckets.1))

theorem isReport_bucketReport {β : Type} {p : Nat → β → Bool} {n : Nat} {bundles : List β}
    (hlen : bundles.length < 2 ^ 32) (hp : Grid.Grows p n bundles) (buckets : Nat × F) (r : Party)
    (distanceFunction : DistanceFunction) :
    IsReport p n bundles (bucketRange buckets) (origin r) distanceFunction
      (bucketReport (clock r) bundles.length buckets.1 distanceFunction (origin r)
        { config with partyId := partyId r } operation (openedCounts p n bundles) buckets.2 (startTimestamp r)) := by
  have hfill := fillLoop_eq hlen hp (bucketRange buckets)
  refine ⟨hfill, ?_, rfl, rfl, rfl, rfl⟩
  refine Eq.trans ?_ (sum_histogram1d hp (bucketRange buckets))
  rw [← hfill]
  rfl

theorem fhdBuckets1d_partyId (id : Nat) :
    fhdBuckets1d { config with partyId := id } operation = fhdBuckets1d config operation := by
  rcases operation with _ | operation
  · rfl
  · cases operation <;> rfl

theorem process1dInner_succeeds {groups : List (List (Int × Int))} (hne : groups ≠ []) (hlen : groups.length < 2 ^ 32)
    (hgroups : ∀ group ∈ groups, group ≠ []) (hrange : ∀ group ∈ groups, ∀ d ∈ group, DistanceInRange d)
    {terms : List (BitVec 32)}
    (hcalculate : calculateIrisThresholdA (fhdBuckets1d config operation).1 (fhdBuckets1d config operation).2 =
      .ok terms) (hsorted : terms.Pairwise fun a a' => a'.toNat ≤ a.toNat) (hterms : ∀ a ∈ terms, a.toNat ≤ 2 ^ 16)
    {v : Party → List (DistanceBundle1D 32)} (hv : GroupsOf v groups) :
    Succeeds (fun p => (process1dInner (clock p) ⟨p, sid⟩ groups.length (v p) (origin p)
        { config with partyId := partyId p } operation (startTimestamp p) : Proc R _)) fun stats =>
      ∀ p, IsReport (groupPasses terms) terms.length groups (bucketRange (fhdBuckets1d config operation)) (origin p)
        .fhd (stats p) := by
  have hgrows := groupPasses_grows hsorted hrange
  unfold process1dInner
  simp only [fhdBuckets1d_partyId]
  refine Succeeds.lift_bind (a := fun _ => terms) (fun p => hcalculate) ?_
  refine (compareMinThresholdBuckets_succeeds sid hv hne hgroups hrange hterms).bind fun shares hshares => ?_
  have hcounts : (terms.map fun a => BitVec.ofNat 32 (groupsPassing groups a)) =
      openedCounts (groupPasses terms) terms.length groups := map_eq_openedCounts
  rw [hcounts] at hshares
  refine (openRing_succeeds (t := .u32) hshares).bind fun buckets hbuckets => Succeeds.pure fun p => ?_
  rw [hbuckets p]
  exact isReport_bucketReport clock partyId origin config operation startTimestamp hlen hgrows _ p .fhd

theorem len_of_groupsIn {K : Nat} {enc : Int × Int → BitVec K × BitVec K} {groups : List (List (Int × Int))}
    {jobs : Party → AnonStatsMapping (DistanceBundle1D K)} (h : GroupsIn enc (fun p => (jobs p).intoBundles) groups)
    (p : Party) : (jobs p).len = groups.length := by
  have hlengths := congrArg List.length (h.map_length p)
  simpa [AnonStatsMapping.intoBundles, AnonStatsMapping.len] using hlengths

omit [Rng R] [F64 F] in
theorem Reports1d.of_succeeds {β : Type} {p : Nat → β → Bool} {n : Nat} {bundles : List β} {label : Nat → F × F}
    {distanceFunction : DistanceFunction} {job : Party → Proc R (BucketStatistics F)}
    (h : Succeeds job fun stats => ∀ r, IsReport p n bundles label (origin r) distanceFunction (stats r))
    {σ : Party → Prf R} (hσ : Lockstep σ) : Reports1d p n bundles label origin distanceFunction job σ := by
  obtain ⟨stats, _, hjoint, -, hreport⟩ := h σ hσ
  exact hjoint.settles fun r => ⟨stats r, rfl, hreport r⟩

theorem DistanceInRange.liftFits {d : Int × Int} (h : DistanceInRange d) : LiftFits d := by
  obtain ⟨hpos, hmask, hcode⟩ := h
  rw [abs_le] at hcode
  exact ⟨by omega, by omega, by omega, by omega⟩

/-- **One-dimensional statistics of fractional distances.** For every list of non-empty bundles, every list of threshold
terms that do not increase, every sharing, session and stream: the job on the raw bundles and the job on the lifted ones
report, at all parties and in every schedule, for every threshold the number of bundles with a distance that passes it
and none that passes an earlier one. -/
theorem process1d_jobs_report (groups : List (List (Int × Int))) (hne : groups ≠ []) (hlen : groups.length < 2 ^ 32)
    (hgroups : ∀ group ∈ groups, group ≠ []) (hrange : ∀ group ∈ groups, ∀ d ∈ group, DistanceInRange d)
    (terms : List (BitVec 32))
    (hcalculate : calculateIrisThresholdA (fhdBuckets1d config operation).1 (fhdBuckets1d config operation).2 =
      .ok terms) (hsorted : terms.Pairwise fun a a' => a'.toNat ≤ a.toNat) (hterms : ∀ a ∈ terms, a.toNat ≤ 2 ^ 16)
    (σ : Party → Prf R) (hσ : Lockstep σ) :
    (∀ jobs : Party → AnonStatsMapping (DistanceBundle1D 16),
      GroupsIn toRing16 (fun p => (jobs p).intoBundles) groups →
      Reports1d (groupPasses terms) terms.length groups (bucketRange (fhdBuckets1d config operation)) origin .fhd
        (fun p => process1dAnonStatsJob (clock p) ⟨p, sid⟩ (jobs p) (origin p) { config with partyId := partyId p }
          operation (startTimestamp p)) σ) ∧
    (∀ jobs : Party → AnonStatsMapping (DistanceBundle1D 32),
      GroupsIn toRing (fun p => (jobs p).intoBundles) groups →
      Reports1d (groupPasses terms) terms.length groups (bucketRange (fhdBuckets1d config operation)) origin .fhd
        (fun p => process1dLiftedAnonStatsJob (clock p) ⟨p, sid⟩ (jobs p) (origin p)
          { config with partyId := partyId p } operation (startTimestamp p)) σ) := by
  have hinner : ∀ {v : Party → List (DistanceBundle1D 32)}, GroupsOf v groups → _ := fun hv =>
    process1dInner_succeeds (R := R) clock sid partyId origin config operation startTimestamp hne hlen hgroups hrange
      hcalculate hsorted hterms hv
  constructor
  · intro jobs hjobs
    refine Reports1d.of_succeeds origin ?_ hσ
    unfold process1dAnonStatsJob
    simp only [len_of_groupsIn hjobs]
    have hfits : ∀ group ∈ groups, ∀ d ∈ group, LiftFits d := fun group hg d hd =>
      DistanceInRange.liftFits (hrange group hg d hd)
    exact (liftBundles1d_succeeds sid hjobs hfits).bind fun lifted hlifted => hinner hlifted
  · intro jobs hjobs
    refine Reports1d.of_succeeds origin ?_ hσ
    unfold process1dLiftedAnonStatsJob
    simp only [len_of_groupsIn hjobs]
    exact hinner hjobs

end Fhd

/-- Two buckets for every operation. -/
def twoBuckets : IrisServerConfig ℚ := ⟨⟨0, 2, 2, [], []⟩, 2, 2, 2, 2, 375 / 1000⟩

/-- Shared groups, as the bundles of a job. -/
def sharedJob {K : Nat} (enc : Int × Int → BitVec K × BitVec K) (groups : List (List (Int × Int))) (p : Party) :
    AnonStatsMapping (DistanceBundle1D K) := ⟨(shareGroups enc groups p).map fun bundle => (0, bundle)⟩

theorem groupsIn_sharedJob {K : Nat} (enc : Int × Int → BitVec K × BitVec K) (groups : List (List (Int × Int))) :
    GroupsIn enc (fun p => (sharedJob enc groups p).intoBundles) groups := by
  have hbundles : (fun p => (sharedJob enc groups p).intoBundles) = shareGroups enc groups := by
    funext p
    simp [sharedJob, AnonStatsMapping.intoBundles, Function.comp_def]
  rw [hbundles]
  exact groupsIn_shareGroups enc groups

theorem twoGroups_range : ∀ group ∈ twoGroups, ∀ d ∈ group, DistanceInRange d := by
  simp only [twoGroups, List.forall_mem_cons]
  exact ⟨⟨⟨by decide, by decide, by decide⟩, ⟨by decide, by decide, by decide⟩, by simp⟩,
    ⟨⟨by decide, by decide, by decide⟩, by simp⟩, by simp⟩

theorem process1d_jobs_report_two :
    Reports1d (groupPasses [40960, 16384]) 2 twoGroups (bucketRange (2, (375 / 1000 : ℚ)))
        (fun _ => ⟨⟨.mirror⟩, some .left, .gpu⟩) .fhd
        (fun p => process1dAnonStatsJob (fun _ => 0) ⟨p, 1⟩ (sharedJob toRing16 twoGroups p)
          ⟨⟨.mirror⟩, some .left, .gpu⟩ { twoBuckets with partyId := p.val } none none) stepStreams ∧
      (histogram1d (F := ℚ) (groupPasses [40960, 16384]) 2 twoGroups fun _ => (0, 0)).map BucketResult.count =
        [1, 1] := by
  refine ⟨?_, by decide⟩
  exact (process1d_jobs_report (F := ℚ) (fun _ _ => 0) 1 Fin.val (fun _ => ⟨⟨.mirror⟩, some .left, .gpu⟩) twoBuckets
    none (fun _ => none) twoGroups (by simp [twoGroups]) (by simp [twoGroups]) (by simp [twoGroups]) twoGroups_range
    [40960, 16384] calculateIrisThresholdA_two (by simp) (by simp) stepStreams lockstep_stepStreams).1
    (sharedJob toRing16 twoGroups) (groupsIn_sharedJob toRing16 twoGroups)

section Nhd

variable [NhdF64 F] (clock : Party → Nat → DateTime) (sid : BitVec 32) (partyId : Party → Nat)
  (origin : Party → StoreOrigin) (config : IrisServerConfig F) (operation : Option AnonStatsOperation)
  (startTimestamp : Party → Option DateTime)

theorem nhdBuckets1d_partyId (id : Nat) :
    nhdBuckets1d { config with partyId := id } operation = nhdBuckets1d config operation := by
  rcases operation with _ | operation
  · rfl
  · cases operation <;> rfl

/-- The thresholds of an operation. -/
def configThresholds : List Nat :=
  nhdThresholds (nhdBuckets1d config operation).1 (nhdBuckets1d config operation).2

theorem process1dNhdInner_succeeds {groups : List (List (Int × Int))} (hne : groups ≠ [])
    (hlen : groups.length < 2 ^ 32) (hgroups : ∀ group ∈ groups, group ≠ [])
    (hfits : ∀ group ∈ groups, ∀ d ∈ group, NhdFits d)
    (hsorted : (configThresholds config operation).Pairwise (· ≤ ·))
    (hbound : ∀ t ∈ configThresholds config operation, t ≤ 2 ^ 32)
    {v : Party → List (DistanceBundle1D 48)} (hv : GroupsIn toRing48 v groups) :
    Succeeds (fun p => (process1dAnonStatsScoreNormalizationInner (clock p) ⟨p, sid⟩ groups.length (v p) (origin p)
        { config with partyId := partyId p } operation (startTimestamp p) : Proc R _)) fun stats =>
      ∀ p, IsReport (groupNhdPasses (configThresholds config operation)) (configThresholds config operation).length
        groups (bucketRange (nhdBuckets1d config operation)) (origin p) .nhd (stats p) := by
  have hgrows := groupNhdPasses_grows hsorted groups
  unfold process1dAnonStatsScoreNormalizationInner
  simp only [nhdBuckets1d_partyId]
  refine (compareMinThresholdBucketsScoreNormalization_succeeds sid hv hne hgroups hfits hbound).bind
    fun shares hshares => ?_
  have hcounts : ((configThresholds config operation).map fun t => BitVec.ofNat 32 (groupsNhdPassing groups t)) =
      openedCounts (groupNhdPasses (configThresholds config operation)) (configThresholds config operation).length
        groups := map_eq_openedCounts
  rw [hcounts] at hshares
  refine (openRing_succeeds (t := .u32) hshares).bind fun buckets hbuckets => Succeeds.pure fun p => ?_
  rw [hbuckets p]
  exact isReport_bucketReport clock partyId origin config operation startTimestamp hlen hgrows _ p .nhd

theorem NhdFits.liftFits {d : Int × Int} (h : NhdFits d) : LiftFits d := by
  obtain ⟨hpos, hmask, hcode⟩ := h
  rw [abs_le] at hcode
  exact ⟨by omega, by omega, by omega, by omega⟩

/-- **One-dimensional statistics of normalized distances.** For every list of non-empty bundles, all thresholds that do
not decrease, every sharing, session and stream: the job on the raw bundles and the job on the lifted ones report, at
all parties and in every schedule, for every threshold the number of bundles with a normalized distance of at most the
threshold and none of at most an earlier one. -/
theorem process1d_score_normalization_jobs_report (groups : List (List (Int × Int))) (hne : groups ≠ [])
    (hlen : groups.length < 2 ^ 32) (hgroups : ∀ group ∈ groups, group ≠ [])
    (hfits : ∀ group ∈ groups, ∀ d ∈ group, NhdFits d)
    (hsorted : (configThresholds config operation).Pairwise (· ≤ ·))
    (hbound : ∀ t ∈ configThresholds config operation, t ≤ 2 ^ 32) (σ : Party → Prf R) (hσ : Lockstep σ) :
    (∀ jobs : Party → AnonStatsMapping (DistanceBundle1D 16),
      GroupsIn toRing16 (fun p => (jobs p).intoBundles) groups →
      Reports1d (groupNhdPasses (configThresholds config operation)) (configThresholds config operation).length groups
        (bucketRange (nhdBuckets1d config operation)) origin .nhd
        (fun p => process1dAnonStatsScoreNormalizationJob (clock p) ⟨p, sid⟩ (jobs p) (origin p)
          { config with partyId := partyId p } operation (startTimestamp p)) σ) ∧
    (∀ jobs : Party → AnonStatsMapping (DistanceBundle1D 48),
      GroupsIn toRing48 (fun p => (jobs p).intoBundles) groups →
      Reports1d (groupNhdPasses (configThresholds config operation)) (configThresholds config operation).length groups
        (bucketRange (nhdBuckets1d config operation)) origin .nhd
        (fun p => process1dLiftedAnonStatsScoreNormalizationJob (clock p) ⟨p, sid⟩ (jobs p) (origin p)
          { config with partyId := partyId p } operation (startTimestamp p)) σ) := by
  have hinner : ∀ {v : Party → List (DistanceBundle1D 48)}, GroupsIn toRing48 v groups → _ := fun hv =>
    process1dNhdInner_succeeds (R := R) clock sid partyId origin config operation startTimestamp hne hlen hgroups hfits
      hsorted hbound hv
  constructor
  · intro jobs hjobs
    refine Reports1d.of_succeeds origin ?_ hσ
    unfold process1dAnonStatsScoreNormalizationJob
    simp only [len_of_groupsIn hjobs]
    have hlift : ∀ group ∈ groups, ∀ d ∈ group, LiftFits d := fun group hg d hd =>
      NhdFits.liftFits (hfits group hg d hd)
    exact (liftBundlesU48_1d_succeeds sid hjobs hlift).bind fun lifted hlifted => hinner hlifted
  · intro jobs hjobs
    refine Reports1d.of_succeeds origin ?_ hσ
    unfold process1dLiftedAnonStatsScoreNormalizationJob
    simp only [len_of_groupsIn hjobs]
    exact hinner hjobs

end Nhd

/-- Exact arithmetic in the place of `f64`. -/
instance : NhdF64 ℚ where
  nhdThreshold x := ⌊25 * 2 ^ 16 * x⌋₊

theorem configThresholds_two : configThresholds twoBuckets none = [307200, 614400] := by
  have hfirst : NhdF64.nhdThreshold (375 / 1000 / ((2 : Nat) : ℚ) * ((((0 : Nat) : Int) + 1 : Int) : ℚ)) = 307200 := by
    show ⌊_⌋₊ = _
    rw [Nat.floor_eq_iff (by norm_num)]
    norm_num
  have hsecond : NhdF64.nhdThreshold (375 / 1000 / ((2 : Nat) : ℚ) * ((((1 : Nat) : Int) + 1 : Int) : ℚ)) = 614400 := by
    show ⌊_⌋₊ = _
    rw [Nat.floor_eq_iff (by norm_num)]
    norm_num
  show [_, _] = _
  rw [← hfirst, ← hsecond]
  rfl

/-- Two bundles: in the first one the fraction of different bits and the normalized distance have different minima. -/
def nhdGroups : List (List (Int × Int)) := [nhdGroup, [(32, 40)]]

theorem nhdGroups_fits : ∀ group ∈ nhdGroups, ∀ d ∈ group, NhdFits d := by
  have hfirst : NhdFits (32, 40) := ⟨by norm_num, by norm_num, by norm_num⟩
  have hsecond : NhdFits (7800, 10000) := ⟨by norm_num, by norm_num, by norm_num⟩
  simp only [nhdGroups, nhdGroup, List.forall_mem_cons]
  exact ⟨⟨hfirst, hsecond, by simp⟩, ⟨hfirst, by simp⟩, by simp⟩

theorem process1d_score_normalization_jobs_report_two :
    Reports1d (groupNhdPasses [307200, 614400]) 2 nhdGroups (bucketRange (2, (375 / 1000 : ℚ)))
      (fun _ => ⟨⟨.normal⟩, none, .hnsw⟩) .nhd
      (fun p => process1dAnonStatsScoreNormalizationJob (fun _ => 0) ⟨p, 1⟩ (sharedJob toRing16 nhdGroups p)
        ⟨⟨.normal⟩, none, .hnsw⟩ { twoBuckets with partyId := p.val } none none) stepStreams := by
  have hreport := (process1d_score_normalization_jobs_report (F := ℚ) (fun _ _ => 0) 1 Fin.val
    (fun _ => ⟨⟨.normal⟩, none, .hnsw⟩) twoBuckets none (fun _ => none) nhdGroups (by simp [nhdGroups])
    (by simp [nhdGroups]) (by simp [nhdGroups, nhdGroup]) nhdGroups_fits (by rw [configThresholds_two]; simp)
    (by rw [configThresholds_two]; simp) stepStreams lockstep_stepStreams).1 (sharedJob toRing16 nhdGroups)
    (groupsIn_sharedJob toRing16 nhdGroups)
  rw [configThresholds_two] at hreport
  exact hreport

end AmpcCommon.Stats
