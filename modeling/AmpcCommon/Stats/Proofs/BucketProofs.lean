import AmpcCommon.Stats.Proofs.Iris2dProofs

/-!
# Bucket sums, proofs

The comparisons come threshold by threshold, so a chunk holds those with one threshold, and its sum is the number of
distances that pass (`compareThresholdBuckets_succeeds`). A group is counted when its smallest distance passes, which
is when any of its distances does.
-/

namespace AmpcCommon.Stats

open Protocol

/-- The components of the sum of a chunk. -/
def chunkSum : List (Rep3 32) → Rep3 32
  | [] => fun _ => 0
  | z :: zs => zs.foldl (fun x y q => x q + y q) z

theorem sum_chunkSum (zs : List (Rep3 32)) : (chunkSum zs).sum = (zs.map Rep3.sum).sum := by
  cases zs with
  | nil => simp [chunkSum, Rep3.sum]
  | cons z zs => exact sum_foldl_add zs z

/-- A chunk for every threshold is summed up. -/
theorem sumChunks_sharesOf {α : Type} {n : Nat} (hn : n ≠ 0) {terms : List α} {f : α → List (BitVec 32)}
    (hf : ∀ a ∈ terms, (f a).length = n) {v : Party → List (Share 32)} (hv : SharesOf v (terms.flatMap f)) :
    ∃ r : Party → List (Share 32), (∀ p, sumChunks n (v p) = .ok (r p)) ∧
      SharesOf r (terms.map fun a => (f a).sum) := by
  obtain ⟨zs, hz, hsum⟩ := hv
  have hchunks : (chunks n zs).map (List.map Rep3.sum) = terms.map f := by
    rw [← chunks_map, hsum, List.flatMap_def]
    exact chunks_flatten (Nat.pos_of_ne_zero hn) (List.forall_mem_map.mpr hf)
  refine ⟨fun p => (chunks n zs).map fun chunk => (chunkSum chunk).view p, fun p => ?_, (chunks n zs).map chunkSum,
    fun p => by rw [List.map_map]; rfl, ?_⟩
  · rw [sumChunks, if_neg hn, hz p, chunks_map, List.map_map]
    refine congrArg Except.ok (List.map_congr_left fun chunk _ => ?_)
    cases chunk with
    | nil => rfl
    | cons z chunk => exact view_foldl_add p chunk z
  · have hsums := congrArg (List.map List.sum) hchunks
    rw [List.map_map, List.map_map] at hsums
    rw [List.map_map, ← Function.comp_def List.sum f, ← hsums]
    exact List.map_congr_left fun chunk _ => sum_chunkSum chunk

variable {R : Type} [Rng R]

theorem compareThresholdBuckets_succeeds (sid : BitVec 32) {v : Party → List (DistanceShare 32)}
    {ds : List (Int × Int)} (hv : DistancesOf v (ds.map toRing)) (hne : ds ≠ []) (hds : ∀ d ∈ ds, DistanceInRange d)
    {terms : List (BitVec 32)} (hterms : ∀ a ∈ terms, a.toNat ≤ 2 ^ 16) :
    Succeeds (fun p => (compareThresholdBuckets ⟨p, sid⟩ terms (v p) : Proc R _)) fun r =>
      SharesOf r (terms.map fun a => BitVec.ofNat 32 (ds.countP fun d => Passes a d)) := by
  have hlen : ∀ p, (v p).length = ds.length := by
    intro p
    rw [hv.length, List.length_map]
  unfold compareThresholdBuckets
  simp only [hlen]
  refine (compareAgainstThresholdsBatched_succeeds sid hv hds hterms).bind fun sums hsums => ?_
  have hn : ds.length ≠ 0 := fun h => hne (List.length_eq_zero_iff.mp h)
  obtain ⟨r, hr, hshares⟩ := sumChunks_sharesOf hn (fun a _ => List.length_map _) hsums
  refine Succeeds.lift hr ?_
  simp only [sum_indicator] at hshares
  exact hshares

/-- A smallest distance passes when any distance of the group does. -/
theorem passes_min_iff {a : BitVec 32} {group : List (Int × Int)} {m : Int × Int} (hm : IsMinDistance group m)
    (hgroup : ∀ d ∈ group, DistanceInRange d) : Passes a m ↔ ∃ d ∈ group, Passes a d := by
  constructor
  · intro hpass
    exact ⟨m, hm.1, hpass⟩
  · rintro ⟨d, hd, hpass⟩
    exact Passes.closer (hgroup m hm.1).fits.mask_pos (hgroup d hd).fits.mask_pos hpass (hm.2 d hd)

/-- The number of groups with a distance that passes the threshold. -/
def groupsPassing (groups : List (List (Int × Int))) (a : BitVec 32) : Nat :=
  groups.countP fun group => ∃ d ∈ group, Passes a d

theorem countP_mins {groups : List (List (Int × Int))} {ms : List (Int × Int)}
    (hmin : List.Forall₂ IsMinDistance groups ms) (hrange : ∀ group ∈ groups, ∀ d ∈ group, DistanceInRange d)
    (a : BitVec 32) : ms.countP (fun m => Passes a m) = groupsPassing groups a := by
  have hbits : groups.map (fun group => decide (∃ d ∈ group, Passes a d)) = ms.map fun m => decide (Passes a m) :=
    map_eq_of_forall₂ hmin fun group hg m hm => (decide_eq_decide.mpr (passes_min_iff hm (hrange group hg))).symm
  have hcount := congrArg (List.countP id) hbits
  rw [List.countP_map, List.countP_map] at hcount
  exact hcount.symm

theorem compareMinThresholdBuckets_succeeds (sid : BitVec 32) {groups : List (List (Int × Int))}
    {v : Party → List (List (DistanceShare 32))} (hv : GroupsOf v groups) (hne : groups ≠ [])
    (hgroups : ∀ group ∈ groups, group ≠ []) (hrange : ∀ group ∈ groups, ∀ d ∈ group, DistanceInRange d)
    {terms : List (BitVec 32)} (hterms : ∀ a ∈ terms, a.toNat ≤ 2 ^ 16) :
    Succeeds (fun p => (compareMinThresholdBuckets ⟨p, sid⟩ terms (v p) : Proc R _)) fun r =>
      SharesOf r (terms.map fun a => BitVec.ofNat 32 (groupsPassing groups a)) := by
  have hreduce := reduceToMinDistanceBatch_succeeds (R := R) sid hv hgroups fun g hg d hd => (hrange g hg d hd).fits
  refine hreduce.bind fun reduced hreduced => ?_
  obtain ⟨ms, hms, hmin⟩ := hreduced
  have hms_ne : ms ≠ [] := by
    rintro rfl
    cases hmin
    exact hne rfl
  have hms_range : ∀ m ∈ ms, DistanceInRange m := by
    intro m hm
    obtain ⟨i, hi, rfl⟩ := List.getElem_of_mem hm
    have hmin := hmin.get (hmin.length_eq.symm ▸ hi) hi
    exact hrange _ (List.getElem_mem _) _ hmin.1
  refine (compareThresholdBuckets_succeeds sid hms hms_ne hms_range hterms).mono fun r hr => ?_
  simp only [countP_mins hmin hrange] at hr
  exact hr

/-- **Bucket sums.** For every non-empty list of non-empty groups, every list of threshold terms, every sharing,
session and stream and in every schedule: there is one share for every threshold, it opens to the number of groups with
a distance that passes the threshold, and no comparison on the way wraps. -/
theorem compareMinThresholdBuckets_correct (sid : BitVec 32) (groups : List (List (Int × Int))) (hne : groups ≠ [])
    (hlen : groups.length < 2 ^ 32) (hgroups : ∀ group ∈ groups, group ≠ [])
    (hrange : ∀ group ∈ groups, ∀ d ∈ group, DistanceInRange d) (terms : List (BitVec 32))
    (hterms : ∀ a ∈ terms, a.toNat ≤ 2 ^ 16) (v : Party → List (List (DistanceShare 32))) (hv : GroupsOf v groups)
    (σ : Party → Prf R) (hσ : Lockstep σ) :
    (Network.Settles nextParty (fun p => compareMinThresholdBuckets ⟨p, sid⟩ terms (v p) (σ p)) fun o =>
      ∃ r, (∀ p, (o p).1 = .ok (r p) ∧ (r p).length = terms.length) ∧
        ∃ opened, SharesOf r opened ∧ opened.map BitVec.toNat = terms.map (groupsPassing groups)) ∧
    (Network.Settles nextParty
      (fun p => (compareMinThresholdBuckets ⟨p, sid⟩ terms (v p) >>= fun r => openRing .u32 r) (σ p)) fun o =>
      ∀ p, ∃ opened, (o p).1 = .ok opened ∧ opened.map BitVec.toNat = terms.map (groupsPassing groups)) ∧
    (∀ group ∈ groups, ∀ d ∈ group, ∀ e ∈ group, (cross (toRing d) (toRing e)).toInt = e.1 * d.2 - d.1 * e.2) ∧
    (∀ group ∈ groups, ∀ d ∈ group, ∀ a ∈ terms,
      ((toRing d).2 * a - (toRing d).1 * thresholdB).toInt = d.2 * a.toNat - d.1 * 2 ^ 16) := by
  have hbuckets := compareMinThresholdBuckets_succeeds (R := R) sid hv hne hgroups hrange hterms
  have hcounts : (terms.map fun a => BitVec.ofNat 32 (groupsPassing groups a)).map BitVec.toNat =
      terms.map (groupsPassing groups) := by
    rw [List.map_map]
    exact List.map_congr_left fun a _ => toNat_count hlen _
  refine ⟨?_, ?_, ?_, ?_⟩
  · obtain ⟨r, _, hjoint, -, hr⟩ := hbuckets σ hσ
    refine hjoint.settles ⟨r, fun p => ⟨rfl, ?_⟩, _, hr, hcounts⟩
    rw [hr.length, List.length_map]
  · have hopen := hbuckets.bind fun r hr => openRing_succeeds (R := R) (t := .u32) hr
    obtain ⟨r, _, hjoint, -, hr⟩ := hopen σ hσ
    refine hjoint.settles fun p => ⟨_, rfl, ?_⟩
    rw [hr p]
    exact hcounts
  · intro group hg d hd e he
    obtain ⟨hlow, hhigh⟩ := (hrange group hg e he).fits.mul_bounds (hrange group hg d hd).fits
    obtain ⟨hlow', hhigh'⟩ := (hrange group hg d hd).fits.mul_bounds (hrange group hg e he).fits
    rw [cross_toRing, toInt_ofInt (by omega) (by omega)]
  · intro group hg d hd a ha
    obtain ⟨hlow, hhigh⟩ := thresholdDiff_bounds (hterms a ha) (hrange group hg d hd)
    rw [thresholdDiff_eq, toInt_ofInt hlow hhigh]

/-- Two groups: the first one passes both thresholds, the other one the second threshold only. -/
def twoGroups : List (List (Int × Int)) := [[(8, 10), (9, 10)], [(4, 10)]]

theorem compareMinThresholdBuckets_correct_two :
    Network.Settles nextParty (fun p => compareMinThresholdBuckets ⟨p, 1⟩ [40960, 16384]
        (twoGroups.map (List.map fun d => (sharedDistance d).view p)) (stepStreams p)) fun o =>
      ∃ r, (∀ p, (o p).1 = .ok (r p) ∧ (r p).length = 2) ∧
        ∃ opened, SharesOf r opened ∧ opened.map BitVec.toNat = [1, 2] := by
  have hrange : ∀ group ∈ twoGroups, ∀ d ∈ group, DistanceInRange d := by
    simp only [twoGroups, List.forall_mem_cons]
    exact ⟨⟨⟨by decide, by decide, by decide⟩, ⟨by decide, by decide, by decide⟩, by simp⟩,
      ⟨⟨by decide, by decide, by decide⟩, by simp⟩, by simp⟩
  have hcounts : [1, 2] = [40960, 16384].map (groupsPassing twoGroups) := by decide
  rw [hcounts]
  exact (compareMinThresholdBuckets_correct 1 twoGroups (by simp [twoGroups]) (by simp [twoGroups])
    (by simp [twoGroups])
    hrange [40960, 16384] (by simp) _ (groupsOf_sharedDistance (by decide)) stepStreams lockstep_stepStreams).1

end AmpcCommon.Stats
