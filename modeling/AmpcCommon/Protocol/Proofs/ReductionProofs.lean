import Mathlib.Algebra.Order.Field.Basic
import Mathlib.Data.Rat.Cast.Order
import AmpcCommon.Protocol.Proofs.TotalityProofs

/-!
# Reduction to minima, proofs

The group reductions end with an error for an empty group (`reduceToMin_bails_iff`), and otherwise leave a smallest
distance of every group. For the distances with 32 bits the smallest distance is the one with the largest fraction of
the code by the mask (`closer_iff_ratio`).
-/

namespace AmpcCommon.Protocol

open GroupReduction

variable {K : Nat} {R : Type} {σ : Party → Prf R}

/-! ## Empty groups -/

/-- A reduction that succeeds for non-empty groups ends with an error if and only if a group is empty. -/
theorem reduceToMin_bails_iff {enc : Int × Int → BitVec K × BitVec K}
    {minOfPair : Party → List (DistancePair K) → Proc R (List (DistanceShare K))}
    {v : Party → List (List (DistanceShare K))} {groups : List (List (Int × Int))} (hv : GroupsIn enc v groups)
    {Q : (Party → List (DistanceShare K)) → Prop}
    (hreduce : (∀ group ∈ groups, group ≠ []) → Succeeds (fun p => reduceToMinWith (minOfPair p) (v p)) Q)
    (hσ : Lockstep σ) :
    Network.Settles nextParty (fun p => reduceToMinWith (minOfPair p) (v p) (σ p))
      (fun o => ∀ p, ∃ m, (o p).1 = .bail m) ↔ [] ∈ groups := by
  constructor
  · intro hbail
    by_contra hnone
    have hne : ∀ group ∈ groups, group ≠ [] := fun group hg hnil => hnone (hnil ▸ hg)
    have hends : Ends (fun p => reduceToMinWith (minOfPair p) (v p)) fun o =>
        ∃ r : Party → List (DistanceShare K), ∀ p, o p = .ok (r p) :=
      Ends.of_succeeds (hreduce hne) fun r _ => ⟨r, fun _ => rfl⟩
    refine hends.not_settles (S := fun o => ∀ p, ∃ m, o p = .bail m) (fun o ho hbails => ?_) hσ hbail
    obtain ⟨r, hr⟩ := ho
    obtain ⟨m, hm⟩ := hbails 0
    cases (hr 0).symm.trans hm
  · intro hempty
    have hsizes : ¬ ∀ n ∈ groups.map List.length, 0 < n :=
      fun hpos => absurd (hpos 0 (List.mem_map.mpr ⟨[], hempty, rfl⟩)) (Nat.lt_irrefl 0)
    have hends : Ends (fun p => reduceToMinWith (minOfPair p) (v p) >>= fun l => pure l)
        fun o => ∀ p, ∃ m, o p = .bail m := reduceToMinWith_ends hv.map_length hsizes
    simp only [bind_pure] at hends
    exact hends.settles hσ

/-! ## Distances with 32 bits -/

/-- The fraction of a code by its mask. -/
def ratio (d : Int × Int) : ℚ := d.1 / d.2

theorem closer_iff_ratio {m e : Int × Int} (hm : 0 < m.2) (he : 0 < e.2) : Closer m e ↔ ratio e ≤ ratio m := by
  have hm' : (0 : ℚ) < m.2 := by exact_mod_cast hm
  have he' : (0 : ℚ) < e.2 := by exact_mod_cast he
  unfold Closer ratio
  rw [div_le_div_iff₀ he' hm']
  exact_mod_cast Iff.rfl

theorem mul_toRing {d e : Int × Int} (hd : DistanceFits d) (he : DistanceFits e) :
    ((toRing d).1 * (toRing e).2).toInt = d.1 * e.2 := by
  obtain ⟨hlow, hhigh⟩ := hd.mul_bounds he
  unfold toRing
  rw [← BitVec.ofInt_mul, toInt_ofInt (by omega) (by omega)]

theorem toInt_cross_toRing {d e : Int × Int} (hd : DistanceFits d) (he : DistanceFits e) :
    (cross (toRing d) (toRing e)).toInt = e.1 * d.2 - d.1 * e.2 := by
  obtain ⟨hlow, hhigh⟩ := he.mul_bounds hd
  obtain ⟨hlow', hhigh'⟩ := hd.mul_bounds he
  rw [cross_toRing, toInt_ofInt (by omega) (by omega)]

variable [Rng R]

/-- **Minimum of every group.** The calls return an error if and only if a group is empty. Otherwise the parties get
shares of the distance every group is reduced to on its own: a member of the group with the largest ratio. Neither
products nor cross products wrap, and a group that is reduced stays as it is when its first member is compared again. -/
theorem reduceToMinDistanceBatch_correct (sid : BitVec 32) (groups : List (List (Int × Int)))
    (hfits : ∀ group ∈ groups, ∀ d ∈ group, DistanceFits d) (v : Party → List (List (DistanceShare 32)))
    (hv : GroupsOf v groups) (hσ : Lockstep σ) :
    (Network.Settles nextParty (fun p => reduceToMinDistanceBatch ⟨p, sid⟩ (v p) (σ p))
      (fun o => ∀ p, ∃ m, (o p).1 = .bail m) ↔ [] ∈ groups) ∧
    ([] ∉ groups → Network.Settles nextParty (fun p => reduceToMinDistanceBatch ⟨p, sid⟩ (v p) (σ p)) fun o =>
      ∃ r, (∀ p, (o p).1 = .ok (r p)) ∧ DistancesOf r (groups.map fun group => toRing (reduced minDistance group))) ∧
    (∀ group ∈ groups, group ≠ [] → reduced minDistance group ∈ group ∧
      ∀ e ∈ group, ratio e ≤ ratio (reduced minDistance group)) ∧
    (∀ group ∈ groups, ∀ d ∈ group, ∀ e ∈ group, ((toRing d).1 * (toRing e).2).toInt = d.1 * e.2 ∧
      (cross (toRing d) (toRing e)).toInt = e.1 * d.2 - d.1 * e.2) ∧
    (∀ group ∈ groups, group ≠ [] → reducePair (toRing (group.headD default)) (toRing (reduced minDistance group)) =
      toRing (reduced minDistance group)) := by
  have hreduced : (∀ group ∈ groups, group ≠ []) →
      Succeeds (fun p => (reduceToMinDistanceBatch ⟨p, sid⟩ (v p) : Proc R _)) fun r =>
        DistancesOf r (groups.map fun group => toRing (reduced minDistance group)) :=
    fun hne => reduceToMinDistanceBatch_reduced sid hv hne hfits
  refine ⟨reduceToMin_bails_iff hv hreduced hσ, ?_, ?_, ?_, ?_⟩
  · intro hnone
    have hne : ∀ group ∈ groups, group ≠ [] := fun group hg hnil => hnone (hnil ▸ hg)
    exact (Ends.of_succeeds (hreduced hne) (Q := fun o => ∃ r, (∀ p, o p = .ok (r p)) ∧ DistancesOf r _)
      fun r hr => ⟨r, fun _ => rfl, hr⟩).settles hσ
  · intro group hg hne
    obtain ⟨hmem, hmin⟩ := isMinDistance_reduced hne (hfits group hg)
    have hpos : ∀ d ∈ group, 0 < d.2 := fun d hd => (hfits group hg d hd).mask_pos
    exact ⟨hmem, fun e he => (closer_iff_ratio (hpos _ hmem) (hpos e he)).mp (hmin e he)⟩
  · intro group hg d hd e he
    have hd := hfits group hg d hd
    have he := hfits group hg e he
    exact ⟨mul_toRing hd he, toInt_cross_toRing hd he⟩
  · intro group hg hne
    have hfits := hfits group hg
    have hfirst : group.headD default ∈ group := by
      cases group with
      | nil => exact absurd rfl hne
      | cons d ds => exact List.mem_cons_self
    have hmem := reduced_mem selects_minDistance hne
    rw [reducePair_toRing (hfits _ hfirst) (hfits _ hmem), select_head_reduced selects_minDistance hne hfits]

/-! ## Shared groups -/

/-- A sharing of a distance. -/
def shareDistance (d : BitVec K × BitVec K) : Rep3Distance K := (![d.1 - 7, 5, 2], ![d.2 - 1, 0, 1])

theorem value_shareDistance (d : BitVec K × BitVec K) : (shareDistance d).value = d := by
  refine Prod.ext ?_ ?_
  · show d.1 - 7 + 5 + 2 = d.1
    ring
  · show d.2 - 1 + 0 + 1 = d.2
    ring

/-- What the party `p` holds of shared groups. -/
def shareGroups (enc : Int × Int → BitVec K × BitVec K) (groups : List (List (Int × Int))) (p : Party) :
    List (List (DistanceShare K)) :=
  groups.map (List.map fun d => (shareDistance (enc d)).view p)

theorem groupsIn_shareGroups (enc : Int × Int → BitVec K × BitVec K) (groups : List (List (Int × Int))) :
    GroupsIn enc (shareGroups enc groups) groups := by
  refine ⟨groups.map (List.map fun d => shareDistance (enc d)), fun p => ?_, ?_⟩
  · unfold shareGroups
    rw [List.map_map]
    refine List.map_congr_left fun group _ => ?_
    rw [Function.comp_apply, List.map_map]
    rfl
  · rw [List.map_map]
    refine List.map_congr_left fun group _ => ?_
    rw [Function.comp_apply, List.map_map]
    exact List.map_congr_left fun d _ => value_shareDistance (enc d)

/-- Three distances and one. -/
def unequalGroups : List (List (Int × Int)) := [[(8, 10), (9, 10), (-3, 7)], [(4, 10)]]

theorem reduceToMinDistanceBatch_correct_unequal :
    (Network.Settles nextParty
      (fun p => reduceToMinDistanceBatch ⟨p, 1⟩ (shareGroups toRing unequalGroups p) (stepStreams p)) fun o =>
      ∃ r, (∀ p, (o p).1 = .ok (r p)) ∧ DistancesOf r [toRing (9, 10), toRing (4, 10)]) ∧
    Network.Settles nextParty
      (fun p => reduceToMinDistanceBatch ⟨p, 1⟩ (shareGroups toRing [[(8, 10)], []] p) (stepStreams p)) fun o =>
      ∀ p, ∃ m, (o p).1 = .bail m := by
  have hfits : ∀ group ∈ unequalGroups, ∀ d ∈ group, DistanceFits d := by
    simp only [unequalGroups, List.forall_mem_cons]
    exact ⟨⟨⟨by decide, by decide, by decide, by decide⟩, ⟨by decide, by decide, by decide, by decide⟩,
      ⟨by decide, by decide, by decide, by decide⟩, by simp⟩,
      ⟨⟨by decide, by decide, by decide, by decide⟩, by simp⟩, by simp⟩
  have hfits' : ∀ group ∈ [[(8, 10)], []], ∀ d ∈ group, DistanceFits d := by
    simp only [List.forall_mem_cons]
    exact ⟨⟨⟨by decide, by decide, by decide, by decide⟩, by simp⟩, by simp, by simp⟩
  constructor
  · exact (reduceToMinDistanceBatch_correct 1 unequalGroups hfits _ (groupsIn_shareGroups toRing _)
      lockstep_stepStreams).2.1 (by decide)
  · exact (reduceToMinDistanceBatch_correct 1 [[(8, 10)], []] hfits' _ (groupsIn_shareGroups toRing _)
      lockstep_stepStreams).1.mpr (by decide)

end AmpcCommon.Protocol
