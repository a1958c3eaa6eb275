import AmpcCommon.Modifications.Recovery
import AmpcCommon.Modifications.Proofs.CompareProofs
import Mathlib.Data.Fintype.Basic
import Mathlib.Tactic.FinCases

/-!
# Recovery converges

Applying a plan keeps a row unchanged up to the merged fields of its group, so consistent snapshots
stay consistent under every crash pattern; and once all parties applied the plans of one list of
snapshots, every remaining row carries the merged fields and nothing is left to do.
-/

namespace AmpcCommon.Modifications

variable {Id : Type}

/-- A serial id that is known after the merge was known to some copy of the group. -/
theorem mergedSerialId_mem {g : List (Modification Id)} {x : Int} (h : x ∈ mergedSerialId g) :
    ∃ m ∈ g, x ∈ m.serialId :=
  List.exists_of_findSome?_eq_some h

/-- In a group whose rows all carry the same fields, these are the merged ones. -/
theorem inSync_of_uniform {g : List (Modification Id)} {m : Modification Id} (hm : m ∈ g)
    (hg : ∀ a ∈ g, a.status = modStatusCompleted ∧ a.persisted = m.persisted ∧
      a.serialId = m.serialId) : InSync g m := by
  refine ⟨(hg m hm).1, ?_, ?_⟩
  · cases hp : m.persisted with
    | true => exact (List.any_eq_true.mpr ⟨m, hm, hp⟩).symm
    | false =>
      refine (List.any_eq_false.mpr fun a ha => ?_).symm
      rw [(hg a ha).2.1, hp]
      exact Bool.false_ne_true
  · cases hs : mergedSerialId g with
    | none =>
      exact List.findSome?_eq_none_iff.mp hs m hm
    | some x =>
      obtain ⟨a, ha, hx⟩ := mergedSerialId_mem hs
      rw [← (hg a ha).2.2]
      exact hx

theorem mem_all {s : Snapshots Id} {m : Modification Id} :
    m ∈ s.all.flatten ↔ ∃ i, m ∈ s i := by
  simp only [Snapshots.all, List.mem_flatten, List.mem_cons, List.not_mem_nil, or_false]
  constructor
  · rintro ⟨l, rfl | rfl | rfl, hm⟩
    · exact ⟨0, hm⟩
    · exact ⟨1, hm⟩
    · exact ⟨2, hm⟩
  · rintro ⟨i, hm⟩
    refine ⟨s i, ?_, hm⟩
    fin_cases i <;> simp

section Rows

variable [LinearOrder Id]

/-- With unique ids, the local copy the plan finds is the row itself. -/
theorem find_local {my : List (Modification Id)} (hnd : (my.map (·.id)).Nodup)
    {r : Modification Id} (hr : r ∈ my) : (my.find? fun m => m.id = r.id) = some r := by
  induction my with
  | nil => cases hr
  | cons m ms ih =>
    rw [List.map_cons, List.nodup_cons] at hnd
    rcases List.mem_cons.mp hr with rfl | hr
    · simp
    · have hne : m.id ≠ r.id := fun h => hnd.1 (List.mem_map.mpr ⟨r, hr, h.symm⟩)
      rw [List.find?_cons_of_neg (by simpa using hne)]
      exact ih hnd.2 hr

theorem applyPlan_ids_nodup {my : List (Modification Id)} (plan : ModificationPlan Id) (hnd : (my.map (·.id)).Nodup) :
    ((applyPlan plan my).map (·.id)).Nodup := by
  have hmap : (my.map fun r => (plan.1.find? fun u => u.id = r.id).getD r).map (·.id) =
      my.map (·.id) := by
    rw [List.map_map]
    refine List.map_congr_left fun r _ => ?_
    cases hf : plan.1.find? fun u => u.id = r.id with
    | none => simp [hf]
    | some u =>
      have := List.find?_some hf
      simpa [hf] using this
  rw [applyPlan]
  refine List.Nodup.sublist ?_ (hmap ▸ hnd)
  exact List.Sublist.map _ List.filter_sublist

theorem applyPlan_nil (rows : List (Modification Id)) : applyPlan ([], []) rows = rows := by
  simp [applyPlan]

end Rows

variable [LinearOrder Id] [Repr Id]

/-- An update planned for a group is a row of that group. -/
theorem planGroup_update_id {my g : List (Modification Id)} {id : Id} (hne : g ≠ [])
    (hid : ∀ m ∈ g, m.id = id) (h : ConsistentRows g) {u : Modification Id}
    (hu : planGroup my id g = .ok (.update u)) : u.id = id := by
  rcases planGroup_cases my hne hid h with ⟨-, hp⟩ | ⟨fc, hfc, -, hp⟩
  · rw [hp] at hu
    cases hf : my.find? fun m => m.id = id with
    | none => rw [hf] at hu; cases hu
    | some l => rw [hf] at hu; cases hu
  · rw [hp] at hu
    cases hf : my.find? fun m => m.id = id with
    | none => rw [hf] at hu; cases hu
    | some l =>
      rw [hf] at hu
      dsimp only at hu
      split_ifs at hu with hl
      · cases hu
        exact hid fc hfc
      · cases hu

section Apply

variable {my : List (Modification Id)} {all : List (List (Modification Id))}
  {plan : ModificationPlan Id}

/-- Every row left by a plan is a local row, brought to the merged fields of its group. -/
theorem applyPlan_row (hnd : (my.map (·.id)).Nodup) (hmy : ∀ r ∈ my, r ∈ all.flatten)
    (hplan : compareModifications my all = .ok plan) {r' : Modification Id}
    (hr' : r' ∈ applyPlan plan my) :
    ∃ r ∈ my, r'.id = r.id ∧ r'.requestType = r.requestType ∧ r'.input = r.input ∧
      InSync (groupOf all.flatten r.id) r' := by
  have hcons := (compareModifications_succeeds_iff my all).mp ⟨plan, hplan⟩
  obtain ⟨hupd, hdel⟩ := compareModifications_mem hplan
  rw [applyPlan, List.mem_filter] at hr'
  obtain ⟨hr', hkeep⟩ := hr'
  obtain ⟨r, hr, hrr'⟩ := List.mem_map.mp hr'
  set g := groupOf all.flatten r.id with hg
  have hrg : r ∈ g := mem_groupOf.mpr ⟨hmy r hr, rfl⟩
  have hne : g ≠ [] := List.ne_nil_of_mem hrg
  have hid : ∀ m ∈ g, m.id = r.id := fun m hm => (mem_groupOf.mp hm).2
  have hgc : ConsistentRows g := consistentRows_iff_groups.mp hcons r.id
  have hloc := find_local hnd hr
  have hr'id : r'.id = r.id := by
    rw [← hrr']
    cases hf : plan.1.find? fun u => u.id = r.id with
    | none => rfl
    | some u => simpa using List.find?_some hf
  refine ⟨r, hr, hr'id, ?_⟩
  rcases planGroup_cases my hne hid hgc with ⟨-, hp⟩ | ⟨fc, hfc, -, hp⟩
  · -- all copies in progress: the row is deleted
    rw [hloc] at hp
    have hmem : r ∈ plan.2 := (hdel r).mpr ⟨r.id, hne, hp⟩
    have : plan.2.any (fun d => d.id = r'.id) = true :=
      List.any_eq_true.mpr ⟨r, hmem, by simpa using hr'id.symm⟩
    rw [this] at hkeep
    cases hkeep
  · rw [hloc] at hp
    dsimp only at hp
    cases hf : plan.1.find? fun u => u.id = r.id with
    | some u =>
      have hu : u ∈ plan.1 := List.mem_of_find?_eq_some hf
      have huid : u.id = r.id := by simpa using List.find?_some hf
      obtain ⟨id', hne', hp'⟩ := (hupd u).mp hu
      have hid' : id' = r.id := by
        rw [← huid]
        exact (planGroup_update_id hne' (fun m hm => (mem_groupOf.mp hm).2)
          (consistentRows_iff_groups.mp hcons id') hp').symm
      subst hid'
      rw [hp] at hp'
      rw [hf] at hrr'
      split_ifs at hp' with hl
      · cases hp'
        rw [← hrr']
        refine ⟨?_, ?_, rfl, rfl, rfl⟩
        · exact hgc.requestType fc hfc r hrg (hid fc hfc)
        · exact hgc.input fc hfc r hrg (hid fc hfc)
      · cases hp'
    | none =>
      rw [hf] at hrr'
      have hrr' : r = r' := hrr'
      have hsync : ¬ (r.status ≠ modStatusCompleted ∨ r.persisted ≠ mergedPersisted g ∨
          r.serialId ≠ mergedSerialId g) := by
        intro hl
        rw [if_pos hl] at hp
        refine absurd ?_ (List.find?_eq_none.mp hf _ ((hupd _).mpr ⟨r.id, hne, hp⟩))
        simpa using hid fc hfc
      rw [← hrr']
      refine ⟨rfl, rfl, ?_, ?_, ?_⟩
      · exact not_not.mp fun h => hsync (Or.inl h)
      · exact not_not.mp fun h => hsync (Or.inr (Or.inl h))
      · exact not_not.mp fun h => hsync (Or.inr (Or.inr h))

end Apply

/-- The snapshots recovery starts from and keeps: unique ids at each party, consistent copies. -/
structure RecoveryInv (s : Snapshots Id) : Prop where
  nodup : ∀ i, ((s i).map (·.id)).Nodup
  consistent : ConsistentRows s.all.flatten

/-- A round from consistent snapshots succeeds, and every party keeps its rows or applies its
plan. -/
theorem recoveryRound_ok {s : Snapshots Id} (h : RecoveryInv s) (crashed : Fin 3 → Bool) :
    ∃ t, recoveryRound crashed s = .ok t ∧
      ∀ i, if crashed i then t i = s i
        else ∃ plan, planOf s i = .ok plan ∧ t i = applyPlan plan (s i) := by
  have hplan : ∀ i, (planOf s i).Succeeds := fun i =>
    (compareModifications_succeeds_iff (s i) s.all).mpr h.consistent
  obtain ⟨p0, h0⟩ := hplan 0
  obtain ⟨p1, h1⟩ := hplan 1
  obtain ⟨p2, h2⟩ := hplan 2
  refine ⟨_, by rw [recoveryRound, h0, h1, h2]; rfl, fun i => ?_⟩
  by_cases hc : crashed i = true
  · simp [hc]
  · rw [if_neg hc]
    refine ⟨![p0, p1, p2] i, ?_, by simp [hc]⟩
    fin_cases i
    · exact h0
    · exact h1
    · exact h2

/-- Every row after a round is a row of the same party before it, up to the merged fields. -/
theorem recoveryRound_row {s t : Snapshots Id} (h : RecoveryInv s) {crashed : Fin 3 → Bool}
    (ht : ∀ i, if crashed i then t i = s i
      else ∃ plan, planOf s i = .ok plan ∧ t i = applyPlan plan (s i)) {i : Fin 3}
    {r' : Modification Id} (hr' : r' ∈ t i) :
    ∃ r ∈ s i, r'.id = r.id ∧ r'.requestType = r.requestType ∧ r'.input = r.input ∧
      ((crashed i = true ∧ r' = r) ∨
        (crashed i = false ∧ InSync (groupOf s.all.flatten r.id) r')) := by
  have hti := ht i
  by_cases hc : crashed i = true
  · rw [if_pos hc] at hti
    rw [hti] at hr'
    exact ⟨r', hr', rfl, rfl, rfl, Or.inl ⟨hc, rfl⟩⟩
  · rw [if_neg hc] at hti
    obtain ⟨plan, hp, htp⟩ := hti
    rw [htp] at hr'
    obtain ⟨r, hr, h1, h2, h3, h4⟩ := applyPlan_row (h.nodup i)
      (fun r hr => mem_all.mpr ⟨i, hr⟩) hp hr'
    exact ⟨r, hr, h1, h2, h3, Or.inr ⟨by simpa using hc, h4⟩⟩

/-- Rounds keep the invariant, whoever crashes. -/
theorem recoveryInv_round {s t : Snapshots Id} (h : RecoveryInv s) {crashed : Fin 3 → Bool}
    (ht : ∀ i, if crashed i then t i = s i
      else ∃ plan, planOf s i = .ok plan ∧ t i = applyPlan plan (s i)) : RecoveryInv t := by
  -- a row after the round has the id, request type, input and status of the invariant, and a
  -- serial id only if some copy before the round had it
  have hrow : ∀ a ∈ t.all.flatten, ∃ r ∈ s.all.flatten, a.id = r.id ∧
      a.requestType = r.requestType ∧ a.input = r.input ∧
      (a.status = modStatusInProgress ∨ a.status = modStatusCompleted) ∧
      ∀ x ∈ a.serialId, ∃ m ∈ s.all.flatten, m.id = a.id ∧ x ∈ m.serialId := by
    intro a ha
    obtain ⟨i, hai⟩ := mem_all.mp ha
    obtain ⟨r, hr, h1, h2, h3, h4⟩ := recoveryRound_row h ht hai
    have hrR : r ∈ s.all.flatten := mem_all.mpr ⟨i, hr⟩
    refine ⟨r, hrR, h1, h2, h3, ?_⟩
    rcases h4 with ⟨-, rfl⟩ | ⟨-, hs1, -, hs3⟩
    · exact ⟨h.consistent.status a hrR, fun x hx => ⟨a, hrR, rfl, hx⟩⟩
    · refine ⟨Or.inr hs1, fun x hx => ?_⟩
      rw [hs3] at hx
      obtain ⟨m, hm, hxm⟩ := mergedSerialId_mem hx
      obtain ⟨hmR, hmid⟩ := mem_groupOf.mp hm
      exact ⟨m, hmR, hmid.trans h1.symm, hxm⟩
  refine ⟨fun i => ?_, ?_, ?_, ?_, ?_⟩
  · have hti := ht i
    by_cases hc : crashed i = true
    · rw [if_pos hc] at hti
      rw [hti]
      exact h.nodup i
    · rw [if_neg hc] at hti
      obtain ⟨plan, -, htp⟩ := hti
      rw [htp]
      exact applyPlan_ids_nodup plan (h.nodup i)
  · intro a ha b hb hab
    obtain ⟨ra, hra, ha1, ha2, -⟩ := hrow a ha
    obtain ⟨rb, hrb, hb1, hb2, -⟩ := hrow b hb
    rw [ha2, hb2]
    exact h.consistent.requestType ra hra rb hrb (by rw [← ha1, ← hb1, hab])
  · intro a ha b hb hab
    obtain ⟨ra, hra, ha1, -, ha3, -⟩ := hrow a ha
    obtain ⟨rb, hrb, hb1, -, hb3, -⟩ := hrow b hb
    rw [ha3, hb3]
    exact h.consistent.input ra hra rb hrb (by rw [← ha1, ← hb1, hab])
  · intro a ha
    obtain ⟨-, -, -, -, -, hst, -⟩ := hrow a ha
    exact hst
  · intro a ha b hb hab x hx y hy
    obtain ⟨-, -, -, -, -, -, hser⟩ := hrow a ha
    obtain ⟨-, -, -, -, -, -, hser'⟩ := hrow b hb
    obtain ⟨ma, hma, hma1, hxa⟩ := hser x hx
    obtain ⟨mb, hmb, hmb1, hyb⟩ := hser' y hy
    exact h.consistent.serialId ma hma mb hmb (by rw [hma1, hmb1, hab]) x hxa y hyb

/-- Every run of rounds from consistent snapshots goes through, and ends in consistent snapshots. -/
theorem recoveryRun_inv {s : Snapshots Id} (h : RecoveryInv s) (crashes : List (Fin 3 → Bool)) :
    ∃ t, recoveryRun crashes s = .ok t ∧ RecoveryInv t := by
  induction crashes generalizing s with
  | nil => exact ⟨s, rfl, h⟩
  | cons crashed rest ih =>
    obtain ⟨t, hround, ht⟩ := recoveryRound_ok h crashed
    obtain ⟨u, hrun, hu⟩ := ih (recoveryInv_round h ht)
    exact ⟨u, by rw [recoveryRun, hround]; exact hrun, hu⟩

/-- The state recovery aims for: all copies completed and equal up to what the parties may keep
apart. -/
structure Converged (t : Snapshots Id) : Prop where
  completed : ∀ i, ∀ a ∈ t i, a.status = modStatusCompleted
  agree : ∀ i j, ∀ a ∈ t i, ∀ b ∈ t j, a.id = b.id →
    a.status = b.status ∧ a.persisted = b.persisted ∧ a.serialId = b.serialId

/-- A round nobody crashes in converges. -/
theorem converged_of_full_round {s t : Snapshots Id} (h : RecoveryInv s)
    (ht : ∀ i, if (fun _ : Fin 3 => false) i then t i = s i
      else ∃ plan, planOf s i = .ok plan ∧ t i = applyPlan plan (s i)) : Converged t := by
  have hsync : ∀ i, ∀ a ∈ t i, InSync (groupOf s.all.flatten a.id) a := by
    intro i a ha
    obtain ⟨r, -, h1, -, -, ⟨hc, -⟩ | ⟨-, h4⟩⟩ := recoveryRound_row h ht ha
    · cases hc
    · rw [h1]
      exact h4
  refine ⟨fun i a ha => (hsync i a ha).1, fun i j a ha b hb hab => ?_⟩
  obtain ⟨ha1, ha2, ha3⟩ := hsync i a ha
  obtain ⟨hb1, hb2, hb3⟩ := hsync j b hb
  rw [← hab] at hb2 hb3
  exact ⟨ha1.trans hb1.symm, ha2.trans hb2.symm, ha3.trans hb3.symm⟩

/-- Converged snapshots need no changes. -/
theorem planOf_converged {t : Snapshots Id} (h : RecoveryInv t) (hc : Converged t) (i : Fin 3) :
    planOf t i = .ok ([], []) := by
  obtain ⟨plan, hplan⟩ := (compareModifications_succeeds_iff (t i) t.all).mpr h.consistent
  obtain ⟨hupd, hdel⟩ := compareModifications_mem hplan
  have hskip : ∀ id, groupOf t.all.flatten id ≠ [] →
      planGroup (t i) id (groupOf t.all.flatten id) = .ok .skip := by
    intro id hne
    have hid : ∀ m ∈ groupOf t.all.flatten id, m.id = id := fun m hm => (mem_groupOf.mp hm).2
    have hrow : ∀ m ∈ groupOf t.all.flatten id, ∃ j, m ∈ t j := fun m hm =>
      mem_all.mp (mem_groupOf.mp hm).1
    rcases planGroup_cases (t i) hne hid (consistentRows_iff_groups.mp h.consistent id) with
      ⟨hall, -⟩ | ⟨fc, -, -, hp⟩
    · obtain ⟨m, hm⟩ := List.exists_mem_of_ne_nil _ hne
      obtain ⟨j, hj⟩ := hrow m hm
      have := hall m hm
      rw [hc.completed j m hj] at this
      exact absurd this (by decide)
    · rw [hp]
      cases hf : (t i).find? fun m => m.id = id with
      | none => rfl
      | some l =>
        have hl : l ∈ t i := List.mem_of_find?_eq_some hf
        have hlid : l.id = id := by simpa using List.find?_some hf
        have hlg : l ∈ groupOf t.all.flatten id := mem_groupOf.mpr ⟨mem_all.mpr ⟨i, hl⟩, hlid⟩
        obtain ⟨h1, h2, h3⟩ : InSync (groupOf t.all.flatten id) l := by
          refine inSync_of_uniform hlg fun a ha => ?_
          obtain ⟨j, hj⟩ := hrow a ha
          obtain ⟨-, hp', hs'⟩ := hc.agree j i a hj l hl ((hid a ha).trans hlid.symm)
          exact ⟨hc.completed j a hj, hp', hs'⟩
        have hin : ¬ (l.status ≠ modStatusCompleted ∨
            l.persisted ≠ mergedPersisted (groupOf t.all.flatten id) ∨
            l.serialId ≠ mergedSerialId (groupOf t.all.flatten id)) := by
          rintro (hx | hx | hx)
          · exact hx h1
          · exact hx h2
          · exact hx h3
        simp only [if_neg hin]
  have hu : plan.1 = [] := by
    refine List.eq_nil_iff_forall_not_mem.mpr fun m hm => ?_
    obtain ⟨id, hne, hp⟩ := (hupd m).mp hm
    rw [hskip id hne] at hp
    cases hp
  have hd : plan.2 = [] := by
    refine List.eq_nil_iff_forall_not_mem.mpr fun m hm => ?_
    obtain ⟨id, hne, hp⟩ := (hdel m).mp hm
    rw [hskip id hne] at hp
    cases hp
  rw [planOf, hplan]
  exact congrArg Except.ok (Prod.ext hu hd)

/-- Later rounds leave converged snapshots alone. -/
theorem recoveryRun_converged {t : Snapshots Id} (h : RecoveryInv t) (hc : Converged t)
    (crashes : List (Fin 3 → Bool)) : recoveryRun crashes t = .ok t := by
  induction crashes with
  | nil => rfl
  | cons crashed rest ih =>
    have hround : recoveryRound crashed t = .ok t := by
      rw [recoveryRound, planOf_converged h hc 0, planOf_converged h hc 1, planOf_converged h hc 2]
      refine congrArg Except.ok (funext fun i => ?_)
      have hnil : (![([], []), ([], []), ([], [])] : Fin 3 → ModificationPlan Id) i = ([], []) := by
        fin_cases i <;> rfl
      rw [hnil, applyPlan_nil]
      split_ifs <;> rfl
    rw [recoveryRun, hround]
    exact ih

/-- **Modification recovery converges and tolerates crashes.** From snapshots with unique ids on
which planning succeeds, every run of recovery rounds goes through, whoever crashes in it; one round
nobody crashes in then leaves only completed rows that agree across the parties, and from there on
all plans are empty and no later round changes anything. -/
theorem recovery_converges (s : Snapshots Id) (hids : ∀ i, ((s i).map (·.id)).Nodup)
    (hplan : ∀ i, (planOf s i).Succeeds) (crashes : List (Fin 3 → Bool)) :
    ∃ t, recoveryRun crashes s = .ok t ∧ (∀ i, (planOf t i).Succeeds) ∧
      ∃ u, recoveryRound (fun _ => false) t = .ok u ∧
        (∀ i j, ∀ a ∈ u i, ∀ b ∈ u j, a.id = b.id →
          a.status = b.status ∧ a.persisted = b.persisted ∧ a.serialId = b.serialId) ∧
        (∀ i, ∀ a ∈ u i, a.status = modStatusCompleted) ∧
        (∀ i, planOf u i = .ok ([], [])) ∧
        ∀ later, recoveryRun later u = .ok u := by
  have h0 : RecoveryInv s :=
    ⟨hids, (compareModifications_succeeds_iff (s 0) s.all).mp (hplan 0)⟩
  obtain ⟨t, hrun, ht⟩ := recoveryRun_inv h0 crashes
  obtain ⟨u, hround, hu⟩ := recoveryRound_ok ht fun _ => false
  have hu' := recoveryInv_round ht hu
  have hconv := converged_of_full_round ht hu
  exact ⟨t, hrun, fun i => (compareModifications_succeeds_iff (t i) t.all).mpr ht.consistent,
    u, hround, hconv.agree, hconv.completed, planOf_converged hu' hconv,
    recoveryRun_converged hu' hconv⟩

/-- Three parties of which one completed a modification, one still has it in progress, and one never
saw it. -/
def partlyCompleted : Snapshots Int :=
  ![[⟨1, none, "uniqueness", some (.s3 "sns/1"), "IN_PROGRESS", false, none⟩],
    [⟨1, some 7, "uniqueness", some (.s3 "sns/1"), "COMPLETED", true, none⟩], []]

theorem partlyCompleted_succeeds (i : Fin 3) : (planOf partlyCompleted i).Succeeds := by
  refine (compareModifications_succeeds_iff _ _).mpr ⟨?_, ?_, ?_, ?_⟩ <;>
    simp [partlyCompleted, Snapshots.all, modStatusInProgress, modStatusCompleted]

theorem recovery_converges_partlyCompleted :
    ∃ t, recoveryRun [![true, false, false], ![false, true, true]] partlyCompleted = .ok t ∧
      ∃ u, recoveryRound (fun _ => false) t = .ok u ∧ ∀ i, planOf u i = .ok ([], []) := by
  obtain ⟨t, hrun, -, u, hround, -, -, hempty, -⟩ :=
    recovery_converges partlyCompleted (by decide) partlyCompleted_succeeds
      [![true, false, false], ![false, true, true]]
  exact ⟨t, hrun, u, hround, hempty⟩

end AmpcCommon.Modifications
