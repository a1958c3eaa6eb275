import AmpcCommon.Modifications.Replay
import AmpcCommon.Modifications.Proofs.PlanProofs

/-!
# No mutation is replayed

The mutation of a row counts as applied exactly when the row is completed and persisted (`AppliedInv.rows`). An
update of a pending plan restores this for the row it writes: it applies the mutation exactly if the row it
replaces was not completed and persisted (`AppliedInv.updates`), since a plan never takes back what a row has.
-/

namespace AmpcCommon.Modifications

variable {Id : Type}

/-- How often the mutation of a row has to have been applied. -/
def Modification.mutations (m : Modification Id) : Nat :=
  if m.status = modStatusCompleted ∧ m.persisted = true then 1 else 0

theorem Modification.mutations_le (m : Modification Id) : m.mutations ≤ 1 := by
  unfold Modification.mutations
  split_ifs
  · exact le_rfl
  · exact Nat.zero_le 1

theorem Modification.mutations_completed {m : Modification Id} (h : m.status = modStatusCompleted) :
    m.mutations = m.persisted.toNat := by
  unfold Modification.mutations
  cases m.persisted <;> simp [h]

/-- The mutations of a party match its rows and what is pending. `held` are the ids of the rows it started with,
`initial` the mutations applied until then. -/
structure AppliedInv (held : Int → Prop) (initial : List Int) (s : RecoveringParty) : Prop where
  rows : ∀ r ∈ s.rows, held r.id ∧ s.applied.count r.id = r.mutations
  bound : ∀ id, held id → s.applied.count id ≤ 1
  others : ∀ id, ¬ held id → s.applied.count id = initial.count id
  distinct : ∀ plan ∈ s.pending, (plan.updates.map (·.modification.id)).Nodup
  updates : ∀ plan ∈ s.pending, ∀ u ∈ plan.updates, held u.modification.id ∧
    s.applied.count u.modification.id + u.applyMutation.toNat = u.modification.mutations

namespace AppliedInv

variable {held : Int → Prop} {initial : List Int} {s t : RecoveringParty}

/-- What a plan has to do is worked out from the rows. -/
theorem plan (h : AppliedInv held initial s) {all : List (List (Modification Int))} {maxLookback : Nat}
    (hmy : s.rows ∈ all) {plan : ModificationRecoveryPlan} (hplan : recoveryPlan s.rows all maxLookback = .ok plan) :
    AppliedInv held initial { s with pending := some plan } := by
  unfold recoveryPlan at hplan
  obtain ⟨-, -, hplan⟩ := Outcome.bind_eq_ok.mp hplan
  obtain ⟨⟨us, ds⟩, hcompare, hplan⟩ := Outcome.bind_eq_ok.mp hplan
  cases hplan
  refine ⟨h.rows, h.bound, h.others, ?_, ?_⟩
  · rintro plan ⟨⟩
    have hsorted := (compareModifications_sorted hcompare).1
    rw [List.map_map]
    exact hsorted.imp fun hlt => ne_of_lt hlt
  · rintro plan ⟨⟩ u hu
    obtain ⟨m, hm, rfl⟩ := List.mem_map.mp hu
    obtain ⟨l, hl, hlid, hfind, hstatus, hpersisted, -⟩ := update_row hcompare hm
    obtain ⟨hheld, hcount⟩ := h.rows l hl
    rw [hlid] at hheld hcount
    refine ⟨hheld, ?_⟩
    show s.applied.count m.id + (requiresModificationApply m (s.rows.find? fun r => r.id = m.id)).toNat = m.mutations
    rw [hfind, hcount, Modification.mutations_completed hstatus]
    -- the merged row is persisted if the local one is
    by_cases hlocal : l.status = modStatusCompleted ∧ l.persisted = true
    · have hmem : l ∈ groupOf all.flatten m.id := mem_groupOf.mpr ⟨List.mem_flatten.mpr ⟨_, hmy, hl⟩, hlid⟩
      have hmerged : m.persisted = true := hpersisted.trans (mergedPersisted_of_mem hmem hlocal.2)
      simp [Modification.mutations, requiresModificationApply, hlocal, hmerged]
    · have hany : ((some l).any fun r => r.status = modStatusCompleted && r.persisted) = false := by
        simpa using hlocal
      unfold Modification.mutations requiresModificationApply
      rw [if_neg hlocal, hany]
      simp

theorem count_rollForward (s : RecoveringParty) (u : RollForwardModification) (id : Int) :
    (s.rollForward u).applied.count id =
      s.applied.count id + if id = u.modification.id then u.applyMutation.toNat else 0 := by
  unfold RecoveringParty.rollForward
  by_cases hid : id = u.modification.id
  · subst hid
    cases hu : u.applyMutation <;> simp
  · cases hu : u.applyMutation
    · simp [hid]
    · simp [hid, Ne.symm hid]

/-- An update brings the mutations of its row up to date. -/
theorem rollForward (h : AppliedInv held initial s) {u : RollForwardModification}
    {updates : List RollForwardModification} {deletes : List (Modification Int)}
    (hpending : s.pending = some ⟨u :: updates, deletes⟩) :
    AppliedInv held initial { s.rollForward u with pending := some ⟨updates, deletes⟩ } := by
  have hdistinct := h.distinct _ hpending
  rw [List.map_cons, List.nodup_cons] at hdistinct
  obtain ⟨hheld, hdue⟩ := h.updates _ hpending u List.mem_cons_self
  have hown : (s.rollForward u).applied.count u.modification.id = u.modification.mutations := by
    rw [count_rollForward, if_pos rfl, hdue]
  have hother : ∀ id, id ≠ u.modification.id → (s.rollForward u).applied.count id = s.applied.count id := by
    intro id hid
    rw [count_rollForward, if_neg hid, Nat.add_zero]
  refine ⟨fun r hr => ?_, fun id hid => ?_, fun id hid => ?_, ?_, ?_⟩
  · obtain ⟨r', hr', rfl⟩ := List.mem_map.mp hr
    by_cases hid : r'.id = u.modification.id
    · rw [if_pos hid]
      exact ⟨hheld, hown⟩
    · rw [if_neg hid]
      exact ⟨(h.rows r' hr').1, (hother _ hid).trans (h.rows r' hr').2⟩
  · show (s.rollForward u).applied.count id ≤ 1
    by_cases hu : id = u.modification.id
    · rw [hu, hown]
      exact Modification.mutations_le _
    · rw [hother id hu]
      exact h.bound id hid
  · exact (hother id fun hu => hid (hu ▸ hheld)).trans (h.others id hid)
  · rintro plan ⟨⟩
    exact hdistinct.2
  · rintro plan ⟨⟩ v hv
    obtain ⟨hvheld, hvdue⟩ := h.updates _ hpending v (List.mem_cons_of_mem _ hv)
    have hne : v.modification.id ≠ u.modification.id := fun heq =>
      hdistinct.1 (List.mem_map.mpr ⟨v, hv, heq⟩)
    refine ⟨hvheld, ?_⟩
    show (s.rollForward u).applied.count _ + _ = _
    rw [hother _ hne, hvdue]

theorem step (h : AppliedInv held initial s) {e : RecoveryEvent} (hstep : s.step e = some t) :
    AppliedInv held initial t := by
  have hnone : ∀ plan : ModificationRecoveryPlan, plan ∉ (none : Option ModificationRecoveryPlan) := fun _ hp => by
    cases hp
  cases e with
  | plan all maxLookback =>
    dsimp only [RecoveringParty.step] at hstep
    split_ifs at hstep with hcan
    cases hplan : recoveryPlan s.rows all maxLookback with
    | error e =>
      rw [hplan] at hstep
      cases hstep
    | ok plan =>
      rw [hplan] at hstep
      cases hstep
      exact h.plan hcan.2 hplan
  | update =>
    dsimp only [RecoveringParty.step] at hstep
    split at hstep
    next u updates deletes hpending =>
      cases hstep
      exact h.rollForward hpending
    next => cases hstep
  | delete =>
    dsimp only [RecoveringParty.step] at hstep
    split at hstep
    next updates d deletes hpending =>
      cases hstep
      refine ⟨fun r hr => h.rows r (List.mem_of_mem_filter hr), h.bound, h.others, ?_, ?_⟩
      · rintro plan ⟨⟩
        exact h.distinct ⟨updates, d :: deletes⟩ hpending
      · rintro plan ⟨⟩
        exact h.updates ⟨updates, d :: deletes⟩ hpending
    next => cases hstep
  | finish =>
    dsimp only [RecoveringParty.step] at hstep
    split at hstep
    next =>
      cases hstep
      exact ⟨h.rows, h.bound, h.others, fun plan hp => absurd hp (hnone plan), fun plan hp => absurd hp (hnone plan)⟩
    next => cases hstep
  | crash =>
    cases hstep
    exact ⟨h.rows, h.bound, h.others, fun plan hp => absurd hp (hnone plan), fun plan hp => absurd hp (hnone plan)⟩

end AppliedInv

/-- **No mutation is replayed.** Start from rows whose mutations have been applied once if they are completed and
persisted, and not at all otherwise. However the parties plan, work their plans off and crash, none of them applies
the mutation of an id twice, and the mutations that have been applied always match the rows. -/
theorem no_mutation_replayed {P : Type} [DecidableEq P] (s t : P → RecoveringParty)
    (hidle : ∀ p, (s p).pending = none) (happlied : ∀ p, ∀ r ∈ (s p).rows, (s p).applied.count r.id =
      if r.status = modStatusCompleted ∧ r.persisted = true then 1 else 0)
    (events : List (P × RecoveryEvent)) (hrun : Transition.run recoveryStep s events = some t) (p : P) :
    (∀ id, (∃ r ∈ (s p).rows, r.id = id) → (t p).applied.count id ≤ 1) ∧
    (∀ id, (¬ ∃ r ∈ (s p).rows, r.id = id) → (t p).applied.count id = (s p).applied.count id) ∧
    ∀ r ∈ (t p).rows, (t p).applied.count r.id =
      if r.status = modStatusCompleted ∧ r.persisted = true then 1 else 0 := by
  have hinit : ∀ p, AppliedInv (fun id => ∃ r ∈ (s p).rows, r.id = id) (s p).applied (s p) := by
    intro p
    refine ⟨fun r hr => ⟨⟨r, hr, rfl⟩, happlied p r hr⟩, ?_, fun id _ => rfl, ?_, ?_⟩
    · rintro id ⟨r, hr, rfl⟩
      rw [happlied p r hr]
      exact Modification.mutations_le r
    · rw [hidle p]
      rintro plan ⟨⟩
    · rw [hidle p]
      rintro plan ⟨⟩
  have hstep : ∀ u (e : P × RecoveryEvent) v, recoveryStep u e = some v →
      (∀ p, AppliedInv (fun id => ∃ r ∈ (s p).rows, r.id = id) (s p).applied (u p)) →
      ∀ p, AppliedInv (fun id => ∃ r ∈ (s p).rows, r.id = id) (s p).applied (v p) := by
    intro u e v hstep hu q
    obtain ⟨w, hw, rfl⟩ := Option.map_eq_some_iff.mp hstep
    by_cases hq : q = e.1
    · subst hq
      rw [Function.update_self]
      exact (hu _).step hw
    · rw [Function.update_of_ne hq]
      exact hu q
  have hinv := Transition.run_invariant hstep hrun hinit p
  exact ⟨hinv.bound, hinv.others, fun r hr => (hinv.rows r hr).2⟩

/-- Party 0 rolls its row forward, crashes, and starts over. -/
def rollForwardAndCrash : List (Fin 3 × RecoveryEvent) :=
  [(0, .plan partlyCompleted.all 10), (0, .update), (0, .crash),
    (0, .plan [[⟨1, some 7, "uniqueness", some (.s3 "sns/1"), "COMPLETED", true, none⟩], partlyCompleted 1] 10),
    (0, .finish)]

theorem no_mutation_replayed_rollForwardAndCrash :
    ∃ t, Transition.run recoveryStep (fun p => ⟨partlyCompleted p, if p = 1 then [1] else [], none⟩)
        rollForwardAndCrash = some t ∧
      (t 0).applied.count 1 ≤ 1 := by
  have hrun : (Transition.run recoveryStep (fun p : Fin 3 => ⟨partlyCompleted p, if p = 1 then [1] else [], none⟩)
      rollForwardAndCrash).isSome = true := by decide
  obtain ⟨t, ht⟩ := Option.isSome_iff_exists.mp hrun
  refine ⟨t, ht, ?_⟩
  exact (no_mutation_replayed _ t (fun _ => rfl) (by decide) rollForwardAndCrash ht 0).1 1 (by decide)

end AmpcCommon.Modifications
