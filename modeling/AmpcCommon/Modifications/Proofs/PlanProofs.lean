import AmpcCommon.Modifications.Proofs.RecoveryProofs
import Mathlib.Data.List.Perm.Basic

/-!
# Plans are canonical and safe

The plan visits the groups in the order of their ids, and the action of a consistent group depends on its rows
only up to their order (`planGroup_perm`). So a plan is sorted, and any order of the snapshots and of their rows
gives the same plan. What a plan does to a row is read off the merged fields of its group.
-/

namespace AmpcCommon.Modifications

variable {Id : Type}

theorem Modification.eq.refl (m : Modification Id) : m.eq m := ⟨rfl, rfl, rfl, rfl, rfl, rfl⟩

section Merged

variable {g g' : List (Modification Id)}

/-- The serial id of a consistent group is the one every row of it knows, if it knows one. -/
theorem mergedSerialId_eq_some (hc : ∀ a ∈ g, ∀ b ∈ g, ∀ x ∈ a.serialId, ∀ y ∈ b.serialId, x = y)
    {m : Modification Id} (hm : m ∈ g) {x : Int} (hx : m.serialId = some x) : mergedSerialId g = some x := by
  cases hs : mergedSerialId g with
  | none =>
    have hnone := List.findSome?_eq_none_iff.mp hs m hm
    rw [hx] at hnone
    cases hnone
  | some y =>
    obtain ⟨b, hb, hy⟩ := mergedSerialId_mem hs
    rw [hc m hm b hb x hx y hy]

theorem mergedSerialId_perm (hc : ∀ a ∈ g, ∀ b ∈ g, ∀ x ∈ a.serialId, ∀ y ∈ b.serialId, x = y)
    (hp : g.Perm g') : mergedSerialId g = mergedSerialId g' := by
  have hc' : ∀ a ∈ g', ∀ b ∈ g', ∀ x ∈ a.serialId, ∀ y ∈ b.serialId, x = y := fun a ha b hb =>
    hc a (hp.mem_iff.mpr ha) b (hp.mem_iff.mpr hb)
  cases hs : mergedSerialId g' with
  | none =>
    refine List.findSome?_eq_none_iff.mpr fun m hm => ?_
    exact List.findSome?_eq_none_iff.mp hs m (hp.mem_iff.mp hm)
  | some x =>
    obtain ⟨m, hm, hx⟩ := mergedSerialId_mem hs
    exact mergedSerialId_eq_some hc (hp.mem_iff.mpr hm) hx

theorem mergedPersisted_of_mem {m : Modification Id} (hm : m ∈ g) (hp : m.persisted = true) :
    mergedPersisted g = true :=
  List.any_eq_true.mpr ⟨m, hm, hp⟩

end Merged

theorem ConsistentRows.serialIds {g : List (Modification Id)} {id : Id} (h : ConsistentRows g)
    (hid : ∀ m ∈ g, m.id = id) : ∀ a ∈ g, ∀ b ∈ g, ∀ x ∈ a.serialId, ∀ y ∈ b.serialId, x = y :=
  fun a ha b hb => h.serialId a ha b hb ((hid a ha).trans (hid b hb).symm)

variable [LinearOrder Id]

/-- The local copies of two orders of the same rows. -/
theorem find_perm {my my' : List (Modification Id)} (hnd : (my.map (·.id)).Nodup) (hp : my.Perm my') (id : Id) :
    (my.find? fun m => m.id = id) = my'.find? fun m => m.id = id := by
  have hnd' : (my'.map (·.id)).Nodup := (hp.map _).nodup_iff.mp hnd
  cases hf : my'.find? fun m => m.id = id with
  | none =>
    refine List.find?_eq_none.mpr fun m hm => ?_
    exact List.find?_eq_none.mp hf m (hp.mem_iff.mp hm)
  | some r =>
    have hr : r ∈ my := hp.mem_iff.mpr (List.mem_of_find?_eq_some hf)
    have hid : r.id = id := by simpa using List.find?_some hf
    subst hid
    exact find_local hnd hr

variable [Repr Id]

/-- The updates and deletes of a group, spelled out. -/
theorem planGroup_update {my g : List (Modification Id)} {id : Id} (hne : g ≠ []) (hid : ∀ m ∈ g, m.id = id)
    (h : ConsistentRows g) {u : Modification Id} (hu : planGroup my id g = .ok (.update u)) :
    ∃ l, (my.find? fun m => m.id = id) = some l ∧ ¬ InSync g l ∧ ∃ fc ∈ g, fc.status = modStatusCompleted ∧
      u = { fc with status := modStatusCompleted, persisted := mergedPersisted g, serialId := mergedSerialId g } := by
  rcases planGroup_cases my hne hid h with ⟨-, hp⟩ | ⟨fc, hfc, hs, hp⟩
  · rw [hp] at hu
    cases hf : my.find? fun m => m.id = id with
    | none => rw [hf] at hu; cases hu
    | some l => rw [hf] at hu; cases hu
  · rw [hp] at hu
    cases hf : my.find? fun m => m.id = id with
    | none => rw [hf] at hu; cases hu
    | some l =>
      rw [hf] at hu
      dsimp only at hu
      split_ifs at hu with hl
      · cases hu
        refine ⟨l, rfl, ?_, fc, hfc, hs, rfl⟩
        rintro ⟨h1, h2, h3⟩
        rcases hl with hl | hl | hl
        · exact hl h1
        · exact hl h2
        · exact hl h3
      · cases hu

theorem planGroup_delete {my g : List (Modification Id)} {id : Id} (hne : g ≠ []) (hid : ∀ m ∈ g, m.id = id)
    (h : ConsistentRows g) {d : Modification Id} (hd : planGroup my id g = .ok (.delete d)) :
    (my.find? fun m => m.id = id) = some d ∧ ∀ m ∈ g, m.status = modStatusInProgress := by
  rcases planGroup_cases my hne hid h with ⟨hall, hp⟩ | ⟨fc, hfc, hs, hp⟩
  · rw [hp] at hd
    cases hf : my.find? fun m => m.id = id with
    | none => rw [hf] at hd; cases hd
    | some l =>
      rw [hf] at hd
      cases hd
      exact ⟨rfl, hall⟩
  · rw [hp] at hd
    cases hf : my.find? fun m => m.id = id with
    | none => rw [hf] at hd; cases hd
    | some l =>
      rw [hf] at hd
      dsimp only at hd
      split_ifs at hd with hl
      · cases hd
      · cases hd

/-- The action of a consistent group does not depend on the order of its rows. -/
theorem planGroup_perm {my my' g g' : List (Modification Id)} {id : Id} (hnd : (my.map (·.id)).Nodup)
    (hmy : my.Perm my') (hne : g ≠ []) (hid : ∀ m ∈ g, m.id = id) (h : ConsistentRows g) (hp : g.Perm g') :
    (∀ u, planGroup my id g = .ok (.update u) → ∃ u', planGroup my' id g' = .ok (.update u') ∧ u.eq u') ∧
    ∀ d, planGroup my id g = .ok (.delete d) → planGroup my' id g' = .ok (.delete d) := by
  have hne' : g' ≠ [] := fun hnil => hne (List.perm_nil.mp (hnil ▸ hp))
  have hid' : ∀ m ∈ g', m.id = id := fun m hm => hid m (hp.mem_iff.mpr hm)
  have h' : ConsistentRows g' := h.mono fun a ha => hp.mem_iff.mpr ha
  have hpersisted : mergedPersisted g = mergedPersisted g' := hp.any_eq
  have hserial := mergedSerialId_perm (h.serialIds hid) hp
  have hlocal := find_perm hnd hmy id
  constructor
  · intro u hu
    obtain ⟨l, hl, hsync, fc, hfc, hs, rfl⟩ := planGroup_update hne hid h hu
    rcases planGroup_cases my' hne' hid' h' with ⟨hall, -⟩ | ⟨fc', hfc', -, hp'⟩
    · have hprogress := hall fc (hp.mem_iff.mp hfc)
      rw [hs] at hprogress
      exact absurd hprogress (by decide)
    · rw [← hlocal, hl] at hp'
      have hout : l.status ≠ modStatusCompleted ∨ l.persisted ≠ mergedPersisted g' ∨
          l.serialId ≠ mergedSerialId g' := by
        by_contra hin
        push Not at hin
        exact hsync ⟨hin.1, hin.2.1.trans hpersisted.symm, hin.2.2.trans hserial.symm⟩
      dsimp only at hp'
      rw [if_pos hout] at hp'
      have hfcg := hp.mem_iff.mpr hfc'
      have hids : fc.id = fc'.id := (hid fc hfc).trans (hid fc' hfcg).symm
      exact ⟨_, hp', hids, hserial, h.requestType fc hfc fc' hfcg hids, h.input fc hfc fc' hfcg hids, rfl, hpersisted⟩
  · intro d hd
    obtain ⟨hl, hall⟩ := planGroup_delete hne hid h hd
    rcases planGroup_cases my' hne' hid' h' with ⟨-, hp'⟩ | ⟨fc', hfc', hs, -⟩
    · rw [← hlocal, hl] at hp'
      exact hp'
    · have hprogress := hall fc' (hp.mem_iff.mpr hfc')
      rw [hs] at hprogress
      exact absurd hprogress (by decide)

/-! ## Whole plans -/

/-- The rows a plan names come in the order of the groups. -/
theorem planGroups_ids (my : List (Modification Id)) {es : List (Id × List (Modification Id))}
    (hes : ∀ e ∈ es, e.2 ≠ [] ∧ (∀ m ∈ e.2, m.id = e.1) ∧ ConsistentRows e.2) {plan0 plan : ModificationPlan Id}
    (h : planGroups my es plan0 = .ok plan) :
    ∃ us ds, plan = (plan0.1 ++ us, plan0.2 ++ ds) ∧ (us.map (·.id)).Sublist (es.map Prod.fst) ∧
      (ds.map (·.id)).Sublist (es.map Prod.fst) := by
  induction es generalizing plan0 with
  | nil =>
    cases h
    exact ⟨[], [], by simp, List.Sublist.refl _, List.Sublist.refl _⟩
  | cons e es ih =>
    obtain ⟨hne, hid, hc⟩ := hes e List.mem_cons_self
    obtain ⟨a, ha, hrest⟩ := Outcome.bind_eq_ok.mp h
    obtain ⟨us, ds, hplan, hus, hds⟩ := ih (fun e' he' => hes e' (List.mem_cons_of_mem _ he')) hrest
    cases a with
    | skip => exact ⟨us, ds, hplan, hus.cons _, hds.cons _⟩
    | update u =>
      have hu : u.id = e.1 := planGroup_update_id hne hid hc ha
      refine ⟨u :: us, ds, ?_, ?_, hds.cons _⟩
      · simpa [Action.addTo] using hplan
      · rw [List.map_cons, List.map_cons, hu]
        exact hus.cons_cons _
    | delete d =>
      have hd : d.id = e.1 := by simpa using List.find?_some (planGroup_delete hne hid hc ha).1
      refine ⟨us, d :: ds, ?_, hus.cons _, ?_⟩
      · simpa [Action.addTo] using hplan
      · rw [List.map_cons, List.map_cons, hd]
        exact hds.cons_cons _

omit [LinearOrder Id] [Repr Id] in
/-- The check of a group never panics. -/
theorem bail_or_ok_bind {α β : Type} {o : Outcome α} {f : α → Outcome β}
    (ho : (∃ a, o = .ok a) ∨ ∃ msg, o = .bail msg)
    (hf : ∀ a, o = .ok a → (∃ b, f a = .ok b) ∨ ∃ msg, f a = .bail msg) :
    (∃ b, (o >>= f) = .ok b) ∨ ∃ msg, (o >>= f) = .bail msg := by
  rcases ho with ⟨a, rfl⟩ | ⟨msg, rfl⟩
  · exact hf a rfl
  · exact .inr ⟨msg, rfl⟩

theorem checkConsistencyLoop_returns (first : Modification Id) (serial : Option Int) (ms : List (Modification Id)) :
    (∃ a, checkConsistencyLoop first serial ms = .ok a) ∨
      ∃ msg, checkConsistencyLoop first serial ms = .bail msg := by
  fun_induction checkConsistencyLoop first serial ms with
  | case1 serial => exact .inl ⟨(), rfl⟩
  | case2 => exact .inr ⟨_, rfl⟩
  | case3 => exact .inr ⟨_, rfl⟩
  | case4 => exact .inr ⟨_, rfl⟩
  | case5 => exact .inr ⟨_, rfl⟩
  | case6 _ _ _ _ _ _ _ _ ih => exact ih
  | case7 _ _ _ _ _ _ _ _ _ _ ih => exact ih
  | case8 => exact .inr ⟨_, rfl⟩

theorem planGroup_returns (my : List (Modification Id)) {g : List (Modification Id)} {id : Id} (hne : g ≠ [])
    (hid : ∀ m ∈ g, m.id = id) : (∃ a, planGroup my id g = .ok a) ∨ ∃ msg, planGroup my id g = .bail msg := by
  by_cases h : ConsistentRows g
  · exact .inl ((planGroup_succeeds_iff my hne hid).mpr h)
  · have hcheck : ∃ msg, checkModificationsConsistency g = .bail msg := by
      cases g with
      | nil => exact absurd rfl hne
      | cons first rest =>
        rcases checkConsistencyLoop_returns first none (first :: rest) with ⟨a, ha⟩ | hbail
        · exact absurd ((checkModificationsConsistency_eq_ok hne hid).mp ha) h
        · exact hbail
    obtain ⟨msg, hmsg⟩ := hcheck
    refine .inr ⟨msg, ?_⟩
    unfold planGroup
    rw [hmsg]
    rfl

theorem planGroups_returns (my : List (Modification Id)) {es : List (Id × List (Modification Id))}
    (hes : ∀ e ∈ es, e.2 ≠ [] ∧ ∀ m ∈ e.2, m.id = e.1) (plan0 : ModificationPlan Id) :
    (∃ plan, planGroups my es plan0 = .ok plan) ∨ ∃ msg, planGroups my es plan0 = .bail msg := by
  induction es generalizing plan0 with
  | nil => exact .inl ⟨plan0, rfl⟩
  | cons e es ih =>
    obtain ⟨hne, hid⟩ := hes e List.mem_cons_self
    refine bail_or_ok_bind (planGroup_returns my hne hid) fun a _ => ?_
    exact ih (fun e' he' => hes e' (List.mem_cons_of_mem _ he')) _

section Plan

variable {my : List (Modification Id)} {all : List (List (Modification Id))} {plan : ModificationPlan Id}

omit [Repr Id] in
/-- The groups of consistent snapshots. -/
theorem grouped_consistent (hc : ConsistentRows all.flatten) {e : Id × List (Modification Id)}
    (he : e ∈ SortedGroup.groupBy (fun m : Modification Id => m.id) all.flatten) :
    e.2 ≠ [] ∧ (∀ m ∈ e.2, m.id = e.1) ∧ ConsistentRows e.2 := by
  obtain ⟨id, g⟩ := e
  obtain ⟨hne, rfl⟩ := mem_grouped.mp he
  exact ⟨hne, fun m hm => (mem_groupOf.mp hm).2, consistentRows_iff_groups.mp hc id⟩

theorem compareModifications_returns (my : List (Modification Id)) (all : List (List (Modification Id))) :
    (∃ plan, compareModifications my all = .ok plan) ∨ ∃ msg, compareModifications my all = .bail msg := by
  refine planGroups_returns my (fun e he => ?_) _
  obtain ⟨id, g⟩ := e
  obtain ⟨hne, rfl⟩ := mem_grouped.mp he
  exact ⟨hne, fun m hm => (mem_groupOf.mp hm).2⟩

/-- The updates and the deletes come in strictly increasing order of their ids. -/
theorem compareModifications_sorted (h : compareModifications my all = .ok plan) :
    (plan.1.map (·.id)).Pairwise (· < ·) ∧ (plan.2.map (·.id)).Pairwise (· < ·) := by
  have hc := (compareModifications_succeeds_iff my all).mp ⟨plan, h⟩
  obtain ⟨us, ds, rfl, hus, hds⟩ := planGroups_ids my (fun e he => grouped_consistent hc he) h
  have hsorted := (SortedGroup.groupBy_grouped (fun m : Modification Id => m.id) all.flatten).sorted
  simp only [List.nil_append]
  exact ⟨hsorted.sublist hus, hsorted.sublist hds⟩

/-- An update of a plan, by the group of its id. -/
theorem mem_updates (h : compareModifications my all = .ok plan) {u : Modification Id} (hu : u ∈ plan.1) :
    groupOf all.flatten u.id ≠ [] ∧ ConsistentRows (groupOf all.flatten u.id) ∧
      planGroup my u.id (groupOf all.flatten u.id) = .ok (.update u) := by
  have hc := (compareModifications_succeeds_iff my all).mp ⟨plan, h⟩
  obtain ⟨id, hne, hp⟩ := ((compareModifications_mem h).1 u).mp hu
  have hgc := consistentRows_iff_groups.mp hc id
  have hid := planGroup_update_id hne (fun m hm => (mem_groupOf.mp hm).2) hgc hp
  subst hid
  exact ⟨hne, hgc, hp⟩

/-- A delete of a plan, by the group of its id. -/
theorem mem_deletes (h : compareModifications my all = .ok plan) {d : Modification Id} (hd : d ∈ plan.2) :
    groupOf all.flatten d.id ≠ [] ∧ ConsistentRows (groupOf all.flatten d.id) ∧
      planGroup my d.id (groupOf all.flatten d.id) = .ok (.delete d) := by
  have hc := (compareModifications_succeeds_iff my all).mp ⟨plan, h⟩
  obtain ⟨id, hne, hp⟩ := ((compareModifications_mem h).2 d).mp hd
  have hgc := consistentRows_iff_groups.mp hc id
  have hid : d.id = id := by
    simpa using List.find?_some (planGroup_delete hne (fun m hm => (mem_groupOf.mp hm).2) hgc hp).1
  subst hid
  exact ⟨hne, hgc, hp⟩

/-- The local row an update replaces, and the fields it gets. -/
theorem update_row (h : compareModifications my all = .ok plan) {u : Modification Id} (hu : u ∈ plan.1) :
    ∃ l ∈ my, l.id = u.id ∧ (my.find? fun m => m.id = u.id) = some l ∧ u.status = modStatusCompleted ∧
      u.persisted = mergedPersisted (groupOf all.flatten u.id) ∧
      u.serialId = mergedSerialId (groupOf all.flatten u.id) := by
  obtain ⟨hne, hgc, hp⟩ := mem_updates h hu
  obtain ⟨l, hl, -, fc, hfc, -, heq⟩ := planGroup_update hne (fun m hm => (mem_groupOf.mp hm).2) hgc hp
  have hlid : l.id = u.id := by simpa using List.find?_some hl
  refine ⟨l, List.mem_of_find?_eq_some hl, hlid, hl, ?_, ?_, ?_⟩
  · exact congrArg Modification.status heq
  · exact congrArg Modification.persisted heq
  · exact congrArg Modification.serialId heq

/-- A plan does not depend on the order of the snapshots and of their rows. -/
theorem compareModifications_perm (hnd : (my.map (·.id)).Nodup) {my' : List (Modification Id)}
    {all' : List (List (Modification Id))} (hmy : my.Perm my') (hall : all.flatten.Perm all'.flatten)
    (h : compareModifications my all = .ok plan) :
    ∃ plan', compareModifications my' all' = .ok plan' ∧ List.Forall₂ Modification.eq plan.1 plan'.1 ∧
      List.Forall₂ Modification.eq plan.2 plan'.2 := by
  have hc := (compareModifications_succeeds_iff my all).mp ⟨plan, h⟩
  obtain ⟨plan', h'⟩ := (compareModifications_succeeds_iff my' all').mpr
    (hc.mono fun a ha => hall.mem_iff.mpr ha)
  obtain ⟨hu, hd⟩ := compareModifications_sorted h
  obtain ⟨hu', hd'⟩ := compareModifications_sorted h'
  have hnd' : (my'.map (·.id)).Nodup := (hmy.map _).nodup_iff.mp hnd
  have hgroup : ∀ id, (groupOf all.flatten id).Perm (groupOf all'.flatten id) := fun id => hall.filter _
  have hid : ∀ (R : List (Modification Id)) id, ∀ m ∈ groupOf R id, m.id = id := fun R id m hm =>
    (mem_groupOf.mp hm).2
  have hkey : ∀ a b : Modification Id, a.eq b → a.id = b.id := fun a b hab => hab.1
  refine ⟨plan', h', SortedGroup.forall₂_of_match hkey hu hu' ?_ ?_, SortedGroup.forall₂_of_match hkey hd hd' ?_ ?_⟩
  · intro u hu
    obtain ⟨hne, hgc, hp⟩ := mem_updates h hu
    obtain ⟨u', hp', heq⟩ := (planGroup_perm hnd hmy hne (hid _ _) hgc (hgroup u.id)).1 u hp
    have hne' : groupOf all'.flatten u.id ≠ [] := fun hnil => hne (List.perm_nil.mp (hnil ▸ hgroup u.id))
    exact ⟨u', ((compareModifications_mem h').1 u').mpr ⟨u.id, hne', hp'⟩, heq⟩
  · intro u' hu'
    obtain ⟨hne, hgc, hp⟩ := mem_updates h' hu'
    obtain ⟨u, hp', heq⟩ := (planGroup_perm hnd' hmy.symm hne (hid _ _) hgc (hgroup u'.id).symm).1 u' hp
    have hne' : groupOf all.flatten u'.id ≠ [] := fun hnil => hne (List.perm_nil.mp (hnil ▸ (hgroup u'.id).symm))
    obtain ⟨h1, h2, h3, h4, h5, h6⟩ := heq
    exact ⟨u, ((compareModifications_mem h).1 u).mpr ⟨u'.id, hne', hp'⟩, h1.symm, h2.symm, h3.symm, h4.symm,
      h5.symm, h6.symm⟩
  · intro d hd
    obtain ⟨hne, hgc, hp⟩ := mem_deletes h hd
    have hp' := (planGroup_perm hnd hmy hne (hid _ _) hgc (hgroup d.id)).2 d hp
    have hne' : groupOf all'.flatten d.id ≠ [] := fun hnil => hne (List.perm_nil.mp (hnil ▸ hgroup d.id))
    exact ⟨d, ((compareModifications_mem h').2 d).mpr ⟨d.id, hne', hp'⟩, .refl d⟩
  · intro d hd
    obtain ⟨hne, hgc, hp⟩ := mem_deletes h' hd
    have hp' := (planGroup_perm hnd' hmy.symm hne (hid _ _) hgc (hgroup d.id).symm).2 d hp
    have hne' : groupOf all.flatten d.id ≠ [] := fun hnil => hne (List.perm_nil.mp (hnil ▸ (hgroup d.id).symm))
    exact ⟨d, ((compareModifications_mem h).2 d).mpr ⟨d.id, hne', hp'⟩, .refl d⟩

end Plan

/-- The copies of some modification disagree, or one of them has an unexpected state. -/
def Disagree (all : List (List (Modification Id))) : Prop :=
  ∃ a ∈ all.flatten, ∃ b ∈ all.flatten, a.id = b.id ∧ (a.requestType ≠ b.requestType ∨ a.input ≠ b.input ∨
    (∃ x ∈ a.serialId, ∃ y ∈ b.serialId, x ≠ y) ∨
    ¬ (a.status = modStatusInProgress ∨ a.status = modStatusCompleted))

omit [LinearOrder Id] [Repr Id] in
theorem not_disagree_iff {all : List (List (Modification Id))} : ¬ Disagree all ↔ ConsistentRows all.flatten := by
  unfold Disagree
  constructor
  · intro h
    push Not at h
    exact ⟨fun a ha b hb hab => (h a ha b hb hab).1, fun a ha b hb hab => (h a ha b hb hab).2.1,
      fun a ha => (h a ha a ha rfl).2.2.2, fun a ha b hb hab => (h a ha b hb hab).2.2.1⟩
  · rintro h ⟨a, ha, b, hb, hab, hreq | hinput | ⟨x, hx, y, hy, hxy⟩ | hstatus⟩
    · exact hreq (h.requestType a ha b hb hab)
    · exact hinput (h.input a ha b hb hab)
    · exact hxy (h.serialId a ha b hb hab x hx y hy)
    · exact hstatus (h.status a ha)

/-- **Plans are canonical and safe.** Planning fails exactly when the copies of some modification disagree.
Otherwise the updates and the deletes are sorted by id, name different local rows, and do not depend on the order
of the snapshots and of their rows; nothing that some party completed is deleted, and an update does not take back
what the local row has. -/
theorem compareModifications_canonical (my : List (Modification Id)) (all : List (List (Modification Id)))
    (hnd : (my.map (·.id)).Nodup) (hmy : my ∈ all) :
    ((∃ msg, compareModifications my all = .bail msg) ↔ Disagree all) ∧
    (¬ Disagree all → ∃ plan, compareModifications my all = .ok plan ∧
      (plan.1.map (·.id)).Pairwise (· < ·) ∧ (plan.2.map (·.id)).Pairwise (· < ·) ∧
      (∀ u ∈ plan.1, ∀ d ∈ plan.2, u.id ≠ d.id) ∧
      (∀ m ∈ plan.1 ++ plan.2, ∃ r ∈ my, r.id = m.id) ∧
      (∀ my' shuffled all', my.Perm my' → all.Perm shuffled → List.Forall₂ List.Perm shuffled all' →
        ∃ plan', compareModifications my' all' = .ok plan' ∧ List.Forall₂ Modification.eq plan.1 plan'.1 ∧
          List.Forall₂ Modification.eq plan.2 plan'.2) ∧
      (∀ d ∈ plan.2, ∀ m ∈ all.flatten, m.id = d.id → m.status ≠ modStatusCompleted) ∧
      ∀ u ∈ plan.1, ∀ r ∈ my, r.id = u.id → (r.persisted = true → u.persisted = true) ∧
        (∀ x, r.serialId = some x → u.serialId = some x) ∧
        (r.status = modStatusCompleted → u.status = modStatusCompleted)) := by
  have hsub : ∀ r ∈ my, r ∈ all.flatten := fun r hr => List.mem_flatten.mpr ⟨my, hmy, hr⟩
  refine ⟨?_, fun hagree => ?_⟩
  · constructor
    · rintro ⟨msg, hmsg⟩
      by_contra hagree
      obtain ⟨plan, h⟩ := (compareModifications_succeeds_iff my all).mpr (not_disagree_iff.mp hagree)
      rw [hmsg] at h
      cases h
    · intro hdisagree
      refine (compareModifications_returns my all).resolve_left fun hplan => ?_
      exact not_disagree_iff.mpr ((compareModifications_succeeds_iff my all).mp hplan) hdisagree
  · obtain ⟨plan, h⟩ := (compareModifications_succeeds_iff my all).mpr (not_disagree_iff.mp hagree)
    obtain ⟨hu, hd⟩ := compareModifications_sorted h
    have hin : ∀ {m : Modification Id}, m ∈ all.flatten → m ∈ groupOf all.flatten m.id := fun hm =>
      mem_groupOf.mpr ⟨hm, rfl⟩
    have hid : ∀ id, ∀ m ∈ groupOf all.flatten id, m.id = id := fun id m hm => (mem_groupOf.mp hm).2
    have hdelete : ∀ d ∈ plan.2, d ∈ my ∧ ∀ m ∈ groupOf all.flatten d.id, m.status = modStatusInProgress := by
      intro d hd
      obtain ⟨hne, hgc, hp⟩ := mem_deletes h hd
      obtain ⟨hl, hall⟩ := planGroup_delete hne (hid _) hgc hp
      exact ⟨List.mem_of_find?_eq_some hl, hall⟩
    refine ⟨plan, h, hu, hd, ?_, ?_, ?_, ?_, ?_⟩
    · intro u hu d hd hids
      obtain ⟨hne, hgc, hp⟩ := mem_updates h hu
      obtain ⟨-, -, -, fc, hfc, hs, -⟩ := planGroup_update hne (hid _) hgc hp
      have hprogress := (hdelete d hd).2 fc (hids ▸ hfc)
      rw [hs] at hprogress
      exact absurd hprogress (by decide)
    · intro m hm
      rcases List.mem_append.mp hm with hm | hm
      · obtain ⟨l, hl, hlid, -⟩ := update_row h hm
        exact ⟨l, hl, hlid⟩
      · exact ⟨m, (hdelete m hm).1, rfl⟩
    · intro my' shuffled all' hmy' hshuffle hrows
      exact compareModifications_perm hnd hmy' (hshuffle.flatten.trans (.flatten_congr hrows)) h
    · intro d hd m hm hmid hcompleted
      have hprogress := (hdelete d hd).2 m (hmid ▸ hin hm)
      rw [hcompleted] at hprogress
      exact absurd hprogress (by decide)
    · intro u hu r hr hrid
      obtain ⟨-, hgc, -⟩ := mem_updates h hu
      obtain ⟨-, -, -, -, hstatus, hpersisted, hserial⟩ := update_row h hu
      have hrg : r ∈ groupOf all.flatten u.id := hrid ▸ hin (hsub r hr)
      refine ⟨fun hp => ?_, fun x hx => ?_, fun _ => hstatus⟩
      · rw [hpersisted]
        exact mergedPersisted_of_mem hrg hp
      · rw [hserial]
        exact mergedSerialId_eq_some (hgc.serialIds (hid _)) hrg hx

theorem compareModifications_canonical_partlyCompleted :
    ∃ plan, compareModifications (partlyCompleted 0) partlyCompleted.all = .ok plan ∧
      (plan.1.map (·.id)).Pairwise (· < ·) ∧ (∀ d ∈ plan.2, ∀ m ∈ partlyCompleted.all.flatten, m.id = d.id →
        m.status ≠ modStatusCompleted) ∧
      ∃ plan', compareModifications (partlyCompleted 0) [partlyCompleted 1, partlyCompleted 0, partlyCompleted 2] =
        .ok plan' ∧ List.Forall₂ Modification.eq plan.1 plan'.1 := by
  have hagree : ¬ Disagree partlyCompleted.all :=
    not_disagree_iff.mpr ((compareModifications_succeeds_iff _ _).mp (partlyCompleted_succeeds 0))
  obtain ⟨plan, h, hsorted, -, -, -, hperm, hcompleted, -⟩ :=
    (compareModifications_canonical (partlyCompleted 0) partlyCompleted.all (by decide) List.mem_cons_self).2 hagree
  have hrows : List.Forall₂ List.Perm [partlyCompleted 1, partlyCompleted 0, partlyCompleted 2]
      [partlyCompleted 1, partlyCompleted 0, partlyCompleted 2] :=
    .cons (.refl _) (.cons (.refl _) (.cons (.refl _) .nil))
  obtain ⟨plan', h', hupdates, -⟩ := hperm _ _ _ (.refl _) (.swap _ _ _) hrows
  exact ⟨plan, h, hsorted, hcompleted, plan', h', hupdates⟩

end AmpcCommon.Modifications
