import AmpcCommon.Modifications.Modification

/-!
# When a plan exists, and what it contains

`compareModifications` succeeds exactly when the copies of every modification are consistent
(`ConsistentRows`), and then each group contributes the action `planGroup` computes for it.
-/

namespace AmpcCommon.Modifications

variable {Id : Type}

/-- The rows agree on everything the copies of one modification must agree on. -/
structure ConsistentRows (R : List (Modification Id)) : Prop where
  requestType : ∀ a ∈ R, ∀ b ∈ R, a.id = b.id → a.requestType = b.requestType
  input : ∀ a ∈ R, ∀ b ∈ R, a.id = b.id → a.input = b.input
  status : ∀ a ∈ R, a.status = modStatusInProgress ∨ a.status = modStatusCompleted
  serialId : ∀ a ∈ R, ∀ b ∈ R, a.id = b.id →
    ∀ x ∈ a.serialId, ∀ y ∈ b.serialId, x = y

theorem ConsistentRows.mono {R R' : List (Modification Id)} (h : ConsistentRows R)
    (hsub : ∀ a ∈ R', a ∈ R) : ConsistentRows R' :=
  ⟨fun a ha b hb => h.requestType a (hsub a ha) b (hsub b hb),
    fun a ha b hb => h.input a (hsub a ha) b (hsub b hb),
    fun a ha => h.status a (hsub a ha),
    fun a ha b hb => h.serialId a (hsub a ha) b (hsub b hb)⟩

/-- A completed row of a group that is not all in progress. -/
theorem exists_completed {g : List (Modification Id)} (h : ConsistentRows g)
    (hall : g.all (fun m => m.status = modStatusInProgress) = false) :
    ∃ m ∈ g, m.status = modStatusCompleted := by
  obtain ⟨m, hm, hs⟩ := List.all_eq_false.mp hall
  refine ⟨m, hm, (h.status m hm).resolve_left ?_⟩
  simpa using hs

/-- The row the roll-forward starts from is a completed row of the group. -/
theorem exists_firstCompleted {g : List (Modification Id)} (serial : Option Int)
    (h : ∃ m ∈ g, m.status = modStatusCompleted) :
    ∃ m ∈ g, m.status = modStatusCompleted ∧
      (((g.filter fun m => m.status = modStatusCompleted).find? fun m => m.serialId = serial).or
        (g.filter fun m => m.status = modStatusCompleted).head?) = some m := by
  set completed := g.filter fun m => m.status = modStatusCompleted with hcomp
  have hmem : ∀ m ∈ completed, m ∈ g ∧ m.status = modStatusCompleted := by
    intro m hm
    rw [hcomp, List.mem_filter] at hm
    exact ⟨hm.1, by simpa using hm.2⟩
  cases hfind : completed.find? fun m => m.serialId = serial with
  | some m =>
    obtain ⟨h1, h2⟩ := hmem m (List.mem_of_find?_eq_some hfind)
    exact ⟨m, h1, h2, rfl⟩
  | none =>
    obtain ⟨m, hm, hs⟩ := h
    have hmc : m ∈ completed := by
      rw [hcomp, List.mem_filter]
      exact ⟨hm, by simpa using hs⟩
    cases hc : completed with
    | nil => rw [hc] at hmc; cases hmc
    | cons first rest =>
      obtain ⟨h1, h2⟩ := hmem first (by rw [hc]; exact List.mem_cons_self)
      exact ⟨first, h1, h2, by simp⟩

/-- The merged fields of a completed group. -/
abbrev mergedPersisted (g : List (Modification Id)) : Bool := g.any fun m => m.persisted

/-- The first serial id known in a group. -/
abbrev mergedSerialId (g : List (Modification Id)) : Option Int := g.findSome? fun m => m.serialId

/-- A row has the merged fields of the group `g`. -/
def InSync (g : List (Modification Id)) (m : Modification Id) : Prop :=
  m.status = modStatusCompleted ∧ m.persisted = mergedPersisted g ∧ m.serialId = mergedSerialId g

/-- All the serial ids that are known, in the rows `ms` or before them, are the same. -/
def SerialsAgree (serial : Option Int) (ms : List (Modification Id)) : Prop :=
  (∀ m ∈ ms, ∀ x ∈ m.serialId, ∀ y ∈ serial, y = x) ∧
    ∀ a ∈ ms, ∀ b ∈ ms, ∀ x ∈ a.serialId, ∀ y ∈ b.serialId, x = y

theorem serialsAgree_cons (serial : Option Int) (m : Modification Id) (ms : List (Modification Id)) :
    SerialsAgree serial (m :: ms) ↔
      (∀ x ∈ m.serialId, ∀ y ∈ serial, y = x) ∧ SerialsAgree (m.serialId.or serial) ms := by
  unfold SerialsAgree
  cases hm : m.serialId with
  | none => simp [hm]
  | some c =>
    simp only [List.mem_cons, forall_eq_or_imp, hm, Option.mem_def, Option.some.injEq, Option.some_or, forall_eq']
    constructor
    · rintro ⟨⟨hserial, -⟩, ⟨-, hrow⟩, hrows⟩
      exact ⟨hserial, hrow, fun a ha => (hrows a ha).2⟩
    · rintro ⟨hserial, hrow, hrows⟩
      refine ⟨⟨hserial, fun b hb x hx y hy => ?_⟩, ⟨trivial, hrow⟩, fun a ha => ⟨fun x hx => ?_, hrows a ha⟩⟩
      · rw [hserial y hy, hrow b hb x hx]
      · exact (hrow a ha x hx).symm

variable [LinearOrder Id]

/-- The copies of the modification `id`. -/
def groupOf (R : List (Modification Id)) (id : Id) : List (Modification Id) :=
  R.filter fun m => m.id = id

theorem mem_groupOf {R : List (Modification Id)} {id : Id} {m : Modification Id} :
    m ∈ groupOf R id ↔ m ∈ R ∧ m.id = id := by
  simp [groupOf]

/-- The entries of the grouped snapshots. -/
theorem mem_grouped {all : List (List (Modification Id))} {id : Id} {g : List (Modification Id)} :
    (id, g) ∈ SortedGroup.groupBy (·.id) all.flatten ↔
      g ≠ [] ∧ g = groupOf all.flatten id := by
  rw [(SortedGroup.groupBy_grouped (fun m : Modification Id => m.id) all.flatten).entry]
  constructor
  · rintro ⟨hid, rfl⟩
    obtain ⟨m, hm, hmid⟩ := List.mem_map.mp hid
    exact ⟨List.ne_nil_of_mem (mem_groupOf.mpr ⟨hm, hmid⟩), rfl⟩
  · rintro ⟨hne, rfl⟩
    obtain ⟨m, hm⟩ := List.exists_mem_of_ne_nil _ hne
    obtain ⟨hmR, hmid⟩ := mem_groupOf.mp hm
    exact ⟨List.mem_map.mpr ⟨m, hmR, hmid⟩, rfl⟩

theorem consistentRows_iff_groups {R : List (Modification Id)} :
    ConsistentRows R ↔ ∀ id, ConsistentRows (groupOf R id) := by
  constructor
  · intro h id
    exact h.mono fun a ha => (mem_groupOf.mp ha).1
  · intro h
    have hself : ∀ a ∈ R, a ∈ groupOf R a.id := fun a ha => mem_groupOf.mpr ⟨ha, rfl⟩
    have hother : ∀ a : Modification Id, ∀ b ∈ R, a.id = b.id → b ∈ groupOf R a.id :=
      fun a b hb hab => mem_groupOf.mpr ⟨hb, hab.symm⟩
    exact ⟨fun a ha b hb hab => (h a.id).requestType a (hself a ha) b (hother a b hb hab) hab,
      fun a ha b hb hab => (h a.id).input a (hself a ha) b (hother a b hb hab) hab,
      fun a ha => (h a.id).status a (hself a ha),
      fun a ha b hb hab => (h a.id).serialId a (hself a ha) b (hother a b hb hab) hab⟩

variable [Repr Id]

/-- One round of the loop. -/
theorem checkConsistencyLoop_cons_eq_ok (first : Modification Id) (serial : Option Int) (m : Modification Id)
    (ms : List (Modification Id)) :
    checkConsistencyLoop first serial (m :: ms) = .ok () ↔
      (first.id = m.id ∧ first.requestType = m.requestType ∧ first.input = m.input ∧
        (m.status = modStatusInProgress ∨ m.status = modStatusCompleted)) ∧
      (∀ x ∈ m.serialId, ∀ y ∈ serial, y = x) ∧ checkConsistencyLoop first (m.serialId.or serial) ms = .ok () := by
  rw [checkConsistencyLoop]
  split_ifs with h1 h2 h3 h4
  · exact iff_of_false nofun fun h => h1 h.1.1
  · exact iff_of_false nofun fun h => h2 h.1.2.1
  · exact iff_of_false nofun fun h => h3 h.1.2.2.1
  · rw [and_iff_right ⟨not_not.mp h1, not_not.mp h2, not_not.mp h3, h4⟩]
    cases hm : m.serialId with
    | none => simp
    | some current =>
      dsimp only
      split_ifs with hall
      · have hsame : ∀ x ∈ some current, ∀ y ∈ serial, y = x := by
          rintro x ⟨⟩ y hy
          rw [Option.mem_def] at hy
          subst hy
          simpa using hall
        rw [and_iff_right hsame, Option.some_or]
      · refine iff_of_false nofun fun h => hall ?_
        rw [Option.all_eq_true]
        intro y hy
        rw [h.1 current rfl y hy, decide_eq_true_iff]
  · exact iff_of_false nofun fun h => h4 h.1.2.2.2

/-- The loop of the consistency check accepts `ms`, given the serial id known so far. -/
theorem checkConsistencyLoop_eq_ok (first : Modification Id) (serial : Option Int)
    (ms : List (Modification Id)) :
    checkConsistencyLoop first serial ms = .ok () ↔
      (∀ m ∈ ms, first.id = m.id ∧ first.requestType = m.requestType ∧ first.input = m.input ∧
        (m.status = modStatusInProgress ∨ m.status = modStatusCompleted)) ∧ SerialsAgree serial ms := by
  induction ms generalizing serial with
  | nil => simp [checkConsistencyLoop, SerialsAgree]
  | cons m ms ih =>
    rw [checkConsistencyLoop_cons_eq_ok, ih, serialsAgree_cons, List.forall_mem_cons]
    tauto

/-- The check accepts a non-empty group of one id exactly when its rows are consistent. -/
theorem checkModificationsConsistency_eq_ok {g : List (Modification Id)} {id : Id} (hne : g ≠ [])
    (hid : ∀ m ∈ g, m.id = id) :
    checkModificationsConsistency g = .ok () ↔ ConsistentRows g := by
  cases g with
  | nil => exact absurd rfl hne
  | cons first rest =>
    have hfirst := hid first List.mem_cons_self
    rw [checkModificationsConsistency, checkConsistencyLoop_eq_ok]
    constructor
    · rintro ⟨ha, -, hc⟩
      refine ⟨fun a ha' b hb' _ => ?_, fun a ha' b hb' _ => ?_, fun a ha' => (ha a ha').2.2.2,
        fun a ha' b hb' _ => hc a ha' b hb'⟩
      · rw [← (ha a ha').2.1, (ha b hb').2.1]
      · rw [← (ha a ha').2.2.1, (ha b hb').2.2.1]
    · intro h
      refine ⟨fun m hm => ?_, ?_,
        fun a ha b hb => h.serialId a ha b hb ((hid a ha).trans (hid b hb).symm)⟩
      swap
      · intro m _ x _ y hy
        cases hy
      have hidm : first.id = m.id := hfirst.trans (hid m hm).symm
      exact ⟨hidm, h.requestType first List.mem_cons_self m hm hidm,
        h.input first List.mem_cons_self m hm hidm, h.status m hm⟩

/-- The action of one consistent group, by the cases of the source: all copies in progress, or some
copy completed. -/
theorem planGroup_cases (my : List (Modification Id)) {id : Id} {g : List (Modification Id)}
    (hne : g ≠ []) (hid : ∀ m ∈ g, m.id = id) (h : ConsistentRows g) :
    ((∀ m ∈ g, m.status = modStatusInProgress) ∧
      planGroup my id g = .ok ((my.find? fun m => m.id = id).elim .skip .delete)) ∨
    (∃ fc ∈ g, fc.status = modStatusCompleted ∧
      planGroup my id g = .ok (match my.find? fun m => m.id = id with
        | none => .skip
        | some l =>
          if l.status ≠ modStatusCompleted ∨ l.persisted ≠ mergedPersisted g ∨
              l.serialId ≠ mergedSerialId g then
            .update { fc with
              status := modStatusCompleted, persisted := mergedPersisted g,
              serialId := mergedSerialId g }
          else .skip)) := by
  have hcheck := (checkModificationsConsistency_eq_ok hne hid).mpr h
  by_cases hall : g.all (fun m => m.status = modStatusInProgress) = true
  · left
    refine ⟨by simpa using hall, ?_⟩
    simp only [planGroup, hcheck, hall, if_true]
    rfl
  · right
    rw [Bool.not_eq_true] at hall
    have hex := exists_completed h hall
    obtain ⟨fc, hfc, hfcs, hfceq⟩ := exists_firstCompleted (mergedSerialId g) hex
    refine ⟨fc, hfc, hfcs, ?_⟩
    have hany : g.any (fun m => m.status = modStatusCompleted) = true := by
      obtain ⟨m, hm, hs⟩ := hex
      exact List.any_eq_true.mpr ⟨m, hm, by simpa using hs⟩
    simp only [planGroup, hcheck, hall, hany, Bool.false_eq_true, if_false, if_true]
    rw [mergedSerialId] at hfceq
    simp only [hfceq]
    cases my.find? fun m => m.id = id with
    | none => rfl
    | some l =>
      by_cases hl : l.status ≠ modStatusCompleted ∨ l.persisted ≠ mergedPersisted g ∨
          l.serialId ≠ mergedSerialId g
      · simp only [if_pos hl]
        rfl
      · simp only [if_neg hl]
        rfl

theorem planGroup_succeeds_iff (my : List (Modification Id)) {id : Id} {g : List (Modification Id)}
    (hne : g ≠ []) (hid : ∀ m ∈ g, m.id = id) :
    (planGroup my id g).Succeeds ↔ ConsistentRows g := by
  constructor
  · rintro ⟨a, ha⟩
    rw [planGroup] at ha
    obtain ⟨_, hcheck, -⟩ := Outcome.bind_eq_ok.mp ha
    exact (checkModificationsConsistency_eq_ok hne hid).mp hcheck
  · intro h
    rcases planGroup_cases my hne hid h with ⟨-, hp⟩ | ⟨fc, -, -, hp⟩
    · exact ⟨_, hp⟩
    · exact ⟨_, hp⟩

/-- The rows the actions of the groups contribute to a plan. -/
theorem planGroups_eq_ok (my : List (Modification Id)) :
    ∀ (es : List (Id × List (Modification Id))) (plan0 : ModificationPlan Id),
      ((∀ e ∈ es, (planGroup my e.1 e.2).Succeeds) ↔ (planGroups my es plan0).Succeeds) ∧
      ∀ plan, planGroups my es plan0 = .ok plan →
        (∀ m, m ∈ plan.1 ↔ m ∈ plan0.1 ∨ ∃ e ∈ es, planGroup my e.1 e.2 = .ok (.update m)) ∧
        (∀ m, m ∈ plan.2 ↔ m ∈ plan0.2 ∨ ∃ e ∈ es, planGroup my e.1 e.2 = .ok (.delete m)) := by
  intro es
  induction es with
  | nil =>
    intro plan0
    refine ⟨⟨fun _ => ⟨plan0, rfl⟩, fun _ e he => by cases he⟩, ?_⟩
    intro plan hplan
    cases hplan
    simp
  | cons e es ih =>
    intro plan0
    refine ⟨?_, ?_⟩
    · constructor
      · intro h
        obtain ⟨a, ha⟩ := h e List.mem_cons_self
        obtain ⟨p, hp⟩ := (ih (a.addTo plan0)).1.mp fun e' he' => h e' (List.mem_cons_of_mem _ he')
        exact ⟨p, Outcome.bind_eq_ok.mpr ⟨a, ha, hp⟩⟩
      · rintro ⟨p, hp⟩ e' he'
        obtain ⟨a, ha, hrest⟩ := Outcome.bind_eq_ok.mp hp
        rcases List.mem_cons.mp he' with rfl | he'
        · exact ⟨a, ha⟩
        · exact (ih (a.addTo plan0)).1.mpr ⟨p, hrest⟩ e' he'
    · intro plan hplan
      obtain ⟨a, ha, hrest⟩ := Outcome.bind_eq_ok.mp hplan
      obtain ⟨hu, hd⟩ := (ih (a.addTo plan0)).2 plan hrest
      have hhead : ∀ b, planGroup my e.1 e.2 = .ok b ↔ a = b := by
        intro b
        rw [ha]
        exact ⟨fun h => Except.ok.inj h, fun h => h ▸ rfl⟩
      constructor
      · intro m
        rw [hu]
        simp only [List.mem_cons, exists_eq_or_imp, hhead]
        cases a with
        | skip => simp [Action.addTo]
        | update m' =>
          simp only [Action.addTo, List.mem_append, List.mem_singleton, Action.update.injEq]
          rw [or_assoc, eq_comm]
        | delete m' => simp [Action.addTo]
      · intro m
        rw [hd]
        simp only [List.mem_cons, exists_eq_or_imp, hhead]
        cases a with
        | skip => simp [Action.addTo]
        | update m' => simp [Action.addTo]
        | delete m' =>
          simp only [Action.addTo, List.mem_append, List.mem_singleton, Action.delete.injEq]
          rw [or_assoc, eq_comm]

/-- Planning succeeds exactly on consistent snapshots, whatever the local rows are. -/
theorem compareModifications_succeeds_iff (my : List (Modification Id))
    (all : List (List (Modification Id))) :
    (compareModifications my all).Succeeds ↔ ConsistentRows all.flatten := by
  rw [compareModifications, ← (planGroups_eq_ok my _ _).1, consistentRows_iff_groups]
  constructor
  · intro h id
    by_cases hne : groupOf all.flatten id = []
    · rw [hne]
      exact ⟨by simp, by simp, by simp, by simp⟩
    · exact (planGroup_succeeds_iff my hne fun m hm => (mem_groupOf.mp hm).2).mp
        (h (id, groupOf all.flatten id) (mem_grouped.mpr ⟨hne, rfl⟩))
  · rintro h ⟨id, g⟩ he
    obtain ⟨hne, rfl⟩ := mem_grouped.mp he
    exact (planGroup_succeeds_iff my hne fun m hm => (mem_groupOf.mp hm).2).mpr (h id)

/-- The updates and deletes of a plan, group by group. -/
theorem compareModifications_mem {my : List (Modification Id)}
    {all : List (List (Modification Id))} {plan : ModificationPlan Id}
    (h : compareModifications my all = .ok plan) :
    (∀ m, m ∈ plan.1 ↔ ∃ id, groupOf all.flatten id ≠ [] ∧
      planGroup my id (groupOf all.flatten id) = .ok (.update m)) ∧
    (∀ m, m ∈ plan.2 ↔ ∃ id, groupOf all.flatten id ≠ [] ∧
      planGroup my id (groupOf all.flatten id) = .ok (.delete m)) := by
  obtain ⟨hu, hd⟩ := (planGroups_eq_ok my _ _).2 plan h
  have hgroups : ∀ a, (∃ e ∈ SortedGroup.groupBy (fun m : Modification Id => m.id) all.flatten,
      planGroup my e.1 e.2 = .ok a) ↔
      ∃ id, groupOf all.flatten id ≠ [] ∧ planGroup my id (groupOf all.flatten id) = .ok a := by
    intro a
    constructor
    · rintro ⟨⟨id, g⟩, he, ha⟩
      obtain ⟨hne, rfl⟩ := mem_grouped.mp he
      exact ⟨id, hne, ha⟩
    · rintro ⟨id, hne, ha⟩
      exact ⟨(id, groupOf all.flatten id), mem_grouped.mpr ⟨hne, rfl⟩, ha⟩
  exact ⟨fun m => by rw [hu, hgroups]; simp, fun m => by rw [hd, hgroups]; simp⟩

end AmpcCommon.Modifications
