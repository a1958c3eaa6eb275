import AmpcCommon.Modifications.Proofs.TableWriteProofs

/-!
# Recovery on tables, proofs

A plan does to the rows of a table what `applyPlan` does to their modifications (`recoverRows_modifications`), so that
a round on tables is a round on their snapshots in which some parties crash (`Round.roundOf`). What the rounds on
snapshots keep then holds of the tables, and the columns that are not in the snapshots are as before. -/

namespace AmpcCommon.Modifications

open Database

section Plan

variable {storage : ModificationInputStorage} {my : List (Modification Int)} {all : List (List (Modification Int))}
  {plan : ModificationPlan Int} {rows : List ModificationRow}

/-- A plan on the rows is the plan on their modifications. -/
theorem recoverRows_modifications (hids : (rows.map fun row => row.id).Nodup)
    (hmy : my = rows.map fun row => row.intoModification storage) (hall : ∀ m ∈ my, m ∈ all.flatten)
    (hplan : compareModifications my all = .ok plan) :
    ((recoverRows plan rows).map fun row => row.intoModification storage) = applyPlan plan my := by
  have hcons := (compareModifications_succeeds_iff my all).mp ⟨plan, hplan⟩
  -- an update has all fields of the row that replaces the local one
  have hupdate : ∀ row ∈ rows, (updatedRow plan.1 row).intoModification storage =
      (plan.1.find? fun u => u.id = (row.intoModification storage).id).getD (row.intoModification storage) := by
    intro row hrow
    show (updatedRow plan.1 row).intoModification storage = (plan.1.find? fun u => u.id = row.id).getD _
    unfold updatedRow
    cases hfind : plan.1.find? fun m => m.id = row.id with
    | none => rfl
    | some u =>
      have hu := List.mem_of_find?_eq_some hfind
      have huid : u.id = row.id := by simpa using List.find?_some hfind
      obtain ⟨l, hl, hlid, -⟩ := update_row hplan hu
      have hl' := hl
      rw [hmy] at hl'
      obtain ⟨row', hrow', rfl⟩ := List.mem_map.mp hl'
      obtain rfl : row' = row := List.inj_on_of_nodup_map hids hrow' hrow (hlid.trans huid)
      obtain ⟨hne, hgc, hp⟩ := mem_updates hplan hu
      obtain ⟨-, -, -, fc, hfc, -, heq⟩ := planGroup_update hne (fun m hm => (mem_groupOf.mp hm).2) hgc hp
      obtain ⟨hfcAll, hfcId⟩ := mem_groupOf.mp hfc
      have hsame := hfcId.trans huid
      have htype : u.requestType = row'.requestType := by
        rw [heq]
        exact hcons.requestType fc hfcAll _ (hall _ hl) hsame
      have hinput : u.input = (row'.intoModification storage).input := by
        rw [heq]
        exact hcons.input fc hfcAll _ (hall _ hl) hsame
      obtain ⟨id, serialId, requestType, input, status, persisted, body⟩ := u
      cases huid
      cases htype
      cases hinput
      rfl
  have hmap : ((rows.map (updatedRow plan.1)).map fun row => row.intoModification storage) =
      (rows.map fun row => row.intoModification storage).map fun r => (plan.1.find? fun u => u.id = r.id).getD r := by
    rw [List.map_map, List.map_map]
    exact List.map_congr_left hupdate
  unfold recoverRows applyPlan
  rw [hmy, ← hmap]
  symm
  rw [List.filter_map]
  rfl

theorem recoverRows_sameInput {row' : ModificationRow} (hrow' : row' ∈ recoverRows plan rows) :
    ∃ row ∈ rows, SameInput row' row := by
  obtain ⟨hmem, -⟩ := List.mem_filter.mp hrow'
  obtain ⟨row, hrow, rfl⟩ := List.mem_map.mp hmem
  exact ⟨row, hrow, updatedRow_sameInput _ _⟩

theorem recoverRows_nil (rows : List ModificationRow) : recoverRows ([], []) rows = rows := by
  show (rows.map id).filter (fun _ => true) = rows
  rw [List.filter_true, List.map_id]

end Plan

/-! ## Rounds -/

/-- Some party has completed a modification. -/
def CompletedBy (s : Snapshots Int) (id : Int) : Prop := ∃ m ∈ s.all.flatten, m.id = id ∧ m.status = modStatusCompleted

theorem completed_ne_inProgress {m : Modification Int} (h : m.status = modStatusCompleted) :
    m.status ≠ modStatusInProgress := by
  rw [h]
  decide

/-- A plan deletes the rows that nobody has completed. -/
theorem applyPlan_kept_iff {my : List (Modification Int)} {all : List (List (Modification Int))}
    {plan : ModificationPlan Int} (hnodup : (my.map (·.id)).Nodup) (hmy : ∀ r ∈ my, r ∈ all.flatten)
    (hplan : compareModifications my all = .ok plan) {r : Modification Int} (hr : r ∈ my) :
    (∃ r' ∈ applyPlan plan my, r'.id = r.id) ↔ ∃ m ∈ all.flatten, m.id = r.id ∧ m.status = modStatusCompleted := by
  have hcons := (compareModifications_succeeds_iff my all).mp ⟨plan, hplan⟩
  have hgroup : r ∈ groupOf all.flatten r.id := mem_groupOf.mpr ⟨hmy r hr, rfl⟩
  have hid : ∀ m ∈ groupOf all.flatten r.id, m.id = r.id := fun m hm => (mem_groupOf.mp hm).2
  have hne := List.ne_nil_of_mem hgroup
  constructor
  · rintro ⟨r', hr', hsame⟩
    rcases planGroup_cases my hne hid (consistentRows_iff_groups.mp hcons r.id) with ⟨-, hp⟩ | ⟨fc, hfc, hstatus, -⟩
    · rw [find_local hnodup hr] at hp
      have hdelete : r ∈ plan.2 := ((compareModifications_mem hplan).2 r).mpr ⟨r.id, hne, hp⟩
      obtain ⟨-, hkeep⟩ := List.mem_filter.mp hr'
      have hany : plan.2.any (fun d => d.id = r'.id) = true :=
        List.any_eq_true.mpr ⟨r, hdelete, by simpa using hsame.symm⟩
      rw [hany] at hkeep
      cases hkeep
    · exact ⟨fc, (mem_groupOf.mp hfc).1, hid fc hfc, hstatus⟩
  · rintro ⟨m, hm, hmid, hstatus⟩
    have hkept : (plan.2.any fun d => d.id = r.id) = false := by
      refine List.any_eq_false.mpr fun d hd hsame => ?_
      obtain ⟨hdne, hdc, hdp⟩ := mem_deletes hplan hd
      have hall := (planGroup_delete hdne (fun m hm => (mem_groupOf.mp hm).2) hdc hdp).2
      refine completed_ne_inProgress hstatus (hall m (mem_groupOf.mpr ⟨hm, ?_⟩))
      rw [hmid]
      exact (of_decide_eq_true hsame).symm
    have hupdated : ((plan.1.find? fun u => u.id = r.id).getD r).id = r.id := by
      cases hfind : plan.1.find? fun u => u.id = r.id with
      | none => rfl
      | some u => simpa using List.find?_some hfind
    refine ⟨(plan.1.find? fun u => u.id = r.id).getD r, List.mem_filter.mpr ⟨List.mem_map_of_mem hr, ?_⟩, hupdated⟩
    rw [hupdated, hkept]
    rfl

section Snapshots

variable {s t : Snapshots Int} {crashed : Fin 3 → Bool}

theorem round_kept (h : RecoveryInv s) (ht : ∀ i, if crashed i then t i = s i
    else ∃ plan, planOf s i = .ok plan ∧ t i = applyPlan plan (s i)) {i : Fin 3} {r : Modification Int} (hr : r ∈ s i)
    (hcompleted : CompletedBy s r.id) : ∃ r' ∈ t i, r'.id = r.id := by
  have hti := ht i
  by_cases hc : crashed i = true
  · rw [if_pos hc] at hti
    rw [hti]
    exact ⟨r, hr, rfl⟩
  · rw [if_neg hc] at hti
    obtain ⟨plan, hplan, htp⟩ := hti
    rw [htp]
    exact (applyPlan_kept_iff (h.nodup i) (fun r hr => mem_all.mpr ⟨i, hr⟩) hplan hr).mpr hcompleted

/-- What is left after a plan was completed before. -/
theorem round_completed_of_mem (h : RecoveryInv s) (ht : ∀ i, if crashed i then t i = s i
    else ∃ plan, planOf s i = .ok plan ∧ t i = applyPlan plan (s i)) {i : Fin 3} (hc : ¬ crashed i = true)
    {r' : Modification Int} (hr' : r' ∈ t i) : CompletedBy s r'.id := by
  have hti := ht i
  rw [if_neg hc] at hti
  obtain ⟨plan, hplan, htp⟩ := hti
  have hmy : ∀ r ∈ s i, r ∈ s.all.flatten := fun r hr => mem_all.mpr ⟨i, hr⟩
  rw [htp] at hr'
  obtain ⟨r, hr, hid, -⟩ := applyPlan_row (h.nodup i) hmy hplan hr'
  rw [hid]
  exact (applyPlan_kept_iff (h.nodup i) hmy hplan hr).mp ⟨r', hr', hid⟩

/-- A round changes nothing about which modifications are completed. -/
theorem round_completedBy_iff (h : RecoveryInv s) (ht : ∀ i, if crashed i then t i = s i
    else ∃ plan, planOf s i = .ok plan ∧ t i = applyPlan plan (s i)) (id : Int) :
    CompletedBy s id ↔ CompletedBy t id := by
  constructor
  · rintro ⟨m, hm, rfl, hstatus⟩
    obtain ⟨i, hmi⟩ := mem_all.mp hm
    obtain ⟨r', hr', hid⟩ := round_kept h ht hmi ⟨m, hm, rfl, hstatus⟩
    obtain ⟨r, hr, hid', -, -, ⟨-, rfl⟩ | ⟨-, hsync⟩⟩ := recoveryRound_row h ht hr'
    · have hsame : r' = m := List.inj_on_of_nodup_map (h.nodup i) hr hmi hid
      exact ⟨r', mem_all.mpr ⟨i, hr'⟩, hid, hsame ▸ hstatus⟩
    · exact ⟨r', mem_all.mpr ⟨i, hr'⟩, hid, hsync.1⟩
  · rintro ⟨m, hm, rfl, hstatus⟩
    obtain ⟨i, hmi⟩ := mem_all.mp hm
    by_cases hc : crashed i = true
    · have hti := ht i
      rw [if_pos hc] at hti
      rw [hti] at hmi
      exact ⟨m, mem_all.mpr ⟨i, hmi⟩, rfl, hstatus⟩
    · exact round_completed_of_mem h ht hc hmi

end Snapshots

section Tables

variable {storage : ModificationInputStorage} {count : BitVec 64} {rows rows' rows'' : Fin 3 → List ModificationRow}
  {crashed : Fin 3 → Bool}

/-- The tables fit into the lookback. -/
def FitsCount (count : BitVec 64) (rows : Fin 3 → List ModificationRow) : Prop :=
  ∀ i, ((rows i).length : Int) ≤ count.toInt

theorem mem_snapshotsOf {i : Fin 3} {m : Modification Int} :
    m ∈ snapshotsOf storage rows i ↔ ∃ row ∈ rows i, row.intoModification storage = m := List.mem_map

/-- A step of the rows: the parties that do not crash write their plans. -/
def RoundOf (storage : ModificationInputStorage) (crashed : Fin 3 → Bool) (rows rows' : Fin 3 → List ModificationRow) :
    Prop :=
  ∀ i, if crashed i then rows' i = rows i
    else ∃ plan, planOf (snapshotsOf storage rows) i = .ok plan ∧ rows' i = recoverRows plan (rows i)

/-- What rounds need of the rows, and keep. -/
structure RowsInv (storage : ModificationInputStorage) (count : BitVec 64) (rows : Fin 3 → List ModificationRow) :
    Prop where
  fits : FitsCount count rows
  inv : RecoveryInv (snapshotsOf storage rows)

theorem RowsInv.ids_nodup (h : RowsInv storage count rows) (i : Fin 3) : ((rows i).map fun row => row.id).Nodup := by
  have hnodup := h.inv.nodup i
  unfold snapshotsOf at hnodup
  rwa [List.map_map] at hnodup

/-- The step of the snapshots that a step of the rows is. -/
theorem RoundOf.snapshots (hround : RoundOf storage crashed rows rows') (h : RowsInv storage count rows) (i : Fin 3) :
    if crashed i then snapshotsOf storage rows' i = snapshotsOf storage rows i
    else ∃ plan, planOf (snapshotsOf storage rows) i = .ok plan ∧
      snapshotsOf storage rows' i = applyPlan plan (snapshotsOf storage rows i) := by
  have hi := hround i
  by_cases hc : crashed i = true
  · rw [if_pos hc] at hi ⊢
    unfold snapshotsOf
    rw [hi]
  · rw [if_neg hc] at hi ⊢
    obtain ⟨plan, hplan, hrows'⟩ := hi
    refine ⟨plan, hplan, ?_⟩
    show (rows' i).map _ = _
    rw [hrows']
    exact recoverRows_modifications (h.ids_nodup i) rfl (fun m hm => mem_all.mpr ⟨i, hm⟩) hplan

/-- What rounds keep of the rows they started from. -/
structure Recovered (storage : ModificationInputStorage) (count : BitVec 64)
    (rows rows' : Fin 3 → List ModificationRow) : Prop extends RowsInv storage count rows' where
  sameInput : ∀ i, ∀ row' ∈ rows' i, ∃ row ∈ rows i, SameInput row' row
  completed : ∀ id, CompletedBy (snapshotsOf storage rows) id ↔ CompletedBy (snapshotsOf storage rows') id
  kept : ∀ i, ∀ row ∈ rows i, CompletedBy (snapshotsOf storage rows) row.id → ∃ row' ∈ rows' i, row'.id = row.id

theorem Recovered.refl (h : RowsInv storage count rows) : Recovered storage count rows rows :=
  ⟨h, fun _ row hrow => ⟨row, hrow, SameInput.refl row⟩, fun _ => Iff.rfl, fun _ row hrow _ => ⟨row, hrow, rfl⟩⟩

theorem Recovered.trans (h : Recovered storage count rows rows') (h' : Recovered storage count rows' rows'') :
    Recovered storage count rows rows'' := by
  refine ⟨h'.toRowsInv, fun i row'' hrow'' => ?_, fun id => (h.completed id).trans (h'.completed id),
    fun i row hrow hcompleted => ?_⟩
  · obtain ⟨row', hrow', hsame'⟩ := h'.sameInput i row'' hrow''
    obtain ⟨row, hrow, hsame⟩ := h.sameInput i row' hrow'
    exact ⟨row, hrow, hsame'.trans hsame⟩
  · obtain ⟨row', hrow', hid⟩ := h.kept i row hrow hcompleted
    rw [h.completed, ← hid] at hcompleted
    obtain ⟨row'', hrow'', hid'⟩ := h'.kept i row' hrow' hcompleted
    exact ⟨row'', hrow'', hid'.trans hid⟩

theorem RoundOf.recovered (hround : RoundOf storage crashed rows rows') (h : RowsInv storage count rows) :
    Recovered storage count rows rows' := by
  have ht := hround.snapshots h
  refine ⟨⟨fun i => ?_, recoveryInv_round h.inv ht⟩, fun i row' hrow' => ?_, round_completedBy_iff h.inv ht,
    fun i row hrow hcompleted => ?_⟩
  · have hi := hround i
    have hfit := h.fits i
    by_cases hc : crashed i = true
    · rw [if_pos hc] at hi
      rwa [hi]
    · rw [if_neg hc] at hi
      obtain ⟨plan, -, hrows'⟩ := hi
      have hle : (rows' i).length ≤ (rows i).length := by
        rw [hrows']
        exact (List.length_filter_le _ _).trans (List.length_map _).le
      omega
  · have hi := hround i
    by_cases hc : crashed i = true
    · rw [if_pos hc] at hi
      rw [hi] at hrow'
      exact ⟨row', hrow', SameInput.refl row'⟩
    · rw [if_neg hc] at hi
      obtain ⟨plan, -, hrows'⟩ := hi
      rw [hrows'] at hrow'
      exact recoverRows_sameInput hrow'
  · obtain ⟨r', hr', hid⟩ := round_kept h.inv ht (mem_snapshotsOf.mpr ⟨row, hrow, rfl⟩) hcompleted
    obtain ⟨row', hrow', rfl⟩ := mem_snapshotsOf.mp hr'
    exact ⟨row', hrow', hid⟩

/-- A round leaves rows alone that have converged. -/
theorem RoundOf.converged (hround : RoundOf storage crashed rows rows') (h : RowsInv storage count rows)
    (hc : Converged (snapshotsOf storage rows)) : rows' = rows := by
  funext i
  have hi := hround i
  by_cases hcrashed : crashed i = true
  · rwa [if_pos hcrashed] at hi
  · rw [if_neg hcrashed] at hi
    obtain ⟨plan, hplan, hrows'⟩ := hi
    rw [planOf_converged h.inv hc i] at hplan
    cases hplan
    rw [hrows', recoverRows_nil]

end Tables

/-! ## Rounds on the databases -/

section Databases

variable {C : Type} [DecidableEq C] {server : Server C ModificationRow} {accepts : ModificationRow → Bool}
  {count : BitVec 64} {storage : ModificationInputStorage} {rows : Fin 3 → List ModificationRow}
  {s t u : Fin 3 → server.State}

/-- The tables of the parties. -/
def HasTables (server : Server C ModificationRow) (s : Fin 3 → server.State) (rows : Fin 3 → List ModificationRow) :
    Prop :=
  ∀ i, HasTable (server.view (s i)) (rows i)

theorem planOf_succeeds (h : RowsInv storage count rows) (i : Fin 3) :
    (planOf (snapshotsOf storage rows) i).Succeeds :=
  (compareModifications_succeeds_iff _ _).mpr h.inv.consistent

/-- What the parties exchange are the rows of their tables. -/
theorem Exchanged.spec (hserver : server.Documented accepts) {c : Fin 3 → C} {snapshots : Snapshots Int}
    (hexchanged : Exchanged server count storage c snapshots s t) (h : HasTables server s rows)
    (hfits : FitsCount count rows) :
    snapshots = snapshotsOf storage rows ∧ HasTables server t rows ∧ ∀ i, (server.view (t i)).Ready (c i) := by
  have hreads := fun i => reads_table hserver (h i) (hfits i) (hexchanged i)
  refine ⟨funext fun i => ?_, fun i => (hreads i).1, fun i => ?_⟩
  · exact ((hreads i).2 _ rfl).2
  · exact ((hreads i).2 _ rfl).1

/-- A round is one on the rows, in which some parties crash. -/
theorem Round.roundOf (hserver : server.Documented accepts) (hround : Round server count storage s u)
    (h : HasTables server s rows) (hinv : RowsInv storage count rows) :
    ∃ crashed rows', HasTables server u rows' ∧ RoundOf storage crashed rows rows' := by
  cases hround with
  | interrupted c hruns =>
    refine ⟨fun _ => true, rows, fun i => ?_, fun i => rfl⟩
    obtain ⟨q, hq⟩ := hruns i
    exact (reads_table hserver (h i) (hinv.fits i) hq).1
  | exchanged c snapshots t hexchanged hruns hsettled =>
    obtain ⟨rfl, htables, hready⟩ := hexchanged.spec hserver h hinv.fits
    have hparty : ∀ i, ∃ (crashed : Bool) (rows' : List ModificationRow), HasTable (server.view (u i)) rows' ∧
        if crashed then rows' = rows i
        else ∃ plan, planOf (snapshotsOf storage rows) i = .ok plan ∧ rows' = recoverRows plan (rows i) := by
      intro i
      obtain ⟨q, hq⟩ := hruns i
      obtain ⟨plan, hplan⟩ := planOf_succeeds hinv i
      rcases (writes_plan hserver hplan (htables i) (hready i) hq).1 (hsettled i) with hbefore | hafter
      · exact ⟨true, rows i, hbefore, rfl⟩
      · exact ⟨false, recoverRows plan (rows i), hafter, plan, hplan, rfl⟩
    choose crashed rows' htable hrows' using hparty
    exact ⟨crashed, rows', htable, hrows'⟩

theorem FullRound.roundOf (hserver : server.Documented accepts) (hround : FullRound server count storage s u)
    (h : HasTables server s rows) (hinv : RowsInv storage count rows) :
    ∃ rows', HasTables server u rows' ∧ RoundOf storage (fun _ => false) rows rows' := by
  obtain ⟨c, snapshots, t, hexchanged, hruns⟩ := hround
  obtain ⟨rfl, htables, hready⟩ := hexchanged.spec hserver h hinv.fits
  have hparty : ∀ i, ∃ rows' : List ModificationRow, HasTable (server.view (u i)) rows' ∧
      ∃ plan, planOf (snapshotsOf storage rows) i = .ok plan ∧ rows' = recoverRows plan (rows i) := by
    intro i
    obtain ⟨plan, hplan⟩ := planOf_succeeds hinv i
    exact ⟨_, (writes_plan hserver hplan (htables i) (hready i) (hruns i)).2 rfl, plan, hplan, rfl⟩
  choose rows' htable hrows' using hparty
  exact ⟨rows', htable, hrows'⟩

/-- What every run of rounds keeps. -/
theorem rounds_recovered (hserver : server.Documented accepts)
    (hrounds : Relation.ReflTransGen (Round server count storage) s t) (h : HasTables server s rows)
    (hinv : RowsInv storage count rows) : ∃ rows', HasTables server t rows' ∧ Recovered storage count rows rows' := by
  induction hrounds with
  | refl => exact ⟨rows, h, Recovered.refl hinv⟩
  | tail _ hround ih =>
    obtain ⟨rows', htables, hrecovered⟩ := ih
    obtain ⟨crashed, rows'', htables', hround'⟩ := hround.roundOf hserver htables hrecovered.toRowsInv
    exact ⟨rows'', htables', hrecovered.trans (hround'.recovered hrecovered.toRowsInv)⟩

/-- Later rounds leave tables alone that have converged. -/
theorem rounds_converged (hserver : server.Documented accepts)
    (hrounds : Relation.ReflTransGen (Round server count storage) s t) (h : HasTables server s rows)
    (hinv : RowsInv storage count rows) (hc : Converged (snapshotsOf storage rows)) : HasTables server t rows := by
  induction hrounds with
  | refl => exact h
  | tail _ hround ih =>
    obtain ⟨crashed, rows', htables, hround'⟩ := hround.roundOf hserver ih hinv
    rwa [hround'.converged hinv hc] at htables

/-- **Recovery converges on the tables.** When the tables of the parties fit into the lookback and their rows are
consistent, planning succeeds after every run of rounds, wherever the parties stop in it and whatever requests fail;
what some party has completed is kept, with its request type, reference and private input. After a round that every
party finishes, the tables have exactly these rows, completed and in agreement, and no later round changes them. -/
theorem recoverTables_converge (hserver : server.Documented accepts) (h : HasTables server s rows)
    (hfits : FitsCount count rows) (hconsistent : ConsistentRows (snapshotsOf storage rows).all.flatten)
    (hrounds : Relation.ReflTransGen (Round server count storage) s t) :
    ∃ rows', HasTables server t rows' ∧ (∀ i, (planOf (snapshotsOf storage rows') i).Succeeds) ∧
      (∀ i, ∀ row' ∈ rows' i, ∃ row ∈ rows i, SameInput row' row) ∧
      (∀ i, ∀ row ∈ rows i, CompletedBy (snapshotsOf storage rows) row.id → ∃ row' ∈ rows' i, row'.id = row.id) ∧
      ∀ u, FullRound server count storage t u → ∃ rows'', HasTables server u rows'' ∧
        (∀ i, ∀ a ∈ rows'' i, a.status = modStatusCompleted ∧ ∀ j, ∀ b ∈ rows'' j, a.id = b.id →
          a.persisted = b.persisted ∧ a.serialId = b.serialId) ∧
        (∀ i, ∀ row'' ∈ rows'' i, ∃ row ∈ rows i, SameInput row'' row) ∧
        (∀ i, ∀ row ∈ rows i,
          (∃ row'' ∈ rows'' i, row''.id = row.id) ↔ CompletedBy (snapshotsOf storage rows) row.id) ∧
        ∀ v, Relation.ReflTransGen (Round server count storage) u v → HasTables server v rows'' := by
  have hinv : RowsInv storage count rows := by
    refine ⟨hfits, fun i => ?_, hconsistent⟩
    unfold snapshotsOf
    rw [List.map_map]
    exact (h i).rows.ids_nodup
  obtain ⟨rows', htables, hrecovered⟩ := rounds_recovered hserver hrounds h hinv
  refine ⟨rows', htables, planOf_succeeds hrecovered.toRowsInv, hrecovered.sameInput, hrecovered.kept,
    fun u hfull => ?_⟩
  obtain ⟨rows'', htables', hround⟩ := hfull.roundOf hserver htables hrecovered.toRowsInv
  have hsnapshots := hround.snapshots hrecovered.toRowsInv
  have hall := hrecovered.trans (hround.recovered hrecovered.toRowsInv)
  have hconverged : Converged (snapshotsOf storage rows'') := converged_of_full_round hrecovered.inv hsnapshots
  refine ⟨rows'', htables', fun i a ha => ⟨?_, fun j b hb hid => ?_⟩, hall.sameInput, fun i row hrow => ⟨?_, ?_⟩,
    fun v hlater => rounds_converged hserver hlater htables' hall.toRowsInv hconverged⟩
  · exact hconverged.completed i _ (mem_snapshotsOf.mpr ⟨a, ha, rfl⟩)
  · exact (hconverged.agree i j _ (mem_snapshotsOf.mpr ⟨a, ha, rfl⟩) _ (mem_snapshotsOf.mpr ⟨b, hb, rfl⟩) hid).2
  · rintro ⟨row'', hrow'', hid⟩
    have hcompleted := round_completed_of_mem hrecovered.inv hsnapshots (i := i) Bool.false_ne_true
      (mem_snapshotsOf.mpr ⟨row'', hrow'', rfl⟩)
    rw [hrecovered.completed, ← hid]
    exact hcompleted
  · exact hall.kept i row hrow

end Databases

/-! ## A run -/

/-- A table into which a client has inserted rows. -/
def tableOf (rows : List ModificationRow) : View Bool ModificationRow where
  log := [⟨false, 0, rows.map fun row => ⟨row.id, some row⟩⟩]
  late := []
  tx _ := .idle
  count _ := 1
  seen _ := 1
  owner k := if k ∈ rows.map (fun row => row.id) then some (false, 0) else none

theorem hasTable_tableOf {rows : List ModificationRow} (hsorted : rows.Pairwise fun a b => b.id < a.id) :
    HasTable (tableOf rows) rows := by
  refine ⟨⟨List.nodup_singleton _, fun e he => ?_, fun c n changes h => by (cases h), fun _ => Nat.le_refl _⟩, rfl,
    hsorted, fun k row => ?_⟩
  · rw [List.mem_singleton.mp he]
    exact Nat.one_pos
  · have hkeys : (rows.map fun row => (⟨row.id, some row⟩ : Change ModificationRow)).map Change.key =
        rows.map fun row => row.id := List.map_map
    have hnodup : ((rows.map fun row => (⟨row.id, some row⟩ : Change ModificationRow)).map Change.key).Nodup := by
      rw [hkeys]
      exact List.pairwise_map.mpr (hsorted.imp fun hlt => (ne_of_lt hlt).symm)
    have hreplay : replay (tableOf rows).log =
        apply (fun _ => none) (rows.map fun row => ⟨row.id, some row⟩) := replay_singleton [] _
    rw [hreplay, apply_eq]
    constructor
    · intro hrow
      by_cases hk : k ∈ rows.map fun row => row.id
      · obtain ⟨row', hmem, rfl⟩ := List.mem_map.mp hk
        rw [versions_of_nodup hnodup (List.mem_map_of_mem hmem)] at hrow
        cases hrow
        exact ⟨hmem, rfl⟩
      · rw [versions_eq_nil_iff.mpr (hkeys ▸ hk)] at hrow
        cases hrow
    · rintro ⟨hmem, rfl⟩
      rw [versions_of_nodup hnodup (List.mem_map_of_mem hmem)]
      rfl

/-- One party has completed a modification that another one has in progress; the third has one that nobody has
completed. -/
def partlyCompletedRows : Fin 3 → List ModificationRow :=
  ![[NewModification.toRow ⟨none, "uniqueness", some (.inline "sns/1" [1])⟩ 1],
    [{ NewModification.toRow ⟨some 7, "uniqueness", some (.inline "sns/1" [2])⟩ 1 with
      status := modStatusCompleted
      persisted := true }],
    [NewModification.toRow ⟨none, "reauth", some (.inline "sns/2" [3])⟩ 2]]

/-- The modifications after a round in which only the third party has written its plan. -/
def partlyRecovered : Snapshots Int :=
  snapshotsOf .inline ![partlyCompletedRows 0, partlyCompletedRows 1, []]

/-- In the first round a connection is lost after the first statement, and a commit is applied after its answer is lost;
in the second round nothing fails. -/
theorem partlyCompleted_runs (i : Fin 3) : ∃ t u t' u' : View Bool ModificationRow,
    (Serial.server fun _ => true).Runs false (readModifications 10 .inline)
      (.done (.ok (snapshotsOf .inline partlyCompletedRows i))) (tableOf (partlyCompletedRows i)) t ∧
    (∃ q, (Serial.server fun _ => true).Runs false
      (recoverModifications (snapshotsOf .inline partlyCompletedRows) i) q t u) ∧ u.Settled ∧
    (Serial.server fun _ => true).Runs true (readModifications 10 .inline) (.done (.ok (partlyRecovered i))) u t' ∧
    (Serial.server fun _ => true).Runs true (recoverModifications partlyRecovered i) (.done (.ok ())) t' u' := by
  match i with
  | 0 =>
    exact ⟨_, _, _, _, ⟨[.own (.with []), .own (.with [])], rfl⟩,
      ⟨_, [.own (.with []), .own (.with []), .env (.internal ⟨[], none, true, some false⟩)], rfl⟩, rfl,
      ⟨[.own (.with []), .own (.with [])], rfl⟩,
      ⟨[.own (.with []), .own (.with []), .own (.with [])], rfl⟩⟩
  | 1 =>
    exact ⟨_, _, _, _, ⟨[.own (.with []), .own (.with [])], rfl⟩,
      ⟨_, [.own (.with []), .own ⟨[], some "connection lost", true, none⟩, .env (.internal (.with []))], rfl⟩, rfl,
      ⟨[.own (.with []), .own (.with [])], rfl⟩, ⟨[.own (.with []), .own (.with [])], rfl⟩⟩
  | 2 =>
    exact ⟨_, _, _, _, ⟨[.own (.with []), .own (.with [])], rfl⟩,
      ⟨_, [.own (.with []), .own (.with []), .own (.with [])], rfl⟩, rfl,
      ⟨[.own (.with []), .own (.with [])], rfl⟩, ⟨[.own (.with []), .own (.with [])], rfl⟩⟩

theorem recoverTables_converge_partlyCompleted :
    ∃ t u : Fin 3 → View Bool ModificationRow,
      Round (Serial.server fun _ => true) 10 .inline (fun i => tableOf (partlyCompletedRows i)) t ∧
      FullRound (Serial.server fun _ => true) 10 .inline t u ∧
      ∃ rows, HasTables (Serial.server fun _ => true) u rows ∧ ∀ i, ∀ a ∈ rows i, a.status = modStatusCompleted := by
  choose t u t' u' hreads hwrites hsettled hreads' hwrites' using partlyCompleted_runs
  have hround : Round (Serial.server fun _ => true) 10 .inline (fun i => tableOf (partlyCompletedRows i)) u :=
    Round.exchanged (fun _ => false) _ t hreads hwrites hsettled
  have hfull : FullRound (Serial.server fun _ => true) 10 .inline u u' :=
    ⟨fun _ => true, partlyRecovered, t', hreads', hwrites'⟩
  have htables : HasTables (Serial.server fun _ => true) (fun i => tableOf (partlyCompletedRows i))
      partlyCompletedRows := by
    intro i
    refine hasTable_tableOf ?_
    fin_cases i <;> exact List.pairwise_singleton _ _
  have hfits : FitsCount 10 partlyCompletedRows := by
    unfold FitsCount
    decide
  have hconsistent : ConsistentRows (snapshotsOf .inline partlyCompletedRows).all.flatten :=
    (compareModifications_succeeds_iff _ _).mp (show (planOf (snapshotsOf .inline partlyCompletedRows) 0).Succeeds
      from ⟨_, rfl⟩)
  obtain ⟨-, -, -, -, -, hconverges⟩ := recoverTables_converge (Serial.server_documented _) htables hfits hconsistent
    (Relation.ReflTransGen.single hround)
  obtain ⟨rows, htables', hcompleted, -⟩ := hconverges u' hfull
  exact ⟨u, u', hround, hfull, rows, htables', fun i a ha => (hcompleted i a ha).1⟩

end AmpcCommon.Modifications
