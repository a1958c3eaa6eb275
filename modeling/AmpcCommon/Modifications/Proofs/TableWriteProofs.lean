import AmpcCommon.Modifications.Proofs.PlanProofs
import AmpcCommon.Modifications.Proofs.PostgresProofs
import AmpcCommon.Modifications.TableRecovery

/-!
# Writing a plan, proofs

What the statements of a plan make of a table, and that a party leaves its table as it was or as planned
(`writes_plan`), wherever it stops and whatever requests fail.
-/

namespace AmpcCommon.Modifications

open Database KeyOrder RelyGuarantee

/-! ## Rows -/

section Rows

variable {m : Contents ModificationRow} {rows rows' : List ModificationRow}

theorem HasRows.key (h : HasRows m rows) {k : Int} {row : ModificationRow} (hrow : m k = some row) : row.id = k :=
  ((h.mem k row).mp hrow).2

theorem HasRows.ids_nodup (h : HasRows m rows) : (rows.map fun row => row.id).Nodup :=
  List.pairwise_map.mpr (h.sorted.imp fun hlt => (ne_of_lt hlt).symm)

/-- A table has one list of rows. -/
theorem HasRows.unique (h : HasRows m rows) (h' : HasRows m rows') : rows = rows' := by
  have hmem : ∀ row, row ∈ rows ↔ row ∈ rows' := by
    intro row
    constructor
    · intro hrow
      exact ((h'.mem row.id row).mp ((h.mem row.id row).mpr ⟨hrow, rfl⟩)).1
    · intro hrow
      exact ((h.mem row.id row).mp ((h'.mem row.id row).mpr ⟨hrow, rfl⟩)).1
  have hperm : rows.Perm rows' :=
    (List.perm_ext_iff_of_nodup h.ids_nodup.of_map h'.ids_nodup.of_map).mpr hmem
  refine hperm.eq_of_pairwise (fun a b _ _ hab hba => ?_) h.sorted h'.sorted
  exact absurd hab (not_lt_of_gt hba)

/-- A query for all rows in the descending order of their ids finds them so. -/
theorem HasRows.found (h : HasRows m rows) {keys : List Int} {found : List ModificationRow}
    (hfinds : Finds m (fun _ => true) (fun row => -row.id) keys found) : found = rows := by
  have hkeys : found.map (fun row => row.id) = keys := by
    have hfound := hfinds.found
    clear hfinds
    induction hfound with
    | nil => rfl
    | cons hrow _ ih => rw [List.map_cons, h.key hrow, ih]
  have hnodup : (found.map fun row => row.id).Nodup := by
    rw [hkeys]
    exact hfinds.nodup
  refine HasRows.unique ⟨?_, fun k row => ?_⟩ h
  · refine (hfinds.sorted.and (List.pairwise_map.mp hnodup)).imp fun {a b} hab => ?_
    obtain ⟨hle, hne⟩ := hab
    omega
  · rw [hfinds.mem_rows]
    constructor
    · intro hrow
      exact ⟨⟨k, hrow, rfl⟩, h.key hrow⟩
    · rintro ⟨⟨k', hrow, -⟩, rfl⟩
      rwa [h.key hrow]

end Rows

/-! ## Statements -/

section Statements

variable {modifications : List (Modification Int)}

theorem updatedRow_sameInput (modifications : List (Modification Int)) (row : ModificationRow) :
    SameInput (updatedRow modifications row) row := by
  unfold updatedRow
  cases modifications.find? fun m => m.id = row.id with
  | none => exact SameInput.refl row
  | some m => exact row.set_sameInput m

/-- Where no two modifications have the same id, the database has no choice. -/
theorem filter_id_eq (hnodup : (modifications.map fun m => m.id).Nodup) (id : Int) :
    (modifications.filter fun m => m.id = id) = (modifications.find? fun m => m.id = id).toList := by
  induction modifications with
  | nil => rfl
  | cons m ms ih =>
    rw [List.map_cons, List.nodup_cons] at hnodup
    by_cases hid : m.id = id
    · rw [List.filter_cons_of_pos (by simpa using hid), List.find?_cons_of_pos (by simpa using hid), ih hnodup.2]
      have hnone : (ms.find? fun m => m.id = id) = none := by
        refine List.find?_eq_none.mpr fun m' hm' hsame => hnodup.1 ?_
        rw [hid, ← of_decide_eq_true hsame]
        exact List.mem_map_of_mem hm'
      rw [hnone]
      rfl
    · rw [List.filter_cons_of_neg (by simpa using hid), List.find?_cons_of_neg (by simpa using hid), ih hnodup.2]

variable {accepts : ModificationRow → Bool} {C : Type} {owner : Int → Option (C × Nat)} {m : Contents ModificationRow}
  {before changes : List (Change ModificationRow)}

theorem update_contents (hnodup : (modifications.map fun m => m.id).Nodup)
    (h : Writes accepts owner m m before
      (.update fun row => (modifications.filter fun m => m.id = row.id).map row.set) changes) :
    apply m changes = fun k => (m k).map (updatedRow modifications) := by
  refine h.update_apply (fun k row row' _ hversion => ?_) fun k row _ hnil => ?_
  · rw [filter_id_eq hnodup] at hversion
    unfold updatedRow
    cases hfind : modifications.find? fun m => m.id = row.id with
    | none =>
      rw [hfind] at hversion
      exact (List.not_mem_nil hversion).elim
    | some u =>
      rw [hfind] at hversion
      exact List.mem_singleton.mp hversion
  · rw [filter_id_eq hnodup, List.map_eq_nil_iff] at hnil
    unfold updatedRow
    cases hfind : modifications.find? fun m => m.id = row.id with
    | none => rfl
    | some u =>
      rw [hfind] at hnil
      cases hnil

theorem delete_contents (h : Writes accepts owner m m before
      (.delete fun row => row.id ∈ modifications.map fun d => d.id) changes) :
    apply m changes = fun k => (m k).filter fun row => ! modifications.any fun d => d.id = row.id := by
  rw [h.delete_apply]
  funext k
  congr 1
  funext row
  congr 1
  rw [Bool.eq_iff_iff, decide_eq_true_iff, List.any_eq_true, List.mem_map]
  constructor
  · rintro ⟨d, hd, hid⟩
    exact ⟨d, hd, decide_eq_true hid⟩
  · rintro ⟨d, hd, hid⟩
    exact ⟨d, hd, of_decide_eq_true hid⟩

theorem updatedRow_nil : updatedRow [] = id := rfl

/-- The rows that a plan leaves are what is in the table after it. -/
theorem HasRows.recover {rows : List ModificationRow} (h : HasRows m rows) (plan : ModificationPlan Int) :
    HasRows (recoverContents plan m) (recoverRows plan rows) := by
  have hid : ∀ row, (updatedRow plan.1 row).id = row.id := fun row => (updatedRow_sameInput plan.1 row).id
  refine ⟨?_, fun k row' => ?_⟩
  · refine List.Pairwise.filter _ (List.pairwise_map.mpr (h.sorted.imp fun {a b} hlt => ?_))
    rw [hid, hid]
    exact hlt
  · unfold recoverContents recoverRows
    rw [Option.filter_eq_some_iff, Option.map_eq_some_iff, List.mem_filter, List.mem_map]
    constructor
    · rintro ⟨⟨row, hrow, rfl⟩, hkept⟩
      obtain ⟨hmem, rfl⟩ := (h.mem k row).mp hrow
      exact ⟨⟨⟨row, hmem, rfl⟩, hkept⟩, hid row⟩
    · rintro ⟨⟨⟨row, hmem, rfl⟩, hkept⟩, rfl⟩
      exact ⟨⟨row, (h.mem _ row).mpr ⟨hmem, (hid row).symm⟩, rfl⟩, hkept⟩

end Statements

/-! ## Programs -/

section Programs

variable {C : Type} [DecidableEq C] {server : Server C ModificationRow} {accepts : ModificationRow → Bool}
  {start : List (Commit C ModificationRow)} {c : C} {n : Nat} {m : Contents ModificationRow} {s : server.State}

/-- What a caller knows when its transaction returns. -/
def Committed (start : List (Commit C ModificationRow)) (result : Outcome Unit) (t : server.State) : Prop :=
  result = .ok () → start.length < (server.view t).log.length

omit [DecidableEq C] in
theorem committed_error (e : Failure) (t : server.State) : Committed start (.error e) t := by
  intro hok
  cases hok

omit [DecidableEq C] in
theorem committed_safe {result : Outcome Unit} (h : Alone start (c, n) m (server.view s))
    (hcommitted : Committed start result s) :
    SafeAlone server start c n m (Committed start) (pure result) s := by
  refine Safe.pure ?_
  intro t ht hok
  obtain ⟨-, hextends⟩ := ht h
  exact Nat.lt_of_lt_of_le (hcommitted hok) hextends.log.length_le

/-- What a body has written when it returns. -/
def Written (start : List (Commit C ModificationRow)) (c : C) (n : Nat) (m : Contents ModificationRow)
    (result : Outcome Unit) (t : server.State) : Prop :=
  Alone start (c, n) m (server.view t) ∧ (result = .ok () → (server.view t).Writing start (c, n) m)

omit [DecidableEq C] in
theorem written_safe {result : Outcome Unit} (h : Written start c n m result s) :
    SafeAlone server start c n m (Written start c n m) (pure result) s := by
  refine Safe.pure ?_
  intro t ht
  obtain ⟨h', hextends⟩ := ht h.1
  exact ⟨h', fun hok => (h.2 hok).extends hextends⟩

/-- A transaction is committed with all that its body has written. -/
theorem inTransaction_safe (hserver : server.Documented accepts) {body : ModificationProgram (Outcome Unit)}
    (h : Alone start (c, n) m (server.view s)) (hcount : (server.view s).count c = n)
    (hbody : ∀ t, Alone start (c, n) m (server.view t) → (server.view t).Writing start (c, n) (replay start) →
      SafeAlone server start c n m (Written start c n m) body t) :
    SafeAlone server start c n m (Committed start) (inTransaction body) s := by
  refine begin_alone hserver h hcount (fun result t ht hwriting => ?_) fun e t ht => ?_
  · refine Safe.bind Others.refl ((hbody t ht hwriting).mono (fun _ _ hdoes => hdoes) ?_)
    intro result u hwritten
    cases result with
    | error e =>
      refine rollback_alone hserver hwritten.1 ?_
      intro answer w hw
      exact committed_safe hw (committed_error e w)
    | ok _ =>
      refine commit_alone hserver hwritten.1 (hwritten.2 rfl) ?_ ?_
      · intro result w hw hlog
        exact committed_safe hw fun _ => hlog
      · intro e w hw
        exact committed_safe hw (committed_error _ w)
  · exact committed_safe ht (committed_error _ t)

variable {modifications : List (Modification Int)} {m₁ : Contents ModificationRow} {β : Type}
  {Q : β → server.State → Prop} {f : Outcome Unit → ModificationProgram β}

theorem updateModifications_safe (hserver : server.Documented accepts)
    (hnodup : (modifications.map fun m => m.id).Nodup) (h : Alone start (c, n) m (server.view s))
    (hwriting : (server.view s).Writing start (c, n) m₁)
    (hok : ∀ t, Alone start (c, n) m (server.view t) →
      (server.view t).Writing start (c, n) (fun k => (m₁ k).map (updatedRow modifications)) →
      SafeAlone server start c n m Q (f (.ok ())) t)
    (herror : ∀ e t, Alone start (c, n) m (server.view t) → SafeAlone server start c n m Q (f (.error e)) t) :
    SafeAlone server start c n m Q (updateModifications modifications >>= f) s := by
  unfold updateModifications
  split_ifs with hempty
  · refine hok s h ?_
    rw [List.isEmpty_iff.mp hempty, updatedRow_nil]
    simpa only [Option.map_id_fun, id_eq] using hwriting
  · refine statement_alone hserver h hwriting (fun _ _ _ => nofun) (fun owner before changes hwrites => ?_)
      (fun result t ht hwritten => hok t ht hwritten) fun e t ht => herror _ t ht
    exact update_contents hnodup hwrites

theorem deleteModifications_safe (hserver : server.Documented accepts) (h : Alone start (c, n) m (server.view s))
    (hwriting : (server.view s).Writing start (c, n) m₁)
    (hok : ∀ t, Alone start (c, n) m (server.view t) →
      (server.view t).Writing start (c, n)
        (fun k => (m₁ k).filter fun row => ! modifications.any fun d => d.id = row.id) →
      SafeAlone server start c n m Q (f (.ok ())) t)
    (herror : ∀ e t, Alone start (c, n) m (server.view t) → SafeAlone server start c n m Q (f (.error e)) t) :
    SafeAlone server start c n m Q (deleteModifications modifications >>= f) s := by
  unfold deleteModifications
  split_ifs with hempty
  · refine hok s h ?_
    rw [List.isEmpty_iff.mp hempty]
    have hsame : (fun k => (m₁ k).filter fun row => ! ([] : List (Modification Int)).any fun d => d.id = row.id) =
        m₁ := by
      funext k
      cases m₁ k with
      | none => rfl
      | some row => rfl
    rwa [hsame]
  · refine statement_alone hserver h hwriting (fun _ _ _ => nofun) (fun owner before changes hwrites => ?_)
      (fun result t ht hwritten => hok t ht hwritten) fun e t ht => herror _ t ht
    exact delete_contents hwrites

theorem writeStatements_safe (hserver : server.Documented accepts) {plan : ModificationPlan Int}
    (hnodup : (plan.1.map fun m => m.id).Nodup)
    (h : Alone start (c, n) (recoverContents plan (replay start)) (server.view s))
    (hwriting : (server.view s).Writing start (c, n) (replay start)) :
    SafeAlone server start c n (recoverContents plan (replay start))
      (Written start c n (recoverContents plan (replay start))) (writeStatements plan) s := by
  have hfailed : ∀ (e : Failure) (t : server.State),
      Alone start (c, n) (recoverContents plan (replay start)) (server.view t) →
      SafeAlone server start c n (recoverContents plan (replay start))
        (Written start c n (recoverContents plan (replay start))) (pure (.error e)) t := by
    intro e t ht
    refine written_safe ⟨ht, fun hok => ?_⟩
    cases hok
  refine updateModifications_safe hserver hnodup h hwriting (fun t ht hwritten => ?_) hfailed
  have hbind : deleteModifications plan.2 = deleteModifications plan.2 >>= pure := by
    unfold deleteModifications
    split_ifs <;> rfl
  show SafeAlone server start c n _ _ (deleteModifications plan.2) t
  rw [hbind]
  exact deleteModifications_safe hserver ht hwritten (fun u hu hwritten' => written_safe ⟨hu, fun _ => hwritten'⟩)
    hfailed

theorem recoverModifications_safe (hserver : server.Documented accepts) {snapshots : Snapshots Int} {i : Fin 3}
    {plan : ModificationPlan Int} (hplan : planOf snapshots i = .ok plan)
    (h : Alone start (c, n) (recoverContents plan (replay start)) (server.view s))
    (hcount : (server.view s).count c = n) :
    SafeAlone server start c n (recoverContents plan (replay start)) (Committed start)
      (recoverModifications snapshots i) s := by
  have hnodup : (plan.1.map fun m => m.id).Nodup := ((compareModifications_sorted hplan).1).imp fun h => ne_of_lt h
  unfold recoverModifications
  rw [hplan]
  exact inTransaction_safe hserver h hcount fun t ht hwriting => writeStatements_safe hserver hnodup ht hwriting

/-- A party reads all rows of its table, when they fit into the lookback. -/
theorem readModifications_safe (hserver : server.Documented accepts) {count : BitVec 64}
    {storage : ModificationInputStorage} {rows : List ModificationRow} (hrows : HasRows (replay start) rows)
    (hfits : (rows.length : Int) ≤ count.toInt) (h : Still start (server.view s)) :
    SafeStill server start c
      (fun result t => ∀ ms, result = .ok ms →
        (server.view t).Ready c ∧ ms = rows.map fun row => row.intoModification storage)
      (readModifications count storage) s := by
  refine rollback_still hserver h fun _ s' h' hready => ?_
  refine select_still hserver h' hready fun answer t ht hready' hanswer => Safe.pure fun u hu ms hms => ?_
  obtain ⟨hstill, hextends⟩ := hu ht
  refine ⟨hready'.extends ht hstill hextends, ?_⟩
  obtain ⟨found, hall, rfl⟩ := lastResult_eq_ok hms
  obtain ⟨result, rfl, hfailure, rfl⟩ := Answer.all_eq_ok hall
  have hreads := hanswer result rfl
  cases hreads with
  | interrupted => cases hfailure
  | all hfinds =>
    obtain rfl := hrows.found hfinds
    show (List.take count.toInt.toNat _).map _ = _
    rw [List.take_of_length_le (by omega)]

end Programs

/-! ## A round of a party -/

section Party

variable {C : Type} [DecidableEq C] {server : Server C ModificationRow} {accepts : ModificationRow → Bool}
  {count : BitVec 64} {storage : ModificationInputStorage} {snapshots : Snapshots Int} {i : Fin 3} {c : C}
  {s t u : server.State} {rows : List ModificationRow}

/-- A party between two rounds: its table has the rows, and no commit is left open. -/
structure HasTable (v : View C ModificationRow) (rows : List ModificationRow) : Prop where
  labelled : v.Labelled
  settled : v.Settled
  rows : HasRows (replay v.log) rows

omit [DecidableEq C] in
theorem exists_hasTable {source : Int → Option NewModification} {v : View C ModificationRow}
    (h : Lives (IsLife source) v) (hsettled : v.Settled) : ∃ rows, HasTable v rows := by
  let keys := ((v.log.flatMap Commit.changes).map Change.key).dedup
  have hperm : (sortByKey (fun k : Int => -k) keys).Perm keys := sortByKey_perm _ keys
  have hkey : ∀ {k row}, replay v.log k = some row → row.id = k := by
    intro k row hrow
    rw [replay_eq] at hrow
    cases hlast : (history k v.log).getLast? with
    | none =>
      rw [hlast] at hrow
      cases hrow
    | some version =>
      rw [hlast] at hrow
      change version = some row at hrow
      rw [hrow] at hlast
      obtain ⟨new, -, hsame⟩ := (h.histories k).mem (List.mem_of_getLast? hlast)
      exact hsame.id
  have hdesc : (sortByKey (fun k : Int => -k) keys).Pairwise fun a b => b < a := by
    have hnodup : (sortByKey (fun k : Int => -k) keys).Nodup := hperm.nodup_iff.mpr (List.nodup_dedup _)
    refine ((sortByKey_sorted (fun k : Int => -k) keys).and hnodup).imp fun {a b} hab => ?_
    obtain ⟨hle, hne⟩ := hab
    omega
  refine ⟨(sortByKey (fun k : Int => -k) keys).filterMap (replay v.log), h.labelled, hsettled, ?_, fun k row => ?_⟩
  · refine hdesc.filterMap _ fun a b hab row hrow row' hrow' => ?_
    rw [hkey hrow, hkey hrow']
    exact hab
  · rw [List.mem_filterMap]
    constructor
    · intro hrow
      refine ⟨⟨k, hperm.mem_iff.mpr (List.mem_dedup.mpr ?_), hrow⟩, hkey hrow⟩
      -- a key with a row has been changed
      by_contra hnot
      rw [replay_eq, show history k v.log = [] from versions_eq_nil_iff.mpr hnot] at hrow
      cases hrow
    · rintro ⟨⟨k', -, hrow⟩, rfl⟩
      rwa [hkey hrow]

/-- Every table that calls leave has rows. -/
theorem calls_hasTable (hserver : server.Documented accepts) (hs : server.view s = View.initial)
    {events : List (CallEvent server ModificationCall)} {returned : List (ReturnedCall C)}
    (hrun : Transition.run (server.stepCalls (ModificationCall.run storage)) (s, []) events = some (t, returned))
    (hsettled : (server.view t).Settled) : ∃ rows, HasTable (server.view t) rows := by
  obtain ⟨source, h⟩ := CallsInv.run hserver hs hrun
  exact exists_hasTable h.lives hsettled

/-- A party that has read its table, to the end or not. -/
theorem reads_table (hserver : server.Documented accepts) (h : HasTable (server.view s) rows)
    (hfits : (rows.length : Int) ≤ count.toInt) {q : ModificationProgram (Outcome (List (Modification Int)))}
    (hruns : server.Runs c (readModifications count storage) q s t) :
    HasTable (server.view t) rows ∧ ∀ ms, q = .done (.ok ms) →
      (server.view t).Ready c ∧ ms = rows.map fun row => row.intoModification storage := by
  have hstill : Still (server.view s).log (server.view s) := ⟨h.labelled, rfl, h.settled⟩
  obtain ⟨hstill', hdone⟩ := hruns.still hserver hstill
    (readModifications_safe hserver h.rows hfits hstill)
  refine ⟨⟨hstill'.labelled, hstill'.settled, ?_⟩, fun ms hq => hdone _ hq ms rfl⟩
  rw [hstill'.log]
  exact h.rows

/-- A party that writes its plan, to the end or not. -/
theorem writes_plan (hserver : server.Documented accepts) {plan : ModificationPlan Int}
    (hplan : planOf snapshots i = .ok plan) (h : HasTable (server.view t) rows) (hready : (server.view t).Ready c)
    {q : ModificationProgram (Outcome Unit)} (hruns : server.Runs c (recoverModifications snapshots i) q t u) :
    ((server.view u).Settled → HasTable (server.view u) rows ∨ HasTable (server.view u) (recoverRows plan rows)) ∧
      (q = .done (.ok ()) → HasTable (server.view u) (recoverRows plan rows)) := by
  have hstill : Still (server.view t).log (server.view t) := ⟨h.labelled, rfl, h.settled⟩
  obtain ⟨halone, hdone⟩ := hruns.alone hserver (hstill.alone hready.seen)
    (recoverModifications_safe hserver hplan (hstill.alone hready.seen) rfl)
  refine ⟨fun hsettled => ?_, fun hq => ?_⟩
  · rcases halone.replay_cases with hbefore | hafter
    · refine Or.inl ⟨halone.labelled, hsettled, ?_⟩
      rw [hbefore]
      exact h.rows
    · refine Or.inr ⟨halone.labelled, hsettled, ?_⟩
      rw [hafter]
      exact h.rows.recover plan
  · obtain ⟨hafter, hsettled⟩ := halone.committed (hdone _ hq rfl)
    refine ⟨halone.labelled, hsettled, ?_⟩
    rw [hafter]
    exact h.rows.recover plan

end Party

end AmpcCommon.Modifications
