import AmpcCommon.Stats.Mapping
import Mathlib.Data.Fin.VecNotation
import Mathlib.Data.List.Pairwise
import Mathlib.Tactic.FinCases

/-!
# Jobs of two parties line up

The rows of a job are, for every match id, the first ones with this id that the query selects: cutting at the limit,
sorting by the match id and truncating leave rows with one match id in their order. So equal lists of match ids put the
same event at the same position at both parties.
-/

namespace AmpcCommon.Stats

open KeyOrder

namespace SortedMapping

variable {T U : Type}

/-- The sort does not look at the bundles. -/
theorem job_map (f : T → U) (stats : List (Int × T)) (size : Nat) :
    (job (stats.map (Prod.map id f)) size).stats = (job stats size).stats.map (Prod.map id f) := by
  show (sortByKey Prod.fst (stats.map (Prod.map id f))).take size =
    ((sortByKey Prod.fst stats).take size).map (Prod.map id f)
  rw [List.map_take]
  exact congrArg (List.take size) (map_sortByKey (fun _ => rfl) stats).symm

end SortedMapping

/-! ## The rows of a job -/

theorem job_rows_stats (rows : List Row) (size : Nat) :
    (job (rows.map fun row => (row.matchId, row)) size).stats =
      ((sortByKey Row.matchId rows).take size).map fun row => (row.matchId, row) := by
  rw [List.map_take]
  exact congrArg (List.take size) (map_sortByKey (fun _ => rfl) rows).symm

/-- The rows of a job that have one match id are the first ones with this id that were fetched. -/
theorem keyPrefix_take_sort (rows : List Row) (size : Nat) :
    KeyPrefix Row.matchId ((sortByKey Row.matchId rows).take size) rows :=
  (keyPrefix_take _ _ _).trans (keyPrefix_sortByKey _ _)

section Fetch

variable {T : Type} {deserialize : Bytes → Except String T} {tableName : String}

theorem decodeRow_eq_ok {row : Row} {out : Int × Int × T} (h : decodeRow deserialize tableName row = .ok out) :
    out.1 = row.id ∧ out.2.1 = row.matchId ∧ deserialize row.bundle = .ok out.2.2 := by
  unfold decodeRow at h
  cases hbundle : deserialize row.bundle with
  | error e =>
    rw [hbundle] at h
    cases h
  | ok bundle =>
    rw [hbundle] at h
    cases h
    exact ⟨rfl, rfl, rfl⟩

theorem mapM_decodeRow {rows : List Row} {out : List (Int × Int × T)}
    (h : rows.mapM (decodeRow deserialize tableName) = .ok out) :
    (out.map Prod.snd).map (Prod.map id Except.ok) = rows.map fun row => (row.matchId, deserialize row.bundle) := by
  induction rows generalizing out with
  | nil =>
    cases h
    rfl
  | cons row rows ih =>
    rw [List.mapM_cons] at h
    obtain ⟨first, hfirst, h⟩ := Outcome.bind_eq_ok.mp h
    obtain ⟨rest, hrest, h⟩ := Outcome.bind_eq_ok.mp h
    obtain ⟨-, hmatch, hbundle⟩ := decodeRow_eq_ok hfirst
    cases h
    rw [List.map_cons, List.map_cons, List.map_cons, ih hrest, ← hmatch, hbundle]
    rfl

/-- A fetch that succeeds gives the first rows, cut at the limit, with their bundles decoded. -/
theorem getAvailableAnonStats_eq_ok {table : Table} {origin : StoreOrigin} {operation : Option AnonStatsOperation}
    {limit : BitVec 64} {ids : List Int} {stats : List (Int × T)}
    (h : getAvailableAnonStats deserialize tableName table origin operation limit = .ok (ids, stats)) :
    ∃ rows, table.fetchAll origin operation limit = .ok rows ∧ rows <+: table.available origin operation ∧
      stats.map (Prod.map id Except.ok) = rows.map fun row => (row.matchId, deserialize row.bundle) := by
  obtain ⟨rows, hrows, h⟩ := Outcome.bind_eq_ok.mp h
  obtain ⟨out, hout, h⟩ := Outcome.bind_eq_ok.mp h
  refine ⟨rows, hrows, ?_, ?_⟩
  · unfold Table.fetchAll at hrows
    split_ifs at hrows with hlimit
    · cases hrows
    · cases hrows
      exact List.take_prefix _ _
  · have hstats : stats = out.map Prod.snd := by
      rw [List.unzip_eq_map] at h
      cases h
      rfl
    rw [hstats]
    exact mapM_decodeRow hout

end Fetch

/-- A job holds the match ids and the bundles of its rows. -/
theorem job_stats_eq {T : Type} {deserialize : Bytes → Except String T} {rows : List Row} {stats : List (Int × T)}
    (h : stats.map (Prod.map id Except.ok) = rows.map fun row => (row.matchId, deserialize row.bundle)) (size : Nat) :
    (job stats size).stats.map (Prod.map id Except.ok) =
      ((sortByKey Row.matchId rows).take size).map fun row => (row.matchId, deserialize row.bundle) := by
  have hrows : rows.map (fun row => (row.matchId, deserialize row.bundle)) =
      (rows.map fun row => (row.matchId, row)).map (Prod.map id fun row => deserialize row.bundle) := by
    rw [List.map_map]
    rfl
  rw [← SortedMapping.job_map, h, hrows, SortedMapping.job_map, job_rows_stats, List.map_map]
  rfl

/-- A job holds the bundles of all rows, as far as they fit. -/
theorem job_len {T : Type} {deserialize : Bytes → Except String T} {rows : List Row} {stats : List (Int × T)}
    (h : stats.map (Prod.map id Except.ok) = rows.map fun row => (row.matchId, deserialize row.bundle)) (size : Nat) :
    (job stats size).len = min size rows.length := by
  have hlength := congrArg List.length (job_stats_eq h size)
  rw [List.length_map, List.length_map, List.length_take, (sortByKey_perm Row.matchId rows).length_eq] at hlength
  exact hlength

/-- **The jobs of two parties line up.** Suppose the events of every match id come in the same order at both parties, as
far as both have them. A job has the bundles of the first rows in the order of their match ids. If the jobs of the
parties have equal lists of match ids, the bundles at every position come from rows of the same event. -/
theorem jobs_line_up {T E : Type} (deserialize : Bytes → Except String T) (tableName : String) (origin : StoreOrigin)
    (operation : Option AnonStatsOperation) (table : Fin 2 → Table) (event : Fin 2 → Row → E)
    (hsame : ∀ matchId,
      Comparable ((ofKey Row.matchId matchId ((table 0).available origin operation)).map (event 0))
        ((ofKey Row.matchId matchId ((table 1).available origin operation)).map (event 1)))
    (limit : Fin 2 → BitVec 64) (size : Nat) (ids : Fin 2 → List Int) (stats : Fin 2 → List (Int × T))
    (hfetch : ∀ p, getAvailableAnonStats deserialize tableName (table p) origin operation (limit p) =
      .ok (ids p, stats p))
    (hids : (job (stats 0) size).ids = (job (stats 1) size).ids) :
    ∃ rows : Fin 2 → List Row,
      (∀ p, (table p).fetchAll origin operation (limit p) = .ok (rows p) ∧
        (job (stats p) size).len = min size (rows p).length ∧
        (job (stats p) size).intoBundles.map Except.ok =
          ((sortByKey Row.matchId (rows p)).take size).map fun row => deserialize row.bundle) ∧
      ((sortByKey Row.matchId (rows 0)).take size).map (event 0) =
        ((sortByKey Row.matchId (rows 1)).take size).map (event 1) := by
  choose rows hrows hpre hstats using fun p => getAvailableAnonStats_eq_ok (hfetch p)
  have hjob p := job_stats_eq (hstats p) size
  refine ⟨rows, fun p => ⟨hrows p, job_len (hstats p) size, ?_⟩, ?_⟩
  · have hsnd := congrArg (List.map Prod.snd) (hjob p)
    rw [List.map_map, List.map_map] at hsnd
    unfold AnonStatsMapping.intoBundles
    rw [List.map_map]
    exact hsnd
  have hkeys p : (job (stats p) size).ids = ((sortByKey Row.matchId (rows p)).take size).map Row.matchId := by
    have hfst := congrArg (List.map Prod.fst) (hjob p)
    rw [List.map_map, List.map_map] at hfst
    exact hfst
  refine map_eq_map_of_keys (hkeys 0 ▸ hkeys 1 ▸ hids) fun matchId => ?_
  have hkey p : KeyPrefix Row.matchId ((sortByKey Row.matchId (rows p)).take size)
      ((table p).available origin operation) :=
    (keyPrefix_take_sort (rows p) size).trans fun k => (hpre p).filter _
  exact (hsame matchId).restrict ((hkey 0 matchId).map _) ((hkey 1 matchId).map _)

/-- The origin of the rows below. -/
def hnswLeft : StoreOrigin where
  orientation := .normal
  side := some .left
  context := .hnsw

/-- The tables of two parties with the same events, two of them with the match id 7. The first byte of a bundle stands
for its event. -/
def repeatedIds : Fin 2 → Table
  | 0 => ⟨[⟨1, 7, [10, 0], false, hnswLeft.toI16, 0⟩, ⟨2, 3, [20, 0], false, hnswLeft.toI16, 0⟩,
      ⟨3, 7, [30, 0], false, hnswLeft.toI16, 0⟩], by decide⟩
  | 1 => ⟨[⟨4, 7, [30, 1], false, hnswLeft.toI16, 0⟩, ⟨1, 3, [20, 1], false, hnswLeft.toI16, 0⟩,
      ⟨2, 7, [10, 1], false, hnswLeft.toI16, 0⟩, ⟨3, 9, [40, 1], true, hnswLeft.toI16, 0⟩], by decide⟩

/-- The jobs of two of these events, with different limits. -/
theorem jobs_line_up_repeated :
    let stats : Fin 2 → List (Int × Bytes) :=
      ![[(7, [10, 0]), (3, [20, 0])], [(3, [20, 1]), (7, [10, 1]), (7, [30, 1])]]
    (job (stats 0) 2).ids = [3, 7] ∧ (job (stats 1) 2).ids = [3, 7] ∧
    ∃ rows : Fin 2 → List Row,
      (∀ p, (repeatedIds p).fetchAll hnswLeft none (![2, 3] p) = .ok (rows p) ∧
        (job (stats p) 2).len = min 2 (rows p).length ∧
        (job (stats p) 2).intoBundles.map Except.ok =
          ((sortByKey Row.matchId (rows p)).take 2).map fun row => (.ok row.bundle : Except String Bytes)) ∧
      ((sortByKey Row.matchId (rows 0)).take 2).map (fun row => row.bundle.head?) =
        ((sortByKey Row.matchId (rows 1)).take 2).map fun row => row.bundle.head? := by
  intro stats
  refine ⟨by decide, by decide, ?_⟩
  refine jobs_line_up Except.ok "anon_stats_1d" hnswLeft none repeatedIds (fun _ row => row.bundle.head?) ?_ ![2, 3] 2
    ![[1, 2], [1, 2, 4]] stats ?_ (by decide)
  · have hids : ∀ row ∈ (repeatedIds 1).available hnswLeft none, row.matchId = 7 ∨ row.matchId = 3 := by decide
    intro matchId
    by_cases h7 : matchId = 7
    · subst h7
      left
      decide
    · by_cases h3 : matchId = 3
      · subst h3
        left
        decide
      · have hnone : ofKey Row.matchId matchId ((repeatedIds 1).available hnswLeft none) = [] := by
          refine List.filter_eq_nil_iff.mpr fun row hrow => ?_
          rcases hids row hrow with h | h <;> simp [h, Ne.symm h7, Ne.symm h3]
        right
        rw [hnone]
        exact List.nil_prefix
  · intro p
    fin_cases p <;> rfl

end AmpcCommon.Stats
