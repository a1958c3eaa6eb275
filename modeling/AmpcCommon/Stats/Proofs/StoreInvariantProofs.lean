import AmpcCommon.Base.DatabaseLives
import AmpcCommon.Stats.Store

/-!
# The store of statistics, proofs

What every use of a table keeps (`StoreInv`): a row is inserted once, and is then marked, perhaps again, or cleared
(`IsHistory`). The statements of the store do nothing else to a row that is there.
-/

namespace AmpcCommon.Stats

open Database

/-! ## Histories of rows -/

variable {C M : Type}

/-- What can happen to the row with an id: it is inserted, and then marked, perhaps again, or cleared. -/
inductive IsHistory (k : Int) : List (Option (StatRow M)) → Prop where
  | absent : IsHistory k []
  | inserted (row : StatRow M) (marks : Nat) : row.id = k → row.processed = false →
      IsHistory k (some row :: List.replicate marks (some row.setProcessed))
  | cleared (row : StatRow M) : row.id = k → row.processed = false → IsHistory k [some row, none]

/-- The last version of a row that is there. -/
theorem IsHistory.getLast {k : Int} {h : List (Option (StatRow M))} (hh : IsHistory k h) {row : StatRow M}
    (hlast : h.getLast?.getD none = some row) : row.id = k ∧ ∃ first marks, first.id = k ∧ first.processed = false ∧
      h = some first :: List.replicate marks (some first.setProcessed) ∧
      row.setProcessed = first.setProcessed ∧ (row.processed = false → marks = 0 ∧ row = first) := by
  cases hh with
  | absent => cases hlast
  | inserted first marks hid hprocessed =>
    cases marks with
    | zero =>
      cases hlast
      exact ⟨hid, row, 0, hid, hprocessed, rfl, rfl, fun _ => ⟨rfl, rfl⟩⟩
    | succ marks =>
      rw [List.replicate_succ', ← List.cons_append, List.getLast?_concat] at hlast
      cases hlast
      exact ⟨hid, first, marks + 1, hid, hprocessed, rfl, rfl, fun h => by cases h⟩
  | cleared first hid hprocessed => cases hlast

theorem IsHistory.mark {k : Int} {h : List (Option (StatRow M))} (hh : IsHistory k h) {row : StatRow M}
    (hlast : h.getLast?.getD none = some row) : IsHistory k (h ++ [some row.setProcessed]) := by
  obtain ⟨-, first, marks, hid, hprocessed, rfl, hset, -⟩ := hh.getLast hlast
  rw [hset, List.cons_append, ← List.replicate_succ']
  exact IsHistory.inserted first (marks + 1) hid hprocessed

theorem IsHistory.clear {k : Int} {h : List (Option (StatRow M))} (hh : IsHistory k h) {row : StatRow M}
    (hlast : h.getLast?.getD none = some row) (havailable : row.processed = false) : IsHistory k (h ++ [none]) := by
  obtain ⟨-, first, marks, hid, hprocessed, rfl, -, hfirst⟩ := hh.getLast hlast
  obtain ⟨rfl, rfl⟩ := hfirst havailable
  exact IsHistory.cleared row hid hprocessed

/-- A row is available if and only if nothing but its insertion has happened to it. -/
theorem IsHistory.available_iff {k : Int} {h : List (Option (StatRow M))} (hh : IsHistory k h) :
    (∃ row, h.getLast?.getD none = some row ∧ row.processed = false) ↔ h.length = 1 := by
  constructor
  · rintro ⟨row, hlast, havailable⟩
    obtain ⟨-, first, marks, -, -, rfl, -, hfirst⟩ := hh.getLast hlast
    obtain ⟨rfl, rfl⟩ := hfirst havailable
    rfl
  · intro hlength
    cases hh with
    | absent => cases hlength
    | inserted first marks hid hprocessed =>
      rw [List.length_cons, List.length_replicate] at hlength
      obtain rfl : marks = 0 := by omega
      exact ⟨first, rfl, hprocessed⟩
    | cleared first => cases hlength

/-- The changes of a batch: new rows under their own ids. -/
structure IsBatch (changes : List (Change (StatRow M))) : Prop where
  nodup : (changes.map Change.key).Nodup
  rows : ∀ change ∈ changes, ∃ row, change.row = some row ∧ row.id = change.key ∧ row.processed = false

theorem IsBatch.nil : IsBatch ([] : List (Change (StatRow M))) := ⟨List.nodup_nil, fun _ h => by cases h⟩

/-! ## The statements -/

theorem length_inserted {rows : List (Int → StatRow M)} {keys : List Int} (h : keys.length = rows.length) :
    (inserted rows keys).length = rows.length := by
  unfold inserted
  rw [List.length_zipWith]
  omega

theorem mem_inserted {rows : List (NewRow M)} {keys : List Int} {change : Change (StatRow M)}
    (h : change ∈ inserted (rows.map NewRow.toRow) keys) : ∃ new ∈ rows, change.row = some (new.toRow change.key) := by
  unfold inserted at h
  rw [List.zipWith_map_left, List.mem_iff_getElem] at h
  obtain ⟨i, hi, rfl⟩ := h
  rw [List.getElem_zipWith]
  exact ⟨_, List.getElem_mem _, rfl⟩

theorem exists_mem_inserted {rows : List (NewRow M)} {keys : List Int} (hlength : keys.length = rows.length)
    {new : NewRow M} (hnew : new ∈ rows) :
    ∃ change ∈ inserted (rows.map NewRow.toRow) keys, change.row = some (new.toRow change.key) := by
  obtain ⟨i, hi, rfl⟩ := List.mem_iff_getElem.mp hnew
  have hi' : i < (List.zipWith (fun make k => (⟨k, some (make k)⟩ : Change (StatRow M)))
      (rows.map NewRow.toRow) keys).length := by
    rw [List.length_zipWith, List.length_map]
    omega
  refine ⟨_, List.getElem_mem hi', ?_⟩
  rw [List.getElem_zipWith, List.getElem_map]

theorem isBatch_inserted {rows : List (NewRow M)} {keys : List Int} (hlength : keys.length = rows.length)
    (hkeys : keys.Pairwise (· < ·)) : IsBatch (inserted (rows.map NewRow.toRow) keys) := by
  refine ⟨?_, fun change hchange => ?_⟩
  · rw [map_key_inserted (by rw [List.length_map, hlength])]
    exact hkeys.imp fun h => ne_of_lt h
  · obtain ⟨new, -, hrow⟩ := mem_inserted hchange
    exact ⟨_, hrow, rfl, rfl⟩

/-! ## The invariant -/

/-- What every use of a table keeps. -/
abbrev StoreInv (v : View C (StatRow M)) : Prop := Lives IsHistory v

theorem StoreInv.initial : StoreInv (View.initial : View C (StatRow M)) := Lives.initial fun _ => IsHistory.absent

theorem StoreInv.isLabelled (v : View C (StatRow M)) (h : StoreInv v) : v.Labelled := h.labelled

/-- The statements of the store insert a row, or mark or clear one that is there. -/
theorem storeUsage_respects : (storeUsage M).Respects IsHistory := by
  intro query statement parameters hquery
  change StoreQuery.request query = _ at hquery
  cases query with
  | begin => cases hquery
  | commit => cases hquery
  | rollback => cases hquery
  | insert rows parameters =>
    cases hquery
    intro make hmake k _
    obtain ⟨new, -, rfl⟩ := List.mem_map.mp hmake
    exact IsHistory.inserted (new.toRow k) 0 rfl rfl
  | select condition order limit =>
    cases hquery
    trivial
  | mark ids =>
    cases hquery
    intro k h row row' hh hlast hversion
    change row' ∈ (if row.id ∈ ids then [row.setProcessed] else []) at hversion
    split_ifs at hversion
    · rw [List.mem_singleton.mp hversion]
      exact hh.mark hlast
    · cases hversion
  | clear condition =>
    cases hquery
    intro k h row hh hlast hselects
    rw [StatRow.available, Bool.and_eq_true, Bool.not_eq_true'] at hselects
    exact hh.clear hlast hselects.1

/-- The contents as a client sees them that has no transaction. -/
theorem contents_of_idle {v : View C (StatRow M)} {c : C} (htx : v.tx c = .idle) (n : Nat) :
    v.contents c n = replay (v.log.take n) := by
  unfold View.contents
  rw [htx]
  rfl

theorem contents_now {v : View C (StatRow M)} {c : C} (htx : v.tx c = .idle) :
    v.contents c v.log.length = replay v.log := by
  rw [contents_of_idle htx, List.take_length]

variable [DecidableEq C]

/-- **What every use of a table keeps.** -/
theorem storeInv_invariant (accepts : StatRow M → Bool) : (storeUsage M).Invariant accepts (StoreInv (C := C)) :=
  lives_invariant storeUsage_respects accepts

/-- One request. -/
theorem StoreInv.step {accepts : StatRow M → Bool} {c : C} {v w : View C (StatRow M)} (h : StoreInv v)
    (query : StoreQuery M) {answer : Answer (StatRow M)} (hstep : Allowed accepts c v query.request answer w) :
    StoreInv w :=
  (storeInv_invariant accepts).perform c v query answer w hstep h

end AmpcCommon.Stats
