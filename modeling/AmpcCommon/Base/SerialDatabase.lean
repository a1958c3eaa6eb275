import AmpcCommon.Base.DatabaseRules
import AmpcCommon.Base.KeyOrder
import Mathlib.Data.Fintype.Defs
import Mathlib.Data.List.Dedup

/-!
# A serial database

A database that answers one request after the other, each on all that is committed, and refuses to change a row that an
unfinished transaction has changed. A choice says which keys new rows get, and which requests fail. It does what is
documented (`Serial.server_documented`).
-/

namespace Database.Serial

open KeyOrder

variable {C ρ : Type} [DecidableEq C]

/-- What is left open: the keys of new rows, and whether a request fails, or is applied and only its answer is lost. -/
structure Choice (C : Type) where
  keys : List Int
  fails : Option String
  applies : Bool
  closes : Option C
  deriving Repr, DecidableEq

/-- Nothing fails. -/
def Choice.with (keys : List Int) : Choice C := ⟨keys, none, true, none⟩

/-- The keys under which there has been a row. -/
def keysOf (changes : List (Change ρ)) : List Int := (changes.map Change.key).dedup

/-- All changes that a client sees. -/
def changesOf (v : View C ρ) (c : C) : List (Change ρ) := v.log.flatMap Commit.changes ++ (v.tx c).changes

/-- The rows that a client sees, with their keys. -/
def rowsOf (v : View C ρ) (c : C) : List (Int × ρ) :=
  (keysOf (changesOf v c)).filterMap fun k => (v.contents c v.log.length k).map fun row => (k, row)

/-- What a statement changes, if it can. -/
def changes? (accepts : ρ → Bool) (v : View C ρ) (c : C) (keys : List Int) : Statement ρ → Option (List (Change ρ))
  | .insert rows =>
    if keys.length = rows.length ∧ keys.Pairwise (· < ·) ∧ (∀ k ∈ keys, (v.owner k).isNone = true) ∧
        (∀ k ∈ keys, ∀ change ∈ (v.tx c).changes, change.key < k) ∧
        ∀ change ∈ inserted rows keys, change.row.all accepts = true then
      some (inserted rows keys)
    else none
  | .update versions => some <| (rowsOf v c).filterMap fun r => (versions r.2).head?.map fun row => ⟨r.1, some row⟩
  | .delete selects => some <| ((rowsOf v c).filter fun r => selects r.2).map fun r => ⟨r.1, none⟩
  | .select _ _ _ => none

/-- What a query returns. -/
def read? (v : View C ρ) (c : C) : Statement ρ → Option (List ρ)
  | .select selects order limit =>
    if limit.all fun n => decide (0 ≤ n) then
      some (limited limit ((sortByKey (fun r => order r.2) ((rowsOf v c).filter fun r => selects r.2)).map Prod.snd))
    else none
  | _ => none

/-- No other transaction has changed the rows. -/
def unlocked [Fintype C] (v : View C ρ) (c : C) (changes : List (Change ρ)) : Bool :=
  decide ((∀ c', c' ≠ c → ∀ change ∈ changes, ∀ change' ∈ (v.tx c').changes, change'.key ≠ change.key) ∧
    ∀ e ∈ v.late, ∀ change ∈ changes, ∀ change' ∈ e.changes, change'.key ≠ change.key)

/-- The owners after a transaction has changed some keys. -/
def owners (owner : Int → Option (C × Nat)) (label : C × Nat) (changes : List (Change ρ)) (k : Int) :
    Option (C × Nat) :=
  if owner k = none ∧ k ∈ changes.map Change.key then some label else owner k

/-- An answer to a request that was not applied. -/
def refuse (v : View C ρ) (c : C) (e : String) : Answer ρ × View C ρ :=
  (.error e, v.answered c v.log v.late (v.tx c).fail v.owner)

def execute [Fintype C] (accepts : ρ → Bool) (c : C) (statement : Statement ρ) (parameters : Nat) (choice : Choice C)
    (v : View C ρ) : Answer ρ × View C ρ :=
  if maxParameters < parameters then refuse v c "too many parameters"
  else
    match choice.fails, choice.applies with
    | some e, false => refuse v c e
    | fails, _ =>
      match read? v c statement, (changes? accepts v c choice.keys statement).filter (unlocked v c), v.tx c with
      | some rows, _, _ =>
        match fails with
        | some e => refuse v c e
        | none => (.ok ⟨rows.length, rows, none⟩, v.answered c v.log v.late (v.tx c) v.owner)
      | none, some changes, .idle =>
        let answer := match fails with
          | some e => .error e
          | none => .ok ⟨changes.length, changes.filterMap Change.row, none⟩
        (answer, v.answered c (v.log ++ [⟨c, v.count c, changes⟩]) v.late .idle (owners v.owner (c, v.count c) changes))
      | none, some changes, .running number before =>
        match fails with
        | some e => refuse v c e
        | none =>
          (.ok ⟨changes.length, changes.filterMap Change.row, none⟩,
            v.answered c v.log v.late (.running number (before ++ changes)) (owners v.owner (c, number) changes))
      | _, _, _ => refuse v c "the statement is not possible"

def perform [Fintype C] (accepts : ρ → Bool) (c : C) : Request ρ → Choice C → View C ρ → Option (Answer ρ × View C ρ)
  | .begin, choice, v =>
    match choice.fails, v.tx c with
    | none, .idle => some (.ok ⟨0, [], none⟩, v.answered c v.log v.late (.running (v.count c) []) v.owner)
    | fails, tx => some (.error (fails.getD "there is a transaction"), v.answered c v.log v.late tx v.owner)
  | .execute statement parameters, choice, v => some (execute accepts c statement parameters choice v)
  | .commit, choice, v =>
    match choice.fails, choice.applies, v.tx c with
    | none, _, .running number changes =>
      some (.ok ⟨0, [], none⟩, v.answered c (v.log ++ [⟨c, number, changes⟩]) v.late .idle v.owner)
    | some e, true, .running number changes =>
      some (.error e, v.answered c v.log (v.late ++ [⟨c, number, changes⟩]) .idle v.owner)
    | fails, _, _ => some (.error (fails.getD "there is no transaction"), v.answered c v.log v.late .idle v.owner)
  | .rollback, _, v => some (.ok ⟨0, [], none⟩, v.answered c v.log v.late .idle v.owner)

/-- The first transaction that can still be committed is, or never will be; or a connection is closed. -/
def internal (choice : Choice C) (v : View C ρ) : Option (View C ρ) :=
  match choice.closes with
  | some c =>
    match v.tx c with
    | .running _ _ => some { v with tx := Function.update v.tx c .closed }
    | _ => none
  | none =>
    match v.late with
    | [] => none
    | e :: late => some { v with log := if choice.applies then v.log ++ [e] else v.log, late := late }

def server [Fintype C] (accepts : ρ → Bool) : Server C ρ where
  State := View C ρ
  Choice := Choice C
  view v := v
  perform c request choice v := if v.seen c ≤ v.log.length then perform accepts c request choice v else none
  internal := internal

/-! ## It does what is documented -/

variable {accepts : ρ → Bool} {v w : View C ρ} {c : C} {statement : Statement ρ}

omit [DecidableEq C] in
theorem mem_rowsOf {k : Int} {row : ρ} : (k, row) ∈ rowsOf v c ↔ v.contents c v.log.length k = some row := by
  unfold rowsOf
  rw [List.mem_filterMap]
  constructor
  · rintro ⟨k', -, hk'⟩
    obtain ⟨row', hrow', heq⟩ := Option.map_eq_some_iff.mp hk'
    cases heq
    exact hrow'
  · intro hrow
    refine ⟨k, ?_, by rw [hrow]; rfl⟩
    -- a key with a row has been changed
    unfold keysOf changesOf
    rw [List.mem_dedup]
    by_contra hnot
    rw [List.map_append, List.mem_append, not_or] at hnot
    unfold View.contents at hrow
    rw [apply_eq, versions_eq_nil_iff.mpr hnot.2, List.take_length] at hrow
    change replay v.log k = some row at hrow
    rw [replay_eq, show history k v.log = [] from versions_eq_nil_iff.mpr hnot.1] at hrow
    cases hrow

omit [DecidableEq C] in
theorem nodup_keys_rowsOf : ((rowsOf v c).map Prod.fst).Nodup := by
  have hsub : ((rowsOf v c).map Prod.fst).Sublist (keysOf (changesOf v c)) := by
    unfold rowsOf
    rw [List.map_filterMap]
    generalize keysOf (changesOf v c) = keys
    induction keys with
    | nil => exact List.Sublist.slnil
    | cons k keys ih =>
      rw [List.filterMap_cons]
      cases hk : v.contents c v.log.length k with
      | none =>
        rw [Option.map_none, Option.map_none]
        exact List.Sublist.cons k ih
      | some row =>
        rw [Option.map_some, Option.map_some]
        exact ih.cons_cons k
  exact (List.nodup_dedup _).sublist hsub

omit [DecidableEq C] in
theorem read?_spec {rows : List ρ} {n : Nat} (h : read? v c statement = some rows) :
    Reads (v.contents c v.log.length) statement ⟨n, rows, none⟩ := by
  cases statement with
  | insert makes => cases h
  | update versions => cases h
  | delete selects => cases h
  | select selects order limit =>
    simp only [read?, Option.ite_none_right_eq_some, Option.some.injEq] at h
    obtain ⟨hlimit, rfl⟩ := h
    have hperm := sortByKey_perm (fun r : Int × ρ => order r.2) ((rowsOf v c).filter fun r => selects r.2)
    have hmem : ∀ r ∈ sortByKey (fun r : Int × ρ => order r.2) ((rowsOf v c).filter fun r => selects r.2),
        v.contents c v.log.length r.1 = some r.2 ∧ selects r.2 = true := by
      intro r hr
      obtain ⟨hrow, hselects⟩ := List.mem_filter.mp (hperm.mem_iff.mp hr)
      exact ⟨mem_rowsOf.mp hrow, hselects⟩
    refine Reads.all ⟨(?_ : ((sortByKey (fun r : Int × ρ => order r.2)
      ((rowsOf v c).filter fun r => selects r.2)).map Prod.fst).Nodup), fun k => ?_, ?_, ?_⟩ ?_
    · refine (hperm.map Prod.fst).nodup_iff.mpr ?_
      exact nodup_keys_rowsOf.sublist (List.filter_sublist.map Prod.fst)
    · rw [List.mem_map]
      constructor
      · rintro ⟨r, hr, rfl⟩
        exact ⟨r.2, hmem r hr⟩
      · rintro ⟨row, hrow, hselects⟩
        exact ⟨(k, row), hperm.mem_iff.mpr (List.mem_filter.mpr ⟨mem_rowsOf.mpr hrow, hselects⟩), rfl⟩
    · rw [List.forall₂_map_left_iff, List.forall₂_map_right_iff, List.forall₂_same]
      exact fun r hr => (hmem r hr).1
    · exact (sortByKey_sorted (fun r : Int × ρ => order r.2) _).map _ fun _ _ hab => hab
    · rintro n rfl
      exact of_decide_eq_true hlimit

omit [DecidableEq C] in
/-- What a statement changes are rows that there are, one for each key. -/
theorem changes_spec {f : Int × ρ → Option (Change ρ)} (hkey : ∀ r change, f r = some change → change.key = r.1) :
    (((rowsOf v c).filterMap f).map Change.key).Nodup ∧
      (∀ change ∈ (rowsOf v c).filterMap f, ∃ row, v.contents c v.log.length change.key = some row ∧
        f (change.key, row) = some change) ∧
      ∀ k row change, v.contents c v.log.length k = some row → f (k, row) = some change →
        k ∈ ((rowsOf v c).filterMap f).map Change.key := by
  refine ⟨?_, fun change hchange => ?_, fun k row change hrow hf => ?_⟩
  · refine (nodup_keys_rowsOf (v := v) (c := c)).sublist ?_
    rw [List.map_filterMap]
    generalize rowsOf v c = rows
    induction rows with
    | nil => exact List.Sublist.slnil
    | cons r rows ih =>
      rw [List.filterMap_cons, List.map_cons]
      cases hr : f r with
      | none =>
        rw [Option.map_none]
        exact List.Sublist.cons _ ih
      | some change =>
        rw [Option.map_some, hkey r change hr]
        exact ih.cons_cons _
  · obtain ⟨r, hr, hf⟩ := List.mem_filterMap.mp hchange
    have hfst : change.key = r.1 := hkey r change hf
    refine ⟨r.2, ?_, ?_⟩
    · rw [hfst]
      exact mem_rowsOf.mp hr
    · rw [hfst]
      exact hf
  · rw [List.mem_map]
    exact ⟨change, List.mem_filterMap.mpr ⟨(k, row), mem_rowsOf.mpr hrow, hf⟩, hkey _ _ hf⟩

omit [DecidableEq C] in
theorem changes?_spec {keys : List Int} {changes : List (Change ρ)}
    (h : changes? accepts v c keys statement = some changes) :
    Writes accepts v.owner (v.contents c v.log.length) (v.contents c v.log.length) (v.tx c).changes statement
      changes := by
  cases statement with
  | insert rows =>
    simp only [changes?, Option.ite_none_right_eq_some, Option.some.injEq] at h
    obtain ⟨⟨hlength, hkeys, hnew, hafter, haccepted⟩, rfl⟩ := h
    refine Writes.insert hlength hkeys (fun k hk => Option.isNone_iff_eq_none.mp (hnew k hk)) hafter ?_
    intro change hmem row hrow
    have hall := haccepted change hmem
    rwa [hrow, Option.all_some] at hall
  | update versions =>
    cases h
    obtain ⟨hnodup, hchange, hall⟩ := changes_spec (v := v) (c := c)
      (f := fun r : Int × ρ => (versions r.2).head?.map fun row => (⟨r.1, some row⟩ : Change ρ)) (by
        intro r change hf
        obtain ⟨row, -, rfl⟩ := Option.map_eq_some_iff.mp hf
        rfl)
    refine Writes.update hnodup (fun change hmem => ?_) fun k row row₀ hrow hrow₀ hversions _ => ?_
    · obtain ⟨row, hrow, hf⟩ := hchange change hmem
      obtain ⟨row', hrow', heq⟩ := Option.map_eq_some_iff.mp hf
      refine ⟨row, row', hrow, List.mem_of_mem_head? hrow', ?_⟩
      rw [← heq]
    · obtain ⟨row', rest, hrow'⟩ := List.exists_cons_of_ne_nil hversions
      refine hall k row ⟨k, some row'⟩ hrow ?_
      show (versions row).head?.map _ = _
      rw [hrow']
      rfl
  | delete selects =>
    have hfilter : ((rowsOf v c).filter fun r => selects r.2).map (fun r => (⟨r.1, none⟩ : Change ρ)) =
        (rowsOf v c).filterMap fun r => if selects r.2 then some ⟨r.1, none⟩ else none := by
      rw [← List.filterMap_eq_map, List.filterMap_filter]
      rfl
    simp only [changes?, hfilter, Option.some.injEq] at h
    subst h
    obtain ⟨hnodup, hchange, hall⟩ := changes_spec (v := v) (c := c)
      (f := fun r : Int × ρ => if selects r.2 then some (⟨r.1, none⟩ : Change ρ) else none) (by
        intro r change hf
        obtain ⟨-, heq⟩ := Option.ite_none_right_eq_some.mp hf
        cases heq
        rfl)
    refine Writes.delete hnodup (fun change hmem => ?_) fun k row row₀ hrow _ hselects _ => ?_
    · obtain ⟨row, hrow, hf⟩ := hchange change hmem
      obtain ⟨hselects, heq⟩ := Option.ite_none_right_eq_some.mp hf
      refine ⟨row, hrow, hselects, ?_⟩
      rw [← Option.some.inj heq]
    · exact hall k row ⟨k, none⟩ hrow (if_pos hselects)
  | select selects order limit => cases h

omit [DecidableEq C] in
theorem keeps_owners (owner : Int → Option (C × Nat)) (label : C × Nat) (changes : List (Change ρ)) :
    Keeps owner (owners owner label changes) := by
  intro k x hk
  unfold owners
  rw [if_neg fun h => by rw [hk] at h; exact absurd h.1 (by simp)]
  exact hk

omit [DecidableEq C] in
theorem owners_new (owner : Int → Option (C × Nat)) (label : C × Nat) {changes : List (Change ρ)} {change : Change ρ}
    (hmem : change ∈ changes) (hnew : owner change.key = none) : owners owner label changes change.key = some label :=
  if_pos ⟨hnew, List.mem_map_of_mem hmem⟩

theorem unlocked_free [Fintype C] {changes : List (Change ρ)} (h : unlocked v c changes = true) {n : Nat}
    (htx : ∀ number before, v.tx c = .running number before → number = n) : v.Free (c, n) changes := by
  obtain ⟨hrunning, hlate⟩ := of_decide_eq_true h
  rintro ⟨c', number⟩ changes' hunfinished hne change hmem change' hmem'
  rcases hunfinished with htx' | ⟨e, he, -, rfl⟩
  · change v.tx c' = .running number changes' at htx'
    by_cases hc : c' = c
    · subst hc
      exact absurd (congrArg (Prod.mk c') (htx number changes' htx')) hne
    · refine hrunning c' hc change hmem change' ?_
      rw [htx']
      exact hmem'
  · exact hlate e he change hmem change' hmem'

variable [Fintype C]

theorem execute_allowed {parameters : Nat} {choice : Choice C} {answer : Answer ρ} (hv : v.seen c ≤ v.log.length)
    (h : execute accepts c statement parameters choice v = (answer, w)) :
    Allowed accepts c v (.execute statement parameters) answer w := by
  have hrefuse : ∀ e, refuse v c e = (answer, w) → Allowed accepts c v (.execute statement parameters) answer w := by
    intro e heq
    cases heq
    exact Allowed.refused (Keeps.refl _)
  unfold execute at h
  split_ifs at h with hmax
  · exact hrefuse _ h
  · have hparameters : parameters ≤ maxParameters := by omega
    split at h
    · exact hrefuse _ h
    · split at h
      next hread =>
        split at h
        · exact hrefuse _ h
        · cases h
          exact Allowed.read (Keeps.refl _) ⟨hv, le_rfl⟩ (read?_spec hread)
      next changes _ hchanges htx =>
        obtain ⟨hchanges, hunlocked⟩ := Option.filter_eq_some_iff.mp hchanges
        have hwrites := changes?_spec hchanges
        have hfree : v.Free (c, v.count c) changes := unlocked_free hunlocked fun number before hrunning => by
          rw [htx] at hrunning
          cases hrunning
        rw [htx] at hwrites
        obtain ⟨rfl, rfl⟩ := Prod.mk.inj h
        split
        · exact Allowed.writtenLost (keeps_owners _ _ _) htx hparameters ⟨hv, le_rfl⟩ hwrites hfree
            fun change hmem hnew => owners_new _ _ hmem hnew
        · exact Allowed.written (keeps_owners _ _ _) htx hparameters ⟨hv, le_rfl⟩ hwrites hfree
            fun change hmem hnew => owners_new _ _ hmem hnew
      next changes number before _ hchanges htx =>
        obtain ⟨hchanges, hunlocked⟩ := Option.filter_eq_some_iff.mp hchanges
        have hwrites := changes?_spec hchanges
        have hfree : v.Free (c, number) changes := unlocked_free hunlocked fun number' before' hrunning => by
          rw [htx] at hrunning
          cases hrunning
          rfl
        rw [htx] at hwrites
        split at h
        · exact hrefuse _ h
        · cases h
          exact Allowed.pending (keeps_owners _ _ _) htx hparameters ⟨hv, le_rfl⟩ hwrites hfree
            fun change hmem hnew => owners_new _ _ hmem hnew
      · exact hrefuse _ h

theorem perform_allowed {request : Request ρ} {choice : Choice C} {answer : Answer ρ} (hv : v.seen c ≤ v.log.length)
    (h : perform accepts c request choice v = some (answer, w)) : Allowed accepts c v request answer w := by
  cases request with
  | begin =>
    simp only [perform] at h
    split at h
    next hidle =>
      cases h
      exact Allowed.begin hidle (Keeps.refl _)
    · cases h
      exact Allowed.beginError (Keeps.refl _)
  | execute statement parameters => exact execute_allowed hv (Option.some.inj h)
  | commit =>
    simp only [perform] at h
    split at h
    next hrunning =>
      cases h
      exact Allowed.commit (Keeps.refl _) hrunning
    next hrunning =>
      cases h
      exact Allowed.commitLost (Keeps.refl _) hrunning
    · cases h
      exact Allowed.commitRefused (Keeps.refl _)
  | rollback =>
    cases h
    exact Allowed.rollback (Keeps.refl _)

/-- **The serial database is one.** -/
theorem server_documented (accepts : ρ → Bool) : (server accepts : Server C ρ).Documented accepts := by
  refine ⟨fun c request choice v answer w h => ?_, fun choice v w h => ?_⟩
  · obtain ⟨hv, h⟩ := Option.ite_none_right_eq_some.mp h
    exact perform_allowed hv h
  · change internal choice v = some w at h
    unfold internal at h
    split at h
    · split at h
      next hrunning =>
        cases h
        exact Internal.close hrunning
      · cases h
    · split at h
      next => cases h
      next e late hlate =>
        cases h
        split_ifs
        · exact Internal.settle (show v.late = [] ++ e :: late from hlate)
        · exact Internal.drop (show v.late = [] ++ e :: late from hlate)

end Database.Serial
