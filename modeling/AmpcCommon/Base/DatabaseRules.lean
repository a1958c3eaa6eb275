import AmpcCommon.Base.Database
import Mathlib.Data.List.Nodup
import Mathlib.Data.List.Perm.Basic

/-!
# What databases keep

The contents under a key are the last version in its history. Every transaction has a label of its own
(`View.Labelled`), and what the others do leaves a client its transaction, what it has seen, and the entries of its
labels (`View.Extends`). -/

namespace Database

variable {C ρ : Type}

/-! ## Contents and histories -/

theorem apply_append (m : Contents ρ) (xs ys : List (Change ρ)) : apply m (xs ++ ys) = apply (apply m xs) ys :=
  List.foldl_append

theorem versions_append (k : Int) (xs ys : List (Change ρ)) :
    versions k (xs ++ ys) = versions k xs ++ versions k ys := by
  unfold versions
  rw [List.filter_append, List.map_append]

theorem versions_eq_nil_iff {k : Int} {changes : List (Change ρ)} :
    versions k changes = [] ↔ k ∉ changes.map Change.key := by
  unfold versions
  rw [List.map_eq_nil_iff, List.filter_eq_nil_iff]
  constructor
  · rintro h hmem
    obtain ⟨change, hchange, rfl⟩ := List.mem_map.mp hmem
    exact h change hchange (decide_eq_true rfl)
  · intro h change hchange hkey
    exact h (List.mem_map.mpr ⟨change, hchange, of_decide_eq_true hkey⟩)

theorem versions_cons_self (change : Change ρ) (rest : List (Change ρ)) :
    versions change.key (change :: rest) = change.row :: versions change.key rest := by
  unfold versions
  rw [List.filter_cons_of_pos (by simp), List.map_cons]

theorem versions_cons_of_ne {k : Int} {change : Change ρ} (h : change.key ≠ k) (rest : List (Change ρ)) :
    versions k (change :: rest) = versions k rest := by
  unfold versions
  rw [List.filter_cons_of_neg (by simpa using h)]

/-- A key that is changed once. -/
theorem versions_of_nodup {changes : List (Change ρ)} (hnodup : (changes.map Change.key).Nodup) {change : Change ρ}
    (hmem : change ∈ changes) : versions change.key changes = [change.row] := by
  induction changes with
  | nil => cases hmem
  | cons first rest ih =>
    rw [List.map_cons, List.nodup_cons] at hnodup
    obtain ⟨hfirst, hrest⟩ := hnodup
    rcases List.mem_cons.mp hmem with rfl | hmem
    · rw [versions_cons_self, versions_eq_nil_iff.mpr hfirst]
    · have hne : first.key ≠ change.key := by
        intro heq
        exact hfirst (heq ▸ List.mem_map_of_mem hmem)
      rw [versions_cons_of_ne hne]
      exact ih hrest hmem

/-- The contents under a key are its last version. -/
theorem apply_eq (m : Contents ρ) (changes : List (Change ρ)) (k : Int) :
    apply m changes k = ((versions k changes).getLast?).getD (m k) := by
  induction changes generalizing m with
  | nil => rfl
  | cons change rest ih =>
    show apply (Function.update m change.key change.row) rest k = _
    rw [ih]
    by_cases hkey : change.key = k
    · subst hkey
      rw [versions_cons_self, List.getLast?_cons, Function.update_self]
      rfl
    · rw [versions_cons_of_ne hkey, Function.update_of_ne (Ne.symm hkey)]

theorem replay_eq (log : List (Commit C ρ)) (k : Int) : replay log k = ((history k log).getLast?).getD none :=
  apply_eq _ _ k

theorem history_append (k : Int) (xs ys : List (Commit C ρ)) : history k (xs ++ ys) = history k xs ++ history k ys := by
  unfold history
  rw [List.flatMap_append, versions_append]

theorem history_singleton (k : Int) (e : Commit C ρ) : history k [e] = versions k e.changes := by
  unfold history
  rw [List.flatMap_singleton]

/-- A longer log has a longer history. -/
theorem history_longer {xs ys : List (Commit C ρ)} (h : xs <+: ys) (k : Int) : history k xs <+: history k ys := by
  obtain ⟨more, rfl⟩ := h
  rw [history_append]
  exact List.prefix_append _ _

theorem length_history_take_le (log : List (Commit C ρ)) {m n : Nat} (h : m ≤ n) (k : Int) :
    (history k (log.take m)).length ≤ (history k (log.take n)).length :=
  (history_longer (List.take_prefix_take_left h) k).length_le

/-- What a query finds is what is there under its keys. -/
theorem Finds.mem_rows {m : Contents ρ} {selects : ρ → Bool} {order : ρ → Int} {keys : List Int} {rows : List ρ}
    (h : Finds m selects order keys rows) {row : ρ} : row ∈ rows ↔ ∃ k, m k = some row ∧ selects row = true := by
  have hfound := h.found
  constructor
  · intro hrow
    obtain ⟨i, hi, rfl⟩ := List.mem_iff_getElem.mp hrow
    have hlength := hfound.length_eq
    have hkey := (List.forall₂_iff_get.mp hfound).2 i (by omega) hi
    obtain ⟨row', hrow', hselects⟩ := (h.mem _).mp (List.getElem_mem (l := keys) (by omega : i < keys.length))
    refine ⟨keys[i], hkey, ?_⟩
    have heq : row' = rows[i] := Option.some.inj (hrow'.symm.trans hkey)
    rwa [heq] at hselects
  · rintro ⟨k, hk, hselects⟩
    obtain ⟨i, hi, rfl⟩ := List.mem_iff_getElem.mp ((h.mem k).mpr ⟨row, hk, hselects⟩)
    have hlength := hfound.length_eq
    have hkey := (List.forall₂_iff_get.mp hfound).2 i hi (by omega)
    have heq : row = rows[i] := Option.some.inj (hk.symm.trans hkey)
    rw [heq]
    exact List.getElem_mem _

theorem map_key_inserted {rows : List (Int → ρ)} {keys : List Int} (h : keys.length = rows.length) :
    (inserted rows keys).map Change.key = keys := by
  unfold inserted
  rw [List.map_zipWith]
  show List.zipWith (fun _ k => k) rows keys = keys
  rw [← List.map_uncurry_zip_eq_zipWith]
  show (rows.zip keys).map Prod.snd = keys
  rw [List.map_snd_zip (by omega)]

theorem mem_inserted {rows : List (Int → ρ)} {keys : List Int} {change : Change ρ} (h : change ∈ inserted rows keys) :
    ∃ make ∈ rows, change.row = some (make change.key) := by
  unfold inserted at h
  rw [List.mem_iff_getElem] at h
  obtain ⟨i, hi, rfl⟩ := h
  rw [List.getElem_zipWith]
  exact ⟨_, List.getElem_mem _, rfl⟩

/-- What a query returns is what is there under its keys. -/
theorem Reads.mem_rows {m : Contents ρ} {selects : ρ → Bool} {order : ρ → Int} {limit : Option Int} {result : Result ρ}
    (h : Reads m (.select selects order limit) result) {row : ρ} (hrow : row ∈ result.rows) :
    ∃ k, m k = some row ∧ selects row = true := by
  have hlimited : ∀ {rows : List ρ}, row ∈ limited limit rows → row ∈ rows := by
    intro rows hmem
    cases limit with
    | none => exact hmem
    | some n => exact List.mem_of_mem_take hmem
  cases h with
  | all hfinds => exact hfinds.mem_rows.mp (hlimited hrow)
  | interrupted hfinds _ hread => exact hfinds.mem_rows.mp (hlimited (hread.subset hrow))

/-- All rows of an answer. -/
theorem Answer.all_eq_ok {answer : Answer ρ} {rows : List ρ} (h : answer.all = .ok rows) :
    ∃ result : Result ρ, answer = .ok result ∧ result.failure = none ∧ result.rows = rows := by
  unfold Answer.all at h
  cases answer with
  | error e => cases h
  | ok result =>
    cases hfailure : result.failure with
    | some e =>
      simp only [hfailure] at h
      cases h
    | none =>
      simp only [hfailure] at h
      cases h
      exact ⟨result, rfl, hfailure, rfl⟩

theorem Answer.one_eq_ok {answer : Answer ρ} {row : ρ} (h : answer.one = .ok row) :
    ∃ result : Result ρ, answer = .ok result ∧ result.rows.head? = some row := by
  unfold Answer.one at h
  cases answer with
  | error e => cases h
  | ok result =>
    refine ⟨result, rfl, ?_⟩
    cases hrows : result.rows with
    | nil =>
      simp only [hrows] at h
      cases hfailure : result.failure <;>
      · rw [hfailure] at h
        cases h
    | cons first rest =>
      simp only [hrows] at h
      cases h
      rfl

theorem Keeps.refl (owner : Int → Option (C × Nat)) : Keeps owner owner := fun _ _ h => h

theorem Keeps.trans {a b c : Int → Option (C × Nat)} (h : Keeps a b) (h' : Keeps b c) : Keeps a c :=
  fun k x hk => h' k x (h k x hk)

/-- Every transaction has its own label. -/
structure View.Labelled (v : View C ρ) : Prop where
  nodup : ((v.log ++ v.late).map Commit.label).Nodup
  lt : ∀ e ∈ v.log ++ v.late, e.number < v.count e.client
  running : ∀ c n changes, v.tx c = .running n changes → n < v.count c ∧ ∀ e ∈ v.log ++ v.late, e.label ≠ (c, n)
  seen_le : ∀ c, v.seen c ≤ v.log.length

theorem View.Labelled.initial : (View.initial : View C ρ).Labelled :=
  ⟨List.nodup_nil, fun e he => (List.not_mem_nil he).elim, fun c n changes h => (by cases h), fun _ => Nat.le_refl _⟩

/-- What the others leave of a client. Its connection can be closed. -/
structure View.Extends (c : C) (v w : View C ρ) : Prop where
  log : v.log <+: w.log
  tx : w.tx c = v.tx c ∨ (∃ n changes, v.tx c = .running n changes) ∧ w.tx c = .closed
  count : w.count c = v.count c
  seen : w.seen c = v.seen c
  owner : Keeps v.owner w.owner
  own : ∀ e ∈ w.log ++ w.late, e.client = c → e ∈ v.log ++ v.late

theorem View.Extends.refl (c : C) (v : View C ρ) : v.Extends c v :=
  ⟨List.prefix_refl _, Or.inl rfl, rfl, rfl, Keeps.refl _, fun _ h _ => h⟩

theorem View.Extends.trans {c : C} {v w u : View C ρ} (h : v.Extends c w) (h' : w.Extends c u) : v.Extends c u := by
  refine ⟨h.log.trans h'.log, ?_, h'.count.trans h.count, h'.seen.trans h.seen, h.owner.trans h'.owner,
    fun e he hc => h.own e (h'.own e he hc) hc⟩
  rcases h'.tx with htx' | ⟨⟨n, changes, hrunning⟩, hclosed⟩
  · rw [htx']
    exact h.tx
  · rcases h.tx with htx | ⟨-, hclosed'⟩
    · exact Or.inr ⟨⟨n, changes, htx ▸ hrunning⟩, hclosed⟩
    · rw [hclosed'] at hrunning
      cases hrunning

/-- A client without a transaction has none. -/
theorem View.Extends.idle {c : C} {v w : View C ρ} (h : v.Extends c w) (hidle : v.tx c = .idle) : w.tx c = .idle := by
  rcases h.tx with htx | ⟨⟨n, changes, hrunning⟩, -⟩
  · rw [htx, hidle]
  · rw [hidle] at hrunning
    cases hrunning

/-- An earlier state, for a client: nothing has been lost since. -/
structure View.Before (c : C) (v w : View C ρ) : Prop where
  log : v.log <+: w.log
  seen : v.seen c ≤ w.seen c

theorem View.Before.refl (c : C) (v : View C ρ) : v.Before c v := ⟨List.prefix_refl _, Nat.le_refl _⟩

theorem View.Before.extends {c : C} {v w u : View C ρ} (h : v.Before c w) (hextends : w.Extends c u) : v.Before c u :=
  ⟨h.log.trans hextends.log, Nat.le_trans h.seen (Nat.le_of_eq hextends.seen.symm)⟩

/-- What a client has seen stays where it is. -/
theorem View.Labelled.take_seen {c : C} {v w : View C ρ} (h : v.Labelled) (hlog : v.log <+: w.log) :
    w.log.take (v.seen c) = v.log.take (v.seen c) := by
  obtain ⟨more, hmore⟩ := hlog
  rw [← hmore, List.take_append_of_le_length (h.seen_le c)]

/-- What the others do to a client. -/
def Others (c : C) (server : Server C ρ) (I : View C ρ → Prop) (s t : server.State) : Prop :=
  I (server.view s) → I (server.view t) ∧ (server.view s).Extends c (server.view t)

theorem Others.refl {c : C} {server : Server C ρ} {I : View C ρ → Prop} (s : server.State) : Others c server I s s :=
  fun h => ⟨h, View.Extends.refl _ _⟩

theorem Others.trans {c : C} {server : Server C ρ} {I : View C ρ → Prop} (s t u : server.State)
    (h : Others c server I s t) (h' : Others c server I t u) : Others c server I s u := by
  intro hI
  obtain ⟨hI', hextends⟩ := h hI
  obtain ⟨hI'', hextends'⟩ := h' hI'
  exact ⟨hI'', hextends.trans hextends'⟩

/-! ## Steps -/

variable [DecidableEq C] {accepts : ρ → Bool} {c : C} {v w : View C ρ} {r : Request ρ} {answer : Answer ρ}

/-- What a request leaves: the client goes on, or one transaction of it is committed, now or perhaps later. -/
theorem Allowed.cases_answered (h : Allowed accepts c v r answer w) :
    ∃ log late tx owner, w = v.answered c log late tx owner ∧ Keeps v.owner owner ∧
      ((log = v.log ∧ late = v.late ∧ (tx = v.tx c ∨ tx = .idle ∨ tx = (v.tx c).fail ∨
          (v.tx c = .idle ∧ tx = .running (v.count c) []) ∨
          ∃ n before more, v.tx c = .running n before ∧ tx = .running n (before ++ more))) ∨
        ∃ e : Commit C ρ, e.client = c ∧ tx = .idle ∧
          (v.tx c = .running e.number e.changes ∨ v.tx c = .idle ∧ e.number = v.count c) ∧
          (log = v.log ++ [e] ∧ late = v.late ∨ log = v.log ∧ late = v.late ++ [e])) := by
  cases h with
  | begin hidle howner => exact ⟨_, _, _, _, rfl, howner, Or.inl ⟨rfl, rfl, by tauto⟩⟩
  | beginError howner => exact ⟨_, _, _, _, rfl, howner, Or.inl ⟨rfl, rfl, Or.inl rfl⟩⟩
  | read howner => exact ⟨_, _, _, _, rfl, howner, Or.inl ⟨rfl, rfl, Or.inl rfl⟩⟩
  | written howner hidle =>
    exact ⟨_, _, _, _, rfl, howner, Or.inr ⟨_, rfl, rfl, Or.inr ⟨hidle, rfl⟩, Or.inl ⟨rfl, rfl⟩⟩⟩
  | writtenLost howner hidle =>
    exact ⟨_, _, _, _, rfl, howner, Or.inr ⟨_, rfl, rfl, Or.inr ⟨hidle, rfl⟩, Or.inl ⟨rfl, rfl⟩⟩⟩
  | pending howner hrunning =>
    exact ⟨_, _, _, _, rfl, howner, Or.inl ⟨rfl, rfl, Or.inr (Or.inr (Or.inr (Or.inr ⟨_, _, _, hrunning, rfl⟩)))⟩⟩
  | refused howner => exact ⟨_, _, _, _, rfl, howner, Or.inl ⟨rfl, rfl, Or.inr (Or.inr (Or.inl rfl))⟩⟩
  | commit howner hrunning =>
    exact ⟨_, _, _, _, rfl, howner, Or.inr ⟨_, rfl, rfl, Or.inl hrunning, Or.inl ⟨rfl, rfl⟩⟩⟩
  | commitLost howner hrunning =>
    exact ⟨_, _, _, _, rfl, howner, Or.inr ⟨_, rfl, rfl, Or.inl hrunning, Or.inr ⟨rfl, rfl⟩⟩⟩
  | commitRefused howner => exact ⟨_, _, _, _, rfl, howner, Or.inl ⟨rfl, rfl, Or.inr (Or.inl rfl)⟩⟩
  | commitFailed howner => exact ⟨_, _, _, _, rfl, howner, Or.inl ⟨rfl, rfl, Or.inr (Or.inl rfl)⟩⟩
  | rollback howner => exact ⟨_, _, _, _, rfl, howner, Or.inl ⟨rfl, rfl, Or.inr (Or.inl rfl)⟩⟩

theorem Allowed.log_longer (h : Allowed accepts c v r answer w) : v.log <+: w.log := by
  obtain ⟨log, late, tx, owner, rfl, -, hlog⟩ := h.cases_answered
  rcases hlog with ⟨rfl, -⟩ | ⟨e, -, -, -, ⟨rfl, -⟩ | ⟨rfl, -⟩⟩
  · exact List.prefix_refl _
  · exact List.prefix_append _ _
  · exact List.prefix_refl _

theorem Allowed.keeps (h : Allowed accepts c v r answer w) : Keeps v.owner w.owner := by
  obtain ⟨log, late, tx, owner, rfl, howner, -⟩ := h.cases_answered
  exact howner

theorem Internal.keeps (h : Internal v w) : Keeps v.owner w.owner := by
  cases h with
  | settle => exact Keeps.refl _
  | drop => exact Keeps.refl _
  | close => exact Keeps.refl _
  | allot howner => exact howner

theorem Internal.log_longer (h : Internal v w) : v.log <+: w.log := by
  cases h with
  | settle => exact List.prefix_append _ _
  | drop => exact List.prefix_refl _
  | close => exact List.prefix_refl _
  | allot => exact List.prefix_refl _

/-! ## What requests do -/

theorem tx_answered (v : View C ρ) (c : C) (log late : List (Commit C ρ)) (tx : Tx ρ)
    (owner : Int → Option (C × Nat)) : (v.answered c log late tx owner).tx c = tx := Function.update_self ..

theorem seen_answered (v : View C ρ) (c : C) (log late : List (Commit C ρ)) (tx : Tx ρ)
    (owner : Int → Option (C × Nat)) : (v.answered c log late tx owner).seen c = log.length := Function.update_self ..

/-- The client is told all that is committed. -/
theorem Allowed.seen (h : Allowed accepts c v r answer w) : w.seen c = w.log.length := by
  obtain ⟨log, late, tx, owner, rfl, -⟩ := h.cases_answered
  exact seen_answered v c log late tx owner

theorem Allowed.before {u : View C ρ} (h : Allowed accepts c v r answer w) (hv : v.Labelled) (hbefore : u.Before c v) :
    u.Before c w := by
  refine ⟨hbefore.log.trans h.log_longer, Nat.le_trans hbefore.seen ?_⟩
  rw [h.seen]
  exact Nat.le_trans (hv.seen_le c) h.log_longer.length_le

theorem Allowed.begin_spec (h : Allowed accepts c v .begin answer w) : w.log = v.log ∧ w.late = v.late ∧
    ((∃ result, answer = .ok result ∧ w.tx c = .running (v.count c) []) ∨
      ∃ e, answer = .error e ∧ w.tx c = v.tx c) := by
  cases h with
  | begin => exact ⟨rfl, rfl, Or.inl ⟨_, rfl, tx_answered ..⟩⟩
  | beginError => exact ⟨rfl, rfl, Or.inr ⟨_, rfl, tx_answered ..⟩⟩

/-- A statement that only reads. -/
theorem Allowed.select_spec {selects : ρ → Bool} {order : ρ → Int} {limit : Option Int} {parameters : Nat}
    (h : Allowed accepts c v (.execute (.select selects order limit) parameters) answer w) :
    w.log = v.log ∧ w.late = v.late ∧
      ((∃ n result, v.Snapshot c n ∧ Reads (v.contents c n) (.select selects order limit) result ∧
          answer = .ok result ∧ w.tx c = v.tx c) ∨
        ∃ e, answer = .error e ∧ w.tx c = (v.tx c).fail) := by
  cases h with
  | read _ hsnapshot hreads => exact ⟨rfl, rfl, Or.inl ⟨_, _, hsnapshot, hreads, rfl, tx_answered ..⟩⟩
  | written _ _ _ _ hwrites => cases hwrites
  | writtenLost _ _ _ _ hwrites => cases hwrites
  | pending _ _ _ _ hwrites => cases hwrites
  | refused => exact ⟨rfl, rfl, Or.inr ⟨_, rfl, tx_answered ..⟩⟩

/-- A statement that inserts rows, in a transaction or outside of one. -/
theorem Allowed.insert_spec {rows : List (Int → ρ)} {parameters : Nat} {result : Result ρ}
    (h : Allowed accepts c v (.execute (.insert rows) parameters) (.ok result) w) :
    ∃ keys, keys.length = rows.length ∧ (∀ k ∈ keys, v.owner k = none ∧ w.owner k ≠ none) ∧
      result.rows = (inserted rows keys).filterMap Change.row := by
  have hallotted : ∀ {keys : List Int} {owner : Int → Option (C × Nat)} {label : C × Nat},
      keys.length = rows.length → (∀ k ∈ keys, v.owner k = none) →
      (∀ change ∈ inserted rows keys, v.owner change.key = none → owner change.key = some label) →
      ∀ k ∈ keys, v.owner k = none ∧ owner k ≠ none := by
    intro keys owner label hlength hnew howner k hk
    rw [← map_key_inserted hlength] at hk
    obtain ⟨change, hmem, rfl⟩ := List.mem_map.mp hk
    have hnone : v.owner change.key = none := by
      refine hnew _ ?_
      rw [← map_key_inserted hlength]
      exact List.mem_map_of_mem hmem
    refine ⟨hnone, ?_⟩
    rw [howner change hmem hnone]
    exact Option.some_ne_none _
  cases h with
  | read _ _ hreads => cases hreads
  | written _ _ _ _ hwrites _ howner =>
    cases hwrites with
    | insert hlength _ hnew => exact ⟨_, hlength, hallotted hlength hnew howner, rfl⟩
  | pending _ _ _ _ hwrites _ howner =>
    cases hwrites with
    | insert hlength _ hnew => exact ⟨_, hlength, hallotted hlength hnew howner, rfl⟩

/-- A statement that writes, outside of a transaction. -/
theorem Allowed.write_spec {statement : Statement ρ} {parameters : Nat}
    (h : Allowed accepts c v (.execute statement parameters) answer w) (hidle : v.tx c = .idle)
    (hstatement : ∀ selects order limit, statement ≠ .select selects order limit) :
    w.tx c = .idle ∧ w.late = v.late ∧
      ((∃ n changes, parameters ≤ maxParameters ∧ v.Snapshot c n ∧
          Writes accepts v.owner (v.contents c n) (v.contents c v.log.length) [] statement changes ∧
          w.log = v.log ++ [⟨c, v.count c, changes⟩] ∧
          (answer = .ok ⟨changes.length, changes.filterMap Change.row, none⟩ ∨ ∃ e, answer = .error e)) ∨
        w.log = v.log ∧ ∃ e, answer = .error e) := by
  cases h with
  | read _ _ hreads =>
    cases hreads with
    | all => exact absurd rfl (hstatement _ _ _)
    | interrupted => exact absurd rfl (hstatement _ _ _)
  | written _ _ hparameters hsnapshot hwrites =>
    exact ⟨tx_answered .., rfl, Or.inl ⟨_, _, hparameters, hsnapshot, hwrites, rfl, Or.inl rfl⟩⟩
  | writtenLost _ _ hparameters hsnapshot hwrites =>
    exact ⟨tx_answered .., rfl, Or.inl ⟨_, _, hparameters, hsnapshot, hwrites, rfl, Or.inr ⟨_, rfl⟩⟩⟩
  | pending _ hrunning =>
    rw [hidle] at hrunning
    cases hrunning
  | refused =>
    refine ⟨?_, rfl, Or.inr ⟨rfl, _, rfl⟩⟩
    rw [tx_answered, hidle]
    rfl

/-- The transaction of a client that has begun one, when its connection can have been lost. -/
def View.Open (v : View C ρ) (c : C) : Prop := v.tx c = .closed ∨ ∃ n changes, v.tx c = .running n changes

/-- A statement that writes, in a transaction. -/
theorem Allowed.pending_spec {statement : Statement ρ} {parameters : Nat}
    (h : Allowed accepts c v (.execute statement parameters) answer w) (hopen : v.Open c)
    (hstatement : ∀ selects order limit, statement ≠ .select selects order limit) :
    w.log = v.log ∧ w.late = v.late ∧
      ((∃ n number before changes, v.tx c = .running number before ∧ parameters ≤ maxParameters ∧ v.Snapshot c n ∧
          Writes accepts v.owner (v.contents c n) (v.contents c v.log.length) before statement changes ∧
          answer = .ok ⟨changes.length, changes.filterMap Change.row, none⟩ ∧
          w.tx c = .running number (before ++ changes)) ∨
        ∃ e, answer = .error e) := by
  have hidle : v.tx c ≠ .idle := by
    rcases hopen with htx | ⟨n, changes, htx⟩ <;>
    · rw [htx]
      exact fun heq => by cases heq
  cases h with
  | read _ _ hreads =>
    cases hreads with
    | all => exact absurd rfl (hstatement _ _ _)
    | interrupted => exact absurd rfl (hstatement _ _ _)
  | written _ htx => exact absurd htx hidle
  | writtenLost _ htx => exact absurd htx hidle
  | pending _ hrunning hparameters hsnapshot hwrites =>
    exact ⟨rfl, rfl, Or.inl ⟨_, _, _, _, hrunning, hparameters, hsnapshot, hwrites, rfl, tx_answered ..⟩⟩
  | refused => exact ⟨rfl, rfl, Or.inr ⟨_, rfl⟩⟩

theorem Allowed.commit_spec (h : Allowed accepts c v .commit answer w) (hopen : v.Open c) : w.tx c = .idle ∧
    ((∃ number changes result, v.tx c = .running number changes ∧ answer = .ok result ∧
        w.log = v.log ++ [⟨c, number, changes⟩] ∧ w.late = v.late) ∨
      (∃ e, answer = .error e) ∧ w.log = v.log ∧
        (w.late = v.late ∨ ∃ number changes, v.tx c = .running number changes ∧
          w.late = v.late ++ [⟨c, number, changes⟩])) := by
  cases h with
  | commit _ hrunning => exact ⟨tx_answered .., Or.inl ⟨_, _, _, hrunning, rfl, rfl, rfl⟩⟩
  | commitLost _ hrunning => exact ⟨tx_answered .., Or.inr ⟨⟨_, rfl⟩, rfl, Or.inr ⟨_, _, hrunning, rfl⟩⟩⟩
  | commitRefused => exact ⟨tx_answered .., Or.inr ⟨⟨_, rfl⟩, rfl, Or.inl rfl⟩⟩
  | commitFailed _ hfailed =>
    rcases hopen with htx | ⟨n, changes, htx⟩ <;>
    · rw [htx] at hfailed
      cases hfailed

theorem Allowed.rollback_spec (h : Allowed accepts c v .rollback answer w) :
    w.log = v.log ∧ w.late = v.late ∧ w.tx c = .idle := by
  cases h with
  | rollback => exact ⟨rfl, rfl, tx_answered ..⟩

/-! ## Labels -/

/-- A client has seen no more than there is. -/
theorem View.Labelled.seen_le_answered (h : v.Labelled) {log late : List (Commit C ρ)} {tx : Tx ρ}
    {owner : Int → Option (C × Nat)} (hlog : v.log <+: log) (c' : C) :
    (v.answered c log late tx owner).seen c' ≤ log.length := by
  show Function.update v.seen c log.length c' ≤ log.length
  by_cases hc : c' = c
  · subst hc
    exact Nat.le_of_eq (Function.update_self ..)
  · rw [Function.update_of_ne hc]
    exact Nat.le_trans (h.seen_le c') hlog.length_le

/-- The client that goes on. -/
theorem View.Labelled.goesOn (h : v.Labelled) {tx : Tx ρ} {owner : Int → Option (C × Nat)}
    (htx : ∀ n changes, tx = .running n changes → n = v.count c ∨ ∃ before, v.tx c = .running n before) :
    (v.answered c v.log v.late tx owner).Labelled := by
  refine ⟨h.nodup, fun e he => ?_, fun c' n changes hrunning => ?_, h.seen_le_answered (List.prefix_refl _)⟩
  · show e.number < Function.update v.count c (v.count c + 1) e.client
    have hlt := h.lt e he
    by_cases hc : e.client = c
    · rw [hc, Function.update_self]
      rw [hc] at hlt
      omega
    · rwa [Function.update_of_ne hc]
  · change Function.update v.tx c tx c' = _ at hrunning
    show n < Function.update v.count c (v.count c + 1) c' ∧ ∀ e ∈ v.log ++ v.late, e.label ≠ (c', n)
    by_cases hc : c' = c
    · subst hc
      rw [Function.update_self] at hrunning ⊢
      rcases htx n changes hrunning with rfl | ⟨before, hbefore⟩
      · refine ⟨by omega, fun e he hlabel => ?_⟩
        have hlt := h.lt e he
        have hclient : e.client = c' := congrArg Prod.fst hlabel
        have hnumber : e.number = v.count c' := congrArg Prod.snd hlabel
        rw [hclient, hnumber] at hlt
        omega
      · obtain ⟨hlt, hne⟩ := h.running c' n before hbefore
        exact ⟨by omega, hne⟩
    · rw [Function.update_of_ne hc] at hrunning ⊢
      exact h.running c' n changes hrunning

/-- A transaction that is committed, now or perhaps later. -/
theorem View.Labelled.commits (h : v.Labelled) {e : Commit C ρ} {log late : List (Commit C ρ)}
    {owner : Int → Option (C × Nat)} (hclient : e.client = c)
    (htx : v.tx c = .running e.number e.changes ∨ v.tx c = .idle ∧ e.number = v.count c)
    (hlog : log = v.log ++ [e] ∧ late = v.late ∨ log = v.log ∧ late = v.late ++ [e]) :
    (v.answered c log late .idle owner).Labelled := by
  have hperm : (log ++ late).Perm (e :: (v.log ++ v.late)) := by
    rcases hlog with ⟨rfl, rfl⟩ | ⟨rfl, rfl⟩
    · rw [List.append_assoc]
      exact List.perm_middle
    · rw [← List.append_assoc]
      exact List.perm_append_singleton _ _
  have hnew : e.number < v.count c + 1 ∧ ∀ e' ∈ v.log ++ v.late, e'.label ≠ e.label := by
    rcases htx with hrunning | ⟨-, hnumber⟩
    · obtain ⟨hlt, hne⟩ := h.running c _ _ hrunning
      refine ⟨by omega, fun e' he' heq => hne e' he' ?_⟩
      rw [heq]
      exact Prod.ext hclient rfl
    · refine ⟨by omega, fun e' he' heq => ?_⟩
      have hlt := h.lt e' he'
      have hclient' : e'.client = c := (congrArg Prod.fst heq).trans hclient
      have hnumber' : e'.number = e.number := congrArg Prod.snd heq
      rw [hclient', hnumber', hnumber] at hlt
      omega
  have hlonger : v.log <+: log := by
    rcases hlog with ⟨rfl, -⟩ | ⟨rfl, -⟩
    · exact List.prefix_append _ _
    · exact List.prefix_refl _
  refine ⟨?_, fun e' he' => ?_, fun c' n changes hrunning => ?_, h.seen_le_answered hlonger⟩
  · refine (hperm.map Commit.label).nodup_iff.mpr (List.nodup_cons.mpr ⟨fun hmem => ?_, h.nodup⟩)
    obtain ⟨e', he', heq⟩ := List.mem_map.mp hmem
    exact hnew.2 e' he' heq
  · show e'.number < Function.update v.count c (v.count c + 1) e'.client
    rcases List.mem_cons.mp (hperm.mem_iff.mp he') with rfl | he'
    · rw [hclient, Function.update_self]
      exact hnew.1
    · have hlt := h.lt e' he'
      by_cases hc : e'.client = c
      · rw [hc, Function.update_self]
        rw [hc] at hlt
        omega
      · rwa [Function.update_of_ne hc]
  · change Function.update v.tx c .idle c' = _ at hrunning
    show n < Function.update v.count c (v.count c + 1) c' ∧ ∀ e' ∈ log ++ late, e'.label ≠ (c', n)
    by_cases hc : c' = c
    · subst hc
      rw [Function.update_self] at hrunning
      cases hrunning
    · rw [Function.update_of_ne hc] at hrunning ⊢
      obtain ⟨hlt, hne⟩ := h.running c' n changes hrunning
      refine ⟨hlt, fun e' he' => ?_⟩
      rcases List.mem_cons.mp (hperm.mem_iff.mp he') with rfl | he'
      · intro heq
        exact hc ((congrArg Prod.fst heq).symm.trans hclient)
      · exact hne e' he'

theorem View.Labelled.step (h : v.Labelled) (hstep : Allowed accepts c v r answer w) : w.Labelled := by
  obtain ⟨log, late, tx, owner, rfl, -, hlog⟩ := hstep.cases_answered
  rcases hlog with ⟨rfl, rfl, htx⟩ | ⟨e, hclient, rfl, htx, hlog⟩
  · refine h.goesOn fun n changes hrunning => ?_
    rcases htx with rfl | rfl | rfl | ⟨-, rfl⟩ | ⟨m, before, more, hbefore, rfl⟩
    · exact Or.inr ⟨changes, hrunning⟩
    · cases hrunning
    · cases hv : v.tx c with
      | running m before =>
        rw [hv] at hrunning
        cases hrunning
      | idle =>
        rw [hv] at hrunning
        cases hrunning
      | failed =>
        rw [hv] at hrunning
        cases hrunning
      | closed =>
        rw [hv] at hrunning
        cases hrunning
    · cases hrunning
      exact Or.inl rfl
    · cases hrunning
      exact Or.inr ⟨before, hbefore⟩
  · exact h.commits hclient htx hlog

theorem View.Labelled.internal (h : v.Labelled) (hstep : Internal v w) : w.Labelled := by
  have hlonger := hstep.log_longer
  cases hstep with
  | @settle before e after hlate =>
    have hperm : (v.log ++ [e] ++ (before ++ after)).Perm (v.log ++ v.late) := by
      rw [hlate, List.append_assoc, List.singleton_append]
      exact List.Perm.append_left v.log List.perm_middle.symm
    refine ⟨(hperm.map Commit.label).nodup_iff.mpr h.nodup, fun e' he' => h.lt e' (hperm.mem_iff.mp he'),
      fun c n changes hrunning => ?_, fun c => Nat.le_trans (h.seen_le c) hlonger.length_le⟩
    obtain ⟨hlt, hne⟩ := h.running c n changes hrunning
    exact ⟨hlt, fun e' he' => hne e' (hperm.mem_iff.mp he')⟩
  | @drop before e after hlate =>
    have hsub : (v.log ++ (before ++ after)).Sublist (v.log ++ v.late) := by
      rw [hlate]
      exact List.Sublist.append_left (List.Sublist.append_left (List.sublist_cons_self e after) before) v.log
    refine ⟨h.nodup.sublist (hsub.map Commit.label), fun e' he' => h.lt e' (hsub.subset he'),
      fun c n changes hrunning => ?_, h.seen_le⟩
    obtain ⟨hlt, hne⟩ := h.running c n changes hrunning
    exact ⟨hlt, fun e' he' => hne e' (hsub.subset he')⟩
  | @close c' number changes' _ =>
    refine ⟨h.nodup, h.lt, fun c n changes hrunning => ?_, h.seen_le⟩
    change Function.update v.tx c' .closed c = _ at hrunning
    by_cases hc : c = c'
    · subst hc
      rw [Function.update_self] at hrunning
      cases hrunning
    · rw [Function.update_of_ne hc] at hrunning
      exact h.running c n changes hrunning
  | allot => exact ⟨h.nodup, h.lt, h.running, h.seen_le⟩

/-! ## What the others do -/

theorem Allowed.extends {c' : C} (h : Allowed accepts c' v r answer w) (hne : c' ≠ c) : v.Extends c w := by
  obtain ⟨log, late, tx, owner, rfl, howner, hlog⟩ := h.cases_answered
  refine ⟨h.log_longer, Or.inl (Function.update_of_ne hne.symm _ _), Function.update_of_ne hne.symm _ _,
    Function.update_of_ne hne.symm _ _, howner, fun e he hc => ?_⟩
  change e ∈ log ++ late at he
  rcases hlog with ⟨rfl, rfl, -⟩ | ⟨e', hclient, -, -, ⟨rfl, rfl⟩ | ⟨rfl, rfl⟩⟩
  · exact he
  · rw [List.append_assoc] at he
    rcases List.mem_append.mp he with he | he
    · exact List.mem_append_left _ he
    · rcases List.mem_cons.mp he with rfl | he
      · exact absurd (hclient.symm.trans hc) hne
      · exact List.mem_append_right _ he
  · rw [← List.append_assoc] at he
    rcases List.mem_append.mp he with he | he
    · exact he
    · rw [List.mem_singleton.mp he] at hc
      exact absurd (hclient.symm.trans hc) hne

theorem Internal.extends (h : Internal v w) : v.Extends c w := by
  cases h with
  | @settle before e after hlate =>
    refine ⟨List.prefix_append _ _, Or.inl rfl, rfl, rfl, Keeps.refl _, fun e' he' _ => ?_⟩
    rw [hlate]
    change e' ∈ v.log ++ [e] ++ (before ++ after) at he'
    simp only [List.mem_append, List.mem_cons, List.not_mem_nil, or_false] at he' ⊢
    tauto
  | @drop before e after hlate =>
    refine ⟨List.prefix_refl _, Or.inl rfl, rfl, rfl, Keeps.refl _, fun e' he' _ => ?_⟩
    rw [hlate]
    change e' ∈ v.log ++ (before ++ after) at he'
    simp only [List.mem_append, List.mem_cons] at he' ⊢
    tauto
  | @close c' n changes hrunning =>
    refine ⟨List.prefix_refl _, ?_, rfl, rfl, Keeps.refl _, fun e he _ => he⟩
    show Function.update v.tx c' .closed c = _ ∨ _ ∧ Function.update v.tx c' .closed c = _
    by_cases hc : c = c'
    · subst hc
      rw [Function.update_self]
      exact Or.inr ⟨⟨n, changes, hrunning⟩, rfl⟩
    · rw [Function.update_of_ne hc]
      exact Or.inl rfl
  | allot howner => exact ⟨List.prefix_refl _, Or.inl rfl, rfl, rfl, howner, fun e he _ => he⟩

/-! ## Clients -/

section Clients

variable {server : Server C ρ} {usage : Usage ρ} {I : View C ρ → Prop} {β : Type}

/-- The usage keeps the invariant, and so does what happens without a request. -/
structure Usage.Invariant (usage : Usage ρ) (accepts : ρ → Bool) (I : View C ρ → Prop) : Prop where
  perform : ∀ c v query answer w, Allowed accepts c v (usage.request query) answer w → I v → I w
  internal : ∀ v w, Internal v w → I v → I w

theorem Usage.Invariant.others (h : usage.Invariant accepts I) (hserver : server.Documented accepts)
    (event : Event server usage) (s t : server.State) (hstep : server.interfere usage c event s = some t) :
    Others c server I s t := by
  intro hI
  cases event with
  | request client query choice =>
    unfold Server.interfere at hstep
    simp only [Option.ite_none_right_eq_some, Option.map_eq_some_iff] at hstep
    obtain ⟨hne, ⟨answer, t'⟩, hperform, rfl⟩ := hstep
    have hallowed := hserver.perform _ _ _ _ _ _ hperform
    exact ⟨h.perform _ _ _ _ _ hallowed hI, hallowed.extends hne⟩
  | internal choice =>
    have hinternal := hserver.internal choice s t hstep
    exact ⟨h.internal _ _ hinternal hI, hinternal.extends⟩

/-- What a client does itself: `E` is said of the transactions that it commits. -/
def Does (server : Server C ρ) (I : View C ρ → Prop) (E : Commit C ρ → Prop) (s t : server.State) : Prop :=
  I (server.view s) → I (server.view t) ∧ (server.view s).log <+: (server.view t).log ∧
    ∀ e ∈ (server.view t).log ++ (server.view t).late, e ∈ (server.view s).log ++ (server.view s).late ∨ E e

/-- What holds at every moment of a run of a client. -/
theorem Usage.Invariant.run (h : usage.Invariant accepts I) (hserver : server.Documented accepts)
    {E : Commit C ρ → Prop} {Q : β → server.State → Prop} {p q : Program ρ β} {s t : server.State}
    {moves : List (RelyGuarantee.Move server.Choice (Event server usage))} (hs : I (server.view s))
    (hsafe : RelyGuarantee.Safe (server.perform c) (Others c server I) (Does server I E) Q p s)
    (hrun : Transition.run (RelyGuarantee.step (server.perform c) (server.interfere usage c)) (p, s) moves =
      some (q, t)) :
    RelyGuarantee.Safe (server.perform c) (Others c server I) (Does server I E) Q q t ∧ I (server.view t) ∧
      (server.view s).log <+: (server.view t).log ∧
      ∀ e ∈ (server.view t).log ++ (server.view t).late, e.client = c →
        e ∈ (server.view s).log ++ (server.view s).late ∨ E e := by
  obtain ⟨hsafe', hpath⟩ := hsafe.run (c := (p, s)) Others.refl Others.trans (h.others hserver) hrun
  change Relation.ReflTransGen _ s t at hpath
  refine ⟨hsafe', ?_⟩
  clear hrun hsafe'
  induction hpath with
  | refl => exact ⟨hs, List.prefix_refl _, fun e he _ => Or.inl he⟩
  | tail _ hlast ih =>
    obtain ⟨hI, hlog, hown⟩ := ih
    rcases hlast with hothers | hdoes
    · obtain ⟨hI', hextends⟩ := hothers hI
      exact ⟨hI', hlog.trans hextends.log, fun e he hc => hown e (hextends.own e he hc) hc⟩
    · obtain ⟨hI', hlog', hnew⟩ := hdoes hI
      refine ⟨hI', hlog.trans hlog', fun e he hc => ?_⟩
      rcases hnew e he with hold | hE
      · exact hown e hold hc
      · exact Or.inr hE

theorem Usage.Invariant.does (h : usage.Invariant accepts I) {E : Commit C ρ → Prop} {s t : server.State}
    (query : usage.Query)
    (hallowed : Allowed accepts c (server.view s) (usage.request query) answer (server.view t))
    (hnew : ∀ e ∈ (server.view t).log ++ (server.view t).late,
      e ∈ (server.view s).log ++ (server.view s).late ∨ E e) : Does server I E s t :=
  fun hI => ⟨h.perform _ _ _ _ _ hallowed hI, hallowed.log_longer, hnew⟩

/-- A request that commits nothing. -/
theorem Usage.Invariant.does_nothing (h : usage.Invariant accepts I) {E : Commit C ρ → Prop} {s t : server.State}
    (query : usage.Query)
    (hallowed : Allowed accepts c (server.view s) (usage.request query) answer (server.view t))
    (hlog : (server.view t).log = (server.view s).log) (hlate : (server.view t).late = (server.view s).late) :
    Does server I E s t := by
  refine h.does query hallowed fun e he => Or.inl ?_
  rwa [hlog, hlate] at he

/-- The rule of a request. -/
theorem safe_request (hserver : server.Documented accepts) {R G : server.State → server.State → Prop}
    {Q : β → server.State → Prop} {f : Answer ρ → Program ρ β} {s : server.State}
    (h : ∀ s', R s s' → ∀ answer t, Allowed accepts c (server.view s') r answer (server.view t) →
      G s' t ∧ RelyGuarantee.Safe (server.perform c) R G Q (f answer) t) :
    RelyGuarantee.Safe (server.perform c) R G Q (Database.request r >>= f) s :=
  RelyGuarantee.Safe.call fun s' hs' choice answer t hperform =>
    h s' hs' answer t (hserver.perform c r choice s' answer t hperform)

end Clients

end Database
