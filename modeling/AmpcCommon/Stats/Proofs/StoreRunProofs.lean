import AmpcCommon.Stats.Proofs.MappingProofs
import AmpcCommon.Stats.Proofs.StoreProofs

/-!
# The calls of a client

What the calls of a client return is what the table held between the call and its answer (`Answers`), whatever others
do. A row that a client has marked or cleared is never available again (`Trace.fetched_once`).
-/

namespace AmpcCommon.Stats

open Database KeyOrder RelyGuarantee

variable {C M T : Type}

/-! ## Decoding -/

section Decoding

variable {deserialize : Bytes → Except String T} {tableName : String}

theorem mapM_decodeRow_ids {rows : List Row} {out : List (Int × Int × T)}
    (h : rows.mapM (decodeRow deserialize tableName) = .ok out) : out.map Prod.fst = rows.map Row.id := by
  induction rows generalizing out with
  | nil =>
    cases h
    rfl
  | cons row rows ih =>
    rw [List.mapM_cons] at h
    obtain ⟨first, hfirst, h⟩ := Outcome.bind_eq_ok.mp h
    obtain ⟨rest, hrest, h⟩ := Outcome.bind_eq_ok.mp h
    obtain ⟨hid, -⟩ := decodeRow_eq_ok hfirst
    cases h
    rw [List.map_cons, List.map_cons, ih hrest, hid]

theorem decodeRows_ids {rows : List Row} {job : List Int × List (Int × T)}
    (h : decodeRows deserialize tableName rows = .ok job) : job.1 = rows.map Row.id := by
  obtain ⟨out, hout, h⟩ := Outcome.bind_eq_ok.mp h
  cases h
  rw [List.unzip_fst]
  exact mapM_decodeRow_ids hout

end Decoding

/-! ## Available rows -/

theorem IsHistory.of_longer {k : Int} {h h' : List (Option (StatRow M))} (hh : IsHistory k h) (hlonger : h' <+: h) :
    IsHistory k h' := by
  cases hh with
  | absent =>
    rw [List.prefix_nil.mp hlonger]
    exact IsHistory.absent
  | inserted row marks hid hprocessed =>
    rcases List.prefix_cons_iff.mp hlonger with rfl | ⟨rest, rfl, hrest⟩
    · exact IsHistory.absent
    · obtain ⟨-, hreplicate⟩ := List.prefix_replicate_iff.mp hrest
      rw [hreplicate]
      exact IsHistory.inserted row _ hid hprocessed
  | cleared row hid hprocessed =>
    rcases List.prefix_cons_iff.mp hlonger with rfl | ⟨rest, rfl, hrest⟩
    · exact IsHistory.absent
    · rcases List.prefix_cons_iff.mp hrest with rfl | ⟨rest', rfl, hrest'⟩
      · exact IsHistory.inserted row 0 hid hprocessed
      · rw [List.prefix_nil.mp hrest']
        exact IsHistory.cleared row hid hprocessed

/-- A row that is there is under its id. -/
theorem StoreInv.id_eq {v : View C (StatRow M)} (h : StoreInv v) {n : Nat} {k : Int} {row : StatRow M}
    (hrow : replay (v.log.take n) k = some row) : row.id = k := by
  rw [replay_eq] at hrow
  exact (((h.histories k).of_longer (history_longer (List.take_prefix n v.log) k)).getLast hrow).1

/-- A row is available as long as it has only been inserted. -/
theorem StoreInv.length_of_available {v : View C (StatRow M)} (h : StoreInv v) {n : Nat} {k : Int} {row : StatRow M}
    (hrow : replay (v.log.take n) k = some row) (havailable : row.processed = false) :
    (history k (v.log.take n)).length = 1 := by
  rw [replay_eq] at hrow
  exact (((h.histories k).of_longer (history_longer (List.take_prefix n v.log) k)).available_iff).mp
    ⟨row, hrow, havailable⟩

theorem processed_of_available {condition : Condition M} {row : StatRow M} (h : row.available condition = true) :
    row.processed = false := by
  unfold StatRow.available at h
  rw [Bool.and_eq_true, Bool.not_eq_true'] at h
  exact h.1

/-- A row that was there at some time, and to which nothing but its insertion has happened, is still there. -/
theorem StoreInv.still_there {v : View C (StatRow M)} (h : StoreInv v) {m n : Nat} (hmn : m ≤ n) {k : Int}
    (hknown : history k (v.log.take m) ≠ []) (hlength : (history k v.log).length < 2) :
    ∃ row, row.id = k ∧ replay (v.log.take m) k = some row ∧ replay (v.log.take n) k = some row ∧
      replay v.log k = some row := by
  have hm : (history k (v.log.take m)).length ≠ 0 := fun h0 => hknown (List.length_eq_zero_iff.mp h0)
  have hmn' := history_longer (List.take_prefix_take_left (l := v.log) hmn) k
  have hn := history_longer (List.take_prefix n v.log) k
  have hmlength := hmn'.length_le
  have hnlength := hn.length_le
  have hall : history k (v.log.take n) = history k v.log := hn.eq_of_length (by omega)
  have hfirst : history k (v.log.take m) = history k (v.log.take n) := hmn'.eq_of_length (by omega)
  obtain ⟨row, hrow, -⟩ := (h.histories k).available_iff.mpr (by omega)
  refine ⟨row, ((h.histories k).getLast hrow).1, ?_, ?_, ?_⟩
  · rw [replay_eq, hfirst, hall, hrow]
  · rw [replay_eq, hall, hrow]
  · rw [replay_eq, hrow]

/-! ## The statements of a client -/

section Statements

variable [DecidableEq C] {accepts : StatRow M → Bool} {v w : View C (StatRow M)} {c : C}
    {answer : Answer (StatRow M)}

/-- What a query returns are rows of a moment since the client's last answer. -/
theorem select_found (hidle : v.tx c = .idle) {condition : Condition M} {order : StatRow M → Int}
    {limit : Option Int} (hallowed : Allowed accepts c v (StoreQuery.select condition order limit).request answer w) :
    w.log = v.log ∧ w.late = v.late ∧ w.tx c = .idle ∧ ∀ result, answer = .ok result →
      (∀ n, limit = some n → 0 ≤ n) ∧ ∃ n keys found, v.seen c ≤ n ∧ n ≤ w.log.length ∧
        Finds (replay (w.log.take n)) (StatRow.available condition) order keys found ∧
        result.rows <+: limited limit found ∧ (result.failure = none → result.rows = limited limit found) := by
  obtain ⟨hlog, hlate, hcases⟩ := Allowed.select_spec hallowed
  refine ⟨hlog, hlate, ?_, fun result hresult => ?_⟩
  · rcases hcases with ⟨-, -, -, -, -, htx⟩ | ⟨-, -, htx⟩
    · rw [htx, hidle]
    · rw [htx, hidle]
      rfl
  · rcases hcases with ⟨n, result', ⟨hseen, hlength⟩, hreads, rfl, -⟩ | ⟨e, rfl, -⟩
    · cases hresult
      rw [contents_of_idle hidle] at hreads
      rw [hlog]
      cases hreads with
      | all hfinds hlimit =>
        exact ⟨hlimit, n, _, _, hseen, hlength, hfinds, List.prefix_refl _, fun _ => rfl⟩
      | interrupted hfinds hlimit hlonger =>
        exact ⟨hlimit, n, _, _, hseen, hlength, hfinds, hlonger, fun h => by cases h⟩
    · cases hresult

/-- The rows that the client knows are not available after they are marked. -/
theorem StoreInv.marks (h : StoreInv v) (hidle : v.tx c = .idle) {ids : List Int}
    (hallowed : Allowed accepts c v (StoreQuery.mark ids).request answer w) : w.tx c = .idle ∧
      (∀ result, answer = .ok result → ∀ k ∈ ids, history k (v.log.take (v.seen c)) ≠ [] →
        2 ≤ (history k w.log).length) := by
  obtain ⟨htx, -, hcases⟩ := hallowed.write_spec hidle (fun _ _ _ heq => by cases heq)
  refine ⟨htx, fun result hresult k hk hknown => ?_⟩
  rcases hcases with ⟨n, changes, -, ⟨hseen, -⟩, hwrites, hlog, -⟩ | ⟨-, e, rfl⟩
  · rw [contents_of_idle hidle, contents_now hidle] at hwrites
    rw [hlog, history_append, history_singleton, List.length_append]
    change 2 ≤ (history k v.log).length + (versions k changes).length
    by_cases hlength : (history k v.log).length < 2
    · obtain ⟨row, hid, -, hold, hnow⟩ := h.still_there hseen hknown hlength
      have hversions : (if row.id ∈ ids then [row.setProcessed] else []) ≠ [] := by
        rw [if_pos (hid ▸ hk)]
        exact List.cons_ne_nil _ _
      cases hwrites with
      | update _ _ hall =>
        have hmem := hall k row row hnow hold hversions hversions
        have hversion := List.length_pos_iff.mpr (mt versions_eq_nil_iff.mp (not_not.mpr hmem))
        have hlonger := (history_longer (List.take_prefix (v.seen c) v.log) k).length_le
        have hpos := List.length_pos_iff.mpr hknown
        omega
    · omega
  · cases hresult

/-- The rows that the client knows as available are not available after they are cleared. -/
theorem StoreInv.clears (h : StoreInv v) (hidle : v.tx c = .idle) {condition : Condition M}
    (hallowed : Allowed accepts c v (StoreQuery.clear condition).request answer w) : w.tx c = .idle ∧
      (∀ result, answer = .ok result → ∀ k row, replay (v.log.take (v.seen c)) k = some row →
        row.available condition = true → 2 ≤ (history k w.log).length) := by
  obtain ⟨htx, -, hcases⟩ := hallowed.write_spec hidle (fun _ _ _ heq => by cases heq)
  refine ⟨htx, fun result hresult k row hrow havailable => ?_⟩
  have hone := h.length_of_available hrow (processed_of_available havailable)
  have hknown : history k (v.log.take (v.seen c)) ≠ [] := by
    intro hnil
    rw [hnil] at hone
    cases hone
  rcases hcases with ⟨n, changes, -, ⟨hseen, -⟩, hwrites, hlog, -⟩ | ⟨-, e, rfl⟩
  · rw [contents_of_idle hidle, contents_now hidle] at hwrites
    rw [hlog, history_append, history_singleton, List.length_append]
    change 2 ≤ (history k v.log).length + (versions k changes).length
    by_cases hlength : (history k v.log).length < 2
    · obtain ⟨row', -, hfirst, hold, hnow⟩ := h.still_there hseen hknown hlength
      obtain rfl : row = row' := Option.some.inj (hrow.symm.trans hfirst)
      cases hwrites with
      | delete _ _ hall =>
        have hmem := hall k row row hnow hold havailable havailable
        have hversion := List.length_pos_iff.mpr (mt versions_eq_nil_iff.mp (not_not.mpr hmem))
        have hlonger := (history_longer (List.take_prefix (v.seen c) v.log) k).length_le
        omega
    · omega
  · cases hresult

end Statements

/-! ## The requests of a client -/

section Requests

variable [DecidableEq C] {schema : TableSchema M} {c : C} {server : Server C (StatRow M)} {s : server.State} {α : Type}
    {Q : α → server.State → Prop} {f : Answer (StatRow M) → StoreProgram M α}

/-- The rule of a query. -/
theorem select_safe (hserver : server.Documented schema.acceptsRow) {condition : Condition M}
    {order : StatRow M → Int} {limit : Option Int} (hinv : StoreInv (server.view s))
    (hidle : (server.view s).tx c = .idle)
    (hf : ∀ answer t, Rests StoreInv c (server.view s) (server.view t) →
      (∀ result, answer = .ok result → (∀ n, limit = some n → 0 ≤ n) ∧
        ∃ n keys found, (server.view s).seen c ≤ n ∧ n ≤ (server.view t).seen c ∧
          Finds (replay ((server.view t).log.take n)) (StatRow.available condition) order keys found ∧
          result.rows <+: limited limit found ∧ (result.failure = none → result.rows = limited limit found)) →
      Safe (server.perform c) (Others c server StoreInv) (Does server StoreInv fun _ => True) Q (f answer) t) :
    Safe (server.perform c) (Others c server StoreInv) (Does server StoreInv fun _ => True) Q
      (ask (.select condition order limit) >>= f) s := by
  refine safe_request hserver fun s' hs' answer t hallowed => ?_
  obtain ⟨hinv', hextends⟩ := hs' hinv
  obtain ⟨hlog, hlate, hidle', hfound⟩ := select_found (hextends.idle hidle) hallowed
  have hseen := hallowed.seen
  have hbefore := hallowed.before hinv'.labelled ((View.Before.refl c (server.view s)).extends hextends)
  refine ⟨(storeInv_invariant _).does_nothing (.select condition order limit) hallowed hlog hlate,
    hf answer t ⟨hinv'.step (.select condition order limit) hallowed, hidle', hbefore⟩ fun result hresult => ?_⟩
  rw [← hextends.seen, hseen]
  exact hfound result hresult

/-- The rule of the statement that marks rows. -/
theorem mark_safe (hserver : server.Documented schema.acceptsRow) {ids : List Int} (hinv : StoreInv (server.view s))
    (hidle : (server.view s).tx c = .idle)
    (hf : ∀ answer t, Rests StoreInv c (server.view s) (server.view t) →
      (∀ result, answer = .ok result →
        ∀ id ∈ ids, history id ((server.view t).log.take ((server.view s).seen c)) ≠ [] →
          2 ≤ (history id ((server.view t).log.take ((server.view t).seen c))).length) →
      Safe (server.perform c) (Others c server StoreInv) (Does server StoreInv fun _ => True) Q (f answer) t) :
    Safe (server.perform c) (Others c server StoreInv) (Does server StoreInv fun _ => True) Q
      (ask (.mark ids) >>= f) s := by
  refine safe_request hserver fun s' hs' answer t hallowed => ?_
  obtain ⟨hinv', hextends⟩ := hs' hinv
  have hidle' := hextends.idle hidle
  obtain ⟨hdone, hmarks⟩ := hinv'.marks hidle' hallowed
  have hseen := hallowed.seen
  have hbefore := hallowed.before hinv'.labelled ((View.Before.refl c (server.view s)).extends hextends)
  refine ⟨(storeInv_invariant _).does (.mark ids) hallowed fun e he => Or.inr trivial,
    hf answer t ⟨hinv'.step (.mark ids) hallowed, hdone, hbefore⟩ fun result hresult id hid hknown => ?_⟩
  rw [← hextends.seen, hinv'.labelled.take_seen hallowed.log_longer] at hknown
  rw [hseen, List.take_length]
  exact hmarks result hresult id hid hknown

/-- The rule of the statement that clears rows. -/
theorem clear_safe (hserver : server.Documented schema.acceptsRow) {condition : Condition M}
    (hinv : StoreInv (server.view s)) (hidle : (server.view s).tx c = .idle)
    (hf : ∀ answer t, Rests StoreInv c (server.view s) (server.view t) →
      (∀ result, answer = .ok result →
        ∀ id row, replay ((server.view t).log.take ((server.view s).seen c)) id = some row →
          row.available condition = true →
            2 ≤ (history id ((server.view t).log.take ((server.view t).seen c))).length) →
      Safe (server.perform c) (Others c server StoreInv) (Does server StoreInv fun _ => True) Q (f answer) t) :
    Safe (server.perform c) (Others c server StoreInv) (Does server StoreInv fun _ => True) Q
      (ask (.clear condition) >>= f) s := by
  refine safe_request hserver fun s' hs' answer t hallowed => ?_
  obtain ⟨hinv', hextends⟩ := hs' hinv
  have hidle' := hextends.idle hidle
  obtain ⟨hdone, hclears⟩ := hinv'.clears hidle' hallowed
  have hseen := hallowed.seen
  have hbefore := hallowed.before hinv'.labelled ((View.Before.refl c (server.view s)).extends hextends)
  refine ⟨(storeInv_invariant _).does (.clear condition) hallowed fun e he => Or.inr trivial,
    hf answer t ⟨hinv'.step (.clear condition) hallowed, hdone, hbefore⟩
      fun result hresult id row hrow havailable => ?_⟩
  rw [← hextends.seen, hinv'.labelled.take_seen hallowed.log_longer] at hrow
  rw [hseen, List.take_length]
  exact hclears result hresult id row hrow havailable

end Requests

/-! ## What calls return -/

/-- The available rows of a moment between the answers that a client got before and after a call, in some order. -/
def FoundBetween (log : List (Commit C (StatRow M))) (m m' : Nat) (condition : Condition M) (order : StatRow M → Int)
    (P : List (StatRow M) → Prop) : Prop :=
  ∃ n keys rows, m ≤ n ∧ n ≤ m' ∧ Finds (replay (log.take n)) (StatRow.available condition) order keys rows ∧ P rows

/-- The rows with some ids that the client knew are not available after the call. -/
def MarkedBetween (log : List (Commit C (StatRow M))) (m m' : Nat) (ids : List Int) : Prop :=
  ∀ id ∈ ids, history id (log.take m) ≠ [] → 2 ≤ (history id (log.take m')).length

/-- The rows that the client knew as available are not available after the call. -/
def ClearedBetween (log : List (Commit C (StatRow M))) (m m' : Nat) (condition : Condition M) : Prop :=
  ∀ id row, replay (log.take m) id = some row → row.available condition = true →
    2 ≤ (history id (log.take m')).length

/-- What a call returns. -/
def StoreCall.Answers (schema : TableSchema M) (serialize : T → Bytes) (deserialize : Bytes → Except String T) (c : C) :
    Answers C (StatRow M) (StoreCall M T) (CallResult T)
  | log, m, m', .insert anonStats origin operation, .done result => result = .ok () → anonStats ≠ [] →
    ∃ e ∈ (log.take m').drop m, e.client = c ∧
      Inserts schema (insertedChunks serialize origin operation anonStats) e.changes
  | log, m, m', .numAvailable condition, .count result => ∀ count, result = .ok count →
    FoundBetween log m m' condition (fun row => row.id) fun rows => count = rows.length
  | log, m, m', .fetch condition limit, .job result => ∀ job, result = .ok job → 0 ≤ limit.toInt ∧
    FoundBetween log m m' condition (fun row => row.id) fun rows =>
      decodeRows deserialize schema.name ((rows.take limit.toInt.toNat).map StatRow.toRow) = .ok job
  | log, m, m', .mark ids, .done result => result = .ok () → MarkedBetween log m m' ids
  | log, m, m', .clear condition, .count result => ∀ count, result = .ok count → ClearedBetween log m m' condition
  | _, _, _, _, _ => False

section Later

variable {log log' : List (Commit C (StatRow M))} {m m' : Nat}

theorem take_eq_of_longer (hlog : log <+: log') {n : Nat} (hn : n ≤ log.length) : log'.take n = log.take n := by
  obtain ⟨more, rfl⟩ := hlog
  rw [List.take_append_of_le_length hn]

theorem FoundBetween.mono {condition : Condition M} {order : StatRow M → Int} {P : List (StatRow M) → Prop}
    (h : FoundBetween log m m' condition order P) (hm' : m' ≤ log.length) (hlog : log <+: log') :
    FoundBetween log' m m' condition order P := by
  obtain ⟨n, keys, rows, hmn, hn, hfinds, hrows⟩ := h
  refine ⟨n, keys, rows, hmn, hn, ?_, hrows⟩
  rwa [take_eq_of_longer hlog (hn.trans hm')]

theorem MarkedBetween.mono {ids : List Int} (h : MarkedBetween log m m' ids) (hm : m ≤ m') (hm' : m' ≤ log.length)
    (hlog : log <+: log') : MarkedBetween log' m m' ids := by
  unfold MarkedBetween
  rw [take_eq_of_longer hlog (hm.trans hm'), take_eq_of_longer hlog hm']
  exact h

theorem ClearedBetween.mono {condition : Condition M} (h : ClearedBetween log m m' condition) (hm : m ≤ m')
    (hm' : m' ≤ log.length) (hlog : log <+: log') : ClearedBetween log' m m' condition := by
  unfold ClearedBetween
  rw [take_eq_of_longer hlog (hm.trans hm'), take_eq_of_longer hlog hm']
  exact h

end Later

theorem StoreCall.answers_stable (schema : TableSchema M) (serialize : T → Bytes)
    (deserialize : Bytes → Except String T) (c : C) :
    (StoreCall.Answers schema serialize deserialize c).Stable := by
  intro log log' m m' call result h hm hm' hlog
  cases call with
  | insert anonStats origin operation =>
    cases result with
    | done result =>
      intro hresult hne
      rw [take_eq_of_longer hlog hm']
      exact h hresult hne
    | count result => exact h
    | job result => exact h
  | numAvailable condition =>
    cases result with
    | done result => exact h
    | count result => exact fun count hcount => (h count hcount).mono hm' hlog
    | job result => exact h
  | fetch condition limit =>
    cases result with
    | done result => exact h
    | count result => exact h
    | job result => exact fun job hjob => ⟨(h job hjob).1, (h job hjob).2.mono hm' hlog⟩
  | mark ids =>
    cases result with
    | done result => exact fun hresult => (h hresult).mono hm hm' hlog
    | count result => exact h
    | job result => exact h
  | clear condition =>
    cases result with
    | done result => exact h
    | count result => exact fun count hcount => (h count hcount).mono hm hm' hlog
    | job result => exact h

section Calls

variable [DecidableEq C] {schema : TableSchema M} {serialize : T → Bytes} {deserialize : Bytes → Except String T}
    {c : C} {server : Server C (StatRow M)} {s : server.State}

theorem insertAnonStatsBatch_called (hserver : server.Documented schema.acceptsRow) (anonStats : List (Int × M × T))
    (origin : StoreOrigin) (operation : AnonStatsOperation) (hinv : StoreInv (server.view s))
    (hidle : (server.view s).tx c = .idle) :
    Safe (server.perform c) (Others c server StoreInv) (Does server StoreInv fun _ => True)
      (fun result t => Called StoreInv (StoreCall.Answers schema serialize deserialize c) c (server.view s)
        (.insert anonStats origin operation) (.done result) (server.view t))
      (insertAnonStatsBatch schema serialize anonStats origin operation) s := by
  refine (insertAnonStatsBatch_safe hserver hinv hidle).mono ?_ fun result t hinserted => ?_
  · exact fun s t hdoes hI => ⟨(hdoes hI).1, (hdoes hI).2.1, fun e he => Or.inr trivial⟩
  · refine ⟨hinserted.toRests, fun hresult hne => ?_⟩
    obtain ⟨e, he, hlabel, hinserts⟩ := hinserted.committed hresult (insertedChunks_ne_nil hne)
    refine ⟨e, ?_, congrArg Prod.fst hlabel, hinserts⟩
    -- the transaction is not one of those before the call
    have hnew : e ∉ (server.view s).log := by
      intro hmem
      have hlt := hinv.labelled.lt e (List.mem_append_left _ hmem)
      have hclient : e.client = c := congrArg Prod.fst hlabel
      have hnumber : e.number = (server.view s).count c := congrArg Prod.snd hlabel
      rw [hclient, hnumber] at hlt
      omega
    have hpast : ((server.view t).log.take ((server.view t).seen c)).take ((server.view s).seen c) =
        (server.view s).log.take ((server.view s).seen c) := by
      rw [List.take_take, min_eq_left hinserted.before.seen, hinv.labelled.take_seen hinserted.before.log]
    rw [← List.take_append_drop ((server.view s).seen c) ((server.view t).log.take _), hpast] at he
    rcases List.mem_append.mp he with he | he
    · exact absurd (List.mem_of_mem_take he) hnew
    · exact he

/-- One call. -/
theorem StoreCall.run_safe (hserver : server.Documented schema.acceptsRow) (call : StoreCall M T)
    (hinv : StoreInv (server.view s)) (hidle : (server.view s).tx c = .idle) :
    Safe (server.perform c) (Others c server StoreInv) (Does server StoreInv fun _ => True)
      (fun result t => Called StoreInv (StoreCall.Answers schema serialize deserialize c) c (server.view s) call result
        (server.view t))
      (call.run schema serialize deserialize) s := by
  have hstable := StoreCall.answers_stable schema serialize deserialize c
  cases call with
  | insert anonStats origin operation =>
    exact called_map_safe StoreInv.isLabelled hstable
      (insertAnonStatsBatch_called hserver anonStats origin operation hinv hidle)
  | numAvailable condition =>
    refine called_map_safe StoreInv.isLabelled hstable (select_safe hserver hinv hidle fun answer t hrests hfound => ?_)
    cases hall : answer.all with
    | error e =>
      exact called_safe StoreInv.isLabelled hstable (g := CallResult.count) ⟨hrests, fun count h => by cases h⟩
    | ok rows =>
      refine called_safe StoreInv.isLabelled hstable (g := CallResult.count) ⟨hrests, fun count hcount => ?_⟩
      cases hcount
      obtain ⟨result, hresult, hcomplete, rfl⟩ := Answer.all_eq_ok hall
      obtain ⟨-, n, keys, found, hmn, hn, hfinds, -, hrows⟩ := hfound result hresult
      exact ⟨n, keys, found, hmn, hn, hfinds, congrArg List.length (hrows hcomplete)⟩
  | fetch condition limit =>
    refine called_map_safe StoreInv.isLabelled hstable (select_safe hserver hinv hidle fun answer t hrests hfound => ?_)
    cases hall : answer.all with
    | error e =>
      exact called_safe StoreInv.isLabelled hstable (g := CallResult.job) ⟨hrests, fun job h => by cases h⟩
    | ok rows =>
      refine called_safe StoreInv.isLabelled hstable (g := CallResult.job) ⟨hrests, fun job hjob => ?_⟩
      obtain ⟨result, hresult, hcomplete, rfl⟩ := Answer.all_eq_ok hall
      obtain ⟨hlimit, n, keys, found, hmn, hn, hfinds, -, hrows⟩ := hfound result hresult
      rw [hrows hcomplete] at hjob
      exact ⟨hlimit _ rfl, n, keys, found, hmn, hn, hfinds, hjob⟩
  | mark ids =>
    refine called_map_safe StoreInv.isLabelled hstable (mark_safe hserver hinv hidle fun answer t hrests hmarked => ?_)
    cases answer with
    | error e => exact called_safe StoreInv.isLabelled hstable (g := CallResult.done) ⟨hrests, fun h => by cases h⟩
    | ok result =>
      exact called_safe StoreInv.isLabelled hstable (g := CallResult.done) ⟨hrests, fun _ => hmarked result rfl⟩
  | clear condition =>
    refine called_map_safe StoreInv.isLabelled hstable
      (clear_safe hserver hinv hidle fun answer t hrests hcleared => ?_)
    cases answer with
    | error e =>
      exact called_safe StoreInv.isLabelled hstable (g := CallResult.count) ⟨hrests, fun count h => by cases h⟩
    | ok result =>
      exact called_safe StoreInv.isLabelled hstable (g := CallResult.count) ⟨hrests, fun _ _ => hcleared result rfl⟩

end Calls

/-! ## Jobs are not fetched again -/

/-- A row that is found available, then marked, and then found available: this does not happen. -/
theorem not_available_again {log : List (Commit C (StatRow M))} {id : Int} {n p p' r : Nat} (hnp : n ≤ p) (hpr : p' ≤ r)
    (hfirst : (history id (log.take n)).length = 1)
    (hmarked : history id (log.take p) ≠ [] → 2 ≤ (history id (log.take p')).length) :
    (history id (log.take r)).length ≠ 1 := by
  have hknown : history id (log.take p) ≠ [] := by
    intro hnil
    have hle := length_history_take_le log hnp id
    rw [hnil, hfirst] at hle
    cases hle
  have hle := length_history_take_le log hpr id
  have htwo := hmarked hknown
  omega

section Delivery

variable {schema : TableSchema M} {serialize : T → Bytes} {deserialize : Bytes → Except String T} {c : C}
    {log : List (Commit C (StatRow M))}

/-- The rows that a query has found were available. -/
theorem available_of_finds (hlog : ∀ k, IsHistory k (history k log)) {n : Nat} {condition : Condition M}
    {order : StatRow M → Int} {keys : List Int} {rows : List (StatRow M)}
    (hfinds : Finds (replay (log.take n)) (StatRow.available condition) order keys rows) {row : StatRow M}
    (hrow : row ∈ rows) : (history row.id (log.take n)).length = 1 := by
  obtain ⟨k, hk, havailable⟩ := hfinds.mem_rows.mp hrow
  rw [replay_eq] at hk
  have hhistory := (hlog k).of_longer (history_longer (List.take_prefix n log) k)
  rw [(hhistory.getLast hk).1]
  exact hhistory.available_iff.mp ⟨row, hk, processed_of_available havailable⟩

theorem StoreCall.Answers.fetched (hlog : ∀ k, IsHistory k (history k log)) {m m' : Nat} {condition : Condition M}
    {limit : BitVec 64} {job : List Int × List (Int × T)}
    (h : StoreCall.Answers schema serialize deserialize c log m m' (.fetch condition limit) (.job (.ok job))) {id : Int}
    (hid : id ∈ job.1) : ∃ n, m ≤ n ∧ n ≤ m' ∧ (history id (log.take n)).length = 1 := by
  obtain ⟨-, n, keys, rows, hmn, hn, hfinds, hdecoded⟩ := h job rfl
  refine ⟨n, hmn, hn, ?_⟩
  rw [decodeRows_ids hdecoded, List.map_map] at hid
  obtain ⟨row, hrow, rfl⟩ := List.mem_map.mp hid
  exact available_of_finds hlog hfinds (List.mem_of_mem_take hrow)

/-- A job that is fetched by its origin is what the query on the table of one moment returns. -/
theorem StoreCall.Answers.fetched_of_table (hlog : ∀ k, IsHistory k (history k log)) {m m' : Nat} {origin : StoreOrigin}
    {operation : Option AnonStatsOperation} {limit : BitVec 64} {job : List Int × List (Int × T)}
    (h : StoreCall.Answers schema serialize deserialize c log m m' (.fetch (byOrigin origin operation) limit)
      (.job (.ok job))) :
    ∃ n, m ≤ n ∧ n ≤ m' ∧ ∀ table : Table,
      (∀ row, row ∈ table.rows ↔ ∃ k found, replay (log.take n) k = some found ∧ found.toRow = row) →
        getAvailableAnonStats deserialize schema.name table origin operation limit = .ok job := by
  obtain ⟨hlimit, n, keys, rows, hmn, hn, hfinds, hdecoded⟩ := h job rfl
  refine ⟨n, hmn, hn, fun table htable => ?_⟩
  have hmatches : ∀ found : StatRow M, found.available (byOrigin origin operation) =
      found.toRow.matches origin operation := by
    intro found
    unfold StatRow.available Row.matches
    rw [Bool.and_assoc]
    rfl
  have hids : ∀ k found, replay (log.take n) k = some found → found.id = k := by
    intro k found hfound
    rw [replay_eq] at hfound
    exact (((hlog k).of_longer (history_longer (List.take_prefix n log) k)).getLast hfound).1
  have hkeys : rows.map (fun row => row.id) = keys := by
    refine (List.forall₂_iff_get.mp hfinds.found).elim fun hlength hget => ?_
    refine List.ext_getElem (by rw [List.length_map, hlength]) fun i hi hi' => ?_
    rw [List.getElem_map]
    exact hids _ _ (hget i hi' (hlength ▸ hi'))
  have hnodup : ((rows.map StatRow.toRow).map Row.id).Nodup := by
    rw [List.map_map]
    exact hkeys ▸ hfinds.nodup
  have hsorted : (rows.map StatRow.toRow).Pairwise fun a b => a.id ≤ b.id := List.pairwise_map.mpr hfinds.sorted
  have hperm : (rows.map StatRow.toRow).Perm (table.rows.filter (Row.matches origin operation)) := by
    refine (List.perm_ext_iff_of_nodup (List.Nodup.of_map _ hnodup)
      ((List.Nodup.of_map _ table.ids_nodup).filter _)).mpr fun row => ?_
    rw [List.mem_map, List.mem_filter, htable]
    constructor
    · rintro ⟨found, hfound, rfl⟩
      obtain ⟨k, hk, havailable⟩ := hfinds.mem_rows.mp hfound
      exact ⟨⟨k, found, hk, rfl⟩, hmatches found ▸ havailable⟩
    · rintro ⟨⟨k, found, hk, rfl⟩, hmatch⟩
      exact ⟨found, hfinds.mem_rows.mpr ⟨k, hk, (hmatches found).trans hmatch⟩, rfl⟩
  have hquery : table.available origin operation = rows.map StatRow.toRow := by
    refine ((sortByKey_perm Row.id _).trans hperm.symm).eq_of_pairwise
      (fun a b ha hb (hab : a.id ≤ b.id) (hba : b.id ≤ a.id) => ?_) (sortByKey_sorted Row.id _) hsorted
    have ha := ((sortByKey_perm Row.id _).trans hperm.symm).mem_iff.mp ha
    exact List.inj_on_of_nodup_map hnodup ha hb (le_antisymm hab hba)
  unfold getAvailableAnonStats Table.fetchAll
  rw [if_neg (not_lt.mpr hlimit), hquery, ← List.map_take]
  exact hdecoded

/-- A row that was fetched, and marked by a call that returned `Ok`, is not fetched again. -/
def FetchedOnce (calls : List (StoreCall M T)) (results : List (CallResult T)) : Prop :=
  ∀ (i j k : Nat) (condition condition' : Condition M) (limit limit' : BitVec 64) (ids : List Int)
    (job job' : List Int × List (Int × T)), i < j → j < k →
    calls[i]? = some (.fetch condition limit) → results[i]? = some (.job (.ok job)) →
    calls[j]? = some (.mark ids) → results[j]? = some (.done (.ok ())) →
    calls[k]? = some (.fetch condition' limit') → results[k]? = some (.job (.ok job')) →
    ∀ id ∈ job.1, id ∈ ids → id ∉ job'.1

theorem fetchedOnce_of_trace {m m' : Nat} {calls : List (StoreCall M T)} {results : List (CallResult T)}
    (h : Trace (StoreCall.Answers schema serialize deserialize c) log m calls results m')
    (hlog : ∀ k, IsHistory k (history k log)) : FetchedOnce calls results := by
  intro i j k condition condition' limit limit' ids job job' hij hjk hi hi' hj hj' hk hk' id hid hmarked hid'
  obtain ⟨p, p', -, -, hfetch, hafter⟩ := h.get hi hi'
  obtain ⟨q, q', hpq, -, hmark, hafter⟩ := hafter.get_after hij hj hj'
  obtain ⟨r, r', hqr, -, hagain, -⟩ := hafter.get_after hjk hk hk'
  obtain ⟨n, -, hn, hfirst⟩ := hfetch.fetched hlog hid
  obtain ⟨n', hrn', -, hsecond⟩ := hagain.fetched hlog hid'
  exact not_available_again (hn.trans hpq) (hqr.trans hrn') hfirst (hmark rfl id hmarked) hsecond

end Delivery

/-- **Statistics are delivered.** Whatever others do with a table at the same time, every row in it is inserted once,
and is then marked or cleared; what the calls of a client return is what the table held between the call and its
answer; and a row of a job that was marked is not fetched again. -/
theorem statistics_delivered [DecidableEq C] {schema : TableSchema M} {server : Server C (StatRow M)}
    (hserver : server.Documented schema.acceptsRow) {c : C} {serialize : T → Bytes}
    {deserialize : Bytes → Except String T} {calls : List (StoreCall M T)} {s t : server.State}
    (hinv : StoreInv (server.view s)) (hidle : (server.view s).tx c = .idle)
    {program : StoreProgram M (List (CallResult T))}
    {moves : List (Move server.Choice (Event server (storeUsage M)))}
    (hrun : Transition.run (RelyGuarantee.step (server.perform c) (server.interfere (storeUsage M) c))
      (runCalls (StoreCall.run schema serialize deserialize) calls, s) moves = some (program, t)) :
    StoreInv (server.view t) ∧ ∀ results, program.result? = some results →
      Trace (StoreCall.Answers schema serialize deserialize c) (server.view t).log ((server.view s).seen c) calls
        results ((server.view t).seen c) ∧
      FetchedOnce calls results := by
  have hsafe := runCalls_safe StoreInv.isLabelled (StoreCall.answers_stable schema serialize deserialize c)
    (fun call s hinv hidle => call.run_safe hserver hinv hidle) calls hinv hidle
  obtain ⟨hsafe', hinv', -, -⟩ := (storeInv_invariant schema.acceptsRow).run hserver hinv hsafe hrun
  refine ⟨hinv', fun results hresults => ?_⟩
  rw [Prog.result?_eq_some hresults] at hsafe'
  have hserved := hsafe'.returns Others.refl
  exact ⟨hserved.trace, fetchedOnce_of_trace hserved.trace hinv'.histories⟩

/-- A job is fetched and marked, while another client inserts a row. -/
def markedJobRun : Option (StoreProgram Unit (List (CallResult UInt8)) × View Bool (StatRow Unit)) :=
  let server : Server Bool (StatRow Unit) := Serial.server anonStats1dTable.acceptsRow
  let origin : StoreOrigin := ⟨⟨.normal⟩, some .left, .hnsw⟩
  let row (matchId : Int) (bundle : UInt8) : StoreQuery Unit := .insert [⟨matchId, (), [bundle], origin.toI16, 0⟩] 4
  Transition.run (RelyGuarantee.step (server.perform false) (server.interfere (storeUsage Unit) false))
    (runCalls (StoreCall.run anonStats1dTable (fun n => [n])
        fun bytes => bytes.head?.elim (.error "unexpected end of file") .ok)
      [.fetch (byOrigin origin none) 10, .mark [1], .fetch (byOrigin origin none) 10], View.initial)
    [.env (.request true (row 7 1) (.with [1])), .own (.with []), .env (.request true (row 8 2) (.with [2])),
      .own (.with []), .own (.with [])]

theorem statistics_delivered_marked : ∃ program t, markedJobRun = some (program, t) ∧
    program.result? = some [.job (.ok ([1], [(7, 1)])), .done (.ok ()), .job (.ok ([2], [(8, 2)]))] ∧
    ∀ k, IsHistory k (history k t.log) := by
  obtain ⟨program, t, hrun, hresult⟩ : ∃ program t, markedJobRun = some (program, t) ∧
      program.result? = some [.job (.ok ([1], [(7, 1)])), .done (.ok ()), .job (.ok ([2], [(8, 2)]))] :=
    ⟨_, _, rfl, rfl⟩
  obtain ⟨hinv, -⟩ := statistics_delivered (Serial.server_documented _) StoreInv.initial rfl hrun
  exact ⟨program, t, hrun, hresult, hinv.histories⟩

end AmpcCommon.Stats
