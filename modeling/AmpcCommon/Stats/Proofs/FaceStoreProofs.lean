import AmpcCommon.Stats.FaceStore
import AmpcCommon.Stats.Proofs.StoreRunProofs

/-!
# The store of face statistics, proofs

A fetch reads as many rows as it needs for its limit (`ReachesLimit`), which is shown for any number of distances that
were read before. The rest is as for the other tables, whose statements the face table shares.
-/

namespace AmpcCommon.Stats

open Database RelyGuarantee

/-! ## Reading a stream -/

@[simp] theorem totalSize_nil : totalSize [] = 0 := rfl

@[simp] theorem totalSize_cons (row : StatRow Nat) (rows : List (StatRow Nat)) :
    totalSize (row :: rows) = row.info + totalSize rows := List.sum_cons

/-- As many rows as the limit needs when some distances have been read: at least one, and no more than that once there
are enough. All rows are only read when the stream ends without an error. -/
structure ReachesLimit (limit : Nat) (failure : Option String) (fetched : Nat) (rows : List (StatRow Nat)) (k : Nat) :
    Prop where
  le : k ≤ rows.length
  pos : rows ≠ [] → 0 < k
  enough : (k = rows.length ∧ failure = none) ∨ 0 < k ∧ limit ≤ fetched + totalSize (rows.take k)
  least : ∀ i, 0 < i → i < k → fetched + totalSize (rows.take i) < limit

/-- What a job holds of its rows. -/
structure IsFaceJobOf {T : Type} (deserialize : Bytes → Except String (List T)) (rows : List (StatRow Nat))
    (job : FaceJob T) : Prop where
  ids : job.ids = rows.map fun row => row.id
  queryIds : job.queryIds = rows.map fun row => row.matchId
  ret : ∃ bundles : List (List T), (rows.map fun row => deserialize row.bundle) = bundles.map Except.ok ∧
    job.ret = bundles.flatten

section Fetching

variable {T : Type} {deserialize : Bytes → Except String (List T)} {limit : Nat} {failure : Option String}

theorem readFaceRows_eq_ok {rows : List (StatRow Nat)} {fetched : Nat} {job out : FaceJob T}
    (h : readFaceRows deserialize limit failure rows fetched job = .ok out) :
    ∃ k rest, ReachesLimit limit failure fetched rows k ∧ IsFaceJobOf deserialize (rows.take k) rest ∧
      out = ⟨job.ids ++ rest.ids, job.queryIds ++ rest.queryIds, job.ret ++ rest.ret⟩ := by
  induction rows generalizing fetched job with
  | nil =>
    cases failure with
    | some e => cases h
    | none =>
      cases h
      refine ⟨0, ⟨[], [], []⟩, ⟨le_rfl, fun h => absurd rfl h, Or.inl ⟨rfl, rfl⟩, fun i _ hi => ?_⟩,
        ⟨rfl, rfl, [], rfl, rfl⟩, ?_⟩
      · exact absurd hi (Nat.not_lt_zero i)
      · rw [List.append_nil, List.append_nil, List.append_nil]
  | cons row rows ih =>
    rw [readFaceRows] at h
    cases hbundle : deserialize row.bundle with
    | error e =>
      rw [hbundle] at h
      cases h
    | ok distances =>
      rw [hbundle] at h
      dsimp only at h
      by_cases hlimit : limit ≤ fetched + row.info
      · rw [if_pos hlimit] at h
        cases h
        refine ⟨1, ⟨[row.id], [row.matchId], distances⟩,
          ⟨?_, fun _ => Nat.one_pos, Or.inr ⟨Nat.one_pos, ?_⟩, fun i hpos hi => ?_⟩,
          ⟨rfl, rfl, [distances], ?_, ?_⟩, rfl⟩
        · rw [List.length_cons]
          omega
        · rw [List.take_succ_cons, List.take_zero]
          simpa using hlimit
        · omega
        · show [deserialize row.bundle] = _
          rw [hbundle]
          rfl
        · exact List.flatten_singleton.symm
      · rw [if_neg hlimit] at h
        obtain ⟨k, rest, hk, ⟨hids, hqueries, bundles, hbundles, hret⟩, hout⟩ := ih h
        refine ⟨k + 1, ⟨row.id :: rest.ids, row.matchId :: rest.queryIds, distances ++ rest.ret⟩, ⟨?_, ?_, ?_, ?_⟩,
          ⟨?_, ?_, distances :: bundles, ?_, ?_⟩, ?_⟩
        · rw [List.length_cons]
          exact Nat.succ_le_succ hk.le
        · exact fun _ => Nat.succ_pos k
        · rw [List.length_cons, List.take_succ_cons, totalSize_cons]
          rcases hk.enough with ⟨hall, hfailure⟩ | ⟨-, henough⟩
          · exact Or.inl ⟨congrArg Nat.succ hall, hfailure⟩
          · exact Or.inr ⟨Nat.succ_pos k, by omega⟩
        · intro i hpos hi
          cases i with
          | zero => cases hpos
          | succ i =>
            rw [List.take_succ_cons, totalSize_cons]
            by_cases hzero : i = 0
            · subst hzero
              rw [List.take_zero, totalSize_nil]
              omega
            · have hless := hk.least i (by omega) (by omega)
              omega
        · rw [List.take_succ_cons, List.map_cons, hids]
        · rw [List.take_succ_cons, List.map_cons, hqueries]
        · rw [List.take_succ_cons, List.map_cons, List.map_cons, hbundles, hbundle]
        · rw [List.flatten_cons, hret]
        · rw [hout]
          simp

/-- The rows that are read of a stream are those that are read of all rows. -/
theorem ReachesLimit.of_longer {rows found : List (StatRow Nat)} {k fetched : Nat}
    (h : ReachesLimit limit failure fetched rows k) (hlonger : rows <+: found)
    (hcomplete : failure = none → rows = found) :
    ReachesLimit limit none fetched found k ∧ found.take k = rows.take k := by
  obtain ⟨more, rfl⟩ := hlonger
  have htake : ∀ i ≤ k, (rows ++ more).take i = rows.take i := fun i hi =>
    List.take_append_of_le_length (hi.trans h.le)
  refine ⟨⟨?_, fun hne => ?_, ?_, fun i hpos hi => ?_⟩, htake k le_rfl⟩
  · rw [List.length_append]
    exact Nat.le_add_right_of_le h.le
  · rcases h.enough with ⟨hall, hfailure⟩ | ⟨hpos, -⟩
    · rw [← hcomplete hfailure] at hne
      exact h.pos hne
    · exact hpos
  · rw [htake k le_rfl]
    rcases h.enough with ⟨hall, hfailure⟩ | henough
    · refine Or.inl ⟨?_, rfl⟩
      rw [← hcomplete hfailure]
      exact hall
    · exact Or.inr henough
  · rw [htake i hi.le]
    exact h.least i hpos hi

end Fetching

/-! ## What calls return -/

variable {C T : Type}

/-- What a call returns. -/
def FaceCall.Answers (serialize : List T → Bytes) (deserialize : Bytes → Except String (List T)) (c : C) :
    Answers C (StatRow Nat) (FaceCall T) (FaceResult T)
  | log, m, m', .insert anonStats queryId origin operation, .done result => result = .ok () → anonStats ≠ [] →
    ∃ e ∈ (log.take m').drop m, e.client = c ∧ ∃ k, e.changes =
      [⟨k, some ((newRow serialize origin operation (queryId, anonStats.length, anonStats)).toRow k)⟩]
  | log, m, m', .numAvailable condition, .count result => ∀ count, result = .ok count →
    FoundBetween log m m' condition (fun row => row.id) fun rows => count = totalSize rows
  | log, m, m', .fetch condition limit, .job result => ∀ job, result = .ok job →
    FoundBetween log m m' condition (fun row => row.matchId) fun rows =>
      ∃ k, ReachesLimit limit none 0 rows k ∧ IsFaceJobOf deserialize (rows.take k) job
  | log, m, m', .mark ids, .done result => result = .ok () → MarkedBetween log m m' ids
  | log, m, m', .clear condition, .count result => ∀ count, result = .ok count → ClearedBetween log m m' condition
  | _, _, _, _, _ => False

theorem FaceCall.answers_stable (serialize : List T → Bytes) (deserialize : Bytes → Except String (List T)) (c : C) :
    (FaceCall.Answers serialize deserialize c).Stable := by
  intro log log' m m' call result h hm hm' hlog
  cases call with
  | insert anonStats queryId origin operation =>
    cases result with
    | done result =>
      intro hresult hne
      rw [take_eq_of_longer hlog hm']
      exact h hresult hne
    | count result => exact h
    | job result => exact h
  | numAvailable condition =>
    cases result with
    | done result => exact h
    | count result => exact fun count hcount => (h count hcount).mono hm' hlog
    | job result => exact h
  | fetch condition limit =>
    cases result with
    | done result => exact h
    | count result => exact h
    | job result => exact fun job hjob => (h job hjob).mono hm' hlog
  | mark ids =>
    cases result with
    | done result => exact fun hresult => (h hresult).mono hm hm' hlog
    | count result => exact h
    | job result => exact h
  | clear condition =>
    cases result with
    | done result => exact h
    | count result => exact fun count hcount => (h count hcount).mono hm hm' hlog
    | job result => exact h

section Calls

variable [DecidableEq C] {serialize : List T → Bytes} {deserialize : Bytes → Except String (List T)} {c : C}
    {server : Server C (StatRow Nat)} {s : server.State}

theorem insertAnonStatsFace_called (hserver : server.Documented anonStatsFaceTable.acceptsRow) (anonStats : List T)
    (queryId : Int) (origin : StoreOrigin) (operation : AnonStatsOperation) (hinv : StoreInv (server.view s))
    (hidle : (server.view s).tx c = .idle) :
    Safe (server.perform c) (Others c server StoreInv) (Does server StoreInv fun _ => True)
      (fun result t => Called StoreInv (FaceCall.Answers serialize deserialize c) c (server.view s)
        (.insert anonStats queryId origin operation) (.done result) (server.view t))
      (insertAnonStatsFace serialize anonStats queryId origin operation) s := by
  have hstable := FaceCall.answers_stable serialize deserialize c
  unfold insertAnonStatsFace
  split_ifs with hempty
  · have hrests : Rests StoreInv c (server.view s) (server.view s) := ⟨hinv, hidle, View.Before.refl _ _⟩
    refine called_safe StoreInv.isLabelled hstable (g := FaceResult.done) ⟨hrests, fun _ hne => absurd ?_ hne⟩
    exact List.isEmpty_iff.mp hempty
  · refine safe_request hserver fun s' hs' answer t hallowed => ?_
    obtain ⟨hinv', hextends⟩ := hs' hinv
    have hidle' := hextends.idle hidle
    have hbefore := hallowed.before hinv'.labelled ((View.Before.refl c (server.view s)).extends hextends)
    obtain ⟨hdone, -, hcases⟩ := hallowed.write_spec hidle' fun _ _ _ heq => by cases heq
    refine ⟨(storeInv_invariant _).does (.insert _ _) hallowed fun e he => Or.inr trivial, ?_⟩
    have hrests : Rests StoreInv c (server.view s) (server.view t) :=
      ⟨hinv'.step (.insert _ _) hallowed, hdone, hbefore⟩
    cases answer with
    | error e => exact called_safe StoreInv.isLabelled hstable (g := FaceResult.done) ⟨hrests, fun h => by cases h⟩
    | ok result =>
      refine called_safe StoreInv.isLabelled hstable (g := FaceResult.done) ⟨hrests, fun _ _ => ?_⟩
      rcases hcases with ⟨n, changes, -, -, hwrites, hlog, -⟩ | ⟨-, e, he⟩
      · refine ⟨⟨c, (server.view s').count c, changes⟩, ?_, rfl, ?_⟩
        · have hseen := hinv'.labelled.seen_le c
          rw [hallowed.seen, List.take_length, hlog, ← hextends.seen, List.drop_append_of_le_length hseen]
          exact List.mem_append_right _ List.mem_cons_self
        · cases hwrites with
          | @insert _ keys hlength _ _ _ _ =>
            obtain ⟨k, rfl⟩ := List.length_eq_one_iff.mp hlength
            exact ⟨k, rfl⟩
      · cases he

/-- One call. -/
theorem FaceCall.run_safe (hserver : server.Documented anonStatsFaceTable.acceptsRow) (call : FaceCall T)
    (hinv : StoreInv (server.view s)) (hidle : (server.view s).tx c = .idle) :
    Safe (server.perform c) (Others c server StoreInv) (Does server StoreInv fun _ => True)
      (fun result t => Called StoreInv (FaceCall.Answers serialize deserialize c) c (server.view s) call result
        (server.view t))
      (call.run serialize deserialize) s := by
  have hstable := FaceCall.answers_stable serialize deserialize c
  cases call with
  | insert anonStats queryId origin operation =>
    exact called_map_safe StoreInv.isLabelled hstable
      (insertAnonStatsFace_called hserver anonStats queryId origin operation hinv hidle)
  | numAvailable condition =>
    refine called_map_safe StoreInv.isLabelled hstable (select_safe hserver hinv hidle fun answer t hrests hfound => ?_)
    cases hall : answer.all with
    | error e =>
      exact called_safe StoreInv.isLabelled hstable (g := FaceResult.count) ⟨hrests, fun count h => by cases h⟩
    | ok rows =>
      refine called_safe StoreInv.isLabelled hstable (g := FaceResult.count) ⟨hrests, fun count hcount => ?_⟩
      obtain ⟨result, hresult, hcomplete, rfl⟩ := Answer.all_eq_ok hall
      obtain ⟨-, n, keys, found, hmn, hn, hfinds, -, hrows⟩ := hfound result hresult
      refine ⟨n, keys, found, hmn, hn, hfinds, ?_⟩
      split_ifs at hcount
      · cases hcount
      · cases hcount
        exact congrArg totalSize (hrows hcomplete)
  | fetch condition limit =>
    refine called_map_safe StoreInv.isLabelled hstable (select_safe hserver hinv hidle fun answer t hrests hfound => ?_)
    cases answer with
    | error e => exact called_safe StoreInv.isLabelled hstable (g := FaceResult.job) ⟨hrests, fun job h => by cases h⟩
    | ok stream =>
      refine called_safe StoreInv.isLabelled hstable (g := FaceResult.job) ⟨hrests, fun job hjob => ?_⟩
      obtain ⟨-, n, keys, found, hmn, hn, hfinds, hlonger, hcomplete⟩ := hfound stream rfl
      obtain ⟨k, rest, hk, hrest, rfl⟩ := readFaceRows_eq_ok hjob
      obtain ⟨hlimit, htake⟩ := hk.of_longer hlonger hcomplete
      exact ⟨n, keys, found, hmn, hn, hfinds, k, hlimit, htake.symm ▸ hrest⟩
  | mark ids =>
    refine called_map_safe StoreInv.isLabelled hstable (mark_safe hserver hinv hidle fun answer t hrests hmarked => ?_)
    cases answer with
    | error e => exact called_safe StoreInv.isLabelled hstable (g := FaceResult.done) ⟨hrests, fun h => by cases h⟩
    | ok result =>
      exact called_safe StoreInv.isLabelled hstable (g := FaceResult.done) ⟨hrests, fun _ => hmarked result rfl⟩
  | clear condition =>
    refine called_map_safe StoreInv.isLabelled hstable
      (clear_safe hserver hinv hidle fun answer t hrests hcleared => ?_)
    cases answer with
    | error e =>
      exact called_safe StoreInv.isLabelled hstable (g := FaceResult.count) ⟨hrests, fun count h => by cases h⟩
    | ok result =>
      exact called_safe StoreInv.isLabelled hstable (g := FaceResult.count) ⟨hrests, fun _ _ => hcleared result rfl⟩

end Calls

/-! ## Jobs are not fetched again -/

section Delivery

variable {serialize : List T → Bytes} {deserialize : Bytes → Except String (List T)} {c : C}
    {log : List (Commit C (StatRow Nat))}

theorem FaceCall.Answers.fetched (hlog : ∀ k, IsHistory k (history k log)) {m m' : Nat} {condition : Condition Nat}
    {limit : Nat} {job : FaceJob T}
    (h : FaceCall.Answers serialize deserialize c log m m' (.fetch condition limit) (.job (.ok job))) {id : Int}
    (hid : id ∈ job.ids) : ∃ n, m ≤ n ∧ n ≤ m' ∧ (history id (log.take n)).length = 1 := by
  obtain ⟨n, keys, rows, hmn, hn, hfinds, k, -, hjob⟩ := h job rfl
  refine ⟨n, hmn, hn, ?_⟩
  rw [hjob.ids] at hid
  obtain ⟨row, hrow, rfl⟩ := List.mem_map.mp hid
  exact available_of_finds hlog hfinds (List.mem_of_mem_take hrow)

/-- A bundle that was fetched, and marked by a call that returned `Ok`, is not fetched again. -/
def FaceFetchedOnce (calls : List (FaceCall T)) (results : List (FaceResult T)) : Prop :=
  ∀ (i j k : Nat) (condition condition' : Condition Nat) (limit limit' : Nat) (ids : List Int) (job job' : FaceJob T),
    i < j → j < k →
    calls[i]? = some (.fetch condition limit) → results[i]? = some (.job (.ok job)) →
    calls[j]? = some (.mark ids) → results[j]? = some (.done (.ok ())) →
    calls[k]? = some (.fetch condition' limit') → results[k]? = some (.job (.ok job')) →
    ∀ id ∈ job.ids, id ∈ ids → id ∉ job'.ids

theorem faceFetchedOnce_of_trace {m m' : Nat} {calls : List (FaceCall T)} {results : List (FaceResult T)}
    (h : Trace (FaceCall.Answers serialize deserialize c) log m calls results m')
    (hlog : ∀ k, IsHistory k (history k log)) : FaceFetchedOnce calls results := by
  intro i j k condition condition' limit limit' ids job job' hij hjk hi hi' hj hj' hk hk' id hid hmarked hid'
  obtain ⟨p, p', -, -, hfetch, hafter⟩ := h.get hi hi'
  obtain ⟨q, q', hpq, -, hmark, hafter⟩ := hafter.get_after hij hj hj'
  obtain ⟨r, r', hqr, -, hagain, -⟩ := hafter.get_after hjk hk hk'
  obtain ⟨n, -, hn, hfirst⟩ := hfetch.fetched hlog hid
  obtain ⟨n', hrn', -, hsecond⟩ := hagain.fetched hlog hid'
  exact not_available_again (hn.trans hpq) (hqr.trans hrn') hfirst (hmark rfl id hmarked) hsecond

end Delivery

/-- **Face statistics are delivered.** Whatever others do with the table at the same time, every row in it is inserted
once, and is then marked or cleared; what the calls of a client return is what the table held between the call and its
answer, where a fetch reads as many rows by their query ids as its limit needs; and a bundle of a job that was marked
is not fetched again. -/
theorem face_statistics_delivered [DecidableEq C] {server : Server C (StatRow Nat)}
    (hserver : server.Documented anonStatsFaceTable.acceptsRow) {c : C} {serialize : List T → Bytes}
    {deserialize : Bytes → Except String (List T)} {calls : List (FaceCall T)} {s t : server.State}
    (hinv : StoreInv (server.view s)) (hidle : (server.view s).tx c = .idle)
    {program : StoreProgram Nat (List (FaceResult T))}
    {moves : List (Move server.Choice (Event server (storeUsage Nat)))}
    (hrun : Transition.run (RelyGuarantee.step (server.perform c) (server.interfere (storeUsage Nat) c))
      (runCalls (FaceCall.run serialize deserialize) calls, s) moves = some (program, t)) :
    StoreInv (server.view t) ∧ ∀ results, program.result? = some results →
      Trace (FaceCall.Answers serialize deserialize c) (server.view t).log ((server.view s).seen c) calls results
        ((server.view t).seen c) ∧
      FaceFetchedOnce calls results := by
  have hsafe := runCalls_safe StoreInv.isLabelled (FaceCall.answers_stable serialize deserialize c)
    (fun call s hinv hidle => call.run_safe hserver hinv hidle) calls hinv hidle
  obtain ⟨hsafe', hinv', -, -⟩ := (storeInv_invariant anonStatsFaceTable.acceptsRow).run hserver hinv hsafe hrun
  refine ⟨hinv', fun results hresults => ?_⟩
  rw [Prog.result?_eq_some hresults] at hsafe'
  have hserved := hsafe'.returns Others.refl
  exact ⟨hserved.trace, faceFetchedOnce_of_trace hserved.trace hinv'.histories⟩

/-- A fetch of one of two bundles of a query. -/
def faceJobRun : Option (StoreProgram Nat (List (FaceResult UInt8)) × View Bool (StatRow Nat)) :=
  let server : Server Bool (StatRow Nat) := Serial.server anonStatsFaceTable.acceptsRow
  let origin : StoreOrigin := ⟨⟨.normal⟩, none, .face⟩
  Transition.run (RelyGuarantee.step (server.perform false) (server.interfere (storeUsage Nat) false))
    (runCalls (FaceCall.run (fun l : Bytes => l) (fun l => .ok l))
      [.insert [6, 7] 5 origin .uniqueness, .insert [8] 5 origin .uniqueness, .insert [9] 4 origin .uniqueness,
        .fetch (byOrigin origin none) 2, .mark [1, 3], .fetch (byOrigin origin none) 0], View.initial)
    [.own (.with [1]), .own (.with [2]), .own (.with [3]), .own (.with []), .own (.with []), .own (.with [])]

theorem face_statistics_delivered_marked : ∃ program t, faceJobRun = some (program, t) ∧
    program.result? = some [.done (.ok ()), .done (.ok ()), .done (.ok ()),
      .job (.ok ⟨[3, 1], [4, 5], [9, 6, 7]⟩), .done (.ok ()), .job (.ok ⟨[2], [5], [8]⟩)] ∧
    ∀ k, IsHistory k (history k t.log) := by
  obtain ⟨program, t, hrun, hresult⟩ : ∃ program t, faceJobRun = some (program, t) ∧
      program.result? = some [.done (.ok ()), .done (.ok ()), .done (.ok ()),
        .job (.ok ⟨[3, 1], [4, 5], [9, 6, 7]⟩), .done (.ok ()), .job (.ok ⟨[2], [5], [8]⟩)] :=
    ⟨_, _, rfl, rfl⟩
  obtain ⟨hinv, -⟩ := face_statistics_delivered (Serial.server_documented _) StoreInv.initial rfl hrun
  exact ⟨program, t, hrun, hresult, hinv.histories⟩

end AmpcCommon.Stats
