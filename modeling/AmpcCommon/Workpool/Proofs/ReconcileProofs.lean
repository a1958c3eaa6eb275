import AmpcCommon.Workpool.System
import AmpcCommon.Workpool.Proofs.ConnectionProofs

/-!
# Reconciliation after a reconnect

`StateChange` says once what a step of the workpool can do. The invariant `SystemInv` relates the job
tracker to the pairs of managers and workers; it is kept by every step as long as the job ids do not
wrap around.
-/

namespace AmpcCommon.Workpool

variable {Payload : Type} {n w : WorkerId} {s s' : State Payload} {t : JobTracker Payload}

/-- The tracker holds or sent the answer `r`. -/
def JobTracker.Recorded (t : JobTracker Payload) (r : WorkerRsp Payload) : Prop :=
  (∃ job, t.job? r.jobId = some job ∧ r ∈ job.values) ∨ ∃ rs, (r.jobId, rs) ∈ t.sent ∧ r ∈ rs

theorem PendingJob.mem_values {job : PendingJob Payload} {r : WorkerRsp Payload} :
    r ∈ job.values ↔ ∃ w, job.results.lookup w = some r := by
  unfold PendingJob.values
  rw [List.mem_map]
  constructor
  · rintro ⟨e, he, rfl⟩
    exact ⟨e.1, AList.mem_lookup_iff.mpr he⟩
  · rintro ⟨w, hw⟩
    exact ⟨⟨w, r⟩, AList.mem_lookup_iff.mp hw, rfl⟩

theorem PendingJob.mem_values_answer {job : PendingJob Payload} {r r' : WorkerRsp Payload}
    (h : r ∈ (job.answer r').values) : r = r' ∨ r ∈ job.values := by
  obtain ⟨w, hw⟩ := PendingJob.mem_values.mp h
  rw [PendingJob.lookup_answer] at hw
  split_ifs at hw with hww
  · cases hw
    exact Or.inl rfl
  · exact Or.inr (PendingJob.mem_values.mpr ⟨w, hw⟩)

/-- What a call adds to the records is an answer of a pending worker. -/
theorem TrackerCall.recorded_run {c : TrackerCall Payload} {r : WorkerRsp Payload}
    (h : (c.run t).2.Recorded r) :
    t.Recorded r ∨ c.Answers r.jobId r ∧
      ∃ job, t.job? r.jobId = some job ∧ r.workerId ∈ job.pending := by
  rcases h with ⟨job, hjob, hr⟩ | ⟨rs, hrs, hr⟩
  · rcases c.run_job?_cases t r.jobId with hsame | ⟨jobType, rfl, hreg⟩ |
      ⟨w, job', rfl, hjob', -, hset⟩ | ⟨r', job', hans, hjob', hw, hafter⟩ | ⟨-, hcancel⟩
    · rw [hsame] at hjob
      exact Or.inl (Or.inl ⟨job, hjob, hr⟩)
    · rw [hreg] at hjob
      cases hjob
      cases hr
    · rw [hset] at hjob
      cases hjob
      exact Or.inl (Or.inl ⟨job', hjob', hr⟩)
    · rw [hafter, PendingJob.afterAnswer] at hjob
      split_ifs at hjob
      cases hjob
      rcases PendingJob.mem_values_answer hr with rfl | hold
      · exact Or.inr ⟨hans, job', hjob', hw⟩
      · exact Or.inl (Or.inl ⟨job', hjob', hold⟩)
    · rw [hcancel] at hjob
      cases hjob
  · obtain ⟨new, hsent, -, hnew⟩ := c.run_sent t
    rw [hsent, List.mem_append] at hrs
    rcases hrs with hold | hadd
    · exact Or.inl (Or.inr ⟨rs, hold, hr⟩)
    · obtain ⟨job, r', hjob, hans, hw, hmem⟩ := (hnew _ _).mp hadd
      obtain ⟨-, rfl, -⟩ := PendingJob.mem_sentByAnswer.mp hmem
      rcases PendingJob.mem_values_answer hr with rfl | hold
      · exact Or.inr ⟨hans, job, hjob, hw⟩
      · exact Or.inl (Or.inl ⟨job, hjob, hold⟩)

/-- A call makes a worker pending only by `set_to_pending`. -/
theorem TrackerCall.pending_run {c : TrackerCall Payload} {j : JobId} {job : PendingJob Payload}
    (hjob : (c.run t).2.job? j = some job) (hw : w ∈ job.pending) :
    c = .setToPending j w ∨ ∃ job', t.job? j = some job' ∧ w ∈ job'.pending := by
  rcases c.run_job?_cases t j with hsame | ⟨jobType, rfl, hreg⟩ | ⟨w', job', rfl, hjob', -, hset⟩ |
    ⟨r', job', -, hjob', -, hafter⟩ | ⟨-, hcancel⟩
  · rw [hsame] at hjob
    exact Or.inr ⟨job, hjob, hw⟩
  · rw [hreg] at hjob
    cases hjob
    simp at hw
  · rw [hset] at hjob
    cases hjob
    rcases Finset.mem_insert.mp hw with rfl | hw
    · exact Or.inl rfl
    · exact Or.inr ⟨job', hjob', hw⟩
  · rw [hafter, PendingJob.afterAnswer] at hjob
    split_ifs at hjob
    cases hjob
    exact Or.inr ⟨job', hjob', Finset.mem_of_mem_erase hw⟩
  · rw [hcancel] at hjob
    cases hjob

/-- The workers of a job. -/
def Job.jobType (n : WorkerId) : Job Payload → JobType
  | .scatterGather _ msgs => .scatterGather (msgs.map Prod.fst).toFinset
  | _ => .broadcast n

/-- A worker of a job gets one message of it, and no other worker gets any. -/
theorem Job.messagesFor_spec {job : Job Payload} {j : JobId} (hsub : job.submits = some j)
    (hvalid : job.valid n) (w : WorkerId) :
    job.messagesFor n w = [] ∨
      ∃ payload, job.messagesFor n w = [.job j w payload] ∧ w ∈ (job.jobType n).workers := by
  cases job with
  | broadcast j' payload =>
    cases hsub
    unfold Job.messagesFor
    split_ifs with hw
    · exact Or.inr ⟨payload, rfl, Finset.mem_Iio.mpr hw⟩
    · exact Or.inl rfl
  | scatterGather j' msgs =>
    cases hsub
    obtain ⟨-, -, hnodup⟩ := hvalid
    simp only [Job.messagesFor]
    have hone : ∀ m ∈ msgs.filter (fun m => m.1 = w), m.1 = w := fun m hm => by
      simpa using (List.mem_filter.mp hm).2
    have hsub : ((msgs.filter (fun m => m.1 = w)).map Prod.fst).Nodup :=
      hnodup.sublist (List.filter_sublist.map _)
    cases hf : msgs.filter (fun m => m.1 = w) with
    | nil => exact Or.inl rfl
    | cons m rest =>
      rw [hf] at hone hsub
      have hm : m.1 = w := hone m (by simp)
      have hrest : rest = [] := by
        rcases rest with _ | ⟨m', rest⟩
        · rfl
        · have hm' : m'.1 = w := hone m' (by simp)
          simp [hm, hm'] at hsub
      have hmem : m ∈ msgs := (List.mem_filter.mp (hf ▸ List.mem_cons_self : m ∈ msgs.filter _)).1
      refine Or.inr ⟨m.2, ?_, ?_⟩
      · rw [hrest, ← hm, List.map_cons, List.map_nil]
      · exact List.mem_toFinset.mpr (List.mem_map.mpr ⟨m, hmem, hm⟩)
  | cancel j' => cases hsub

/-- Everything a step of the workpool can do. -/
inductive StateChange (n : WorkerId) (s : State Payload) : Action Payload → State Payload → Prop where
  | fetch :
      StateChange n s .fetchJobId { s with
        nextJobId := s.nextJobId + 1
        fetched := s.fetched ++ [Fin.ofNat _ s.nextJobId] }
  | submit (job : Job Payload) (j : JobId) (hsub : job.submits = some j) (hj : j ∈ s.fetched)
      (hvalid : job.valid n) :
      StateChange n s (.submit job)
        { s with fetched := s.fetched.erase j, jobRx := s.jobRx ++ [job] }
  | cancel (j : JobId) : StateChange n s (.cancel j) { s with jobRx := s.jobRx ++ [.cancel j] }
  | register (job : Job Payload) (j : JobId) (jobRx : List (Job Payload))
      (hrx : s.jobRx = job :: jobRx) (hsub : job.submits = some j) :
      StateChange n s .sendToWorkpool ({ s with jobRx := jobRx }.register n job j (job.jobType n))
  /-- A job is refused, or a cancellation finds no job. -/
  | reject (job : Job Payload) (jobRx : List (Job Payload)) (hrx : s.jobRx = job :: jobRx)
      (rejected : List (JobId × WorkpoolError)) :
      StateChange n s .sendToWorkpool { s with jobRx := jobRx, rejected := rejected }
  | cancelled (j : JobId) (jobRx : List (Job Payload)) (hrx : s.jobRx = .cancel j :: jobRx)
      (job : PendingJob Payload) (hjob : s.tracker.job? j = some job) :
      StateChange n s .sendToWorkpool { s with
        jobRx := jobRx
        tracker := (TrackerCall.run (.cancelJob j) s.tracker).2
        cancelled := s.cancelled ++ [j] }
  | record (r : WorkerRsp Payload) (rest : List (WorkerRsp Payload))
      (hrx : s.workerRspRx = r :: rest) :
      StateChange n s .recordResponse { s with
        workerRspRx := rest
        tracker := (TrackerCall.run (.recordResponse r) s.tracker).2 }
  | pair (w : WorkerId) (a : PairAction Payload) (q : Pair Payload) (e : Effect Payload)
      (hinv : PairInv w q) (hchange : PairChange w s.tracker (s.pair w) a q e) :
      StateChange n s (.pair w a)
        (({ s with pair := Function.update s.pair w q }.call e.call).respond e.response)

theorem State.step_change (hpairs : ∀ w, PairInv w (s.pair w)) {a : Action Payload}
    (h : s.step n a = some s') : StateChange n s a s' := by
  cases a with
  | fetchJobId =>
    cases h
    exact .fetch
  | submit job =>
    simp only [State.step] at h
    split at h
    next => cases h
    next j hsub =>
      split_ifs at h with hj
      cases h
      exact .submit job j hsub hj.1 hj.2
  | cancel j =>
    cases h
    exact .cancel j
  | sendToWorkpool =>
    simp only [State.step] at h
    split at h
    next => cases h
    next job jobRx hrx =>
      cases h
      cases job with
      | broadcast j payload => exact .register _ j jobRx hrx rfl
      | scatterGather j msgs =>
        simp only [State.sendToWorkpool]
        split
        next => exact .reject _ jobRx hrx _
        next => exact .register _ j jobRx hrx rfl
      | cancel j =>
        simp only [State.sendToWorkpool]
        rcases s.tracker.cancelJob_spec j with ⟨job, hjob, hok, -⟩ | ⟨-, msg, herr⟩
        · have : s.tracker.cancelJob j = (.ok (job.pending.sort (· ≤ ·)),
              (TrackerCall.run (.cancelJob j) s.tracker).2) := Prod.ext hok rfl
          rw [this]
          exact .cancelled j jobRx hrx job hjob
        · rw [herr]
          exact .reject _ jobRx hrx _
  | recordResponse =>
    simp only [State.step] at h
    split at h
    next => cases h
    next r rest hrx =>
      cases h
      exact .record r rest hrx
  | pair w a =>
    simp only [State.step] at h
    split_ifs at h
    obtain ⟨⟨q, e⟩, hstep, rfl⟩ := Option.map_eq_some_iff.mp h
    obtain ⟨hinv, hchange⟩ := (hpairs w).step hstep
    exact .pair w a q e hinv hchange

/-- All job ids that were handed out: of registered jobs, of jobs the leader task has not seen yet, and
of jobs that are not submitted yet. -/
def State.ids (s : State Payload) : List JobId :=
  s.registered.map Prod.fst ++ s.jobRx.filterMap Job.submits ++ s.fetched

/-- The invariant of the workpool. -/
structure SystemInv (n : WorkerId) (s : State Payload) : Prop where
  pairs : ∀ w, PairInv w (s.pair w)
  ids_nodup : s.ids.Nodup
  ids_lt : ∀ j ∈ s.ids, j.val < s.nextJobId
  jobs_valid : ∀ job ∈ s.jobRx, job.valid n
  pair_ids : ∀ w, ∀ j ∈ (s.pair w).taken ++ jobIds (s.pair w).cmdRx, j ∈ s.registered.map Prod.fst
  /-- A worker is pending only after its message was taken for writing. -/
  pending_taken : ∀ w j job, s.tracker.job? j = some job → w ∈ job.pending → j ∈ (s.pair w).taken
  /-- What a reconciliation has not decided yet is dropped or reported by the worker. -/
  validating : ∀ w l, (s.pair w).mgr = .validating l → ∀ j job, s.tracker.job? j = some job →
    w ∈ job.pending → j ∈ l ∨ j ∈ (s.pair w).pendingJobIds
  lost_taken : ∀ w j, s.tracker.Recorded (lostResponse w j) → j ∈ (s.pair w).taken

namespace SystemInv

theorem new : SystemInv n (State.new : State Payload) where
  pairs _ := PairInv.new
  ids_nodup := List.nodup_nil
  ids_lt := nofun
  jobs_valid := nofun
  pair_ids := nofun
  pending_taken := nofun
  validating := nofun
  lost_taken := by
    rintro w j (⟨_, h, _⟩ | ⟨_, h, _⟩)
    · cases h
    · cases h

/-- A job id that is still waiting for its registration is new to every pair. -/
theorem fresh (h : SystemInv n s) {job : Job Payload} {jobRx : List (Job Payload)} {j : JobId}
    (hrx : s.jobRx = job :: jobRx) (hsub : job.submits = some j) :
    j ∉ s.registered.map Prod.fst := by
  have hnodup := h.ids_nodup
  unfold State.ids at hnodup
  rw [hrx, List.filterMap_cons, hsub] at hnodup
  intro hj
  exact List.disjoint_of_nodup_append (List.nodup_append.mp hnodup).1 hj (by simp)

/-- Queues of the leader can change as long as the job ids stay the same or get lost. -/
theorem setQueues (h : SystemInv n s) {nextJobId : Nat} {fetched : List JobId}
    {jobRx : List (Job Payload)} {workerRspRx forwarded : List (WorkerRsp Payload)}
    {cancelled : List JobId} {rejected : List (JobId × WorkpoolError)}
    (hids : (s.registered.map Prod.fst ++ jobRx.filterMap Job.submits ++ fetched).Nodup)
    (hlt : ∀ j ∈ s.registered.map Prod.fst ++ jobRx.filterMap Job.submits ++ fetched,
      j.val < nextJobId)
    (hvalid : ∀ job ∈ jobRx, job.valid n) :
    SystemInv n { s with
      nextJobId := nextJobId, fetched := fetched, jobRx := jobRx, workerRspRx := workerRspRx,
      forwarded := forwarded, cancelled := cancelled, rejected := rejected } :=
  { h with ids_nodup := hids, ids_lt := hlt, jobs_valid := hvalid }

/-- The leader task takes a job that it does not register. -/
theorem popJob (h : SystemInv n s) {job : Job Payload} {jobRx : List (Job Payload)}
    (hrx : s.jobRx = job :: jobRx) (cancelled : List JobId)
    (rejected : List (JobId × WorkpoolError)) :
    SystemInv n { s with jobRx := jobRx, cancelled := cancelled, rejected := rejected } := by
  have hsub : (s.registered.map Prod.fst ++ jobRx.filterMap Job.submits ++ s.fetched).Sublist
      s.ids := by
    refine ((List.Sublist.refl _).append (List.Sublist.filterMap _ ?_)).append (List.Sublist.refl _)
    rw [hrx]
    exact List.sublist_cons_self _ _
  exact h.setQueues (h.ids_nodup.sublist hsub) (fun j hj => h.ids_lt j (hsub.subset hj))
    fun job' hjob' => h.jobs_valid job' (by rw [hrx]; exact List.mem_cons_of_mem _ hjob')

theorem fetch (h : SystemInv n s) (hnext : s.nextJobId < 2 ^ 32) :
    SystemInv n { s with
      nextJobId := s.nextJobId + 1
      fetched := s.fetched ++ [Fin.ofNat _ s.nextJobId] } := by
  have hval : (Fin.ofNat (2 ^ 32) s.nextJobId).val = s.nextJobId := Nat.mod_eq_of_lt hnext
  refine h.setQueues ?_ ?_ h.jobs_valid
  · rw [← List.append_assoc]
    refine h.ids_nodup.append (List.nodup_singleton _) fun j hj hj' => ?_
    have hlt := h.ids_lt j hj
    rw [List.mem_singleton.mp hj', hval] at hlt
    exact lt_irrefl _ hlt
  · intro j hj
    rw [← List.append_assoc] at hj
    rcases List.mem_append.mp hj with hj | hj
    · exact Nat.lt_succ_of_lt (h.ids_lt j hj)
    · rw [List.mem_singleton.mp hj, hval]
      exact Nat.lt_succ_self _

theorem submit (h : SystemInv n s) {job : Job Payload} {j : JobId} (hsub : job.submits = some j)
    (hj : j ∈ s.fetched) (hvalid : job.valid n) :
    SystemInv n { s with fetched := s.fetched.erase j, jobRx := s.jobRx ++ [job] } := by
  have hperm : (s.registered.map Prod.fst ++ (s.jobRx ++ [job]).filterMap Job.submits ++
      s.fetched.erase j).Perm s.ids := by
    have := (List.perm_cons_erase hj).symm.append_left
      (s.registered.map Prod.fst ++ s.jobRx.filterMap Job.submits)
    simpa [State.ids, hsub] using this
  refine h.setQueues (hperm.nodup_iff.mpr h.ids_nodup)
    (fun i hi => h.ids_lt i (hperm.subset hi)) fun job' hjob' => ?_
  rcases List.mem_append.mp hjob' with hjob' | hjob'
  · exact h.jobs_valid job' hjob'
  · rw [List.mem_singleton.mp hjob']
    exact hvalid

/-- Any call of the tracker, where only a manager in its traffic loop makes a worker pending. -/
theorem call (h : SystemInv n s) (c : TrackerCall Payload)
    (hset : ∀ j w, c = .setToPending j w → j ∈ (s.pair w).taken ∧ (s.pair w).mgr = .traffic) :
    SystemInv n { s with tracker := (c.run s.tracker).2 } :=
  { h with
    pending_taken := fun w j job hjob hw => by
      rcases TrackerCall.pending_run hjob hw with hc | ⟨job', hjob', hw'⟩
      · exact (hset j w hc).1
      · exact h.pending_taken w j job' hjob' hw'
    validating := fun w l hl j job hjob hw => by
      rcases TrackerCall.pending_run hjob hw with hc | ⟨job', hjob', hw'⟩
      · have hl' : (s.pair w).mgr = .validating l := hl
        rw [(hset j w hc).2] at hl'
        cases hl'
      · exact h.validating w l hl j job' hjob' hw'
    lost_taken := fun w j hr => by
      rcases TrackerCall.recorded_run hr with hold | ⟨-, job, hjob, hw⟩
      · exact h.lost_taken w j hold
      · exact h.pending_taken w j job hjob hw }

theorem updatePair (h : SystemInv n s) {q : Pair Payload} (hq : PairInv w q)
    (htaken : ∀ j ∈ (s.pair w).taken, j ∈ q.taken)
    (hids : ∀ j ∈ q.taken ++ jobIds q.cmdRx, j ∈ s.registered.map Prod.fst)
    (hval : ∀ l, q.mgr = .validating l → ∀ j job, s.tracker.job? j = some job →
      w ∈ job.pending → j ∈ l ∨ j ∈ q.pendingJobIds) :
    SystemInv n { s with pair := Function.update s.pair w q } := by
  have hcases : ∀ {P : WorkerId → Pair Payload → Prop}, P w q → (∀ v, P v (s.pair v)) →
      ∀ v, P v (Function.update s.pair w q v) := by
    intro P hw hother v
    by_cases hv : v = w
    · subst hv
      rw [Function.update_self]
      exact hw
    · rw [Function.update_of_ne hv]
      exact hother v
  exact
    { h with
      pairs := hcases hq h.pairs
      pair_ids := hcases (P := fun _ q => ∀ j ∈ q.taken ++ jobIds q.cmdRx,
        j ∈ s.registered.map Prod.fst) hids h.pair_ids
      pending_taken := hcases (P := fun v q => ∀ j job, s.tracker.job? j = some job →
        v ∈ job.pending → j ∈ q.taken)
        (fun j job hjob hw => htaken j (h.pending_taken w j job hjob hw)) h.pending_taken
      validating := hcases (P := fun v q => ∀ l, q.mgr = .validating l → ∀ j job,
        s.tracker.job? j = some job → v ∈ job.pending → j ∈ l ∨ j ∈ q.pendingJobIds)
        hval h.validating
      lost_taken := hcases (P := fun v q => ∀ j, s.tracker.Recorded (lostResponse v j) →
        j ∈ q.taken) (fun j hj => htaken j (h.lost_taken w j hj)) h.lost_taken }

/-- The messages of a registered job are new to the command queues they are put into. -/
theorem enqueue {p : Pair Payload} (hp : PairInv w p) {j : JobId} {msgs : List (NetworkValue Payload)}
    (hmsgs : msgs = [] ∨ ∃ payload, msgs = [.job j w payload])
    (hj : j ∉ p.taken ++ jobIds p.cmdRx) : PairInv w { p with cmdRx := p.cmdRx ++ msgs } := by
  rcases hmsgs with rfl | ⟨payload, rfl⟩
  · rw [List.append_nil]
    exact hp
  · exact
      { hp with
        cmd_jobs := fun m hm => by
          rcases List.mem_append.mp hm with hm | hm
          · exact hp.cmd_jobs m hm
          · exact ⟨j, payload, List.mem_singleton.mp hm⟩
        taken_nodup := by
          rw [jobIds_append, ← List.append_assoc]
          refine hp.taken_nodup.append (List.nodup_singleton j) fun i hi hij => ?_
          cases List.mem_singleton.mp hij
          exact hj hi }

theorem register (h : SystemInv n s) {job : Job Payload} {jobRx : List (Job Payload)} {j : JobId}
    (hrx : s.jobRx = job :: jobRx) (hsub : job.submits = some j) :
    SystemInv n ({ s with jobRx := jobRx }.register n job j (job.jobType n)) := by
  have hfresh := h.fresh hrx hsub
  have hvalid := h.jobs_valid job (by simp [hrx])
  have hmsgs := fun w => Job.messagesFor_spec hsub hvalid w
  have hids : s.registered.map Prod.fst ++ [j] ++ jobRx.filterMap Job.submits ++ s.fetched =
      s.ids := by
    simp [State.ids, hrx, hsub]
  have htracker := (h.popJob hrx s.cancelled s.rejected).call
    (.registerJob j (job.jobType n)) nofun
  exact
    { htracker with
      pairs := fun w => by
        refine enqueue (j := j) (h.pairs w) ?_ fun hj => hfresh (h.pair_ids w j hj)
        rcases hmsgs w with he | ⟨payload, he, -⟩
        · exact Or.inl he
        · exact Or.inr ⟨payload, he⟩
      ids_nodup := by
        simpa [State.ids, State.register, hrx, hsub] using h.ids_nodup
      ids_lt := fun i hi => by
        refine h.ids_lt i ?_
        rw [← hids]
        simpa [State.ids, State.register] using hi
      pair_ids := fun w i hi => by
        have hreg : ({ s with jobRx := jobRx }.register n job j (job.jobType n)).registered.map
            Prod.fst = s.registered.map Prod.fst ++ [j] := by
          simp [State.register]
        rw [hreg]
        have hi' : i ∈ (s.pair w).taken ++ (jobIds (s.pair w).cmdRx ++
            jobIds (job.messagesFor n w)) := by
          rw [← jobIds_append]
          exact hi
        rw [← List.append_assoc] at hi'
        rcases List.mem_append.mp hi' with hi' | hi'
        · exact List.mem_append_left _ (h.pair_ids w i hi')
        · rcases hmsgs w with he | ⟨payload, he, -⟩
          · rw [he] at hi'
            cases hi'
          · rw [he] at hi'
            exact List.mem_append_right _ hi' }

/-- Every step keeps the invariant, as long as the job ids do not wrap around. -/
theorem step (h : SystemInv n s) {a : Action Payload} (hnext : a = .fetchJobId → s.nextJobId < 2 ^ 32)
    (hs : StateChange n s a s') : SystemInv n s' := by
  cases hs with
  | fetch => exact h.fetch (hnext rfl)
  | submit job j hsub hj hvalid => exact h.submit hsub hj hvalid
  | cancel j =>
    have hids : (s.jobRx ++ [Job.cancel j]).filterMap Job.submits =
        s.jobRx.filterMap Job.submits := by
      rw [List.filterMap_append]
      exact List.append_nil _
    refine h.setQueues ?_ ?_ fun job hjob => ?_
    · rw [hids]
      exact h.ids_nodup
    · rw [hids]
      exact h.ids_lt
    · rcases List.mem_append.mp hjob with hjob | hjob
      · exact h.jobs_valid job hjob
      · rw [List.mem_singleton.mp hjob]
        trivial
  | register job j jobRx hrx hsub => exact h.register hrx hsub
  | reject job jobRx hrx rejected => exact h.popJob hrx s.cancelled rejected
  | cancelled j jobRx hrx job hjob => exact (h.popJob hrx (s.cancelled ++ [j]) s.rejected).call (.cancelJob j) nofun
  | record r rest hrx =>
    exact (h.call (.recordResponse r) nofun).setQueues h.ids_nodup h.ids_lt h.jobs_valid
  | pair w a q e hinv hchange =>
    cases hchange with
    | quiet _ _ htaken hcmd hfwd hin hval =>
      refine h.updatePair hinv (fun j hj => htaken ▸ hj) (fun j hj => ?_) fun l hl j job hjob hw => ?_
      · rw [htaken, hcmd] at hj
        exact h.pair_ids w j hj
      · rcases hval l hl with ⟨hp, hids⟩ | hdropped
        · rw [hids]
          exact h.validating w l hp j job hjob hw
        · rw [hdropped, JobTracker.mem_droppedJobs]
          by_cases hj : j ∈ q.pendingJobIds
          · exact Or.inr hj
          · exact Or.inl ⟨job, hjob, hw, hj⟩
    | take j payload cmdRx hmgr hcmd =>
      have hpair := h.updatePair hinv (fun i hi => List.mem_append_left _ hi) (fun i hi => by
        refine h.pair_ids w i ?_
        rw [hcmd, jobIds_job]
        simpa using hi) fun l hl => by
        rw [hmgr] at hl
        cases hl
      refine hpair.call (.setToPending j w) fun j' w' hc => ?_
      cases hc
      simp [hmgr]
    | lose j dropped hmgr hj =>
      refine (h.call (.recordResponse (lostResponse w j)) nofun).updatePair hinv (fun i hi => hi)
        (h.pair_ids w) fun l hl i job hjob hw => ?_
      cases hl
      rcases TrackerCall.pending_run hjob hw with hc | ⟨job', hjob', hw'⟩
      · cases hc
      rcases h.validating w dropped hmgr i job' hjob' hw' with hi | hi
      · by_cases hij : i = j
        · -- the worker is not pending any more for the job that was just recorded as lost
          subst hij
          rcases s.tracker.recordResponse_spec (lostResponse w i) with
            ⟨job'', hjob'', -, -, -, hjobs⟩ | ⟨hno, msg, herr⟩
          · have hafter := hjobs i
            rw [lostResponse_jobId, if_pos rfl, PendingJob.afterAnswer] at hafter
            have hjob : (s.tracker.recordResponse (lostResponse w i)).2.job? i = some job := hjob
            rw [hafter] at hjob
            split_ifs at hjob
            cases hjob
            simp [PendingJob.answer] at hw
          · exact absurd hw' (hno job' hjob')
        · exact Or.inl ((List.mem_erase_of_ne hij).mpr hi)
      · exact Or.inr hi
    | forward j payload up hmgr hup =>
      have hpair := h.updatePair hinv (fun i hi => hi) (h.pair_ids w) fun l hl => by
        rw [hmgr] at hl
        cases hl
      exact hpair.setQueues h.ids_nodup h.ids_lt h.jobs_valid

end SystemInv

/-- Job ids are only handed out, never taken back. -/
theorem State.step_nextJobId_le {a : Action Payload} (h : s.step n a = some s') :
    s.nextJobId ≤ s'.nextJobId := by
  cases a with
  | fetchJobId =>
    cases h
    exact Nat.le_succ _
  | submit job =>
    simp only [State.step] at h
    split at h
    next => cases h
    next =>
      split_ifs at h
      cases h
      exact le_refl _
  | cancel j =>
    cases h
    exact le_refl _
  | sendToWorkpool =>
    simp only [State.step] at h
    split at h
    next => cases h
    next job jobRx hrx =>
      cases h
      unfold State.sendToWorkpool
      split
      · exact le_refl _
      · split <;> exact le_refl _
      · split <;> exact le_refl _
  | recordResponse =>
    simp only [State.step] at h
    split at h
    next => cases h
    next =>
      cases h
      exact le_refl _
  | pair w a =>
    simp only [State.step] at h
    split_ifs at h
    obtain ⟨⟨q, e⟩, -, rfl⟩ := Option.map_eq_some_iff.mp h
    rcases e with ⟨_ | c, _ | r⟩ <;> exact le_refl _

/-- The invariant holds in every state the workpool reaches before its job ids wrap around. -/
theorem systemInv_run {as : List (Action Payload)}
    (hrun : Transition.run (State.step n) State.new as = some s) (hjobs : s.nextJobId ≤ 2 ^ 32) :
    SystemInv n s := by
  have hstep : ∀ (s : State Payload) (a : Action Payload) (t : State Payload),
      s.step n a = some t → (s.nextJobId ≤ 2 ^ 32 → SystemInv n s) →
      t.nextJobId ≤ 2 ^ 32 → SystemInv n t := by
    intro s a t ht hs hle
    have hinv := hs (le_trans (State.step_nextJobId_le ht) hle)
    refine hinv.step (fun ha => ?_) (State.step_change hinv.pairs ht)
    subst ha
    cases ht
    exact hle
  exact Transition.run_invariant (I := fun s => s.nextJobId ≤ 2 ^ 32 → SystemInv n s) hstep hrun
    (fun _ => SystemInv.new) hjobs

/-- **Reconciliation is sound.** In every state that is reached with at most `2 ^ 32` job ids handed out:
no job was put into the job queue of a worker twice; `JobsLost` is recorded only for jobs that were taken
from the command queue of the worker for writing, and so for none that is still queued there; and after
a step in which `validate_pending_jobs` returns for a new connection, every job that still has the worker
pending is pending at the worker, or its response was taken by the worker for writing to this
connection. -/
theorem reconciliation_sound (n : WorkerId) (as : List (Action Payload)) (s : State Payload)
    (hrun : Transition.run (State.step n) State.new as = some s) (hjobs : s.nextJobId ≤ 2 ^ 32)
    (w : WorkerId) :
    (s.pair w).handed.Nodup ∧
    (∀ j, s.tracker.Recorded (lostResponse w j) →
      j ∈ (s.pair w).taken ∧ j ∉ jobIds (s.pair w).cmdRx) ∧
    ∀ t, s.step n (.pair w .validated) = some t → ∀ j job, t.tracker.job? j = some job →
      w ∈ job.pending → j ∈ (t.pair w).pendingJobs ∨ j ∈ (t.pair w).answered := by
  have h := systemInv_run hrun hjobs
  have hp := h.pairs w
  refine ⟨?_, fun j hj => ?_, fun t ht j job hjob hw => ?_⟩
  · have hsent := hp.sent_nodup
    unfold Pair.sent at hsent
    exact (List.nodup_append.mp (List.nodup_append.mp hsent).1).1
  · have htaken := h.lost_taken w j hj
    exact ⟨htaken, List.disjoint_of_nodup_append hp.taken_nodup htaken⟩
  · simp only [State.step, Pair.step] at ht
    split_ifs at ht with hlt hmgr
    · cases ht
      have hpair : ∀ v, Function.update s.pair w { s.pair w with mgr := .traffic } w = v →
          v.pendingJobs = (s.pair w).pendingJobs ∧ v.answered = (s.pair w).answered := by
        rintro v rfl
        rw [Function.update_self]
        exact ⟨rfl, rfl⟩
      obtain ⟨hpending, hanswered⟩ := hpair _ rfl
      have hsnap : j ∈ (s.pair w).pendingJobIds := by
        rcases h.validating w [] hmgr j job hjob hw with hj | hj
        · cases hj
        · exact hj
      show j ∈ (Function.update s.pair w { s.pair w with mgr := .traffic } w).pendingJobs ∨
        j ∈ (Function.update s.pair w { s.pair w with mgr := .traffic } w).answered
      rw [hpending, hanswered]
      exact hp.snapshot (by rw [hmgr]; trivial) j hsnap
    · cases ht

/-- A handshake, up to the collection of the dropped jobs. -/
def handshakeSteps (w : WorkerId) : List (Action Unit) :=
  [.pair w .connect, .pair w .request, .pair w .answer, .pair w .readReply, .pair w .collect]

/-- Worker 0 receives a job and then loses its connection. -/
def reconnectSteps : List (Action Unit) :=
  [.fetchJobId, .submit (.scatterGather 0 [(0, ())]), .sendToWorkpool] ++ handshakeSteps 0 ++
    [.pair 0 .validated, .pair 0 .mgrTake, .pair 0 .mgrWrite, .pair 0 .receive, .pair 0 (.cut 0 0),
      .pair 0 .mgrClose, .pair 0 .workerClose] ++ handshakeSteps 0

theorem reconciliation_sound_reconnect :
    ∃ s t, Transition.run (State.step 1) State.new reconnectSteps = some s ∧
      s.step 1 (.pair 0 .validated) = some t ∧ (s.pair 0).handed.Nodup ∧
      ∀ job, t.tracker.job? 0 = some job → 0 ∈ job.pending →
        0 ∈ (t.pair 0).pendingJobs ∨ 0 ∈ (t.pair 0).answered := by
  have hids : (Transition.run (State.step 1) State.new reconnectSteps).map (·.nextJobId) =
      some 1 := rfl
  have hstep : ((Transition.run (State.step 1) State.new reconnectSteps).bind
      (·.step 1 (.pair 0 .validated))).isSome = true := rfl
  obtain ⟨t, ht⟩ := Option.isSome_iff_exists.mp hstep
  obtain ⟨s, hs, hval⟩ := Option.bind_eq_some_iff.mp ht
  rw [hs] at hids
  have hnext : s.nextJobId = 1 := Option.some.inj hids
  obtain ⟨hnodup, -, hpending⟩ := reconciliation_sound 1 reconnectSteps s hs (by rw [hnext]; decide) 0
  exact ⟨s, t, hs, hval, hnodup, hpending t hval 0⟩

end AmpcCommon.Workpool
