import AmpcCommon.Workpool.Proofs.ReconcileProofs

/-!
# Responses and losses

A response that a manager put into the response channel waits there until the leader task records it. In
the meantime its worker still counts as pending, so a reconciliation can record the job as lost. The
results of a job are right in every run in which this does not happen (`response_not_lost`), and
`response_replaced` is a run in which it does.
-/

namespace AmpcCommon.Workpool

variable {Payload : Type} {n w : WorkerId} {s s' : State Payload} {t : JobTracker Payload}
  {j : JobId} {r : WorkerRsp Payload} {c : TrackerCall Payload}

namespace JobTracker

/-- The tracker waits for an answer of the worker, whether the job was sent to it or not. -/
def Waits (t : JobTracker Payload) (w : WorkerId) (j : JobId) : Prop :=
  ∃ job, t.job? j = some job ∧ w ∈ job.registered ∪ job.pending

/-- The tracker takes an answer of the worker now. -/
def Expects (t : JobTracker Payload) (w : WorkerId) (j : JobId) : Prop :=
  ∃ job, t.job? j = some job ∧ w ∈ job.pending

instance (t : JobTracker Payload) (w : WorkerId) (j : JobId) : Decidable (t.Expects w j) :=
  match h : t.job? j with
  | none => isFalse (by simp [Expects, h])
  | some job => decidable_of_iff (w ∈ job.pending) (by simp [Expects, h])

/-- Only an answer of the worker, a registration or a cancellation ends the wait. -/
theorem Waits.run (h : t.Waits w j) (c : TrackerCall Payload) :
    (c.run t).2.Waits w j ∨ (∃ r, c.Answers j r ∧ r.workerId = w ∧ t.Expects w j) ∨
      (∃ jobType, c = .registerJob j jobType) ∨ c = .cancelJob j := by
  obtain ⟨job, hjob, hw⟩ := h
  rcases c.run_job?_cases t j with hsame | ⟨jobType, rfl, -⟩ | ⟨v, job', rfl, hjob', hv, hset⟩ |
    ⟨r, job', hans, hjob', hr, hafter⟩ | ⟨rfl, -⟩
  · exact Or.inl ⟨job, hsame.trans hjob, hw⟩
  · exact Or.inr (Or.inr (Or.inl ⟨jobType, rfl⟩))
  · rw [hjob] at hjob'
    cases hjob'
    refine Or.inl ⟨_, hset, ?_⟩
    by_cases hvw : w = v
    · subst hvw
      simp
    · simpa [hvw] using hw
  · rw [hjob] at hjob'
    cases hjob'
    by_cases hrw : r.workerId = w
    · exact Or.inr (Or.inl ⟨r, hans, hrw, job, hjob, hrw ▸ hr⟩)
    · -- the job has another worker to wait for, so it is still tracked
      have hw' : w ∈ (job.answer r).registered ∪ (job.answer r).pending := by
        simpa [PendingJob.answer, Ne.symm hrw] using hw
      refine Or.inl ⟨job.answer r, ?_, hw'⟩
      rw [hafter, PendingJob.afterAnswer, if_neg]
      rintro ⟨hp, hreg⟩
      rw [hp, hreg] at hw'
      simp at hw'
  · exact Or.inr (Or.inr (Or.inr rfl))

/-- An answer that was recorded stays so, until its job is cancelled. -/
theorem Recorded.run {regs : List (JobId × Finset WorkerId)} (hinv : TrackerInv regs t)
    (h : t.Recorded r) (c : TrackerCall Payload) :
    (c.run t).2.Recorded r ∨ (∃ jobType, c = .registerJob r.jobId jobType) ∨
      c = .cancelJob r.jobId := by
  obtain ⟨new, hsent, -, hnew⟩ := c.run_sent t
  rcases h with ⟨job, hjob, hr⟩ | ⟨rs, hrs, hr⟩
  · rcases c.run_job?_cases t r.jobId with hsame | ⟨jobType, rfl, -⟩ |
      ⟨v, job', rfl, hjob', -, hset⟩ | ⟨r', job', hans, hjob', hr', hafter⟩ | ⟨rfl, -⟩
    · exact Or.inl (Or.inl ⟨job, hsame.trans hjob, hr⟩)
    · exact Or.inr (Or.inl ⟨jobType, rfl⟩)
    · rw [hjob] at hjob'
      cases hjob'
      exact Or.inl (Or.inl ⟨_, hset, hr⟩)
    · rw [hjob] at hjob'
      cases hjob'
      obtain ⟨ws, -, hjobInv⟩ := hinv.tracked _ _ hjob
      -- the answer of another worker does not replace this one
      have hkept : r ∈ (job.answer r').values := by
        obtain ⟨v, hv⟩ := PendingJob.mem_values.mp hr
        refine PendingJob.mem_values.mpr ⟨v, ?_⟩
        have hne : v ≠ r'.workerId := by
          rintro rfl
          have hkey : r'.workerId ∈ job.results.keys :=
            AList.mem_keys.mpr (AList.lookup_isSome.mp (by rw [hv]; rfl))
          exact Finset.disjoint_left.mp hjobInv.pending_results hr' (List.mem_toFinset.mpr hkey)
        rw [PendingJob.lookup_answer, if_neg hne]
        exact hv
      by_cases hlast : (job.answer r').pending = ∅ ∧ (job.answer r').registered = ∅
      · refine Or.inl (Or.inr ⟨(job.answer r').values, ?_, hkept⟩)
        rw [hsent]
        refine List.mem_append_right _ ((hnew _ _).mpr ⟨job, r', hjob, hans, hr', ?_⟩)
        exact PendingJob.mem_sentByAnswer.mpr ⟨hans.jobId_eq.symm, rfl, hlast⟩
      · refine Or.inl (Or.inl ⟨job.answer r', ?_, hkept⟩)
        rw [hafter, PendingJob.afterAnswer, if_neg hlast]
    · exact Or.inr (Or.inr rfl)
  · refine Or.inl (Or.inr ⟨rs, ?_, hr⟩)
    rw [hsent]
    exact List.mem_append_left _ hrs

/-- An expected answer is recorded. -/
theorem recorded_recordResponse (h : t.Expects r.workerId r.jobId) :
    (TrackerCall.run (.recordResponse r) t).2.Recorded r := by
  obtain ⟨job, hjob, hw⟩ := h
  rcases t.recordResponse_spec r with ⟨job', hjob', -, -, hsent, hjobs⟩ | ⟨hno, -⟩
  · rw [hjob] at hjob'
    cases hjob'
    have hmem : r ∈ (job.answer r).values :=
      PendingJob.mem_values.mpr ⟨r.workerId, by rw [PendingJob.lookup_answer, if_pos rfl]⟩
    by_cases hlast : (job.answer r).pending = ∅ ∧ (job.answer r).registered = ∅
    · refine Or.inr ⟨(job.answer r).values, ?_, hmem⟩
      show (r.jobId, _) ∈ (t.recordResponse r).2.sent
      rw [hsent]
      exact List.mem_append_right _ (PendingJob.mem_sentByAnswer.mpr ⟨rfl, rfl, hlast⟩)
    · refine Or.inl ⟨job.answer r, ?_, hmem⟩
      show (t.recordResponse r).2.job? r.jobId = _
      rw [hjobs, if_pos rfl, PendingJob.afterAnswer, if_neg hlast]
  · exact absurd hw (hno job hjob)

end JobTracker

namespace PairInv

variable {p : Pair Payload}

theorem handed_taken (h : PairInv w p) (hj : j ∈ p.handed) : j ∈ p.taken :=
  h.sent_taken j (List.mem_append_left _ (List.mem_append_left _ hj))

theorem inflight_taken (h : PairInv w p) (hj : j ∈ p.inflight) : j ∈ p.taken := by
  unfold Pair.inflight at hj
  rcases List.mem_append.mp hj with hj | hj
  · refine h.sent_taken j ?_
    unfold Pair.sent
    rcases List.mem_append.mp hj with hj | hj
    · exact List.mem_append_right _ hj
    · exact List.mem_append_left _ (List.mem_append_right _ hj)
  · exact h.handed_taken (h.unanswered_handed j (List.mem_append_right _ hj))

theorem forwarded_taken (h : PairInv w p) (hj : j ∈ p.forwarded) : j ∈ p.taken :=
  h.handed_taken (h.unanswered_handed j (List.mem_append_left _ hj))

/-- A response that was forwarded is not on its way any more. -/
theorem forwarded_not_inflight (h : PairInv w p) (hj : j ∈ p.forwarded) : j ∉ p.inflight := by
  have hhanded := h.unanswered_handed j (List.mem_append_left _ hj)
  have hsent := h.sent_nodup
  unfold Pair.sent at hsent
  rw [List.append_assoc] at hsent
  intro hin
  unfold Pair.inflight at hin
  rcases List.mem_append.mp hin with hin | hin
  · refine List.disjoint_of_nodup_append hsent hhanded ?_
    rcases List.mem_append.mp hin with hin | hin
    · exact List.mem_append_right _ hin
    · exact List.mem_append_left _ hin
  · exact List.disjoint_of_nodup_append h.unanswered_nodup hj hin

/-- A job that a reconciliation found to be dropped is not on its way any more. -/
theorem dropped_not_inflight (h : PairInv w p) {dropped : List JobId}
    (hmgr : p.mgr = .validating dropped) (hj : j ∈ dropped) : j ∉ p.inflight := by
  have hh : p.mgr.Handshaking := by
    rw [hmgr]
    trivial
  have hbatch : p.mgrBatch = [] := h.mgrBatch_nil (by simp [hmgr])
  intro hin
  unfold Pair.inflight at hin
  rw [hbatch, h.down_jobs hh] at hin
  exact h.validating dropped hmgr j hj (h.unanswered_snapshot hh j hin)

end PairInv

/-- What the leader knows about the responses of its workers. -/
structure ResponseInv (s : State Payload) : Prop where
  tracker : TrackerInv s.registered s.tracker
  cancelled : ∀ j ∈ s.cancelled, s.tracker.job? j = none ∧ ∀ rs, (j, rs) ∉ s.tracker.sent
  cancelled_registered : ∀ j ∈ s.cancelled, j ∈ s.registered.map Prod.fst
  /-- A worker stays registered only as long as its message is queued. -/
  registered : ∀ w j job, s.tracker.job? j = some job → w ∈ job.registered → j ∉ (s.pair w).taken
  /-- The tracker waits for everything that is queued or on its way. -/
  waits : ∀ w, ∀ j ∈ jobIds (s.pair w).cmdRx ++ (s.pair w).inflight,
    s.tracker.Waits w j ∨ j ∈ s.cancelled
  responses : ∀ r ∈ s.workerRspRx, s.tracker.Waits r.workerId r.jobId ∨ r.jobId ∈ s.cancelled
  channel : s.workerRspRx.IsSuffix s.forwarded
  forwarded_nodup : (s.forwarded.map fun r => (r.workerId, r.jobId)).Nodup
  forwarded_pair : ∀ r ∈ s.forwarded, r.jobId ∈ (s.pair r.workerId).forwarded
  forwarded_ok : ∀ r ∈ s.forwarded, ∃ payload, r.payload = .ok payload
  /-- No response is lost. -/
  accounted : ∀ r ∈ s.forwarded,
    r ∈ s.workerRspRx ∨ s.tracker.Recorded r ∨ r.jobId ∈ s.cancelled

namespace ResponseInv

theorem new : ResponseInv (State.new : State Payload) where
  tracker :=
    { tracked := nofun
      sent := nofun
      once := List.nodup_nil }
  cancelled := nofun
  cancelled_registered := nofun
  registered := nofun
  waits := nofun
  responses := nofun
  channel := List.suffix_refl _
  forwarded_nodup := List.nodup_nil
  forwarded_pair := nofun
  forwarded_ok := nofun
  accounted := nofun

/-- A job that was taken for writing is pending, not registered. -/
theorem expects_of_waits (h : ResponseInv s) (hw : s.tracker.Waits w j)
    (hj : j ∈ (s.pair w).taken) : s.tracker.Expects w j := by
  obtain ⟨job, hjob, hmem⟩ := hw
  rcases Finset.mem_union.mp hmem with hreg | hpend
  · exact absurd hj (h.registered w j job hjob hreg)
  · exact ⟨job, hjob, hpend⟩

/-- A call that answers, or makes pending, workers none of whose other messages are on their way. The
response channel may lose responses that are recorded afterwards. -/
theorem call (h : ResponseInv s) (c : TrackerCall Payload) (hreg : c.registers = none)
    (hcancel : ∀ j, c ≠ .cancelJob j) {rest : List (WorkerRsp Payload)}
    (hrest : rest.IsSuffix s.workerRspRx)
    (hpop : ∀ r ∈ s.workerRspRx,
      r ∈ rest ∨ (c.run s.tracker).2.Recorded r ∨ r.jobId ∈ s.cancelled)
    (hlive : ∀ j r, c.Answers j r → s.tracker.Expects r.workerId j →
      j ∉ jobIds (s.pair r.workerId).cmdRx ++ (s.pair r.workerId).inflight)
    (hrsp : ∀ j r, c.Answers j r → s.tracker.Expects r.workerId j →
      ∀ r' ∈ rest, r'.workerId = r.workerId → r'.jobId ≠ j) :
    ResponseInv { s with tracker := (c.run s.tracker).2, workerRspRx := rest } := by
  have hwaits : ∀ {w j}, s.tracker.Waits w j ∨ j ∈ s.cancelled →
      (∀ r, c.Answers j r → s.tracker.Expects w j → r.workerId = w → False) →
      (c.run s.tracker).2.Waits w j ∨ j ∈ s.cancelled := by
    intro w j hor hno
    rcases hor with hw | hcan
    · rcases hw.run c with hw | ⟨r, hans, hrw, hexp⟩ | ⟨jobType, rfl⟩ | hc
      · exact Or.inl hw
      · exact (hno r hans hexp hrw).elim
      · cases hreg
      · exact absurd hc (hcancel j)
    · exact Or.inr hcan
  obtain ⟨new, hsent, -, hnew⟩ := c.run_sent s.tracker
  exact
    { h with
      tracker := by
        have := h.tracker.run c (by simp [hreg])
        simpa [hreg] using this
      cancelled := fun j hj => by
        obtain ⟨hnone, hns⟩ := h.cancelled j hj
        refine ⟨?_, fun rs hrs => ?_⟩
        · rcases c.run_job?_cases s.tracker j with hsame | ⟨jobType, rfl, -⟩ | ⟨v, job', rfl, hjob', -⟩ |
            ⟨r', job', -, hjob', -⟩ | ⟨-, hgone⟩
          · exact hsame.trans hnone
          · cases hreg
          · rw [hnone] at hjob'
            cases hjob'
          · rw [hnone] at hjob'
            cases hjob'
          · exact hgone
        · have hrs : (j, rs) ∈ (c.run s.tracker).2.sent := hrs
          rw [hsent] at hrs
          rcases List.mem_append.mp hrs with hrs | hrs
          · exact hns rs hrs
          · obtain ⟨job, r, hjob, -⟩ := (hnew j rs).mp hrs
            rw [hnone] at hjob
            cases hjob
      registered := fun w j job hjob hw => by
        rcases c.run_job?_cases s.tracker j with hsame | ⟨jobType, rfl, -⟩ |
          ⟨v, job', rfl, hjob', -, hset⟩ | ⟨r', job', -, hjob', -, hafter⟩ | ⟨-, hgone⟩
        · exact h.registered w j job (hsame.symm.trans hjob) hw
        · cases hreg
        · cases hset.symm.trans hjob
          exact h.registered w j job' hjob' (Finset.mem_of_mem_erase hw)
        · have hjob := hafter.symm.trans hjob
          unfold PendingJob.afterAnswer at hjob
          split_ifs at hjob
          cases hjob
          exact h.registered w j job' hjob' hw
        · cases hgone.symm.trans hjob
      waits := fun w j hj => hwaits (h.waits w j hj) fun r hans hexp hrw => by
        subst hrw
        exact hlive j r hans hexp hj
      responses := fun r hr => hwaits (h.responses r (hrest.subset hr)) fun r' hans hexp hrw => by
        rw [← hrw] at hexp
        exact hrsp r.jobId r' hans hexp r hr hrw.symm rfl
      channel := hrest.trans h.channel
      accounted := fun r hr => by
        rcases h.accounted r hr with hq | hrec | hcan
        · exact hpop r hq
        · rcases hrec.run h.tracker c with hrec | ⟨jobType, rfl⟩ | hc
          · exact Or.inr (Or.inl hrec)
          · cases hreg
          · exact absurd hc (hcancel _)
        · exact Or.inr (Or.inr hcan) }

/-- A pair changes without putting responses into the channel. -/
theorem updatePair (h : ResponseInv s) {q : Pair Payload}
    (hfwd : ∀ j ∈ (s.pair w).forwarded, j ∈ q.forwarded)
    (hlive : ∀ j ∈ jobIds q.cmdRx ++ q.inflight,
      j ∈ jobIds (s.pair w).cmdRx ++ (s.pair w).inflight)
    (htaken : ∀ j job, s.tracker.job? j = some job → w ∈ job.registered → j ∉ q.taken) :
    ResponseInv { s with pair := Function.update s.pair w q } :=
  { h with
    registered := (Function.forall_update_iff s.pair fun v q => ∀ j job,
      s.tracker.job? j = some job → v ∈ job.registered → j ∉ q.taken).mpr
      ⟨htaken, fun v _ => h.registered v⟩
    waits := (Function.forall_update_iff s.pair fun v q => ∀ j ∈ jobIds q.cmdRx ++ q.inflight,
      s.tracker.Waits v j ∨ j ∈ s.cancelled).mpr
      ⟨fun j hj => h.waits w j (hlive j hj), fun v _ => h.waits v⟩
    forwarded_pair := fun r hr => by
      by_cases hw : r.workerId = w
      · have hr' := h.forwarded_pair r hr
        rw [hw] at hr'
        simp only [hw, Function.update_self]
        exact hfwd _ hr'
      · simp only [Function.update_of_ne hw]
        exact h.forwarded_pair r hr }

/-- A job of the pool has an id that the new one does not have. -/
theorem register (h : ResponseInv s) (hsys : SystemInv n s) {job : Job Payload}
    {jobRx : List (Job Payload)} {i : JobId} (hrx : s.jobRx = job :: jobRx)
    (hsub : job.submits = some i) :
    ResponseInv ({ s with jobRx := jobRx }.register n job i (job.jobType n)) := by
  have hfresh := hsys.fresh hrx hsub
  have hmsgs := fun w => Job.messagesFor_spec hsub (hsys.jobs_valid job (by simp [hrx])) w
  set c : TrackerCall Payload := .registerJob i (job.jobType n) with hc
  have hother : ∀ j, j ≠ i → (c.run s.tracker).2.job? j = s.tracker.job? j := by
    intro j hj
    have := @JobTracker.job?_insert _ s.tracker s.tracker.sent i j ⟨(job.jobType n).workers, ∅, ∅⟩
    rwa [if_neg hj] at this
  have hself : (c.run s.tracker).2.job? i = some ⟨(job.jobType n).workers, ∅, ∅⟩ := by
    have := @JobTracker.job?_insert _ s.tracker s.tracker.sent i i ⟨(job.jobType n).workers, ∅, ∅⟩
    rwa [if_pos rfl] at this
  have hne : ∀ {j}, j ∈ s.registered.map Prod.fst → j ≠ i := by
    rintro j hj rfl
    exact hfresh hj
  have hwaits : ∀ {w j}, j ∈ s.registered.map Prod.fst → s.tracker.Waits w j →
      (c.run s.tracker).2.Waits w j := by
    rintro w j hj ⟨job', hjob', hw⟩
    exact ⟨job', (hother j (hne hj)).trans hjob', hw⟩
  have hpair : ∀ w, ∀ j ∈ (s.pair w).taken, j ∈ s.registered.map Prod.fst := fun w j hj =>
    hsys.pair_ids w j (List.mem_append_left _ hj)
  have hrsp : ∀ r ∈ s.forwarded, r.jobId ∈ s.registered.map Prod.fst := fun r hr =>
    hpair r.workerId _ ((hsys.pairs _).forwarded_taken (h.forwarded_pair r hr))
  exact
    { h with
      tracker := h.tracker.run c fun reg hreg => by
        cases hreg
        exact hfresh
      cancelled := fun j hj => by
        obtain ⟨hnone, hns⟩ := h.cancelled j hj
        exact ⟨(hother j (hne (h.cancelled_registered j hj))).trans hnone, hns⟩
      cancelled_registered := fun j hj => by
        simp only [State.register, List.map_append]
        exact List.mem_append_left _ (h.cancelled_registered j hj)
      registered := fun w j job' hjob' hw htaken => by
        have hj := hpair w j htaken
        exact h.registered w j job' ((hother j (hne hj)).symm.trans hjob') hw htaken
      waits := fun w j hj => by
        have hj' : j ∈ jobIds (s.pair w).cmdRx ++ (s.pair w).inflight ∨
            j ∈ jobIds (job.messagesFor n w) := by
          have : j ∈ jobIds ((s.pair w).cmdRx ++ job.messagesFor n w) ++ (s.pair w).inflight := hj
          rw [jobIds_append] at this
          simp only [List.mem_append] at this ⊢
          tauto
        rcases hj' with hj | hj
        · have hreg : j ∈ s.registered.map Prod.fst := by
            rcases List.mem_append.mp hj with hj | hj
            · exact hsys.pair_ids w j (List.mem_append_right _ hj)
            · exact hpair w j ((hsys.pairs w).inflight_taken hj)
          rcases h.waits w j hj with hw | hcan
          · exact Or.inl (hwaits hreg hw)
          · exact Or.inr hcan
        · rcases hmsgs w with he | ⟨payload, he, hw⟩
          · rw [he] at hj
            cases hj
          · rw [he] at hj
            cases List.mem_singleton.mp hj
            exact Or.inl ⟨_, hself, Finset.mem_union_left _ hw⟩
      responses := fun r hr => by
        rcases h.responses r hr with hw | hcan
        · exact Or.inl (hwaits (hrsp r (h.channel.subset hr)) hw)
        · exact Or.inr hcan
      accounted := fun r hr => by
        rcases h.accounted r hr with hq | hrec | hcan
        · exact Or.inl hq
        · rcases hrec.run h.tracker c with hrec | ⟨jobType, he⟩ | he
          · exact Or.inr (Or.inl hrec)
          · rw [hc] at he
            cases he
            exact absurd (hrsp r hr) hfresh
          · rw [hc] at he
            cases he
        · exact Or.inr (Or.inr hcan) }

theorem cancelJob (h : ResponseInv s) {i : JobId} {job : PendingJob Payload}
    (hjob : s.tracker.job? i = some job) (jobRx : List (Job Payload)) :
    ResponseInv { s with
      jobRx := jobRx
      tracker := (TrackerCall.run (.cancelJob i) s.tracker).2
      cancelled := s.cancelled ++ [i] } := by
  obtain ⟨ws, hws, -⟩ := h.tracker.tracked i job hjob
  have hspec : (TrackerCall.run (.cancelJob i) s.tracker).2.sent = s.tracker.sent ∧
      ∀ j, (TrackerCall.run (.cancelJob i) s.tracker).2.job? j =
        if j = i then none else s.tracker.job? j := by
    rcases s.tracker.cancelJob_spec i with ⟨job', -, -, hsent, hjobs⟩ | ⟨hnone, -⟩
    · exact ⟨hsent, hjobs⟩
    · rw [hjob] at hnone
      cases hnone
  obtain ⟨hsent, hjobs⟩ := hspec
  have hwaits : ∀ {w j}, s.tracker.Waits w j ∨ j ∈ s.cancelled →
      (TrackerCall.run (.cancelJob i) s.tracker).2.Waits w j ∨ j ∈ s.cancelled ++ [i] := by
    rintro w j (⟨job', hjob', hw⟩ | hcan)
    · by_cases hj : j = i
      · exact Or.inr (List.mem_append_right _ (by simp [hj]))
      · exact Or.inl ⟨job', by rw [hjobs, if_neg hj]; exact hjob', hw⟩
    · exact Or.inr (List.mem_append_left _ hcan)
  exact
    { h with
      tracker := by
        have := h.tracker.run (.cancelJob i) nofun
        simpa [TrackerCall.registers] using this
      cancelled := fun j hj => by
        rcases List.mem_append.mp hj with hj | hj
        · obtain ⟨hnone, hns⟩ := h.cancelled j hj
          refine ⟨?_, hsent ▸ hns⟩
          rw [hjobs]
          split_ifs
          · rfl
          · exact hnone
        · cases List.mem_singleton.mp hj
          refine ⟨by rw [hjobs, if_pos rfl], fun rs hrs => ?_⟩
          have hrs : (i, rs) ∈ (TrackerCall.run (.cancelJob i) s.tracker).2.sent := hrs
          rw [hsent] at hrs
          have := (h.tracker.sent i rs hrs).1
          rw [hjob] at this
          cases this
      cancelled_registered := fun j hj => by
        rcases List.mem_append.mp hj with hj | hj
        · exact h.cancelled_registered j hj
        · cases List.mem_singleton.mp hj
          exact List.mem_map.mpr ⟨_, hws, rfl⟩
      registered := fun w j job' hjob' hw => by
        have hjob' : (TrackerCall.run (.cancelJob i) s.tracker).2.job? j = some job' := hjob'
        rw [hjobs] at hjob'
        split_ifs at hjob'
        exact h.registered w j job' hjob' hw
      waits := fun w j hj => hwaits (h.waits w j hj)
      responses := fun r hr => hwaits (h.responses r hr)
      accounted := fun r hr => by
        rcases h.accounted r hr with hq | hrec | hcan
        · exact Or.inl hq
        · rcases hrec.run h.tracker (.cancelJob i) with hrec | ⟨jobType, he⟩ | he
          · exact Or.inr (Or.inl hrec)
          · cases he
          · cases he
            exact Or.inr (Or.inr (List.mem_append_right _ (by simp)))
        · exact Or.inr (Or.inr (List.mem_append_left _ hcan)) }

/-- The leader task records the response it took from the channel. -/
theorem record (h : ResponseInv s) (hsys : SystemInv n s) {rest : List (WorkerRsp Payload)}
    (hrx : s.workerRspRx = r :: rest) :
    ResponseInv { s with
      workerRspRx := rest
      tracker := (TrackerCall.run (.recordResponse r) s.tracker).2 } := by
  have hr : r ∈ s.forwarded := h.channel.subset (by simp [hrx])
  have hpair := h.forwarded_pair r hr
  have hinv := hsys.pairs r.workerId
  have htaken := hinv.forwarded_taken hpair
  have hnodup : ((r :: rest).map fun r => (r.workerId, r.jobId)).Nodup := by
    rw [← hrx]
    exact h.forwarded_nodup.sublist (h.channel.sublist.map _)
  refine h.call (.recordResponse r) rfl nofun ?_ ?_ ?_ ?_
  · rw [hrx]
    exact List.suffix_cons _ _
  · intro r' hr'
    rw [hrx] at hr'
    rcases List.mem_cons.mp hr' with rfl | hr'
    · rcases h.responses r' (by simp [hrx]) with hw | hcan
      · exact Or.inr (Or.inl (JobTracker.recorded_recordResponse (h.expects_of_waits hw htaken)))
      · exact Or.inr (Or.inr hcan)
    · exact Or.inl hr'
  · rintro j r' ⟨rfl, rfl⟩ -
    rw [List.mem_append]
    rintro (hcmd | hin)
    · exact List.disjoint_of_nodup_append hinv.taken_nodup htaken hcmd
    · exact hinv.forwarded_not_inflight hpair hin
  · rintro j r' ⟨rfl, rfl⟩ - r'' hr'' hw hj
    refine (List.nodup_cons.mp hnodup).1 (List.mem_map.mpr ⟨r'', hr'', ?_⟩)
    rw [hw, hj]

/-- A manager takes a message from its queue. -/
theorem take (h : ResponseInv s) {payload : Payload}
    {cmdRx : List (NetworkValue Payload)}
    (hcmd : (s.pair w).cmdRx = .job j w payload :: cmdRx) :
    ResponseInv { s with
      tracker := (TrackerCall.run (.setToPending j w) s.tracker).2
      pair := Function.update s.pair w { s.pair w with
        cmdRx := cmdRx
        mgrBatch := (s.pair w).mgrBatch ++ [.job j w payload]
        taken := (s.pair w).taken ++ [j] } } := by
  have hcall := h.call (.setToPending j w) rfl nofun (List.suffix_refl _) (fun r hr => Or.inl hr)
    nofun nofun
  refine hcall.updatePair (fun i hi => hi) (fun i hi => ?_) fun i job hjob hw => ?_
  · have hids : jobIds (s.pair w).cmdRx = j :: jobIds cmdRx := by rw [hcmd, jobIds_job]
    show i ∈ jobIds (s.pair w).cmdRx ++ (s.pair w).inflight
    rw [hids]
    simp only [Pair.inflight, Pair.unanswered, jobIds_append, jobIds_job, jobIds_nil,
      List.mem_append, List.mem_cons] at hi ⊢
    tauto
  · have hnot : i ∉ (s.pair w).taken := hcall.registered w i job hjob hw
    intro hi
    rcases List.mem_append.mp hi with hi | hi
    · exact hnot hi
    · -- the worker is not registered any more for the job that was taken
      cases List.mem_singleton.mp hi
      rcases s.tracker.setToPending_spec j w with ⟨job', -, -, -, -, hjobs⟩ | ⟨hno, msg, herr⟩
      · have hjob : (s.tracker.setToPending j w).2.job? j = some job := hjob
        rw [hjobs, if_pos rfl] at hjob
        cases hjob
        exact Finset.notMem_erase _ _ hw
      · have hjob : (s.tracker.setToPending j w).2.job? j = some job := hjob
        rw [herr] at hjob
        exact hno job hjob hw

/-- A reconciliation records a job as lost, when no response to it is in the channel. -/
theorem lose (h : ResponseInv s) (hsys : SystemInv n s) {dropped : List JobId}
    (hmgr : (s.pair w).mgr = .validating dropped) (hj : j ∈ dropped)
    (htimely : s.tracker.Expects w j → ∀ r ∈ s.workerRspRx, r.workerId = w → r.jobId ≠ j) :
    ResponseInv { s with
      tracker := (TrackerCall.run (.recordResponse (lostResponse w j)) s.tracker).2
      pair := Function.update s.pair w { s.pair w with mgr := .validating (dropped.erase j) } } := by
  have hinv := hsys.pairs w
  have hcall := h.call (.recordResponse (lostResponse w j)) rfl nofun (List.suffix_refl _)
    (fun r hr => Or.inl hr) (by
      rintro i r ⟨rfl, rfl⟩ ⟨job, hjob, hw⟩
      have htaken := hsys.pending_taken w j job hjob hw
      rw [List.mem_append]
      rintro (hcmd | hin)
      · exact List.disjoint_of_nodup_append hinv.taken_nodup htaken hcmd
      · exact hinv.dropped_not_inflight hmgr hj hin) (by
      rintro i r ⟨rfl, rfl⟩ hexp
      exact htimely hexp)
  exact hcall.updatePair (fun i hi => hi) (fun i hi => hi) (hcall.registered w)

/-- A manager puts a response into the channel. -/
theorem forward (h : ResponseInv s) (hsys : SystemInv n s) {payload : Payload}
    {up : List (NetworkValue Payload)} (hup : (s.pair w).up = .job j w payload :: up) :
    ResponseInv { s with
      pair := Function.update s.pair w { s.pair w with
        up := up
        forwarded := (s.pair w).forwarded ++ [j] }
      workerRspRx := s.workerRspRx ++ [⟨j, w, .ok payload⟩]
      forwarded := s.forwarded ++ [⟨j, w, .ok payload⟩] } := by
  have hmem : j ∈ (s.pair w).unanswered := by simp [Pair.unanswered, hup]
  have hnew : j ∉ (s.pair w).forwarded := fun hj =>
    List.disjoint_of_nodup_append (hsys.pairs w).unanswered_nodup hj hmem
  have hin : j ∈ (s.pair w).inflight := List.mem_append_right _ hmem
  have hpair := h.updatePair (w := w) (q := { s.pair w with
      up := up
      forwarded := (s.pair w).forwarded ++ [j] }) (fun i hi => List.mem_append_left _ hi)
    (fun i hi => by
      simp only [Pair.inflight, Pair.unanswered, hup, jobIds_job, List.mem_append,
        List.mem_cons] at hi ⊢
      tauto) (h.registered w)
  exact
    { hpair with
      responses := fun r hr => by
        rcases List.mem_append.mp hr with hr | hr
        · exact h.responses r hr
        · cases List.mem_singleton.mp hr
          exact h.waits w j (List.mem_append_right _ hin)
      channel := by
        obtain ⟨drained, he⟩ := h.channel
        exact ⟨drained, by rw [← List.append_assoc, he]⟩
      forwarded_nodup := by
        rw [List.map_append]
        refine h.forwarded_nodup.append (List.nodup_singleton _) fun x hx hx' => ?_
        obtain ⟨r, hr, rfl⟩ := List.mem_map.mp hx
        obtain ⟨hw, hj⟩ : r.workerId = w ∧ r.jobId = j := Prod.mk.inj (List.mem_singleton.mp hx')
        have hr' := h.forwarded_pair r hr
        rw [hw, hj] at hr'
        exact hnew hr'
      forwarded_pair := fun r hr => by
        rcases List.mem_append.mp hr with hr | hr
        · exact hpair.forwarded_pair r hr
        · cases List.mem_singleton.mp hr
          simp
      forwarded_ok := fun r hr => by
        rcases List.mem_append.mp hr with hr | hr
        · exact h.forwarded_ok r hr
        · cases List.mem_singleton.mp hr
          exact ⟨payload, rfl⟩
      accounted := fun r hr => by
        rcases List.mem_append.mp hr with hr | hr
        · rcases h.accounted r hr with hq | hrec | hcan
          · exact Or.inl (List.mem_append_left _ hq)
          · exact Or.inr (Or.inl hrec)
          · exact Or.inr (Or.inr hcan)
        · exact Or.inl (List.mem_append_right _ hr) }

end ResponseInv

/-- A job is recorded as lost only when no response of its worker to it waits in the response channel,
and the job ids do not wrap around. -/
def Timely (s : State Payload) : Action Payload → Prop
  | .fetchJobId => s.nextJobId < 2 ^ 32
  | .pair w (.lose j) =>
    s.tracker.Expects w j → ∀ r ∈ s.workerRspRx, r.workerId = w → r.jobId ≠ j
  | _ => True

instance (s : State Payload) (a : Action Payload) : Decidable (Timely s a) := by
  unfold Timely
  split <;> infer_instance

theorem ResponseInv.step (h : ResponseInv s) (hsys : SystemInv n s) {a : Action Payload}
    (htimely : Timely s a) (hs : StateChange n s a s') : ResponseInv s' := by
  cases hs with
  | fetch => exact { h with tracker := h.tracker }
  | submit job j hsub hj hvalid => exact { h with tracker := h.tracker }
  | cancel j => exact { h with tracker := h.tracker }
  | register job j jobRx hrx hsub => exact h.register hsys hrx hsub
  | reject job jobRx hrx rejected => exact { h with tracker := h.tracker }
  | cancelled j jobRx hrx job hjob => exact h.cancelJob hjob jobRx
  | record r rest hrx => exact h.record hsys hrx
  | pair w a q e hinv hchange =>
    cases hchange with
    | quiet _ _ htaken hcmd hfwd hin hval =>
      refine h.updatePair (fun j hj => hfwd ▸ hj) (fun j hj => ?_) fun j job hjob hw => ?_
      · rw [hcmd] at hj
        rcases List.mem_append.mp hj with hj | hj
        · exact List.mem_append_left _ hj
        · exact List.mem_append_right _ (hin j hj)
      · rw [htaken]
        exact h.registered w j job hjob hw
    | take j payload cmdRx hmgr hcmd => exact h.take hcmd
    | lose j dropped hmgr hj => exact h.lose hsys hmgr hj htimely
    | forward j payload up hmgr hup => exact h.forward hsys hup

theorem responseInv_run {as : List (Action Payload)}
    (htimely : Transition.Along (State.step n) Timely State.new as)
    (hrun : Transition.run (State.step n) State.new as = some s) :
    SystemInv n s ∧ ResponseInv s := by
  refine Transition.run_invariant_along (I := fun s => SystemInv n s ∧ ResponseInv s) ?_ htimely
    hrun ⟨SystemInv.new, ResponseInv.new⟩
  rintro s a t ha ht ⟨hsys, hrsp⟩
  have hchange := State.step_change hsys.pairs ht
  refine ⟨hsys.step (fun he => ?_) hchange, hrsp.step hsys ha hchange⟩
  subst he
  exact ha

/-- **A response is not replaced by a loss**, in every run that records jobs as lost in a timely way:
the results that were delivered for a job hold every response to it that was put into the response
channel, and no loss in its place. A response whose results are not delivered yet is still in the channel
or held by the job tracker, unless its job was cancelled. -/
theorem response_not_lost (n : WorkerId) (as : List (Action Payload)) (s : State Payload)
    (htimely : Transition.Along (State.step n) Timely State.new as)
    (hrun : Transition.run (State.step n) State.new as = some s) (r : WorkerRsp Payload)
    (hr : r ∈ s.forwarded) :
    (∀ rs, (r.jobId, rs) ∈ s.tracker.sent → r ∈ rs ∧ lostResponse r.workerId r.jobId ∉ rs) ∧
    (r ∈ s.workerRspRx ∧ s.tracker.Expects r.workerId r.jobId ∨ s.tracker.Recorded r ∨
      r.jobId ∈ s.cancelled) := by
  obtain ⟨hsys, h⟩ := responseInv_run htimely hrun
  have htaken := (hsys.pairs r.workerId).forwarded_taken (h.forwarded_pair r hr)
  have hacc : r ∈ s.workerRspRx ∧ s.tracker.Expects r.workerId r.jobId ∨ s.tracker.Recorded r ∨
      r.jobId ∈ s.cancelled := by
    rcases h.accounted r hr with hq | hrec | hcan
    · rcases h.responses r hq with hw | hcan
      · exact Or.inl ⟨hq, h.expects_of_waits hw htaken⟩
      · exact Or.inr (Or.inr hcan)
    · exact Or.inr (Or.inl hrec)
    · exact Or.inr (Or.inr hcan)
  refine ⟨fun rs hrs => ?_, hacc⟩
  obtain ⟨hgone, ws, -, hall⟩ := h.tracker.sent r.jobId rs hrs
  have hmem : r ∈ rs := by
    rcases hacc with ⟨-, job, hjob, -⟩ | (⟨job, hjob, -⟩ | ⟨rs', hrs', hr'⟩) | hcan
    · rw [hgone] at hjob
      cases hjob
    · rw [hgone] at hjob
      cases hjob
    · have he := List.inj_on_of_nodup_map h.tracker.once hrs hrs' rfl
      cases he
      exact hr'
    · exact absurd hrs ((h.cancelled _ hcan).2 rs)
  refine ⟨hmem, fun hlost => ?_⟩
  -- one answer per worker, and this one is not an error
  have he := List.inj_on_of_nodup_map hall.nodup hlost hmem rfl
  obtain ⟨payload, hok⟩ := h.forwarded_ok r hr
  rw [← he] at hok
  cases hok

/-- Worker 0 answers a job, and the response is put into the response channel. -/
def responseSteps : List (Action Unit) :=
  [.fetchJobId, .submit (.scatterGather 0 [(0, ())]), .sendToWorkpool] ++ handshakeSteps 0 ++
    [.pair 0 .validated, .pair 0 .mgrTake, .pair 0 .mgrWrite, .pair 0 .receive,
      .pair 0 (.sendResult ⟨0, 0⟩ ()), .pair 0 .workerTake, .pair 0 .workerWrite, .pair 0 .forward]

/-- The connection breaks and is made again. -/
def reconnectOf (w : WorkerId) : List (Action Unit) :=
  [.pair w (.cut 0 0), .pair w .mgrClose, .pair w .workerClose] ++ handshakeSteps w

theorem response_not_lost_reconnect :
    ∃ s, Transition.run (State.step 1) State.new
        (responseSteps ++ [.recordResponse] ++ reconnectOf 0) = some s ∧
      ∃ r ∈ s.forwarded, ∃ rs, (r.jobId, rs) ∈ s.tracker.sent ∧ r ∈ rs ∧
        lostResponse r.workerId r.jobId ∉ rs := by
  have htimely : Transition.Along (State.step 1) Timely State.new
      (responseSteps ++ [.recordResponse] ++ reconnectOf 0) := by decide +kernel
  have hlog : (Transition.run (State.step 1) State.new
      (responseSteps ++ [.recordResponse] ++ reconnectOf 0)).map
        (fun s => (s.forwarded, s.tracker.sent)) =
      some ([⟨0, 0, .ok ()⟩], [(0, [⟨0, 0, .ok ()⟩])]) := rfl
  obtain ⟨s, hs, he⟩ := Option.map_eq_some_iff.mp hlog
  obtain ⟨hfwd, hsent⟩ := Prod.mk.inj he
  have hr : (⟨0, 0, .ok ()⟩ : WorkerRsp Unit) ∈ s.forwarded := by simp [hfwd]
  have hrs : ((0 : JobId), [(⟨0, 0, .ok ()⟩ : WorkerRsp Unit)]) ∈ s.tracker.sent := by simp [hsent]
  have hres := (response_not_lost 1 _ s htimely hs _ hr).1 _ hrs
  exact ⟨s, hs, _, hr, _, hrs, hres⟩

/-- The leader task has not taken the response from the channel when the connection is made again: the
job is recorded as lost, and its results hold the loss in the place of the response. -/
theorem response_replaced :
    ∃ s, Transition.run (State.step 1) State.new
        (responseSteps ++ reconnectOf 0 ++ [.pair 0 (.lose 0)]) = some s ∧
      ∃ r ∈ s.forwarded, ∃ rs, (r.jobId, rs) ∈ s.tracker.sent ∧ r ∉ rs ∧
        lostResponse r.workerId r.jobId ∈ rs := by
  have hlog : (Transition.run (State.step 1) State.new
      (responseSteps ++ reconnectOf 0 ++ [.pair 0 (.lose 0)])).map
        (fun s => (s.forwarded, s.tracker.sent)) =
      some ([⟨0, 0, .ok ()⟩], [(0, [lostResponse 0 0])]) := rfl
  obtain ⟨s, hs, he⟩ := Option.map_eq_some_iff.mp hlog
  obtain ⟨hfwd, hsent⟩ := Prod.mk.inj he
  refine ⟨s, hs, ⟨0, 0, .ok ()⟩, by simp [hfwd], [lostResponse 0 0], by simp [hsent], ?_, by simp⟩
  rw [List.mem_singleton]
  nofun

end AmpcCommon.Workpool
