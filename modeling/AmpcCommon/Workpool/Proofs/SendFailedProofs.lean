import AmpcCommon.Workpool.Proofs.SettleProofs

/-!
# What becomes of a job with failed sends

For a command queue that is closed the leader task puts a `SendFailed` response into its own response channel. Its
worker is registered and not pending, so the response is refused and the job never completes. A job of which all
workers are reached completes with the answers of all of them (`Reachable.reports`), and no other job completes in a
way that reports on each of its workers (`reachable_of_reports`).
-/

namespace AmpcCommon.Workpool

variable {Payload : Type}

/-- There are no more workers than a `WorkerId` can count, if the job goes to all of them. -/
def Job.Counted (numWorkers : Nat) : Job Payload → Prop
  | .broadcast _ _ => numWorkers < 2 ^ 16
  | .scatterGather _ _ | .cancel _ => True

namespace Leader

/-! ## A job is dispatched -/

/-- The workers a job is for. -/
def addressed (l : Leader Payload) (job : Job Payload) : Finset Nat := ((l.commands job).map Command.idx).toFinset

variable {l : Leader Payload} {job : Job Payload} {jobId : JobId}

theorem mem_addressed {idx : Nat} : idx ∈ l.addressed job ↔ ∃ c ∈ l.commands job, c.idx = idx := by
  unfold addressed
  rw [List.mem_toFinset, List.mem_map]

theorem commands_jobId (hsubmits : job.submits = some jobId) {c : Command Payload} (hc : c ∈ l.commands job) :
    c.jobId = jobId := by
  cases job with
  | broadcast jobId' payload =>
    cases hsubmits
    obtain ⟨idx, -, rfl⟩ := List.mem_map.mp hc
    rfl
  | scatterGather jobId' msgs =>
    cases hsubmits
    obtain ⟨m, -, rfl⟩ := List.mem_map.mp hc
    rfl
  | cancel jobId' => cases hsubmits

/-- The messages of the job are in the open queues. -/
theorem queuedAt_dispatch (hsubmits : job.submits = some jobId) (hfresh : l.Fresh jobId) {jobType : JobType}
    {idx : Nat} {w : WorkerId} :
    (l.dispatch job jobId jobType).QueuedAt jobId idx w ↔
      idx < l.numWorkers ∧ l.workerCmdCh idx ≠ none ∧ ∃ c ∈ l.commands job, c.idx = idx ∧ c.workerId = w := by
  unfold QueuedAt
  rw [dispatch_eq]
  refine and_congr_right fun hidx => ?_
  dsimp only
  cases hold : l.workerCmdCh idx with
  | none => simp
  | some old =>
    rw [Option.map_some]
    constructor
    · rintro ⟨queue, payload, hq, hmem⟩
      cases hq
      refine ⟨Option.some_ne_none _, ?_⟩
      rcases List.mem_append.mp hmem with hmem | hmem
      · exact absurd ⟨hidx, old, payload, hold, hmem⟩ (hfresh.queued idx w)
      · obtain ⟨c, hc, heq⟩ := List.mem_map.mp hmem
        obtain ⟨hc, hcidx⟩ := List.mem_filter.mp hc
        cases heq
        exact ⟨c, hc, of_decide_eq_true hcidx, rfl⟩
    · rintro ⟨-, c, hc, hcidx, rfl⟩
      refine ⟨_, c.payload, rfl, List.mem_append_right _ (List.mem_map.mpr ⟨c, ?_, ?_⟩)⟩
      · exact List.mem_filter.mpr ⟨hc, decide_eq_true hcidx⟩
      · rw [Command.msg, commands_jobId hsubmits hc]

/-- A job that was registered and sent is tracked. -/
theorem dispatch_inv (hfresh : l.Fresh jobId) (job : Job Payload) (jobType : JobType) :
    DispatchInv jobId jobType.workers ((l.dispatch job jobId jobType).QueuedAt jobId) (l.failures job) l.tracker.sent
      (l.dispatch job jobId jobType) := by
  rw [dispatch_eq]
  refine ⟨fun _ _ h => h, ?_, ?_, ?_, Or.inl ⟨⟨jobType.workers, ∅, ∅⟩, [], ?_⟩⟩
  · intro idx w hw
    exact absurd hw (hfresh.handed idx w)
  · intro a ha hj
    exact absurd hj (hfresh.answers a ha)
  · intro r hr hj
    rcases List.mem_append.mp hr with hold | hnew
    · exact absurd hj (hfresh.waiting r hold)
    · exact Or.inr hnew
  · refine ⟨?_, ?_, rfl, JobInv.registerJob _ _, fun w _ hreach => hreach, fun w hw _ => hw, ?_, ?_⟩
    · exact (JobTracker.job?_insert _ _ _ _).trans (if_pos rfl)
    · rw [List.append_nil]
      rfl
    · intro w hw
      exact absurd hw (Finset.notMem_empty w)
    · intro w r hr
      cases hr

/-- A job that was refused leaves no trace. -/
theorem rejected_inv (hfresh : l.Fresh jobId) (rejected : List (JobId × WorkpoolError)) :
    DispatchInv jobId ∅ (fun _ _ => False) [] l.tracker.sent { l with rejected := rejected } where
  queued := hfresh.queued
  handed := hfresh.handed
  answers := fun a ha hj => hfresh.answers a ha hj
  waiting := fun r hr hj => absurd hj (hfresh.waiting r hr)
  located := Or.inr (Or.inr ⟨[], (List.append_nil _).symm, rfl, fun _ _ => id, rfl⟩)

theorem idx_eq_workerId (hcounted : job.Counted l.numWorkers) {c : Command Payload} (hc : c ∈ l.commands job) :
    c.idx = c.workerId.val := by
  cases job with
  | broadcast jobId' payload =>
    obtain ⟨idx, hidx, rfl⟩ := List.mem_map.mp hc
    exact (Nat.mod_eq_of_lt (Nat.lt_trans (List.mem_range.mp hidx) hcounted)).symm
  | scatterGather jobId' msgs =>
    obtain ⟨m, -, rfl⟩ := List.mem_map.mp hc
    rfl
  | cancel jobId' => cases hc

/-- A job for existing workers is dispatched. -/
theorem exists_dispatch (hsubmits : job.submits = some jobId) (hvalid : ∀ idx ∈ l.addressed job, idx < l.numWorkers) :
    ∃ jobType, l.sendToWorkpool job = l.dispatch job jobId jobType ∧
      (job.Counted l.numWorkers → ∀ w, w ∈ jobType.workers ↔ w.val ∈ l.addressed job) := by
  cases job with
  | broadcast jobId' payload =>
    cases hsubmits
    refine ⟨.broadcast l.numWorkerIds, rfl, fun hcounted w => ?_⟩
    have hval : l.numWorkerIds.val = l.numWorkers := Nat.mod_eq_of_lt hcounted
    rw [mem_addressed]
    show w ∈ Finset.Iio l.numWorkerIds ↔ _
    rw [Finset.mem_Iio, Fin.lt_def, hval]
    constructor
    · intro hw
      exact ⟨_, List.mem_map.mpr ⟨w.val, List.mem_range.mpr hw, rfl⟩, rfl⟩
    · rintro ⟨c, hc, hcidx⟩
      obtain ⟨idx, hidx, rfl⟩ := List.mem_map.mp hc
      rw [← hcidx]
      exact List.mem_range.mp hidx
  | scatterGather jobId' msgs =>
    cases hsubmits
    have hfind : (msgs.find? fun m => l.numWorkers ≤ m.1.val) = none := by
      rw [List.find?_eq_none]
      intro m hm
      have hidx := hvalid m.1 (mem_addressed.mpr ⟨_, List.mem_map.mpr ⟨m, hm, rfl⟩, rfl⟩)
      simpa using hidx
    refine ⟨.scatterGather (msgs.map Prod.fst).toFinset, ?_, fun _ w => ?_⟩
    · unfold sendToWorkpool
      dsimp only
      rw [hfind]
    · rw [mem_addressed]
      show w ∈ (msgs.map Prod.fst).toFinset ↔ _
      rw [List.mem_toFinset, List.mem_map]
      constructor
      · rintro ⟨m, hm, rfl⟩
        exact ⟨_, List.mem_map.mpr ⟨m, hm, rfl⟩, rfl⟩
      · rintro ⟨c, hc, hcidx⟩
        obtain ⟨m, hm, rfl⟩ := List.mem_map.mp hc
        exact ⟨m, hm, Fin.ext hcidx⟩
  | cancel jobId' => cases hsubmits

/-- The job completes once, with one response of each worker it was for: a `SendFailed` error where the command
queue was closed, and the answer of the worker everywhere else. -/
def Reports (before : Leader Payload) (job : Job Payload) (jobId : JobId) (after : Leader Payload) : Prop :=
  ∃ rs new, after.tracker.sent = before.tracker.sent ++ new ∧ new.filter (·.1 = jobId) = [(jobId, rs)] ∧
    (rs.map fun r => r.workerId.val).Nodup ∧ (rs.map fun r => r.workerId.val).toFinset = before.addressed job ∧
    (∀ r ∈ rs, r.jobId = jobId) ∧
    (∀ r ∈ rs, before.workerCmdCh r.workerId = none → r.payload = .error .sendFailed) ∧
    ∀ r ∈ rs, before.workerCmdCh r.workerId ≠ none → (r.workerId.val, r) ∈ after.answers

/-- Somebody is there to answer the job, and all its workers can be reached. -/
structure Reachable (l : Leader Payload) (job : Job Payload) : Prop where
  addressed : (l.addressed job).Nonempty
  reached : ∀ idx ∈ l.addressed job, idx < l.numWorkers ∧ l.workerCmdCh idx ≠ none
  counted : job.Counted l.numWorkers

/-- Where nothing is left to do, no worker is waited for. -/
theorem not_waiting_of_terminal {l' : Leader Payload} (jobId : JobId) (payload : Payload)
    (hterminal : Transition.Terminal settle l') :
    (∀ idx w, ¬ l'.QueuedAt jobId idx w) ∧ (∀ idx w, ¬ l'.HandedAt jobId idx w) ∧ l'.workerRspRx = [] := by
  refine ⟨?_, ?_, ?_⟩
  · rintro idx w ⟨hidx, queue, payload', hqueue, hmem⟩
    cases queue with
    | nil => cases hmem
    | cons msg queue =>
      have hstep : l'.step (.take idx) = none := hterminal (.take idx)
      simp only [step, if_pos hidx, hqueue] at hstep
      cases hstep
  · rintro idx w ⟨hidx, hmem⟩
    have hstep : l'.step (.answer idx ⟨jobId, w⟩ payload) = none := hterminal (.answer idx ⟨jobId, w⟩ payload)
    simp only [step, if_pos (And.intro hidx hmem)] at hstep
    cases hstep
  · have hstep : l'.step .recordResponse = none := hterminal .recordResponse
    cases hrx : l'.workerRspRx with
    | nil => rfl
    | cons r rest =>
      simp only [step, hrx] at hstep
      cases hstep

theorem terminal_of_idle {l : Leader Payload}
    (hqueue : ∀ idx < l.numWorkers, l.workerCmdCh idx = none ∨ l.workerCmdCh idx = some [])
    (hhanded : ∀ idx < l.numWorkers, l.handed idx = []) (hrsp : l.workerRspRx = []) :
    Transition.Terminal settle l := by
  intro a
  cases hstep : l.settle a with
  | none => rfl
  | some l' =>
    rcases settle_cases hstep with ⟨r, rest, hrx, -⟩ | ⟨idx, msg, queue, hidx, hmsg, -⟩ | ⟨idx, msg, -, hidx, hmsg, -⟩
    · rw [hrsp] at hrx
      cases hrx
    · rcases hqueue idx hidx with hclosed | hempty
      · rw [hclosed] at hmsg
        cases hmsg
      · rw [hempty] at hmsg
        cases hmsg
    · rw [hhanded idx hidx] at hmsg
      cases hmsg

/-- A job that is completed by its workers, and by answers alone. -/
theorem Completed.reports {l' : Leader Payload} {ws : Finset WorkerId} {reach : Nat → WorkerId → Prop}
    {rs : List (WorkerRsp Payload)} {new : List (JobId × List (WorkerRsp Payload))}
    (h : Completed jobId ws reach [] l.tracker.sent l' rs new) (hreachable : l.Reachable job)
    (hworkers : ∀ w, w ∈ ws ↔ w.val ∈ l.addressed job)
    (hanswers : ∀ a ∈ l'.answers, a.2.jobId = jobId → a.1 = a.2.workerId.val) : l.Reports job jobId l' := by
  have hmem : ∀ w, w ∈ rs.map (·.workerId) ↔ w.val ∈ l.addressed job := by
    intro w
    rw [← hworkers, ← h.answeredBy.workers_eq, List.mem_toFinset]
  have hopen : ∀ r ∈ rs, l.workerCmdCh r.workerId.val ≠ none := by
    intro r hr
    exact (hreachable.reached _ ((hmem r.workerId).mp (List.mem_map_of_mem hr))).2
  have hvals : rs.map (fun r => r.workerId.val) = (rs.map (·.workerId)).map Fin.val := by
    rw [List.map_map]
    rfl
  refine ⟨rs, new, h.sent_eq, h.sent_once, ?_, ?_, h.answeredBy.jobId_eq, ?_, ?_⟩
  · rw [hvals]
    exact h.answeredBy.nodup.map Fin.val_injective
  · ext idx
    rw [hvals, List.mem_toFinset, List.mem_map]
    constructor
    · rintro ⟨w, hw, rfl⟩
      exact (hmem w).mp hw
    · intro hidx
      obtain ⟨c, hc, rfl⟩ := mem_addressed.mp hidx
      have hcidx := idx_eq_workerId hreachable.counted hc
      exact ⟨c.workerId, (hmem c.workerId).mpr (hcidx ▸ hidx), hcidx.symm⟩
  · intro r hr hclosed
    exact absurd hclosed (hopen r hr)
  · intro r hr _
    rcases h.given r hr with ⟨idx, ha⟩ | hfailed
    · rw [← hanswers _ ha (h.answeredBy.jobId_eq r hr)]
      exact ha
    · cases hfailed

/-- When all workers are reached, the job completes with their answers. -/
theorem Reachable.reports {l' : Leader Payload} (hreachable : l.Reachable job) (hsubmits : job.submits = some jobId)
    (hfresh : l.Fresh jobId) {as : List (LeaderAction Payload)}
    (hrun : Transition.run settle (l.sendToWorkpool job) as = some l') (hterminal : Transition.Terminal settle l') :
    l.Reports job jobId l' := by
  obtain ⟨jobType, hdispatch, hworkers⟩ := exists_dispatch hsubmits fun idx hidx => (hreachable.reached idx hidx).1
  have hworkers := hworkers hreachable.counted
  obtain ⟨first, hfirst⟩ := hreachable.addressed
  obtain ⟨c, hc, rfl⟩ := mem_addressed.mp hfirst
  have hnofail : l.failures job = [] := by
    unfold failures
    rw [List.map_eq_nil_iff, List.filter_eq_nil_iff]
    intro c hc hclosed
    exact (hreachable.reached c.idx (mem_addressed.mpr ⟨c, hc, rfl⟩)).2 (Option.isNone_iff_eq_none.mp hclosed)
  rw [hdispatch] at hrun
  have hinv := Transition.run_invariant (fun _ _ _ hstep h => DispatchInv.settle h hstep) hrun
    (dispatch_inv hfresh job jobType)
  rw [hnofail] at hinv
  -- every worker of the job is reached, through its own queue
  have hreach : ∀ w ∈ jobType.workers, ∃ idx, (l.dispatch job jobId jobType).QueuedAt jobId idx w := by
    intro w hw
    obtain ⟨c, hc, hcidx⟩ := mem_addressed.mp ((hworkers w).mp hw)
    have hopen := hreachable.reached w.val ((hworkers w).mp hw)
    refine ⟨w.val, (queuedAt_dispatch hsubmits hfresh).mpr ⟨hopen.1, hopen.2, c, hc, hcidx, ?_⟩⟩
    exact Fin.ext ((idx_eq_workerId hreachable.counted hc).symm.trans hcidx)
  have hworker : c.workerId ∈ jobType.workers :=
    (hworkers c.workerId).mpr (idx_eq_workerId hreachable.counted hc ▸ hfirst)
  rcases hinv.located with ⟨job', new, htracked⟩ | ⟨rs, new, hdone⟩ | ⟨new, huntouched⟩
  · obtain ⟨hqueued, hhanded, hrsp⟩ := not_waiting_of_terminal jobId c.payload hterminal
    rcases htracked.busy hreach ⟨_, hworker⟩ with ⟨idx, w, hw⟩ | ⟨idx, w, hw⟩ | hwaiting
    · exact absurd hw (hqueued idx w)
    · exact absurd hw (hhanded idx w)
    · exact absurd hrsp hwaiting
  · refine hdone.reports hreachable hworkers ?_
    intro a ha hj
    obtain ⟨-, -, c', hc', hcidx, hcw⟩ := (queuedAt_dispatch hsubmits hfresh).mp (hinv.answers a ha hj)
    rw [← hcidx, ← hcw]
    exact idx_eq_workerId hreachable.counted hc'
  · obtain ⟨idx, hidx⟩ := hreach c.workerId hworker
    exact absurd hidx (huntouched.unreached idx c.workerId)

/-- A job that completes in the way of `Reports` was dispatched to workers that can all be reached. -/
theorem reachable_of_dispatch {l' : Leader Payload} {jobType : JobType} (hsubmits : job.submits = some jobId)
    (hfresh : l.Fresh jobId) (hcounted : job.Counted l.numWorkers ∨ ∃ w, w ∉ jobType.workers ∧ w.val ∈ l.addressed job)
    {as : List (LeaderAction Payload)} (hrun : Transition.run settle (l.dispatch job jobId jobType) as = some l')
    (hreports : l.Reports job jobId l') : l.Reachable job := by
  obtain ⟨rs, new, hsent, hnew, -, haddressed, -⟩ := hreports
  have hinv := Transition.run_invariant (fun _ _ _ hstep h => DispatchInv.settle h hstep) hrun
    (dispatch_inv hfresh job jobType)
  have hdone := hinv.located.completed hsent hnew
  -- the workers of the job are those that answered
  have hworkers : ∀ idx ∈ l.addressed job, ∃ w ∈ jobType.workers, w.val = idx := by
    intro idx hidx
    rw [← haddressed, List.mem_toFinset, List.mem_map] at hidx
    obtain ⟨r, hr, rfl⟩ := hidx
    refine ⟨r.workerId, ?_, rfl⟩
    rw [← hdone.answeredBy.workers_eq, List.mem_toFinset]
    exact List.mem_map_of_mem hr
  have hcounted : job.Counted l.numWorkers := by
    rcases hcounted with hcounted | ⟨w, hw, hidx⟩
    · exact hcounted
    · obtain ⟨w', hw', heq⟩ := hworkers w.val hidx
      exact absurd (Fin.ext heq ▸ hw') hw
  refine ⟨?_, ?_, hcounted⟩
  · obtain ⟨r, hr⟩ := List.exists_mem_of_ne_nil rs hdone.ne_nil
    refine ⟨r.workerId.val, ?_⟩
    rw [← haddressed, List.mem_toFinset]
    exact List.mem_map.mpr ⟨r, hr, rfl⟩
  · intro idx hidx
    obtain ⟨w, hw, rfl⟩ := hworkers idx hidx
    obtain ⟨idx', hreach⟩ := hdone.reached w hw
    obtain ⟨hlt, hopen, c, hc, rfl, rfl⟩ := (queuedAt_dispatch hsubmits hfresh).mp hreach
    rw [← idx_eq_workerId hcounted hc]
    exact ⟨hlt, hopen⟩

theorem reachable_of_reports {l' : Leader Payload} (hsubmits : job.submits = some jobId) (hfresh : l.Fresh jobId)
    {as : List (LeaderAction Payload)} (hrun : Transition.run settle (l.sendToWorkpool job) as = some l')
    (hreports : l.Reports job jobId l') : l.Reachable job := by
  cases job with
  | broadcast jobId' payload =>
    cases hsubmits
    refine reachable_of_dispatch rfl hfresh ?_ hrun hreports
    by_cases hcounted : l.numWorkers < 2 ^ 16
    · exact Or.inl hcounted
    · -- the last worker id is not registered
      refine Or.inr ⟨Fin.last _, ?_, ?_⟩
      · show Fin.last _ ∉ Finset.Iio l.numWorkerIds
        rw [Finset.mem_Iio]
        exact not_lt.mpr (Fin.le_last _)
      · refine mem_addressed.mpr ⟨_, List.mem_map.mpr ⟨2 ^ 16 - 1, List.mem_range.mpr ?_, rfl⟩, rfl⟩
        omega
  | scatterGather jobId' msgs =>
    cases hsubmits
    unfold sendToWorkpool at hrun
    dsimp only at hrun
    cases hfind : msgs.find? fun m => l.numWorkers ≤ m.1.val with
    | none =>
      rw [hfind] at hrun
      exact reachable_of_dispatch rfl hfresh (Or.inl trivial) hrun hreports
    | some m =>
      -- nothing was sent
      rw [hfind] at hrun
      exfalso
      have hinv := Transition.run_invariant (fun _ _ _ hstep h => DispatchInv.settle h hstep) hrun
        (rejected_inv hfresh _)
      obtain ⟨rs, new, hsent, hnew, -⟩ := hreports
      have hdone := hinv.located.completed hsent hnew
      have hnone := hdone.answeredBy.workers_eq
      rw [List.toFinset_eq_empty_iff, List.map_eq_nil_iff] at hnone
      exact hdone.ne_nil hnone
  | cancel jobId' => cases hsubmits

/-- **Failed sends.** A job with an id that is not in use is passed to `send_to_workpool`; then the leader task drains
the response channel, the managers take their messages and the workers answer, in any order. Every such run ends, and
the job completes in every run that cannot go on, with a `SendFailed` error of exactly the workers whose command queue
is closed and the answers of the others, if and only if the job has workers and all their queues are open (and a
broadcast goes to no more of them than a `WorkerId` can count). -/
theorem failed_sends_reported (l : Leader Payload) (job : Job Payload) (jobId : JobId)
    (hsubmits : job.submits = some jobId) (hfresh : l.Fresh jobId) :
    (∀ as l', Transition.run settle (l.sendToWorkpool job) as = some l' →
      as.length ≤ (l.sendToWorkpool job).work ∧ (Transition.Terminal settle l' → l.Reports job jobId l')) ↔
      (l.addressed job).Nonempty ∧ (∀ idx ∈ l.addressed job, idx < l.numWorkers ∧ l.workerCmdCh idx ≠ none) ∧
        job.Counted l.numWorkers := by
  constructor
  · intro hall
    obtain ⟨l', ⟨as, hrun⟩, hterminal⟩ := settle_decreases.exists_terminal (l.sendToWorkpool job)
    have hreachable := reachable_of_reports hsubmits hfresh hrun ((hall as l' hrun).2 hterminal)
    exact ⟨hreachable.addressed, hreachable.reached, hreachable.counted⟩
  · rintro ⟨haddressed, hreached, hcounted⟩ as l' hrun
    have hreachable : l.Reachable job := ⟨haddressed, hreached, hcounted⟩
    have hlen := settle_decreases.length_le hrun
    exact ⟨by omega, hreachable.reports hsubmits hfresh hrun⟩

/-- A job for two workers that are both reached. -/
theorem failed_sends_reported_bothOpen :
    (Leader.new 2 : Leader Nat).Fresh 0 ∧
    ∀ as l', Transition.run settle ((Leader.new 2).sendToWorkpool (.scatterGather 0 [(0, 5), (1, 6)])) as = some l' →
      as.length ≤ ((Leader.new 2).sendToWorkpool (.scatterGather 0 [(0, 5), (1, 6)])).work ∧
        (Transition.Terminal settle l' → (Leader.new 2).Reports (.scatterGather 0 [(0, 5), (1, 6)]) 0 l') := by
  have hfresh : (Leader.new 2 : Leader Nat).Fresh 0 := by
    refine ⟨?_, ?_, List.forall_mem_nil _, List.forall_mem_nil _⟩
    · rintro idx w ⟨-, queue, payload, hqueue, hmem⟩
      cases hqueue
      cases hmem
    · rintro idx w ⟨-, hmem⟩
      cases hmem
  refine ⟨hfresh,
    (failed_sends_reported (Leader.new 2) (.scatterGather 0 [(0, 5), (1, 6)]) 0 rfl hfresh).mpr ⟨?_, ?_, trivial⟩⟩
  · exact ⟨0, by decide⟩
  · intro idx hidx
    refine ⟨?_, Option.some_ne_none _⟩
    revert idx
    decide

/-- A leader with two workers, of which the second has ended. -/
def secondEnded : Leader Nat := { Leader.new 2 with workerCmdCh := fun idx => if idx = 1 then none else some [] }

/-- The `SendFailed` response is refused, the other worker answers, and the job does not complete. -/
theorem failed_send_lost :
    ∃ l', Transition.run settle (secondEnded.sendToWorkpool (.scatterGather 0 [(0, 5), (1, 6)]))
        [.recordResponse, .take 0, .answer 0 ⟨0, 0⟩ 7, .recordResponse] = some l' ∧
      Transition.Terminal settle l' ∧ l'.tracker.sent = [] ∧
        ∃ job, l'.tracker.job? 0 = some job ∧ job.registered = {1} := by
  refine ⟨_, rfl, terminal_of_idle ?_ ?_ rfl, rfl, _, rfl, by decide⟩
  · intro idx hidx
    obtain rfl | rfl : idx = 0 ∨ idx = 1 := Nat.le_one_iff_eq_zero_or_eq_one.mp (Nat.le_of_lt_succ hidx)
    · exact Or.inr rfl
    · exact Or.inl rfl
  · intro idx hidx
    obtain rfl | rfl : idx = 0 ∨ idx = 1 := Nat.le_one_iff_eq_zero_or_eq_one.mp (Nat.le_of_lt_succ hidx)
    · rfl
    · rfl

end Leader

end AmpcCommon.Workpool
