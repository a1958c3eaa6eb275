import AmpcCommon.Workpool.Proofs.DispatchProofs
import Mathlib.Algebra.BigOperators.Group.Finset.Basic

/-!
# Working through a dispatched job

Once the leader task has registered a job and put its messages into the command queues, the managers take their
messages, the workers answer and the leader task drains the response channel, in any order (`Leader.settle`).
`DispatchInv` says where the job is meanwhile, worker by worker: a registered worker to whom a message was sent has it
in a queue, a pending one has it in its hands or its response in the response channel. A worker to whom no message was
sent stays registered, and the tracker takes responses of pending workers only.
-/

namespace AmpcCommon.Workpool

variable {Payload : Type}

/-- The steps by which a dispatched job is worked through. -/
def LeaderAction.settles : LeaderAction Payload → Bool
  | .recordResponse | .take _ | .answer _ _ _ => true
  | _ => false

namespace Leader

/-- One step of working through what was dispatched. -/
def settle (l : Leader Payload) (a : LeaderAction Payload) : Option (Leader Payload) :=
  if a.settles then l.step a else none

/-- The state after a manager has taken a message, before it calls the job tracker. -/
def taken (l : Leader Payload) (idx : Nat) (msg : NetworkValue Payload) (queue : List (NetworkValue Payload)) :
    Leader Payload :=
  { l with
    workerCmdCh := Function.update l.workerCmdCh idx (some queue)
    handed := Function.update l.handed idx (l.handed idx ++ handedBy msg) }

/-- The state after a worker has answered a job. -/
def answered (l : Leader Payload) (idx : Nat) (msg : Msg) (payload : Payload) : Leader Payload :=
  { l with
    handed := Function.update l.handed idx ((l.handed idx).erase msg)
    workerRspRx := l.workerRspRx ++ [⟨msg.jobId, msg.workerId, .ok payload⟩]
    answers := l.answers ++ [(idx, ⟨msg.jobId, msg.workerId, .ok payload⟩)] }

/-- Everything a step of working through can do. -/
theorem settle_cases {l l' : Leader Payload} {a : LeaderAction Payload} (h : l.settle a = some l') :
    (∃ r rest, l.workerRspRx = r :: rest ∧
      l' = { l with workerRspRx := rest }.call (some (.recordResponse r))) ∨
    (∃ idx msg queue, idx < l.numWorkers ∧ l.workerCmdCh idx = some (msg :: queue) ∧
      l' = (l.taken idx msg queue).call (Pair.mgrHook msg)) ∨
    ∃ idx msg payload, idx < l.numWorkers ∧ msg ∈ l.handed idx ∧ l' = l.answered idx msg payload := by
  cases a with
  | recordResponse =>
    have h : l.step .recordResponse = some l' := h
    simp only [Leader.step] at h
    split at h
    next => cases h
    next r rest hrx =>
      cases h
      exact Or.inl ⟨r, rest, hrx, rfl⟩
  | take idx =>
    have h : l.step (.take idx) = some l' := h
    simp only [Leader.step] at h
    split_ifs at h with hidx
    split at h
    next msg queue hqueue =>
      cases h
      exact Or.inr (Or.inl ⟨idx, msg, queue, hidx, hqueue, rfl⟩)
    next => cases h
  | answer idx msg payload =>
    have h : l.step (.answer idx msg payload) = some l' := h
    simp only [Leader.step] at h
    split_ifs at h with hmsg
    cases h
    exact Or.inr (Or.inr ⟨idx, msg, payload, hmsg.1, hmsg.2, rfl⟩)
  | _ => cases h

/-- A message of the job for the worker waits in a command queue. -/
def QueuedAt (l : Leader Payload) (jobId : JobId) (idx : Nat) (w : WorkerId) : Prop :=
  idx < l.numWorkers ∧ ∃ queue payload, l.workerCmdCh idx = some queue ∧ .job jobId w payload ∈ queue

/-- The worker has the job and has not answered it. -/
def HandedAt (l : Leader Payload) (jobId : JobId) (idx : Nat) (w : WorkerId) : Prop :=
  idx < l.numWorkers ∧ (⟨jobId, w⟩ : Msg) ∈ l.handed idx

/-- The job id is not in use. -/
structure Fresh (l : Leader Payload) (jobId : JobId) : Prop where
  queued : ∀ idx w, ¬ l.QueuedAt jobId idx w
  handed : ∀ idx w, ¬ l.HandedAt jobId idx w
  waiting : ∀ r ∈ l.workerRspRx, r.jobId ≠ jobId
  answers : ∀ a ∈ l.answers, a.2.jobId ≠ jobId

/-! ## Working through what was dispatched -/

/-- A response to the job that is one of the answers of a worker, or one of the responses `failed` of the leader
task. -/
def Given (l : Leader Payload) (failed : List (WorkerRsp Payload)) (r : WorkerRsp Payload) : Prop :=
  (∃ idx, (idx, r) ∈ l.answers) ∨ r ∈ failed

/-- The job is tracked. Those of its workers to whom no message was sent stay registered. -/
structure Tracked (jobId : JobId) (ws : Finset WorkerId) (reach : Nat → WorkerId → Prop)
    (failed : List (WorkerRsp Payload)) (sent : List (JobId × List (WorkerRsp Payload))) (l : Leader Payload)
    (job : PendingJob Payload) (new : List (JobId × List (WorkerRsp Payload))) : Prop where
  job_eq : l.tracker.job? jobId = some job
  sent_eq : l.tracker.sent = sent ++ new
  unsent : new.filter (·.1 = jobId) = []
  inv : JobInv ws jobId job
  registered : ∀ w ∈ job.registered, (∃ idx, reach idx w) → ∃ idx, l.QueuedAt jobId idx w
  stuck : ∀ w ∈ ws, (¬ ∃ idx, reach idx w) → w ∈ job.registered
  pending : ∀ w ∈ job.pending, (∃ idx, l.HandedAt jobId idx w) ∨
    ∃ r ∈ l.workerRspRx, r.jobId = jobId ∧ r.workerId = w
  results : ∀ w r, job.results.lookup w = some r → l.Given failed r

/-- The job is completed, by the responses `rs`. -/
structure Completed (jobId : JobId) (ws : Finset WorkerId) (reach : Nat → WorkerId → Prop)
    (failed : List (WorkerRsp Payload)) (sent : List (JobId × List (WorkerRsp Payload))) (l : Leader Payload)
    (rs : List (WorkerRsp Payload)) (new : List (JobId × List (WorkerRsp Payload))) : Prop where
  job_eq : l.tracker.job? jobId = none
  sent_eq : l.tracker.sent = sent ++ new
  sent_once : new.filter (·.1 = jobId) = [(jobId, rs)]
  answeredBy : AnsweredBy ws jobId rs
  ne_nil : rs ≠ []
  given : ∀ r ∈ rs, l.Given failed r
  reached : ∀ w ∈ ws, ∃ idx, reach idx w

/-- Nothing was sent for the job, and it does not complete. -/
structure Untouched (jobId : JobId) (reach : Nat → WorkerId → Prop) (failed : List (WorkerRsp Payload))
    (sent : List (JobId × List (WorkerRsp Payload))) (l : Leader Payload)
    (new : List (JobId × List (WorkerRsp Payload))) : Prop where
  sent_eq : l.tracker.sent = sent ++ new
  unsent : new.filter (·.1 = jobId) = []
  unreached : ∀ idx w, ¬ reach idx w
  failed_eq : failed = []

/-- The three places where a dispatched job can be. -/
def Located (jobId : JobId) (ws : Finset WorkerId) (reach : Nat → WorkerId → Prop) (failed : List (WorkerRsp Payload))
    (sent : List (JobId × List (WorkerRsp Payload))) (l : Leader Payload) : Prop :=
  (∃ job new, Tracked jobId ws reach failed sent l job new) ∨
    (∃ rs new, Completed jobId ws reach failed sent l rs new) ∨ ∃ new, Untouched jobId reach failed sent l new

/-- What holds of a dispatched job: `ws` are the workers it was registered for, `reach` tells for whom messages were
put into the command queues, and `failed` are the responses of the leader task. -/
structure DispatchInv (jobId : JobId) (ws : Finset WorkerId) (reach : Nat → WorkerId → Prop)
    (failed : List (WorkerRsp Payload)) (sent : List (JobId × List (WorkerRsp Payload))) (l : Leader Payload) :
    Prop where
  queued : ∀ idx w, l.QueuedAt jobId idx w → reach idx w
  handed : ∀ idx w, l.HandedAt jobId idx w → reach idx w
  answers : ∀ a ∈ l.answers, a.2.jobId = jobId → reach a.1 a.2.workerId
  waiting : ∀ r ∈ l.workerRspRx, r.jobId = jobId → l.Given failed r
  located : Located jobId ws reach failed sent l

section Settle

variable {l l' : Leader Payload} {jobId : JobId} {ws : Finset WorkerId} {reach : Nat → WorkerId → Prop}
  {failed : List (WorkerRsp Payload)} {sent : List (JobId × List (WorkerRsp Payload))}

theorem Given.mono {r : WorkerRsp Payload} (h : l.Given failed r) (hanswers : ∀ a ∈ l.answers, a ∈ l'.answers) :
    l'.Given failed r :=
  h.imp (fun ⟨idx, hidx⟩ => ⟨idx, hanswers _ hidx⟩) id

/-- A step that does not touch the job leaves it where it is. -/
theorem Located.of_same (h : Located jobId ws reach failed sent l)
    (hjob : l'.tracker.job? jobId = l.tracker.job? jobId) {extra : List (JobId × List (WorkerRsp Payload))}
    (hsent : l'.tracker.sent = l.tracker.sent ++ extra) (hextra : extra.filter (·.1 = jobId) = [])
    (hanswers : ∀ a ∈ l.answers, a ∈ l'.answers)
    (hqueued : ∀ job, l.tracker.job? jobId = some job → ∀ w ∈ job.registered,
      (∃ idx, l.QueuedAt jobId idx w) → ∃ idx, l'.QueuedAt jobId idx w)
    (hpending : ∀ job, l.tracker.job? jobId = some job → ∀ w ∈ job.pending,
      ((∃ idx, l.HandedAt jobId idx w) ∨ ∃ r ∈ l.workerRspRx, r.jobId = jobId ∧ r.workerId = w) →
        (∃ idx, l'.HandedAt jobId idx w) ∨ ∃ r ∈ l'.workerRspRx, r.jobId = jobId ∧ r.workerId = w) :
    Located jobId ws reach failed sent l' := by
  rcases h with ⟨job, new, h⟩ | ⟨rs, new, h⟩ | ⟨new, h⟩
  · refine Or.inl ⟨job, new ++ extra, hjob.trans h.job_eq, ?_, ?_, h.inv, ?_, h.stuck, ?_, ?_⟩
    · rw [hsent, h.sent_eq, List.append_assoc]
    · rw [List.filter_append, h.unsent, hextra, List.append_nil]
    · intro w hw hreach
      exact hqueued job h.job_eq w hw (h.registered w hw hreach)
    · intro w hw
      exact hpending job h.job_eq w hw (h.pending w hw)
    · intro w r hr
      exact (h.results w r hr).mono hanswers
  · refine Or.inr (Or.inl ⟨rs, new ++ extra, hjob.trans h.job_eq, ?_, ?_, h.answeredBy, h.ne_nil, ?_, h.reached⟩)
    · rw [hsent, h.sent_eq, List.append_assoc]
    · rw [List.filter_append, h.sent_once, hextra, List.append_nil]
    · intro r hr
      exact (h.given r hr).mono hanswers
  · refine Or.inr (Or.inr ⟨new ++ extra, ?_, ?_, h.unreached, h.failed_eq⟩)
    · rw [hsent, h.sent_eq, List.append_assoc]
    · rw [List.filter_append, h.unsent, hextra, List.append_nil]

/-- Results of the job are sent by its completion only. -/
theorem Located.completed (h : Located jobId ws reach failed sent l) {rs : List (WorkerRsp Payload)}
    {new : List (JobId × List (WorkerRsp Payload))} (hsent : l.tracker.sent = sent ++ new)
    (hnew : new.filter (·.1 = jobId) = [(jobId, rs)]) : Completed jobId ws reach failed sent l rs new := by
  have hsame : ∀ new', l.tracker.sent = sent ++ new' → new' = new := fun new' hsent' =>
    List.append_cancel_left (hsent'.symm.trans hsent)
  rcases h with ⟨job, new', h⟩ | ⟨rs', new', h⟩ | ⟨new', h⟩
  · have hunsent := h.unsent
    rw [hsame new' h.sent_eq, hnew] at hunsent
    cases hunsent
  · obtain rfl := hsame new' h.sent_eq
    have honce := h.sent_once
    rw [hnew] at honce
    cases honce
    exact h
  · have hunsent := h.unsent
    rw [hsame new' h.sent_eq, hnew] at hunsent
    cases hunsent

/-- A tracked job with workers, all of whom a message was sent to, has something left to be done for it. -/
theorem Tracked.busy {job : PendingJob Payload} {new : List (JobId × List (WorkerRsp Payload))}
    (h : Tracked jobId ws reach failed sent l job new) (hreach : ∀ w ∈ ws, ∃ idx, reach idx w) (hws : ws.Nonempty) :
    (∃ idx w, l.QueuedAt jobId idx w) ∨ (∃ idx w, l.HandedAt jobId idx w) ∨ l.workerRspRx ≠ [] := by
  by_contra hidle
  push Not at hidle
  obtain ⟨hqueued, hhanded, hrsp⟩ := hidle
  have hregistered : job.registered = ∅ := by
    rw [Finset.eq_empty_iff_forall_notMem]
    intro w hw
    have hmem : w ∈ ws := by
      rw [← h.inv.union]
      exact Finset.mem_union_left _ (Finset.mem_union_left _ hw)
    obtain ⟨idx, hidx⟩ := h.registered w hw (hreach w hmem)
    exact hqueued idx w hidx
  have hpending : job.pending = ∅ := by
    rw [Finset.eq_empty_iff_forall_notMem]
    intro w hw
    rcases h.pending w hw with ⟨idx, hidx⟩ | ⟨r, hr, -⟩
    · exact hhanded idx w hidx
    · rw [hrsp] at hr
      cases hr
  have hnone := h.inv.waits (by rw [hregistered, hpending, Finset.empty_union])
  exact hws.ne_empty hnone

theorem filter_sentByAnswer {job : PendingJob Payload} {r : WorkerRsp Payload} (h : r.jobId ≠ jobId) :
    (job.sentByAnswer r).filter (·.1 = jobId) = [] := by
  unfold PendingJob.sentByAnswer
  split_ifs
  · simp [h]
  · rfl

/-- The answer of a pending worker. -/
theorem Tracked.answer {job : PendingJob Payload} {new : List (JobId × List (WorkerRsp Payload))}
    {r : WorkerRsp Payload} (h : Tracked jobId ws reach failed sent l job new) (hj : r.jobId = jobId)
    (hw : r.workerId ∈ job.pending) (hgiven : l.Given failed r)
    (hjob : l'.tracker.job? jobId = job.afterAnswer r) (hsent : l'.tracker.sent = l.tracker.sent ++ job.sentByAnswer r)
    (hanswers : l'.answers = l.answers) (hqueued : ∀ idx w, l.QueuedAt jobId idx w → l'.QueuedAt jobId idx w)
    (hpending : ∀ w ≠ r.workerId,
      ((∃ idx, l.HandedAt jobId idx w) ∨ ∃ r ∈ l.workerRspRx, r.jobId = jobId ∧ r.workerId = w) →
        (∃ idx, l'.HandedAt jobId idx w) ∨ ∃ r ∈ l'.workerRspRx, r.jobId = jobId ∧ r.workerId = w) :
    Located jobId ws reach failed sent l' := by
  have hresults : ∀ w r', (job.answer r).results.lookup w = some r' → l'.Given failed r' := by
    intro w r' hr'
    rw [PendingJob.lookup_answer] at hr'
    split_ifs at hr' with hwr
    · cases hr'
      exact hgiven.mono fun a ha => hanswers ▸ ha
    · exact (h.results w r' hr').mono fun a ha => hanswers ▸ ha
  by_cases hlast : (job.answer r).pending = ∅ ∧ (job.answer r).registered = ∅
  · -- the last answer completes the job
    rw [PendingJob.afterAnswer, if_pos hlast] at hjob
    rw [PendingJob.sentByAnswer, if_pos hlast, h.sent_eq, List.append_assoc, hj] at hsent
    have hall := h.inv.answeredBy hj hw hlast
    refine Or.inr (Or.inl ⟨(job.answer r).values, _, hjob, hsent, ?_, hall, ?_, ?_, ?_⟩)
    · rw [List.filter_append, h.unsent]
      simp
    · intro hnil
      have hmem : r.workerId ∈ ws := by
        rw [← h.inv.union]
        exact Finset.mem_union_left _ (Finset.mem_union_right _ hw)
      rw [← hall.workers_eq, hnil] at hmem
      simp at hmem
    · intro r' hr'
      obtain ⟨e, he, rfl⟩ := List.mem_map.mp hr'
      exact hresults e.1 e.2 (AList.mem_lookup_iff.mpr he)
    · intro w hws
      by_contra hno
      have hreg : w ∈ (job.answer r).registered := h.stuck w hws hno
      rw [hlast.2] at hreg
      exact absurd hreg (Finset.notMem_empty w)
  · rw [PendingJob.afterAnswer, if_neg hlast] at hjob
    rw [PendingJob.sentByAnswer, if_neg hlast, List.append_nil] at hsent
    refine Or.inl ⟨job.answer r, new, hjob, hsent.trans h.sent_eq, h.unsent, h.inv.answer hj hw hlast, ?_, h.stuck, ?_,
      hresults⟩
    · intro w hreg hreach
      obtain ⟨idx, hidx⟩ := h.registered w hreg hreach
      exact ⟨idx, hqueued idx w hidx⟩
    · intro w hpend
      obtain ⟨hne, hpend⟩ := Finset.mem_erase.mp hpend
      exact hpending w hne (h.pending w hpend)

/-- The leader task receives a response. -/
theorem DispatchInv.recordResponse {r : WorkerRsp Payload} {rest : List (WorkerRsp Payload)}
    (h : DispatchInv jobId ws reach failed sent l) (hrx : l.workerRspRx = r :: rest) :
    DispatchInv jobId ws reach failed sent ({ l with workerRspRx := rest }.call (some (.recordResponse r))) := by
  have hrest : ∀ r' ∈ rest, r' ∈ l.workerRspRx := by
    intro r' hr'
    rw [hrx]
    exact List.mem_cons_of_mem _ hr'
  refine ⟨h.queued, h.handed, h.answers, fun r' hr' => h.waiting r' (hrest r' hr'), ?_⟩
  -- a response that waits is the one received or waits on
  have hwaits : ∀ w, (r.jobId = jobId → w ≠ r.workerId) →
      ((∃ idx, l.HandedAt jobId idx w) ∨ ∃ r' ∈ l.workerRspRx, r'.jobId = jobId ∧ r'.workerId = w) →
        (∃ idx, l.HandedAt jobId idx w) ∨ ∃ r' ∈ rest, r'.jobId = jobId ∧ r'.workerId = w := by
    rintro w hne (hhanded | ⟨r', hr', hj, rfl⟩)
    · exact Or.inl hhanded
    · rw [hrx] at hr'
      rcases List.mem_cons.mp hr' with rfl | hr'
      · exact absurd rfl (hne hj)
      · exact Or.inr ⟨r', hr', hj, rfl⟩
  rcases l.tracker.recordResponse_spec r with ⟨job, hjob, hw, -, hsent, hjobs⟩ | ⟨hno, msg, herr⟩
  · by_cases hj : r.jobId = jobId
    · have hgiven := h.waiting r (hrx ▸ List.mem_cons_self) hj
      rw [hj] at hjob
      rcases h.located with ⟨job', new, htracked⟩ | ⟨rs, new, hdone⟩ | ⟨new, huntouched⟩
      · obtain rfl : job = job' := Option.some.inj (hjob.symm.trans htracked.job_eq)
        refine htracked.answer hj hw hgiven ?_ hsent rfl (fun _ _ hq => hq) fun w hne => hwaits w fun _ => hne
        exact (hjobs jobId).trans (if_pos hj.symm)
      · rw [hdone.job_eq] at hjob
        cases hjob
      · rcases hgiven with ⟨idx, ha⟩ | hfailed
        · exact absurd (h.answers _ ha hj) (huntouched.unreached _ _)
        · rw [huntouched.failed_eq] at hfailed
          cases hfailed
    · exact h.located.of_same ((hjobs jobId).trans (if_neg (Ne.symm hj))) hsent (filter_sentByAnswer hj)
        (fun _ ha => ha) (fun _ _ _ _ hq => hq) fun job' _ w _ => hwaits w fun hj' => absurd hj' hj
  · -- the response is refused
    have htracker : (l.tracker.recordResponse r).2 = l.tracker := by rw [herr]
    have hsent : (l.tracker.recordResponse r).2.sent = l.tracker.sent ++ [] := by rw [htracker, List.append_nil]
    refine h.located.of_same (congrArg (·.job? jobId) htracker) hsent rfl (fun _ ha => ha) (fun _ _ _ _ hq => hq)
      fun job' hjob' w hw => hwaits w ?_
    rintro hj rfl
    rw [← hj] at hjob'
    exact hno job' hjob' hw

/-- A worker answers a job. -/
theorem DispatchInv.answer {idx : Nat} {msg : Msg} {payload : Payload} (h : DispatchInv jobId ws reach failed sent l)
    (hidx : idx < l.numWorkers) (hmsg : msg ∈ l.handed idx) :
    DispatchInv jobId ws reach failed sent (l.answered idx msg payload) := by
  have hreach : msg.jobId = jobId → reach idx msg.workerId := by
    rintro rfl
    exact h.handed idx msg.workerId ⟨hidx, hmsg⟩
  refine ⟨h.queued, ?_, ?_, ?_, ?_⟩
  · rintro i w ⟨hi, hw⟩
    refine h.handed i w ⟨hi, ?_⟩
    have hw : _ ∈ Function.update l.handed idx ((l.handed idx).erase msg) i := hw
    by_cases hidx : i = idx
    · subst hidx
      rw [Function.update_self] at hw
      exact List.mem_of_mem_erase hw
    · rwa [Function.update_of_ne hidx] at hw
  · intro a ha hj
    rcases List.mem_append.mp ha with hold | hnew
    · exact h.answers a hold hj
    · obtain rfl := List.mem_singleton.mp hnew
      exact hreach hj
  · intro r hr hj
    rcases List.mem_append.mp hr with hold | hnew
    · exact (h.waiting r hold hj).mono fun a ha => List.mem_append_left _ ha
    · obtain rfl := List.mem_singleton.mp hnew
      exact Or.inl ⟨idx, List.mem_append_right _ (List.mem_singleton_self _)⟩
  · refine h.located.of_same rfl (List.append_nil _).symm rfl (fun a ha => List.mem_append_left _ ha)
      (fun _ _ _ _ hq => hq) ?_
    rintro job - w - (⟨i, hi, hw⟩ | ⟨r, hr, hj⟩)
    · -- the job is answered, or still in the hands of the worker
      by_cases hans : i = idx ∧ msg = ⟨jobId, w⟩
      · obtain ⟨rfl, rfl⟩ := hans
        exact Or.inr ⟨_, List.mem_append_right _ (List.mem_singleton_self _), rfl, rfl⟩
      · refine Or.inl ⟨i, hi, ?_⟩
        by_cases hidx : i = idx
        · subst hidx
          show _ ∈ Function.update l.handed i _ i
          rw [Function.update_self]
          exact (List.mem_erase_of_ne fun heq => hans ⟨rfl, heq.symm⟩).mpr hw
        · show _ ∈ Function.update l.handed idx _ i
          rw [Function.update_of_ne hidx]
          exact hw
    · exact Or.inr ⟨r, List.mem_append_left _ hr, hj⟩

theorem queuedAt_taken {idx : Nat} {msg : NetworkValue Payload} {queue : List (NetworkValue Payload)}
    (hqueue : l.workerCmdCh idx = some (msg :: queue)) {i : Nat} {w : WorkerId}
    (hw : (l.taken idx msg queue).QueuedAt jobId i w) : l.QueuedAt jobId i w := by
  obtain ⟨hi, q, payload, hq, hmem⟩ := hw
  refine ⟨hi, ?_⟩
  by_cases hidx : i = idx
  · subst hidx
    have hq : Function.update l.workerCmdCh i (some queue) i = some q := hq
    rw [Function.update_self] at hq
    cases hq
    exact ⟨_, payload, hqueue, List.mem_cons_of_mem _ hmem⟩
  · have hq : Function.update l.workerCmdCh idx (some queue) i = some q := hq
    rw [Function.update_of_ne hidx] at hq
    exact ⟨q, payload, hq, hmem⟩

theorem taken_queuedAt {idx : Nat} {msg : NetworkValue Payload} {queue : List (NetworkValue Payload)}
    (hqueue : l.workerCmdCh idx = some (msg :: queue)) {i : Nat} {w : WorkerId} (hw : l.QueuedAt jobId i w)
    (hne : ∀ payload, msg ≠ .job jobId w payload) : (l.taken idx msg queue).QueuedAt jobId i w := by
  obtain ⟨hi, q, payload, hq, hmem⟩ := hw
  refine ⟨hi, ?_⟩
  by_cases hidx : i = idx
  · subst hidx
    rw [hqueue] at hq
    cases hq
    refine ⟨queue, payload, Function.update_self _ _ _, ?_⟩
    exact (List.mem_cons.mp hmem).resolve_left fun heq => hne payload heq.symm
  · exact ⟨q, payload, (Function.update_of_ne hidx _ _).trans hq, hmem⟩

theorem handedAt_taken {idx : Nat} {msg : NetworkValue Payload} {queue : List (NetworkValue Payload)} {i : Nat}
    {w : WorkerId} :
    (l.taken idx msg queue).HandedAt jobId i w ↔
      l.HandedAt jobId i w ∨ i < l.numWorkers ∧ i = idx ∧ (⟨jobId, w⟩ : Msg) ∈ handedBy msg := by
  show i < l.numWorkers ∧ _ ∈ Function.update l.handed idx _ i ↔ _
  unfold HandedAt
  by_cases hidx : i = idx
  · subst hidx
    rw [Function.update_self, List.mem_append]
    constructor
    · rintro ⟨hi, hold | hnew⟩
      · exact Or.inl ⟨hi, hold⟩
      · exact Or.inr ⟨hi, rfl, hnew⟩
    · rintro (⟨hi, hold⟩ | ⟨hi, -, hnew⟩)
      · exact ⟨hi, Or.inl hold⟩
      · exact ⟨hi, Or.inr hnew⟩
  · rw [Function.update_of_ne hidx]
    constructor
    · exact Or.inl
    · rintro (hold | ⟨-, heq, -⟩)
      · exact hold
      · exact absurd heq hidx

theorem Tracked.setToPending {job : PendingJob Payload} {new : List (JobId × List (WorkerRsp Payload))} {w : WorkerId}
    (h : Tracked jobId ws reach failed sent l job new) (hw : w ∈ job.registered) (hreach : ∃ idx, reach idx w)
    (hjob : l'.tracker.job? jobId = some ⟨job.registered.erase w, insert w job.pending, job.results⟩)
    (hsent : l'.tracker.sent = l.tracker.sent) (hanswers : l'.answers = l.answers)
    (hrsp : l'.workerRspRx = l.workerRspRx)
    (hqueued : ∀ w' ≠ w, (∃ idx, l.QueuedAt jobId idx w') → ∃ idx, l'.QueuedAt jobId idx w')
    (hhanded : ∀ idx w', l.HandedAt jobId idx w' → l'.HandedAt jobId idx w')
    (hnew : ∃ idx, l'.HandedAt jobId idx w) : Located jobId ws reach failed sent l' := by
  refine Or.inl ⟨_, new, hjob, hsent.trans h.sent_eq, h.unsent, h.inv.setToPending hw, ?_, ?_, ?_, ?_⟩
  · intro w' hw' hreach'
    obtain ⟨hne, hreg⟩ := Finset.mem_erase.mp hw'
    exact hqueued w' hne (h.registered w' hreg hreach')
  · intro w' hws hno
    refine Finset.mem_erase.mpr ⟨?_, h.stuck w' hws hno⟩
    rintro rfl
    exact hno hreach
  · intro w' hw'
    rcases Finset.mem_insert.mp hw' with rfl | hpend
    · exact Or.inl hnew
    · rw [hrsp]
      exact (h.pending w' hpend).imp (fun ⟨idx, hidx⟩ => ⟨idx, hhanded idx w' hidx⟩) id
  · intro w' r hr
    exact (h.results w' r hr).mono fun a ha => hanswers ▸ ha

/-- A manager takes a message. -/
theorem DispatchInv.take {idx : Nat} {msg : NetworkValue Payload} {queue : List (NetworkValue Payload)}
    (h : DispatchInv jobId ws reach failed sent l) (hidx : idx < l.numWorkers)
    (hqueue : l.workerCmdCh idx = some (msg :: queue)) :
    DispatchInv jobId ws reach failed sent ((l.taken idx msg queue).call (Pair.mgrHook msg)) := by
  have hqueued : ∀ i w, (l.taken idx msg queue).QueuedAt jobId i w → reach i w :=
    fun i w hw => h.queued i w (queuedAt_taken hqueue hw)
  have hnew : ∀ w, (⟨jobId, w⟩ : Msg) ∈ handedBy msg → l.QueuedAt jobId idx w := by
    intro w hw
    cases msg with
    | job jobId' workerId payload =>
      cases List.mem_singleton.mp hw
      exact ⟨hidx, _, payload, hqueue, List.mem_cons_self⟩
    | _ => cases hw
  have hhanded : ∀ i w, (l.taken idx msg queue).HandedAt jobId i w → reach i w := by
    intro i w hw
    rcases handedAt_taken.mp hw with hold | ⟨-, rfl, hmem⟩
    · exact h.handed i w hold
    · exact h.queued i w (hnew w hmem)
  have hpending : ∀ w, ((∃ i, l.HandedAt jobId i w) ∨ ∃ r ∈ l.workerRspRx, r.jobId = jobId ∧ r.workerId = w) →
      (∃ i, (l.taken idx msg queue).HandedAt jobId i w) ∨ ∃ r ∈ l.workerRspRx, r.jobId = jobId ∧ r.workerId = w :=
    fun w => Or.imp_left fun ⟨i, hi⟩ => ⟨i, handedAt_taken.mpr (Or.inl hi)⟩
  cases msg with
  | job jobId' w payload =>
    refine ⟨hqueued, hhanded, h.answers, h.waiting, ?_⟩
    -- the messages for the other workers stay where they are
    have hothers : ∀ w', (jobId' = jobId → w' ≠ w) → (∃ i, l.QueuedAt jobId i w') →
        ∃ i, (l.taken idx (.job jobId' w payload) queue).QueuedAt jobId i w' := by
      rintro w' hne ⟨i, hi⟩
      refine ⟨i, taken_queuedAt hqueue hi ?_⟩
      intro payload' heq
      cases heq
      exact hne rfl rfl
    rcases l.tracker.setToPending_spec jobId' w with ⟨job, hjob, hw, -, hsent, hjobs⟩ | ⟨hno, error, herr⟩
    · by_cases hj : jobId' = jobId
      · subst hj
        have hreach : reach idx w := h.queued idx w (hnew w (List.mem_singleton_self _))
        have hjob' := (hjobs jobId').trans (if_pos rfl)
        rcases h.located with ⟨job', new, htracked⟩ | ⟨rs, new, hdone⟩ | ⟨new, huntouched⟩
        · obtain rfl : job = job' := Option.some.inj (hjob.symm.trans htracked.job_eq)
          have hmine : (l.taken idx (.job jobId' w payload) queue).HandedAt jobId' idx w :=
            handedAt_taken.mpr (Or.inr ⟨hidx, rfl, List.mem_singleton_self _⟩)
          have hmore : ∀ i w', l.HandedAt jobId' i w' →
              (l.taken idx (.job jobId' w payload) queue).HandedAt jobId' i w' :=
            fun i w' hi => handedAt_taken.mpr (Or.inl hi)
          exact htracked.setToPending hw ⟨idx, hreach⟩ hjob' hsent rfl rfl (fun w' hne => hothers w' fun _ => hne)
            hmore ⟨idx, hmine⟩
        · rw [hdone.job_eq] at hjob
          cases hjob
        · exact absurd hreach (huntouched.unreached _ _)
      · exact h.located.of_same ((hjobs jobId).trans (if_neg (Ne.symm hj))) (hsent.trans (List.append_nil _).symm) rfl
          (fun _ ha => ha) (fun _ _ w' _ => hothers w' fun hj' => absurd hj' hj) fun _ _ w' _ => hpending w'
    · -- the worker is not registered any more
      have htracker : (l.tracker.setToPending jobId' w).2 = l.tracker := by rw [herr]
      have hsent : (l.tracker.setToPending jobId' w).2.sent = l.tracker.sent ++ [] := by rw [htracker, List.append_nil]
      refine h.located.of_same (congrArg (·.job? jobId) htracker) hsent rfl (fun _ ha => ha)
        (fun job hjob w' hw' => hothers w' ?_) fun _ _ w' _ => hpending w'
      rintro rfl rfl
      exact hno job hjob hw'
  | _ =>
    refine ⟨hqueued, hhanded, h.answers, h.waiting, ?_⟩
    refine h.located.of_same rfl (List.append_nil _).symm rfl (fun _ ha => ha) ?_ fun _ _ w' _ => hpending w'
    rintro job hjob w' - ⟨i, hi⟩
    exact ⟨i, taken_queuedAt hqueue hi fun payload heq => by cases heq⟩

/-- Every step keeps the invariant. -/
theorem DispatchInv.settle {a : LeaderAction Payload} (h : DispatchInv jobId ws reach failed sent l)
    (hstep : l.settle a = some l') : DispatchInv jobId ws reach failed sent l' := by
  rcases settle_cases hstep with ⟨r, rest, hrx, rfl⟩ | ⟨idx, msg, queue, hidx, hqueue, rfl⟩ |
    ⟨idx, msg, payload, hidx, hmsg, rfl⟩
  · exact h.recordResponse hrx
  · exact h.take hidx hqueue
  · exact h.answer hidx hmsg

end Settle

/-! ## Every run ends -/

/-- How many steps are left at most, for the messages in the queue of a manager and in the hands of its worker. -/
def workAt (l : Leader Payload) (idx : Nat) : Nat :=
  3 * (l.workerCmdCh idx).elim 0 List.length + 2 * (l.handed idx).length

/-- How many steps are left at most. -/
def work (l : Leader Payload) : Nat := ∑ idx ∈ Finset.range l.numWorkers, l.workAt idx + l.workerRspRx.length

/-- A step at one manager changes only what is left there. -/
theorem work_lt {l l' : Leader Payload} {idx : Nat} (hidx : idx < l.numWorkers) (hnum : l'.numWorkers = l.numWorkers)
    (hne : ∀ i ≠ idx, l'.workAt i = l.workAt i)
    (hlt : l'.workAt idx + l'.workerRspRx.length < l.workAt idx + l.workerRspRx.length) : l'.work < l.work := by
  have hmem := Finset.mem_range.mpr hidx
  have hrest : ∑ i ∈ (Finset.range l.numWorkers).erase idx, l'.workAt i =
      ∑ i ∈ (Finset.range l.numWorkers).erase idx, l.workAt i :=
    Finset.sum_congr rfl fun i hi => hne i (Finset.ne_of_mem_erase hi)
  unfold work
  rw [hnum, ← Finset.add_sum_erase _ _ hmem, ← Finset.add_sum_erase _ l.workAt hmem, hrest]
  omega

theorem call_work (l : Leader Payload) (c : Option (TrackerCall Payload)) : (l.call c).work = l.work := by
  cases c <;> rfl

theorem settle_decreases : Transition.Decreases (settle : Leader Payload → LeaderAction Payload → _) work := by
  intro l a l' hstep
  rcases settle_cases hstep with ⟨r, rest, hrx, rfl⟩ | ⟨idx, msg, queue, hidx, hqueue, rfl⟩ |
    ⟨idx, msg, payload, hidx, hmsg, rfl⟩
  · unfold work
    rw [hrx]
    exact Nat.add_lt_add_left (Nat.lt_succ_self _) _
  · rw [call_work]
    refine work_lt hidx rfl ?_ ?_
    · intro i hi
      simp [workAt, taken, Function.update_of_ne hi]
    · have hone : (handedBy msg).length ≤ 1 := by
        cases msg <;> simp [handedBy]
      simp [workAt, taken, hqueue]
      omega
  · refine work_lt hidx rfl ?_ ?_
    · intro i hi
      simp [workAt, answered, Function.update_of_ne hi]
    · have hlen := List.length_erase_of_mem hmsg
      have hpos := List.length_pos_of_mem hmsg
      simp [workAt, answered, hlen]
      omega

end Leader

end AmpcCommon.Workpool
