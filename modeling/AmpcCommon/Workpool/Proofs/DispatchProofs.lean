import AmpcCommon.Workpool.Dispatch
import AmpcCommon.Workpool.Proofs.JobTrackerProofs

/-!
# Every tracked job waits for a worker

A call of the job tracker keeps that every tracked job has a registered or a pending worker, unless it registers a job
without workers (`TrackerCall.run_waits`). `scatter_gather` refuses a job without messages; `broadcast` takes the
number of workers as it is, so the leader must have workers, as many as a `WorkerId` can count.

When all queues are open, the leader does what it does in the model of the whole workpool (`State.step_leader`).
-/

namespace AmpcCommon.Workpool

variable {Payload : Type}

/-- Every tracked job has somebody left to answer it. -/
def JobTracker.AllWait (t : JobTracker Payload) : Prop :=
  ∀ j job, t.job? j = some job → (job.registered ∪ job.pending).Nonempty

theorem JobTracker.allWait_new : (JobTracker.new : JobTracker Payload).AllWait := by
  intro j job hjob
  cases hjob

theorem TrackerCall.run_waits {t : JobTracker Payload} (ht : t.AllWait) (c : TrackerCall Payload)
    (hreg : ∀ reg ∈ c.registers, reg.2.Nonempty) : (c.run t).2.AllWait := by
  intro j job hjob
  rcases c.run_job?_cases t j with hsame | ⟨jobType, rfl, hnew⟩ | ⟨w, job', -, -, -, hset⟩ |
    ⟨r, job', -, -, -, hafter⟩ | ⟨-, hcancel⟩
  · rw [hsame] at hjob
    exact ht j job hjob
  · rw [hnew] at hjob
    cases hjob
    exact (hreg (j, jobType.workers) rfl).mono Finset.subset_union_left
  · rw [hset] at hjob
    cases hjob
    exact ⟨w, Finset.mem_union_right _ (Finset.mem_insert_self _ _)⟩
  · -- the last answer removes the job
    rw [hafter, PendingJob.afterAnswer] at hjob
    split_ifs at hjob with hlast
    cases hjob
    by_contra hempty
    rw [Finset.not_nonempty_iff_eq_empty, Finset.union_eq_empty] at hempty
    exact hlast ⟨hempty.2, hempty.1⟩
  · rw [hcancel] at hjob
    cases hjob

namespace Leader

variable {l l' : Leader Payload}

/-- Sending messages puts them behind what their queues hold, and a response into the response channel for every
message to a closed queue. -/
theorem foldl_send_eq (cs : List (Command Payload)) (l : Leader Payload) :
    cs.foldl send l = { l with
      workerCmdCh := fun idx => (l.workerCmdCh idx).map (· ++ (cs.filter (·.idx = idx)).map Command.msg)
      workerRspRx := l.workerRspRx ++ (cs.filter fun c => (l.workerCmdCh c.idx).isNone).map Command.failed } := by
  induction cs generalizing l with
  | nil => simp
  | cons c cs ih =>
    rw [List.foldl_cons, ih]
    unfold send
    cases hqueue : l.workerCmdCh c.idx with
    | none =>
      simp only [List.filter_cons, hqueue, Option.isNone_none, if_true, List.map_cons, List.append_assoc,
        List.singleton_append]
      congr 1
      funext idx
      by_cases hidx : c.idx = idx
      · subst hidx
        simp [hqueue]
      · simp [hidx]
    | some queue =>
      have hopen : ∀ c' : Command Payload,
          (Function.update l.workerCmdCh c.idx (some (queue ++ [c.msg])) c'.idx).isNone =
            (l.workerCmdCh c'.idx).isNone := by
        intro c'
        by_cases hidx : c'.idx = c.idx
        · rw [hidx, Function.update_self, hqueue]
          rfl
        · rw [Function.update_of_ne hidx]
      simp only [List.filter_cons, hqueue, hopen, Option.isNone_some, Bool.false_eq_true, if_false]
      congr 1
      funext idx
      by_cases hidx : c.idx = idx
      · subst hidx
        simp [hqueue]
      · simp [hidx, Function.update_of_ne (Ne.symm hidx)]

/-- The responses of the leader task to its own messages. -/
def failures (l : Leader Payload) (job : Job Payload) : List (WorkerRsp Payload) :=
  ((l.commands job).filter fun c => (l.workerCmdCh c.idx).isNone).map Command.failed

/-- Everything a job changes when it is registered and sent. -/
theorem dispatch_eq (l : Leader Payload) (job : Job Payload) (jobId : JobId) (jobType : JobType) :
    l.dispatch job jobId jobType = { l with
      tracker := l.tracker.registerJob jobId jobType
      workerCmdCh := fun idx =>
        (l.workerCmdCh idx).map (· ++ ((l.commands job).filter (·.idx = idx)).map Command.msg)
      workerRspRx := l.workerRspRx ++ l.failures job } :=
  foldl_send_eq _ _

theorem call_jobRx (l : Leader Payload) (c : Option (TrackerCall Payload)) : (l.call c).jobRx = l.jobRx := by
  cases c <;> rfl

theorem call_numWorkers (l : Leader Payload) (c : Option (TrackerCall Payload)) :
    (l.call c).numWorkers = l.numWorkers := by
  cases c <;> rfl

theorem call_waits (hl : l.tracker.AllWait) {c : Option (TrackerCall Payload)}
    (hreg : ∀ call ∈ c, call.registers = none) : (l.call c).tracker.AllWait := by
  cases c with
  | none => exact hl
  | some c =>
    refine TrackerCall.run_waits hl c ?_
    intro reg hmem
    rw [hreg c rfl] at hmem
    cases hmem

end Leader

/-- The leader of a workpool whose command queues are all open. -/
def State.leader (numWorkers : WorkerId) (s : State Payload) : Leader Payload where
  numWorkers := numWorkers
  nextJobId := Fin.ofNat _ s.nextJobId
  fetched := s.fetched
  jobRx := s.jobRx
  tracker := s.tracker
  workerRspRx := s.workerRspRx
  workerCmdCh idx := some (if h : idx < 2 ^ 16 then (s.pair ⟨idx, h⟩).cmdRx else [])
  rejected := s.rejected
  handed _ := []
  answers := []

namespace State

variable (numWorkers : WorkerId) (s : State Payload)

theorem messagesFor_eq (job : Job Payload) (w : WorkerId) :
    (((s.leader numWorkers).commands job).filter (·.idx = w.val)).map Command.msg = job.messagesFor numWorkers w := by
  cases job with
  | broadcast jobId payload =>
    have hrange : (List.range numWorkers.val).filter (· = w.val) = if w < numWorkers then [w.val] else [] := by
      rw [List.filter_eq, List.nodup_range.count]
      by_cases hw : w < numWorkers
      · rw [if_pos hw, if_pos (List.mem_range.mpr hw)]
        rfl
      · rw [if_neg hw, if_neg fun hmem => hw (List.mem_range.mp hmem)]
        rfl
    unfold Leader.commands Job.messagesFor
    rw [List.filter_map, List.map_map]
    show List.map _ ((List.range numWorkers.val).filter (· = w.val)) = _
    rw [hrange]
    split_ifs with hw
    · exact congrArg (fun w' => [NetworkValue.job jobId w' payload]) (Fin.ofNat_val_eq_self w)
    · rfl
  | scatterGather jobId msgs =>
    unfold Leader.commands Job.messagesFor
    rw [List.filter_map, List.map_map]
    refine congrArg (List.map _) (List.filter_congr fun m _ => ?_)
    exact decide_eq_decide.mpr Fin.val_inj
  | cancel jobId => rfl

/-- No message goes beyond the last worker. -/
theorem commands_idx_lt (job : Job Payload) {c : Command Payload} (hc : c ∈ (s.leader numWorkers).commands job) :
    c.idx < 2 ^ 16 := by
  cases job with
  | broadcast jobId payload =>
    obtain ⟨idx, hidx, rfl⟩ := List.mem_map.mp hc
    exact Nat.lt_trans (List.mem_range.mp hidx) numWorkers.isLt
  | scatterGather jobId msgs =>
    obtain ⟨m, -, rfl⟩ := List.mem_map.mp hc
    exact m.1.isLt
  | cancel jobId => cases hc

theorem register_leader (job : Job Payload) (jobId : JobId) (jobType : JobType) :
    (s.register numWorkers job jobId jobType).leader numWorkers =
      (s.leader numWorkers).dispatch job jobId jobType := by
  have hopen : (s.leader numWorkers).failures job = [] := by
    unfold Leader.failures
    rw [List.map_eq_nil_iff, List.filter_eq_nil_iff]
    intro c _ hclosed
    cases hclosed
  rw [Leader.dispatch_eq, hopen, List.append_nil]
  unfold register leader
  congr 1
  funext idx
  rw [Option.map_some]
  by_cases hidx : idx < 2 ^ 16
  · rw [dif_pos hidx, dif_pos hidx]
    exact congrArg (fun msgs => some (_ ++ msgs)) (messagesFor_eq numWorkers s job ⟨idx, hidx⟩).symm
  · have hnone : ((s.leader numWorkers).commands job).filter (·.idx = idx) = [] := by
      rw [List.filter_eq_nil_iff]
      intro c hc heq
      exact hidx (of_decide_eq_true heq ▸ commands_idx_lt numWorkers s job hc)
    have hnone : (((s.leader numWorkers).commands job).filter (·.idx = idx)).map Command.msg = [] :=
      congrArg (List.map Command.msg) hnone
    rw [dif_neg hidx, dif_neg hidx]
    exact congrArg some hnone.symm

/-- The two models of `send_to_workpool` agree. -/
theorem sendToWorkpool_leader (job : Job Payload) :
    (s.sendToWorkpool numWorkers job).leader numWorkers = (s.leader numWorkers).sendToWorkpool job := by
  cases job with
  | broadcast jobId payload =>
    have hnum : (s.leader numWorkers).numWorkerIds = numWorkers := Fin.ofNat_val_eq_self numWorkers
    unfold sendToWorkpool Leader.sendToWorkpool
    dsimp only
    rw [register_leader, hnum]
  | scatterGather jobId msgs =>
    have hvalid : ∀ m : WorkerId × Payload, decide ((s.leader numWorkers).numWorkers ≤ m.1.val) =
        decide (¬ m.1 < numWorkers) := fun m => decide_eq_decide.mpr not_lt.symm
    unfold sendToWorkpool Leader.sendToWorkpool
    dsimp only
    simp only [hvalid]
    cases msgs.find? fun m => ¬ m.1 < numWorkers with
    | some m => rfl
    | none => exact register_leader numWorkers s _ _ _
  | cancel jobId =>
    unfold sendToWorkpool Leader.sendToWorkpool
    dsimp only
    rcases hcancel : s.tracker.cancelJob jobId with ⟨_ | _, tracker⟩ <;>
      exact congrArg (fun t => { s.leader numWorkers with tracker := t }) (congrArg Prod.snd hcancel).symm

end State

/-! ## The leader in the workpool -/

theorem checkWorkerIds_isOk_iff (numWorkers : Nat) (seen : Finset WorkerId) (workerIds : List WorkerId) :
    (checkWorkerIds numWorkers seen workerIds).isOk = true ↔
      (∀ w ∈ workerIds, w.val < numWorkers) ∧ workerIds.Nodup ∧ ∀ w ∈ workerIds, w ∉ seen := by
  induction workerIds generalizing seen with
  | nil => exact iff_of_true rfl ⟨by simp, List.nodup_nil, by simp⟩
  | cons w rest ih =>
    unfold checkWorkerIds
    simp only [List.forall_mem_cons, List.nodup_cons]
    split_ifs with hinvalid hseen
    · exact iff_of_false Bool.false_ne_true fun h => absurd h.1.1 (by omega)
    · exact iff_of_false Bool.false_ne_true fun h => h.2.2.1 hseen
    · rw [ih]
      constructor
      · rintro ⟨hvalid, hnodup, hnew⟩
        refine ⟨⟨by omega, hvalid⟩, ⟨fun hmem => hnew w hmem (Finset.mem_insert_self _ _), hnodup⟩, hseen,
          fun w' hw' hmem => hnew w' hw' (Finset.mem_insert_of_mem hmem)⟩
      · rintro ⟨⟨-, hvalid⟩, ⟨hw, hnodup⟩, -, hnew⟩
        refine ⟨hvalid, hnodup, fun w' hw' hmem => ?_⟩
        rcases Finset.mem_insert.mp hmem with rfl | hmem
        · exact hw hw'
        · exact hnew w' hw' hmem

/-- What the handle checks before it submits a job is that the job is valid. -/
theorem Job.check_isOk_iff (numWorkers : WorkerId) (job : Job Payload) :
    (job.check numWorkers.val).isOk = true ↔ job.valid numWorkers := by
  cases job with
  | broadcast jobId payload => exact iff_of_true rfl trivial
  | scatterGather jobId msgs =>
    show (checkMsgs numWorkers.val msgs).isOk = true ↔
      msgs ≠ [] ∧ (∀ m ∈ msgs, m.1 < numWorkers) ∧ (msgs.map Prod.fst).Nodup
    unfold checkMsgs
    split_ifs with hempty
    · exact iff_of_false Bool.false_ne_true fun h => h.1 (List.isEmpty_iff.mp hempty)
    · rw [checkWorkerIds_isOk_iff, List.forall_mem_map]
      constructor
      · rintro ⟨hvalid, hnodup, -⟩
        exact ⟨fun hnil => hempty (List.isEmpty_iff.mpr hnil), hvalid, hnodup⟩
      · rintro ⟨-, hvalid, hnodup⟩
        exact ⟨hvalid, hnodup, fun w _ hmem => Finset.notMem_empty w hmem⟩
  | cancel jobId => exact iff_of_true rfl trivial

/-- The steps of the workpool that are steps of the handle or of the leader task. -/
def Action.leader? : Action Payload → Option (LeaderAction Payload)
  | .fetchJobId => some .fetchJobId
  | .submit job => some (.submit job)
  | .cancel jobId => some (.cancel jobId)
  | .sendToWorkpool => some .sendToWorkpool
  | .recordResponse => some .recordResponse
  | .pair _ _ => none

/-- Every step of the handle and of the leader task in the workpool is a step of the leader with open queues. -/
theorem State.step_leader {numWorkers : WorkerId} {s t : State Payload} {a : Action Payload} {b : LeaderAction Payload}
    (ha : a.leader? = some b) (hstep : s.step numWorkers a = some t) :
    (s.leader numWorkers).step b = some (t.leader numWorkers) := by
  cases a with
  | fetchJobId =>
    cases ha
    cases hstep
    have hnext : (Fin.ofNat _ (s.nextJobId + 1) : JobId) = Fin.ofNat _ s.nextJobId + 1 := by
      ext
      simp [Fin.val_add]
    unfold Leader.step State.leader
    rw [hnext]
  | submit job =>
    cases ha
    simp only [State.step] at hstep
    unfold Leader.step
    dsimp only
    cases hid : job.submits with
    | none =>
      rw [hid] at hstep
      cases hstep
    | some jobId =>
      rw [hid] at hstep
      dsimp only at hstep ⊢
      split_ifs at hstep with hvalid
      cases hstep
      exact if_pos ⟨hvalid.1, (Job.check_isOk_iff numWorkers job).mpr hvalid.2⟩
  | cancel jobId =>
    cases ha
    cases hstep
    rfl
  | sendToWorkpool =>
    cases ha
    simp only [State.step] at hstep
    unfold Leader.step
    dsimp only [State.leader]
    cases hjobs : s.jobRx with
    | nil =>
      rw [hjobs] at hstep
      cases hstep
    | cons job jobRx =>
      rw [hjobs] at hstep
      cases hstep
      exact congrArg some (State.sendToWorkpool_leader numWorkers { s with jobRx := jobRx } job).symm
  | recordResponse =>
    cases ha
    simp only [State.step] at hstep
    unfold Leader.step
    dsimp only [State.leader]
    cases hresponses : s.workerRspRx with
    | nil =>
      rw [hresponses] at hstep
      cases hstep
    | cons r workerRspRx =>
      rw [hresponses] at hstep
      cases hstep
      rfl
  | pair w action => cases ha

/-- Someone will be registered for the job, when there are `numWorkers` workers. -/
def Job.Addressed (numWorkers : Nat) : Job Payload → Prop
  | .broadcast _ _ => numWorkers % 2 ^ 16 ≠ 0
  | .scatterGather _ msgs => msgs ≠ []
  | .cancel _ => True

/-- A job that passes the checks of the handle has somebody to answer it, unless it is a broadcast to nobody. -/
theorem Job.addressed_of_check {numWorkers : Nat} {job : Job Payload} (hcheck : (job.check numWorkers).isOk = true)
    (hbroadcast : ∀ jobId payload, job = .broadcast jobId payload → numWorkers % 2 ^ 16 ≠ 0) :
    job.Addressed numWorkers := by
  cases job with
  | broadcast jobId payload => exact hbroadcast jobId payload rfl
  | scatterGather jobId msgs =>
    rintro rfl
    cases hcheck
  | cancel jobId => trivial

namespace Leader

/-- The leader between two steps, when its broadcasts have somebody to answer them. -/
structure WaitInv (numWorkers : Nat) (l : Leader Payload) : Prop where
  numWorkers_eq : l.numWorkers = numWorkers
  addressed : ∀ job ∈ l.jobRx, job.Addressed numWorkers
  waits : l.tracker.AllWait

variable {l l' : Leader Payload} {numWorkers : Nat}

theorem WaitInv.sendToWorkpool (h : WaitInv numWorkers l) {job : Job Payload} (hjob : job.Addressed numWorkers) :
    WaitInv numWorkers (l.sendToWorkpool job) := by
  cases job with
  | broadcast jobId payload =>
    unfold Leader.sendToWorkpool
    dsimp only
    rw [dispatch_eq]
    refine ⟨h.numWorkers_eq, h.addressed, ?_⟩
    refine TrackerCall.run_waits h.waits (.registerJob jobId (.broadcast l.numWorkerIds)) ?_
    intro reg hreg
    cases hreg
    -- the first worker is there
    refine ⟨⟨0, by decide⟩, Finset.mem_Iio.mpr ?_⟩
    show 0 < l.numWorkers % 2 ^ 16
    rw [h.numWorkers_eq]
    exact Nat.pos_of_ne_zero hjob
  | scatterGather jobId msgs =>
    unfold Leader.sendToWorkpool
    dsimp only
    cases hfind : msgs.find? fun m => l.numWorkers ≤ m.1.val with
    | some m => exact ⟨h.numWorkers_eq, h.addressed, h.waits⟩
    | none =>
      dsimp only
      rw [dispatch_eq]
      refine ⟨h.numWorkers_eq, h.addressed, ?_⟩
      refine TrackerCall.run_waits h.waits (.registerJob jobId (.scatterGather (msgs.map Prod.fst).toFinset)) ?_
      intro reg hreg
      cases hreg
      obtain ⟨m, hm⟩ := List.exists_mem_of_ne_nil msgs hjob
      exact ⟨m.1, List.mem_toFinset.mpr (List.mem_map_of_mem hm)⟩
  | cancel jobId =>
    refine ⟨h.numWorkers_eq, h.addressed, ?_⟩
    exact TrackerCall.run_waits h.waits (.cancelJob jobId) fun reg hreg => by cases hreg

/-- The step submits no broadcast that nobody answers. -/
def NoEmptyBroadcast (l : Leader Payload) : LeaderAction Payload → Prop
  | .submit (.broadcast _ _) => l.numWorkers % 2 ^ 16 ≠ 0
  | _ => True

instance (l : Leader Payload) (a : LeaderAction Payload) : Decidable (NoEmptyBroadcast l a) := by
  unfold NoEmptyBroadcast
  split <;> infer_instance

theorem WaitInv.step {a : LeaderAction Payload} (h : WaitInv numWorkers l) (ha : NoEmptyBroadcast l a)
    (hstep : l.step a = some l') : WaitInv numWorkers l' := by
  cases a with
  | fetchJobId =>
    cases hstep
    exact ⟨h.numWorkers_eq, h.addressed, h.waits⟩
  | submit job =>
    simp only [Leader.step] at hstep
    cases hid : job.submits with
    | none =>
      rw [hid] at hstep
      cases hstep
    | some jobId =>
      rw [hid] at hstep
      dsimp only at hstep
      split_ifs at hstep with hok
      cases hstep
      refine ⟨h.numWorkers_eq, ?_, h.waits⟩
      intro job' hjob'
      rcases List.mem_append.mp hjob' with hold | hnew
      · exact h.addressed job' hold
      · obtain rfl := List.mem_singleton.mp hnew
        rw [h.numWorkers_eq] at hok
        refine Job.addressed_of_check hok.2 ?_
        rintro jobId' payload rfl
        exact h.numWorkers_eq ▸ ha
  | cancel jobId =>
    cases hstep
    refine ⟨h.numWorkers_eq, ?_, h.waits⟩
    intro job hjob
    rcases List.mem_append.mp hjob with hold | hnew
    · exact h.addressed job hold
    · obtain rfl := List.mem_singleton.mp hnew
      trivial
  | sendToWorkpool =>
    simp only [Leader.step] at hstep
    cases hrx : l.jobRx with
    | nil =>
      rw [hrx] at hstep
      cases hstep
    | cons job jobRx =>
      rw [hrx] at hstep
      cases hstep
      have haddressed := h.addressed
      rw [hrx] at haddressed
      have hrest : WaitInv numWorkers { l with jobRx := jobRx } :=
        ⟨h.numWorkers_eq, fun job' hjob' => haddressed job' (List.mem_cons_of_mem _ hjob'), h.waits⟩
      exact hrest.sendToWorkpool (haddressed job List.mem_cons_self)
  | recordResponse =>
    simp only [Leader.step] at hstep
    cases hrx : l.workerRspRx with
    | nil =>
      rw [hrx] at hstep
      cases hstep
    | cons r workerRspRx =>
      rw [hrx] at hstep
      cases hstep
      refine ⟨h.numWorkers_eq, h.addressed, ?_⟩
      exact TrackerCall.run_waits h.waits (.recordResponse r) fun reg hreg => by cases hreg
  | take idx =>
    simp only [Leader.step] at hstep
    split_ifs at hstep with hidx
    split at hstep
    next msg queue hqueue =>
      cases hstep
      have hhook : ∀ c ∈ Pair.mgrHook msg, c.registers = none := by
        intro c hc
        cases msg with
        | job jobId workerId payload =>
          cases hc
          rfl
        | _ => cases hc
      refine ⟨(call_numWorkers _ _).trans h.numWorkers_eq, ?_, ?_⟩
      · rw [call_jobRx]
        exact h.addressed
      · refine call_waits ?_ hhook
        exact h.waits
    next => cases hstep
  | answer idx msg payload =>
    simp only [Leader.step] at hstep
    split_ifs at hstep with hmsg
    cases hstep
    exact ⟨h.numWorkers_eq, h.addressed, h.waits⟩
  | forward jobId workerId payload =>
    cases hstep
    exact ⟨h.numWorkers_eq, h.addressed, h.waits⟩
  | lose workerId jobId =>
    cases hstep
    refine ⟨h.numWorkers_eq, h.addressed, ?_⟩
    exact TrackerCall.run_waits h.waits (.recordResponse (lostResponse workerId jobId)) fun reg hreg => by cases hreg
  | close idx =>
    cases hstep
    exact ⟨h.numWorkers_eq, h.addressed, h.waits⟩

theorem WaitInv.new (numWorkers : Nat) : WaitInv numWorkers (Leader.new numWorkers : Leader Payload) where
  numWorkers_eq := rfl
  addressed := fun job hjob => by cases hjob
  waits := JobTracker.allWait_new

end Leader

/-- **No job is tracked without somebody left to answer it.** In every run in which no broadcast is submitted to a
leader whose number of workers, as a `WorkerId`, is zero, every job the tracker holds has a registered or a pending
worker. -/
theorem tracked_jobs_wait (numWorkers : Nat) (as : List (LeaderAction Payload)) (l : Leader Payload)
    (hrun : Transition.run Leader.step (Leader.new numWorkers) as = some l)
    (hbroadcast : Transition.Along Leader.step Leader.NoEmptyBroadcast (Leader.new numWorkers) as) :
    ∀ j job, l.tracker.job? j = some job → (job.registered ∪ job.pending).Nonempty :=
  (Transition.run_invariant_along (fun _ _ _ ha hstep h => Leader.WaitInv.step h ha hstep) hbroadcast hrun
    (Leader.WaitInv.new numWorkers)).waits

/-- A job for two workers, of which one answers. -/
def oneOfTwoAnswers : List (LeaderAction Nat) :=
  [.fetchJobId, .submit (.scatterGather 0 [(0, 5), (1, 6)]), .sendToWorkpool, .take 1, .answer 1 ⟨0, 1⟩ 7,
    .recordResponse]

theorem tracked_jobs_wait_twoWorkers :
    ∃ l, Transition.run Leader.step (Leader.new 2) oneOfTwoAnswers = some l ∧
      ∀ j job, l.tracker.job? j = some job → (job.registered ∪ job.pending).Nonempty := by
  obtain ⟨l, hrun⟩ : ∃ l, Transition.run Leader.step (Leader.new 2) oneOfTwoAnswers = some l := ⟨_, rfl⟩
  exact ⟨l, hrun, tracked_jobs_wait 2 oneOfTwoAnswers l hrun (by decide)⟩

/-- A broadcast of a leader without workers is tracked for ever. -/
theorem broadcast_to_nobody :
    ∃ l, Transition.run Leader.step (Leader.new 0) [.fetchJobId, .submit (.broadcast 0 5), .sendToWorkpool] = some l ∧
      ∃ job : PendingJob Nat, l.tracker.job? 0 = some job ∧ job.registered ∪ job.pending = ∅ := by
  refine ⟨_, rfl, ⟨Finset.Iio 0, ∅, ∅⟩, rfl, ?_⟩
  rw [Finset.union_empty]
  exact Finset.Iio_bot

end AmpcCommon.Workpool
