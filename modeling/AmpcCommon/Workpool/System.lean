import AmpcCommon.Base.Transition
import AmpcCommon.Workpool.Connection

/-!
# The workpool

The model of the leader of a workpool, with its handle, its task, its job tracker and one manager per
worker, and of the workers. The tasks share the job tracker and are joined by queues; a step of the
system is one step of one of its tasks, and a run is any interleaving of them. The managers and the
leader task run until the pool is shut down, so the queues to them are never closed.
-/

namespace AmpcCommon.Workpool

/-- `Job`, as it is sent to the leader task. -/
inductive Job (Payload : Type) where
  | broadcast (jobId : JobId) (payload : Payload)
  | scatterGather (jobId : JobId) (msgs : List (WorkerId × Payload))
  | cancel (jobId : JobId)
  deriving Repr, DecidableEq

namespace Job

variable {Payload : Type}

/-- The job a submission makes. -/
def submits : Job Payload → Option JobId
  | .broadcast jobId _ => some jobId
  | .scatterGather jobId _ => some jobId
  | .cancel _ => none

/-- What `LeaderHandle` checks before it submits a job. -/
def valid (numWorkers : WorkerId) : Job Payload → Prop
  | .scatterGather _ msgs =>
    msgs ≠ [] ∧ (∀ m ∈ msgs, m.1 < numWorkers) ∧ (msgs.map Prod.fst).Nodup
  | _ => True

instance (numWorkers : WorkerId) (job : Job Payload) : Decidable (job.valid numWorkers) :=
  match job with
  | .broadcast _ _ => inferInstanceAs (Decidable True)
  | .scatterGather _ msgs =>
    inferInstanceAs (Decidable (msgs ≠ [] ∧ (∀ m ∈ msgs, m.1 < numWorkers) ∧
      (msgs.map Prod.fst).Nodup))
  | .cancel _ => inferInstanceAs (Decidable True)

/-- The messages `send_to_workpool` puts into the command queue of a worker. -/
def messagesFor (numWorkers workerId : WorkerId) : Job Payload → List (NetworkValue Payload)
  | .broadcast jobId payload => if workerId < numWorkers then [.job jobId workerId payload] else []
  | .scatterGather jobId msgs =>
    (msgs.filter fun m => m.1 = workerId).map fun m => .job jobId m.1 m.2
  | .cancel _ => []

end Job

/-- The state of the workpool. -/
structure State (Payload : Type) where
  /-- How many job ids were handed out; the counter of the handle is this number as a `u32`. -/
  nextJobId : Nat
  /-- The ids that were handed out to callers that have not sent their job yet. -/
  fetched : List JobId
  jobRx : List (Job Payload)
  tracker : JobTracker Payload
  /-- The response channel of the leader task. -/
  workerRspRx : List (WorkerRsp Payload)
  pair : WorkerId → Pair Payload
  /-- The log of the jobs that were registered, with their workers. -/
  registered : List (JobId × Finset WorkerId)
  /-- The log of the jobs the tracker cancelled. -/
  cancelled : List JobId
  /-- The log of the errors that were sent to callers in the place of results. -/
  rejected : List (JobId × WorkpoolError)
  /-- The log of the responses that were put into the response channel. -/
  forwarded : List (WorkerRsp Payload)

/-- The steps of the workpool. -/
inductive Action (Payload : Type) where
  /-- `next_job_id.fetch_add(1)` -/
  | fetchJobId
  /-- The handle sends a job with a fetched id to the leader task. -/
  | submit (job : Job Payload)
  /-- A `JobHandle` is cancelled. -/
  | cancel (jobId : JobId)
  /-- The leader task receives a job. -/
  | sendToWorkpool
  /-- The leader task receives a response. -/
  | recordResponse
  | pair (workerId : WorkerId) (action : PairAction Payload)
  deriving Repr, DecidableEq

variable {Payload : Type}

namespace State

def new : State Payload where
  nextJobId := 0
  fetched := []
  jobRx := []
  tracker := .new
  workerRspRx := []
  pair _ := .new
  registered := []
  cancelled := []
  rejected := []
  forwarded := []

/-- Make a call of the job tracker. -/
def call (s : State Payload) : Option (TrackerCall Payload) → State Payload
  | none => s
  | some c => { s with tracker := (c.run s.tracker).2 }

/-- Put a response into the response channel. -/
def respond (s : State Payload) : Option (WorkerRsp Payload) → State Payload
  | none => s
  | some r => { s with workerRspRx := s.workerRspRx ++ [r], forwarded := s.forwarded ++ [r] }

/-- Register a job and put its messages into the command queues. -/
def register (numWorkers : WorkerId) (s : State Payload) (job : Job Payload) (jobId : JobId)
    (jobType : JobType) : State Payload :=
  { s with
    tracker := s.tracker.registerJob jobId jobType
    registered := s.registered ++ [(jobId, jobType.workers)]
    pair := fun w =>
      { s.pair w with cmdRx := (s.pair w).cmdRx ++ job.messagesFor numWorkers w } }

def sendToWorkpool (numWorkers : WorkerId) (s : State Payload) (job : Job Payload) :
    State Payload :=
  match job with
  | .broadcast jobId _ => s.register numWorkers job jobId (.broadcast numWorkers)
  | .scatterGather jobId msgs =>
    match msgs.find? fun m => ¬ m.1 < numWorkers with
    | some m =>
      { s with
        rejected := s.rejected ++ [(jobId, .invalidInput s!"invalid worker id: {m.1}")] }
    | none =>
      s.register numWorkers job jobId (.scatterGather (msgs.map Prod.fst).toFinset)
  | .cancel jobId =>
    match s.tracker.cancelJob jobId with
    | (.ok _, tracker) => { s with tracker := tracker, cancelled := s.cancelled ++ [jobId] }
    | (.error _, tracker) => { s with tracker := tracker }

/-- One step of the workpool; `none` when it is not possible in this state. -/
def step (numWorkers : WorkerId) (s : State Payload) : Action Payload → Option (State Payload)
  | .fetchJobId =>
    some { s with
      nextJobId := s.nextJobId + 1
      fetched := s.fetched ++ [Fin.ofNat _ s.nextJobId] }
  | .submit job =>
    match job.submits with
    | none => none
    | some jobId =>
      if jobId ∈ s.fetched ∧ job.valid numWorkers then
        some { s with fetched := s.fetched.erase jobId, jobRx := s.jobRx ++ [job] }
      else none
  | .cancel jobId => some { s with jobRx := s.jobRx ++ [.cancel jobId] }
  | .sendToWorkpool =>
    match s.jobRx with
    | [] => none
    | job :: jobRx => some ({ s with jobRx := jobRx }.sendToWorkpool numWorkers job)
  | .recordResponse =>
    match s.workerRspRx with
    | [] => none
    | r :: workerRspRx =>
      some ({ s with workerRspRx := workerRspRx }.call (some (.recordResponse r)))
  | .pair w a =>
    if w < numWorkers then
      ((s.pair w).step w s.tracker a).map fun (p, effect) =>
        ({ s with pair := Function.update s.pair w p }.call effect.call).respond effect.response
    else none

end State

end AmpcCommon.Workpool
