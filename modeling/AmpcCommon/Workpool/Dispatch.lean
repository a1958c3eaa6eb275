import AmpcCommon.Workpool.System
import Mathlib.Data.Finset.Image

/-!
# The leader task and its command queues

The model of `LeaderHandle` (`leader/mod.rs`) and of `leader_task` and `send_to_workpool` (`leader/leader_task.rs`) for
any number of workers, with command queues that may be closed. The manager of a worker appears only with what it does
to the job tracker and to the channels of the leader task: it takes messages from its command queue, forwards what its
worker sends, and records the jobs that were lost in a reconnect.
-/

namespace AmpcCommon.Workpool

variable {Payload : Type}

/-- The state of the leader. -/
structure Leader (Payload : Type) where
  /-- The number of the command queues, and `num_workers` of the handle. -/
  numWorkers : Nat
  nextJobId : JobId
  /-- The ids that were handed out to callers that have not sent their job yet. -/
  fetched : List JobId
  jobRx : List (Job Payload)
  tracker : JobTracker Payload
  /-- The response channel of the leader task. -/
  workerRspRx : List (WorkerRsp Payload)
  /-- The command queues; a queue is closed when its manager has ended. -/
  workerCmdCh : Nat → Option (List (NetworkValue Payload))
  /-- The log of the errors that were sent to callers in the place of results. -/
  rejected : List (JobId × WorkpoolError)
  /-- The jobs the managers have taken for their workers and that were not answered yet. -/
  handed : Nat → List Msg
  /-- The log of the answers, with the workers that gave them. -/
  answers : List (Nat × WorkerRsp Payload)

/-- The steps of the leader, its callers and its managers. -/
inductive LeaderAction (Payload : Type) where
  /-- `next_job_id.fetch_add(1)` -/
  | fetchJobId
  /-- `LeaderHandle::broadcast` or `LeaderHandle::scatter_gather` sends a job with a fetched id to the leader task. -/
  | submit (job : Job Payload)
  /-- A `JobHandle` is cancelled. -/
  | cancel (jobId : JobId)
  /-- The leader task receives a job. -/
  | sendToWorkpool
  /-- The leader task receives a response. -/
  | recordResponse
  /-- A manager takes the next message from its command queue. -/
  | take (idx : Nat)
  /-- A worker answers a job that its manager took for it. -/
  | answer (idx : Nat) (msg : Msg) (payload : Payload)
  /-- A manager forwards whatever else its worker sends. -/
  | forward (jobId : JobId) (workerId : WorkerId) (payload : Payload)
  /-- `validate_pending_jobs` records a job as lost; which jobs it collected before is left open. -/
  | lose (workerId : WorkerId) (jobId : JobId)
  /-- A manager ends. -/
  | close (idx : Nat)
  deriving Repr, DecidableEq

/-- The checks of `scatter_gather` on the workers of a job, those before them being `seen`. -/
def checkWorkerIds (numWorkers : Nat) : Finset WorkerId → List WorkerId → Except WorkpoolError Unit
  | _, [] => .ok ()
  | seen, workerId :: workerIds =>
    if numWorkers ≤ workerId.val then .error (.invalidInput "invalid worker id")
    else if workerId ∈ seen then .error (.invalidInput "duplicate worker id")
    else checkWorkerIds numWorkers (insert workerId seen) workerIds

/-- What `scatter_gather` checks before it submits a job. -/
def checkMsgs (numWorkers : Nat) (msgs : List (WorkerId × Payload)) : Except WorkpoolError Unit :=
  if msgs.isEmpty then .error (.invalidInput "empty")
  else checkWorkerIds numWorkers ∅ (msgs.map Prod.fst)

/-- What `LeaderHandle` checks before it submits a job. -/
def Job.check (numWorkers : Nat) : Job Payload → Except WorkpoolError Unit
  | .scatterGather _ msgs => checkMsgs numWorkers msgs
  | .broadcast _ _ | .cancel _ => .ok ()

/-- A message for a worker, and the command queue it goes to. -/
structure Command (Payload : Type) where
  idx : Nat
  jobId : JobId
  workerId : WorkerId
  payload : Payload

namespace Command

/-- The message in the command queue. -/
def msg (c : Command Payload) : NetworkValue Payload := .job c.jobId c.workerId c.payload

/-- The response of the leader task itself when the command queue is closed. -/
def failed (c : Command Payload) : WorkerRsp Payload := ⟨c.jobId, c.workerId, .error .sendFailed⟩

end Command

namespace Leader

/-- The leader with `numWorkers` workers, before it does anything. -/
def new (numWorkers : Nat) : Leader Payload where
  numWorkers := numWorkers
  nextJobId := 0
  fetched := []
  jobRx := []
  tracker := .new
  workerRspRx := []
  workerCmdCh _ := some []
  rejected := []
  handed _ := []
  answers := []

/-- Send a message to a manager, or report the failure through the response channel. -/
def send (l : Leader Payload) (c : Command Payload) : Leader Payload :=
  match l.workerCmdCh c.idx with
  | some queue => { l with workerCmdCh := Function.update l.workerCmdCh c.idx (some (queue ++ [c.msg])) }
  | none => { l with workerRspRx := l.workerRspRx ++ [c.failed] }

/-- The number of workers as a `WorkerId`. -/
def numWorkerIds (l : Leader Payload) : WorkerId := Fin.ofNat _ l.numWorkers

/-- The messages of a job, in the order they are sent. -/
def commands (l : Leader Payload) : Job Payload → List (Command Payload)
  | .broadcast jobId payload => (List.range l.numWorkers).map fun idx => ⟨idx, jobId, Fin.ofNat _ idx, payload⟩
  | .scatterGather jobId msgs => msgs.map fun m => ⟨m.1, jobId, m.1, m.2⟩
  | .cancel _ => []

/-- Register a job and send its messages. -/
def dispatch (l : Leader Payload) (job : Job Payload) (jobId : JobId) (jobType : JobType) : Leader Payload :=
  (l.commands job).foldl send { l with tracker := l.tracker.registerJob jobId jobType }

def sendToWorkpool (l : Leader Payload) (job : Job Payload) : Leader Payload :=
  match job with
  | .broadcast jobId _ => l.dispatch job jobId (.broadcast l.numWorkerIds)
  | .scatterGather jobId msgs =>
    match msgs.find? fun m => l.numWorkers ≤ m.1.val with
    | some m => { l with rejected := l.rejected ++ [(jobId, .invalidInput s!"invalid worker id: {m.1}")] }
    | none => l.dispatch job jobId (.scatterGather (msgs.map Prod.fst).toFinset)
  | .cancel jobId => { l with tracker := (l.tracker.cancelJob jobId).2 }

/-- Make a call of the job tracker. -/
def call (l : Leader Payload) : Option (TrackerCall Payload) → Leader Payload
  | none => l
  | some c => { l with tracker := (c.run l.tracker).2 }

/-- The jobs a manager hands to its worker with a message. -/
def handedBy : NetworkValue Payload → List Msg
  | .job jobId workerId _ => [⟨jobId, workerId⟩]
  | _ => []

/-- One step of the leader; `none` when it is not possible in this state. -/
def step (l : Leader Payload) : LeaderAction Payload → Option (Leader Payload)
  | .fetchJobId => some { l with nextJobId := l.nextJobId + 1, fetched := l.fetched ++ [l.nextJobId] }
  | .submit job =>
    match job.submits with
    | none => none
    | some jobId =>
      if jobId ∈ l.fetched ∧ (job.check l.numWorkers).isOk then
        some { l with fetched := l.fetched.erase jobId, jobRx := l.jobRx ++ [job] }
      else none
  | .cancel jobId => some { l with jobRx := l.jobRx ++ [.cancel jobId] }
  | .sendToWorkpool =>
    match l.jobRx with
    | [] => none
    | job :: jobRx => some ({ l with jobRx := jobRx }.sendToWorkpool job)
  | .recordResponse =>
    match l.workerRspRx with
    | [] => none
    | r :: workerRspRx => some ({ l with workerRspRx := workerRspRx }.call (some (.recordResponse r)))
  | .take idx =>
    if idx < l.numWorkers then
      match l.workerCmdCh idx with
      | some (msg :: queue) =>
        some ({ l with
          workerCmdCh := Function.update l.workerCmdCh idx (some queue)
          handed := Function.update l.handed idx (l.handed idx ++ handedBy msg) }.call (Pair.mgrHook msg))
      | _ => none
    else none
  | .answer idx msg payload =>
    if idx < l.numWorkers ∧ msg ∈ l.handed idx then
      let r := ⟨msg.jobId, msg.workerId, .ok payload⟩
      some { l with
        handed := Function.update l.handed idx ((l.handed idx).erase msg)
        workerRspRx := l.workerRspRx ++ [r]
        answers := l.answers ++ [(idx, r)] }
    else none
  | .forward jobId workerId payload =>
    some { l with workerRspRx := l.workerRspRx ++ [⟨jobId, workerId, .ok payload⟩] }
  | .lose workerId jobId => some (l.call (some (.recordResponse (lostResponse workerId jobId))))
  | .close idx => some { l with workerCmdCh := Function.update l.workerCmdCh idx none }

end Leader

end AmpcCommon.Workpool
