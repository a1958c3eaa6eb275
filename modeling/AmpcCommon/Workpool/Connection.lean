import AmpcCommon.Workpool.JobTracker

/-!
# A worker and its manager

The model of `worker_mgr` (`leader/leader_task.rs`), of `worker_task` (`worker/worker_task.rs`) and of the
one connection between them. Both run a loop: connect, make the handshake, and then send and receive
until the connection is closed. `serialize_and_write_outbound` first takes messages from its queue and
runs the hook of its caller, and writes the batch afterwards; taking and writing interleave freely here,
which covers every way to cut the queue into batches.

A connection carries whole messages. A message that is cut within its bytes is one that its receiver
cannot read: the receiver returns an error and closes the connection, as on the end of the stream.
-/

namespace AmpcCommon.Workpool

/-- `NetworkValue` -/
inductive NetworkValue (Payload : Type) where
  | job (jobId : JobId) (workerId : WorkerId) (payload : Payload)
  | pendingJobsRequest (workerId : WorkerId)
  | pendingJobsReply (workerId : WorkerId) (jobIds : List JobId)
  | cancel (jobId : JobId) (workerId : WorkerId)
  deriving Repr, DecidableEq

namespace NetworkValue

variable {Payload : Type}

/-- The job of a `Job` message. -/
def jobId? : NetworkValue Payload → Option JobId
  | .job jobId _ _ => some jobId
  | _ => none

end NetworkValue

/-- The jobs of the `Job` messages of a queue, in their order. -/
def jobIds {Payload : Type} (msgs : List (NetworkValue Payload)) : List JobId :=
  msgs.filterMap NetworkValue.jobId?

/-- Where a manager is in its loop. -/
inductive MgrPhase where
  | connecting
  /-- In `leader_handshake`, before the request is written. -/
  | requesting
  | awaitingReply
  /-- The handshake returned the jobs that are pending at the worker. -/
  | replied (pendingJobs : List JobId)
  /-- In `validate_pending_jobs`, with the dropped jobs that are still to be recorded. -/
  | validating (dropped : List JobId)
  | traffic
  deriving Repr, DecidableEq

/-- Where a worker is in its loop. -/
inductive WorkerPhase where
  | connecting
  | handshake
  | traffic
  deriving Repr, DecidableEq

/-- A `Job` as the worker's application gets it, less its payload. -/
structure Msg where
  jobId : JobId
  workerId : WorkerId
  deriving Repr, DecidableEq

/-- A manager, its worker, and the connection between them. -/
structure Pair (Payload : Type) where
  mgr : MgrPhase
  /-- The command queue of the manager. -/
  cmdRx : List (NetworkValue Payload)
  /-- What the manager has taken from its queue and not written yet. -/
  mgrBatch : List (NetworkValue Payload)
  worker : WorkerPhase
  pendingJobs : List JobId
  /-- `pending_job_ids`, the snapshot of `pending_jobs` the worker sends in the handshake. -/
  pendingJobIds : List JobId
  /-- The responses of the application; the queue outlives the connections. -/
  rspRx : List (NetworkValue Payload)
  workerBatch : List (NetworkValue Payload)
  /-- The application still holds the receiver of the job queue. -/
  jobRxOpen : Bool
  /-- The jobs in the job queue and in the hands of the application. -/
  jobs : List Msg
  connected : Bool
  /-- The messages in flight from the leader to the worker. -/
  down : List (NetworkValue Payload)
  /-- The messages in flight from the worker to the leader. -/
  up : List (NetworkValue Payload)
  /-- The log of the jobs the manager took from its queue for writing. -/
  taken : List JobId
  /-- The log of the jobs that were put into the job queue of the worker. -/
  handed : List JobId
  /-- The log of the responses the worker took for writing to the current connection. -/
  answered : List JobId
  /-- The log of the responses the manager put into the response channel. -/
  forwarded : List JobId
  deriving Repr, DecidableEq

/-- The steps of a manager, of its worker and of their connection. -/
inductive PairAction (Payload : Type) where
  /-- Both calls of `tcp::connect` return; the worker then takes its snapshot. -/
  | connect
  /-- The connection breaks: of the messages in flight only the first `down` and `up` are left. -/
  | cut (down up : Nat)
  /-- The manager writes the request of `leader_handshake`. -/
  | request
  /-- The manager reads the reply in `leader_handshake`. -/
  | readReply
  /-- `validate_pending_jobs` collects the dropped jobs. -/
  | collect
  /-- `validate_pending_jobs` records one of the dropped jobs. -/
  | lose (jobId : JobId)
  /-- `validate_pending_jobs` returns. -/
  | validated
  | mgrTake
  | mgrWrite
  /-- The manager reads a message in `read_and_parse_inbound`. -/
  | forward
  /-- The manager leaves the connection because of an error. -/
  | mgrClose
  /-- `worker_handshake` -/
  | answer
  | workerTake
  | workerWrite
  /-- The worker reads a message in `read_and_parse_inbound`. -/
  | receive
  | workerClose
  /-- `send_result` on one of the jobs of the application. -/
  | sendResult (msg : Msg) (payload : Payload)
  | dropJob (msg : Msg)
  /-- The application drops its `WorkerHandle`. -/
  | dropHandle
  deriving Repr, DecidableEq

/-- What a step of a pair does to the leader: a call of the job tracker, a response for the
response channel. -/
structure Effect (Payload : Type) where
  call : Option (TrackerCall Payload) := none
  response : Option (WorkerRsp Payload) := none

variable {Payload : Type}

namespace Pair

/-- The state before the first connection. -/
def new : Pair Payload where
  mgr := .connecting
  cmdRx := []
  mgrBatch := []
  worker := .connecting
  pendingJobs := []
  pendingJobIds := []
  rspRx := []
  workerBatch := []
  jobRxOpen := true
  jobs := []
  connected := false
  down := []
  up := []
  taken := []
  handed := []
  answered := []
  forwarded := []

/-- The manager drops its half of the connection, and what it has not written or read yet. -/
def closeMgr (p : Pair Payload) : Pair Payload :=
  { p with mgr := .connecting, mgrBatch := [], connected := false, up := [] }

/-- The worker drops its half of the connection, and what it has not written or read yet. -/
def closeWorker (p : Pair Payload) : Pair Payload :=
  { p with worker := .connecting, workerBatch := [], connected := false, down := [] }

/-- Write a message to the worker; on a broken connection it does not arrive. -/
def sendDown (p : Pair Payload) (msg : NetworkValue Payload) : Pair Payload :=
  if p.connected then { p with down := p.down ++ [msg] } else p

def sendUp (p : Pair Payload) (msg : NetworkValue Payload) : Pair Payload :=
  if p.connected then { p with up := p.up ++ [msg] } else p

/-- The hook of the manager, run on a message before it is written. -/
def mgrHook : NetworkValue Payload → Option (TrackerCall Payload)
  | .job jobId workerId _ => some (.setToPending jobId workerId)
  | _ => none

/-- The hook of the worker, run on a message before it is written. -/
def workerHook (p : Pair Payload) : NetworkValue Payload → Pair Payload
  | .job jobId _ _ =>
    { p with
      pendingJobs := p.pendingJobs.filter (· ≠ jobId)
      answered := p.answered ++ [jobId] }
  | _ => p

def leaderForwardInboundMsg (p : Pair Payload) :
    NetworkValue Payload → Pair Payload × Option (WorkerRsp Payload)
  | .job jobId workerId payload =>
    ({ p with forwarded := p.forwarded ++ [jobId] }, some ⟨jobId, workerId, .ok payload⟩)
  | .pendingJobsReply _ _ => (p, none)
  | .cancel _ _ => (p, none)
  | .pendingJobsRequest _ => (p.closeMgr, none)

def workerHandleInboundMsg (p : Pair Payload) : NetworkValue Payload → Pair Payload
  | .job jobId workerId _ =>
    let p := { p with pendingJobs := p.pendingJobs.insert jobId }
    if p.jobRxOpen then
      { p with jobs := p.jobs ++ [⟨jobId, workerId⟩], handed := p.handed ++ [jobId] }
    else p.closeWorker
  | .pendingJobsRequest workerId =>
    { p with rspRx := p.rspRx ++ [.pendingJobsReply workerId p.pendingJobs] }
  | .cancel _ _ => p
  | .pendingJobsReply _ _ => p.closeWorker

/-- The two processes are in the loop of the same connection at most: a new connection needs both to
have left the old one. -/
def connect (p : Pair Payload) : Option (Pair Payload) :=
  if p.mgr = .connecting ∧ p.worker = .connecting then
    some { p with
      mgr := .requesting
      worker := .handshake
      pendingJobIds := p.pendingJobs
      connected := true
      down := []
      up := []
      answered := [] }
  else none

/-- One step of the pair of worker `workerId`; `none` when it is not possible in this state. -/
def step (workerId : WorkerId) (tracker : JobTracker Payload) (p : Pair Payload) :
    PairAction Payload → Option (Pair Payload × Effect Payload)
  | .connect => p.connect.map fun p => (p, {})
  | .cut down up =>
    some ({ p with connected := false, down := p.down.take down, up := p.up.take up }, {})
  | .request =>
    if p.mgr = .requesting then
      some ({ p with mgr := .awaitingReply }.sendDown (.pendingJobsRequest workerId), {})
    else none
  | .readReply =>
    match p.mgr, p.up with
    | .awaitingReply, .pendingJobsReply _ jobIds :: up =>
      some ({ p with mgr := .replied jobIds, up := up }, {})
    -- `HandshakeFailed`
    | .awaitingReply, _ :: _ => some (p.closeMgr, {})
    | _, _ => none
  | .collect =>
    match p.mgr with
    | .replied pendingJobs =>
      some ({ p with mgr := .validating (tracker.droppedJobs workerId pendingJobs) }, {})
    | _ => none
  | .lose jobId =>
    match p.mgr with
    | .validating dropped =>
      if jobId ∈ dropped then
        some ({ p with mgr := .validating (dropped.erase jobId) },
          { call := some (.recordResponse (lostResponse workerId jobId)) })
      else none
    | _ => none
  | .validated => if p.mgr = .validating [] then some ({ p with mgr := .traffic }, {}) else none
  | .mgrTake =>
    match p.mgr, p.cmdRx with
    | .traffic, msg :: cmdRx =>
      some ({ p with
          cmdRx := cmdRx
          mgrBatch := p.mgrBatch ++ [msg]
          taken := p.taken ++ jobIds [msg] },
        { call := mgrHook msg })
    | _, _ => none
  | .mgrWrite =>
    match p.mgr, p.mgrBatch with
    | .traffic, msg :: mgrBatch => some ({ p with mgrBatch := mgrBatch }.sendDown msg, {})
    | _, _ => none
  | .forward =>
    match p.mgr, p.up with
    | .traffic, msg :: up =>
      let (p, response) := { p with up := up }.leaderForwardInboundMsg msg
      some (p, { response := response })
    | _, _ => none
  | .mgrClose =>
    match p.mgr with
    | .requesting | .awaitingReply | .traffic => some (p.closeMgr, {})
    | _ => none
  | .answer =>
    match p.worker, p.down with
    | .handshake, .pendingJobsRequest workerId :: down =>
      some ({ p with worker := .traffic, down := down }.sendUp
        (.pendingJobsReply workerId p.pendingJobIds), {})
    -- `HandshakeFailed`
    | .handshake, _ :: _ => some (p.closeWorker, {})
    | _, _ => none
  | .workerTake =>
    match p.worker, p.rspRx with
    | .traffic, msg :: rspRx =>
      some ({ p with rspRx := rspRx, workerBatch := p.workerBatch ++ [msg] }.workerHook msg, {})
    | _, _ => none
  | .workerWrite =>
    match p.worker, p.workerBatch with
    | .traffic, msg :: workerBatch => some ({ p with workerBatch := workerBatch }.sendUp msg, {})
    | _, _ => none
  | .receive =>
    match p.worker, p.down with
    | .traffic, msg :: down => some ({ p with down := down }.workerHandleInboundMsg msg, {})
    | _, _ => none
  | .workerClose => if p.worker ≠ .connecting then some (p.closeWorker, {}) else none
  | .sendResult msg payload =>
    if msg ∈ p.jobs then
      some ({ p with
        jobs := p.jobs.erase msg
        rspRx := p.rspRx ++ [.job msg.jobId msg.workerId payload] }, {})
    else none
  | .dropJob msg => if msg ∈ p.jobs then some ({ p with jobs := p.jobs.erase msg }, {}) else none
  | .dropHandle => some ({ p with jobRxOpen := false }, {})

end Pair

end AmpcCommon.Workpool
