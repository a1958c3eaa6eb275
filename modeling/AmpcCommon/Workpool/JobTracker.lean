import AmpcCommon.Base.Counts
import AmpcCommon.Base.Outcome
import Mathlib.Data.List.AList
import Mathlib.Data.Finset.Sort
import Mathlib.Order.Interval.Finset.Fin

/-!
# The job tracker of the workpool leader

The model of `network/workpool/leader/job_tracker.rs`. A hash map is an association list without
duplicate keys, a hash set a finite set. The one-shot channel a job was registered with is
write-only for the tracker, so its messages go to a log that is keyed by the job.
-/

namespace AmpcCommon.Workpool

/-- `WorkerId`, a `u16` -/
abbrev WorkerId := Fin (2 ^ 16)

/-- `JobId`, a `u32` -/
abbrev JobId := Fin (2 ^ 32)

instance lawfulBEq_jobId : LawfulBEq JobId := inferInstance

/-- `WorkpoolError` -/
inductive WorkpoolError where
  | jobsLost (workerId : WorkerId) (jobId : JobId)
  | responseLost (workerId : WorkerId) (jobId : JobId)
  | sendFailed
  | invalidInput (msg : String)
  | cancelled
  | timeout
  deriving Repr, DecidableEq

/-- The answer of one worker to one job. -/
structure WorkerRsp (Payload : Type) where
  jobId : JobId
  workerId : WorkerId
  payload : Except WorkpoolError Payload
  deriving Repr, DecidableEq

/-- Type of job for different coordination patterns. -/
inductive JobType where
  | scatterGather (workerIds : Finset WorkerId)
  | broadcast (numWorkers : WorkerId)

/-- The workers a job of the given type waits for. -/
def JobType.workers : JobType → Finset WorkerId
  | .scatterGather workerIds => workerIds
  | .broadcast numWorkers => Finset.Iio numWorkers

/-- Internal state of a pending job. -/
structure PendingJob (Payload : Type) where
  /-- The job was requested but not sent to these workers yet. -/
  registered : Finset WorkerId
  /-- The job was sent to these workers but no response has been received. -/
  pending : Finset WorkerId
  results : AList fun _ : WorkerId => WorkerRsp Payload

/-- The job tracker, with everything it sent on the channels of its jobs, oldest first. -/
structure JobTracker (Payload : Type) where
  jobs : AList fun _ : JobId => PendingJob Payload
  sent : List (JobId × List (WorkerRsp Payload))

variable {Payload : Type}

/-- Take the answer `response` into the state of its job. -/
def PendingJob.answer (job : PendingJob Payload) (response : WorkerRsp Payload) :
    PendingJob Payload :=
  { job with
    pending := job.pending.erase response.workerId
    results := job.results.insert response.workerId response }

/-- The values of the result map, as `send_results` collects them. -/
def PendingJob.values (job : PendingJob Payload) : List (WorkerRsp Payload) :=
  job.results.entries.map (·.2)

/-- The answer the tracker itself gives for a worker that lost a job. -/
def lostResponse (workerId : WorkerId) (jobId : JobId) : WorkerRsp Payload :=
  ⟨jobId, workerId, .error (.jobsLost workerId jobId)⟩

namespace JobTracker

def new : JobTracker Payload := ⟨∅, []⟩

/-- The tracked state of a job. -/
def job? (t : JobTracker Payload) (jobId : JobId) : Option (PendingJob Payload) :=
  t.jobs.lookup jobId

def registerJob (t : JobTracker Payload) (jobId : JobId) (jobType : JobType) :
    JobTracker Payload :=
  { t with jobs := t.jobs.insert jobId ⟨jobType.workers, ∅, ∅⟩ }

def setToPending (t : JobTracker Payload) (jobId : JobId) (workerId : WorkerId) :
    Outcome Unit × JobTracker Payload :=
  match t.job? jobId with
  | none => (.bail s!"Job {jobId} not found", t)
  | some job =>
    if workerId ∈ job.registered then
      (.ok (), { t with jobs := t.jobs.insert jobId { job with
        registered := job.registered.erase workerId
        pending := insert workerId job.pending } })
    else
      (.bail s!"Worker {workerId} for job {jobId} was not registered", t)

/-- Remove a job and send its results. -/
def completeJob (t : JobTracker Payload) (jobId : JobId) : JobTracker Payload :=
  match t.job? jobId with
  | none => t
  | some job => { jobs := t.jobs.erase jobId, sent := t.sent ++ [(jobId, job.values)] }

def recordResponse (t : JobTracker Payload) (response : WorkerRsp Payload) :
    Outcome Unit × JobTracker Payload :=
  let jobId := response.jobId
  let workerId := response.workerId
  match t.job? jobId with
  | none => (.bail s!"Job {jobId} not found", t)
  | some job =>
    if workerId ∈ job.pending then
      let answered := job.answer response
      let t' := { t with jobs := t.jobs.insert jobId answered }
      if answered.pending = ∅ ∧ answered.registered = ∅ then
        (.ok (), t'.completeJob jobId)
      else
        (.ok (), t')
    else
      (.bail s!"Worker {workerId} for job {jobId} was not pending or already completed", t)

/-- The jobs that were sent to the worker and that it does not report as pending. -/
def droppedJobs (t : JobTracker Payload) (workerId : WorkerId) (pendingJobs : List JobId) :
    List JobId :=
  (t.jobs.entries.filter fun e => workerId ∈ e.2.pending ∧ e.1 ∉ pendingJobs).map (·.1)

/-- Compares the jobs the worker reports as pending against the jobs the leader is expecting a
response for from this worker, and answers the dropped ones in its name. -/
def validatePendingJobs (t : JobTracker Payload) (workerId : WorkerId)
    (pendingJobs : List JobId) : JobTracker Payload :=
  (t.droppedJobs workerId pendingJobs).foldl
    (fun t jobId => (t.recordResponse (lostResponse workerId jobId)).2) t

/-- Cancel a job and return the list of workers which are still pending. -/
def cancelJob (t : JobTracker Payload) (jobId : JobId) :
    Outcome (List WorkerId) × JobTracker Payload :=
  match t.job? jobId with
  | none => (.bail s!"Job {jobId} not found", t)
  | some job => (.ok (job.pending.sort (· ≤ ·)), { t with jobs := t.jobs.erase jobId })

end JobTracker

/-- A call of the tracker. -/
inductive TrackerCall (Payload : Type) where
  | registerJob (jobId : JobId) (jobType : JobType)
  | setToPending (jobId : JobId) (workerId : WorkerId)
  | recordResponse (response : WorkerRsp Payload)
  | validatePendingJobs (workerId : WorkerId) (pendingJobs : List JobId)
  | cancelJob (jobId : JobId)

namespace TrackerCall

/-- Make a call: the error it returned, if any, and the tracker after it. -/
def run : TrackerCall Payload → JobTracker Payload → Outcome Unit × JobTracker Payload
  | .registerJob jobId jobType, t => (.ok (), t.registerJob jobId jobType)
  | .setToPending jobId workerId, t => t.setToPending jobId workerId
  | .recordResponse response, t => t.recordResponse response
  | .validatePendingJobs workerId pendingJobs, t => (.ok (), t.validatePendingJobs workerId pendingJobs)
  | .cancelJob jobId, t => ((t.cancelJob jobId).1.map fun _ => (), (t.cancelJob jobId).2)

/-- The job a call is about; `validate_pending_jobs` is about all jobs of one worker. -/
def jobId? : TrackerCall Payload → Option JobId
  | .registerJob jobId _ => some jobId
  | .setToPending jobId _ => some jobId
  | .recordResponse response => some response.jobId
  | .validatePendingJobs _ _ => none
  | .cancelJob jobId => some jobId

/-- The job a call registers. -/
def registers : TrackerCall Payload → Option (JobId × Finset WorkerId)
  | .registerJob jobId jobType => some (jobId, jobType.workers)
  | _ => none

end TrackerCall

/-- The tracker after a sequence of calls. -/
def runCalls (calls : List (TrackerCall Payload)) (t : JobTracker Payload) : JobTracker Payload :=
  calls.foldl (fun t c => (c.run t).2) t

/-- The jobs a sequence of calls registers, with their worker sets. -/
def registrations (calls : List (TrackerCall Payload)) : List (JobId × Finset WorkerId) :=
  calls.filterMap TrackerCall.registers

end AmpcCommon.Workpool
