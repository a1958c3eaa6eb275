import AmpcCommon.Base.RelyGuarantee

/-!
# The life of a statistics server

The model of `ampc-anon-stats/src/server/lifecycle.rs` and of the flags that it uses, in `coordination.rs` and
`ampc-server-utils/src/shutdown_handler.rs`. One task calls the functions; a shutdown signal comes, background tasks end
and time passes between any two of its atomic operations. The work that is given to `startup` and `iteration` is any
future; a work that never ends does in every run what one does that ends later. Times are in nanoseconds. -/

namespace AmpcCommon.Lifecycle

open RelyGuarantee RelyGuarantee.Prog

/-- An `eyre::Report`: its contexts, the last one first, and its cause. -/
abbrev Report := List String

/-- `wrap_err` -/
def wrapErr {α : Type} (result : Except Report α) (msg : String) : Except Report α :=
  result.mapError fun err => msg :: err

/-- A `JoinError`, with its text. -/
structure JoinError where
  isCancelled : Bool
  text : String
  deriving Repr, DecidableEq

/-- What a background task of a `TaskMonitor` ends with. -/
abbrev TaskResult := Except JoinError (Except Report Unit)

/-- A task of a `JoinSet`. -/
inductive Task where
  | running (aborted : Bool)
  | finished (result : TaskResult)

/-- The `CoordinationHandles`, the tokens of the `ShutdownHandler`, the tasks of the `TaskMonitor` and the clock. The
last fields are what has happened: when shutting down was announced first, whether all tasks were aborted, what the
works have done, with the answers they got, and what the joined tasks ended with. -/
structure Server (ε : Type) where
  ct : Bool
  networkCt : Bool
  readyFlag : Bool
  shuttingDownFlag : Bool
  tasks : List Task
  now : Nat
  announced : Option Nat
  tasksAborted : Bool
  log : List (ε × Nat)
  joined : List TaskResult

/-- A server at its start. -/
def Server.init {ε : Type} : Server ε := ⟨false, false, false, false, [], 0, none, false, [], []⟩

/-- A `Duration`, with the text that it is shown as. -/
structure Duration where
  nanos : Nat
  debug : String

/-- The atomic operations. -/
inductive Op (ε : Type) where
  /-- `ct.is_cancelled`, or a poll of `ct.cancelled` -/
  | isShuttingDown
  | triggerManualShutdown
  | cancelNetwork
  | storeReady (value : Bool)
  | storeShuttingDown (value : Bool)
  | spawn
  | abortAll
  | tryJoinNext
  /-- `join_next`, which waits for a task that has finished -/
  | joinNext
  /-- `Instant::now` -/
  | now
  /-- A poll of the deadline of a `timeout`. -/
  | elapsed (deadline : Nat)
  /-- Something that a work does and is answered by the outside. -/
  | effect (e : ε)

/-- What an operation is answered. -/
def Answer {ε : Type} : Op ε → Type
  | .isShuttingDown | .elapsed _ => Bool
  | .abortAll | .now | .effect _ => Nat
  | .tryJoinNext | .joinNext => Option TaskResult
  | _ => Unit

variable {ε : Type}

/-- Take a finished task out of the set. -/
def Server.join (s : Server ε) (i : Nat) : Option (Option TaskResult × Server ε) :=
  match s.tasks[i]? with
  | some (.finished result) =>
    some (some result, { s with tasks := s.tasks.eraseIdx i, joined := s.joined ++ [result] })
  | _ => none

def Task.isFinished : Task → Bool
  | .finished _ => true
  | .running _ => false

def Task.abort : Task → Task
  | .running _ => .running true
  | .finished result => .finished result

/-- One atomic operation. The choice is the task that is joined, whether a timer that is over has fired, or the answer
that something gets. -/
def perform : (o : Op ε) → Nat → Server ε → Option (Answer o × Server ε)
  | .isShuttingDown, _, s => some (s.ct, s)
  | .triggerManualShutdown, _, s => some ((), { s with ct := true })
  | .cancelNetwork, _, s => some ((), { s with networkCt := true })
  | .storeReady value, _, s => some ((), { s with readyFlag := value })
  | .storeShuttingDown value, _, s =>
    some ((), { s with
      shuttingDownFlag := value
      announced := if value then s.announced.or (some s.now) else s.announced })
  | .spawn, _, s => some ((), { s with tasks := s.tasks ++ [.running false] })
  | .abortAll, _, s => some (s.tasks.length, { s with tasks := s.tasks.map Task.abort, tasksAborted := true })
  | .tryJoinNext, i, s => if s.tasks.any Task.isFinished then s.join i else some (none, s)
  | .joinNext, i, s => if s.tasks.isEmpty then some (none, s) else s.join i
  | .now, _, s => some (s.now, s)
  | .elapsed deadline, choice, s => some (choice != 0 && decide (deadline ≤ s.now), s)
  | .effect e, answer, s => some (answer, { s with log := s.log ++ [(e, answer)] })

/-- What happens beside the server's task. -/
inductive Event where
  /-- A shutdown signal, or a manual shutdown. -/
  | signal
  /-- A background task ends; only one that was aborted is cancelled. -/
  | taskEnds (i : Nat) (result : TaskResult)
  | tick (duration : Nat)

def TaskResult.isCancelled : TaskResult → Bool
  | .error err => err.isCancelled
  | .ok _ => false

def interfere : Event → Server ε → Option (Server ε)
  | .signal, s => some { s with ct := true }
  | .taskEnds i result, s =>
    match s.tasks[i]? with
    | some (.running aborted) =>
      if TaskResult.isCancelled result && !aborted then none
      else some { s with tasks := s.tasks.set i (.finished result) }
    | _ => none
  | .tick duration, s => some { s with now := s.now + duration }

/-- A program of the server's task. -/
abbrev Code (ε α : Type) := Prog (Op ε) Answer α

/-! ## The operations as programs -/

def isShuttingDown : Code ε Bool := call Op.isShuttingDown
def triggerManualShutdown : Code ε Unit := call Op.triggerManualShutdown
def cancelNetwork : Code ε Unit := call Op.cancelNetwork
def storeReady (value : Bool) : Code ε Unit := call (Op.storeReady value)
def storeShuttingDown (value : Bool) : Code ε Unit := call (Op.storeShuttingDown value)
def spawn : Code ε Unit := call Op.spawn
def abortAll : Code ε Nat := call Op.abortAll
def tryJoinNext : Code ε (Option TaskResult) := call Op.tryJoinNext
def joinNext : Code ε (Option TaskResult) := call Op.joinNext
def now : Code ε Nat := call Op.now
def elapsed (deadline : Nat) : Code ε Bool := call (Op.elapsed deadline)
def effect (e : ε) : Code ε Nat := call (Op.effect e)

/-! ## The functions -/

/-- `CoordinationHandles::mark_shutting_down` -/
def markShuttingDown : Code ε Unit := do
  storeReady false
  storeShuttingDown true

/-- `set_ready` -/
def setReady : Code ε Unit := do
  if ← isShuttingDown then
    markShuttingDown
  else
    storeReady true
    -- The shutdown signal can arrive between the check and the store.
    if ← isShuttingDown then
      markShuttingDown

/-- A future that the server's task polls. -/
inductive Work (ε α : Type) where
  | ready (result : α)
  /-- It returns `Pending`, and goes on when it is polled again. -/
  | pending (rest : Work ε α)
  /-- It calls `set_ready`. -/
  | setReady (rest : Work ε α)
  | effect (e : ε) (rest : Nat → Work ε α)

/-- A `select!` between the shutdown and a work from the poll of the work on. On a shutdown, what is left of the work
is returned. -/
def Work.poll {α : Type} : Work ε α → Code ε (Work ε α ⊕ α)
  | .ready result => pure (.inr result)
  | .pending rest => do
    if ← isShuttingDown then pure (.inl rest) else rest.poll
  | .setReady rest => do
    Lifecycle.setReady
    rest.poll
  | .effect e rest => do
    let answer ← Lifecycle.effect e
    (rest answer).poll

/-- `tokio::select!`, biased: the shutdown is polled first, each time. -/
def Work.select {α : Type} (work : Work ε α) : Code ε (Work ε α ⊕ α) := do
  if ← isShuttingDown then pure (.inl work) else work.poll

/-- The polls of a `timeout`: the work is polled first, then the deadline. -/
def Work.timeoutAt {α : Type} (deadline : Nat) : Work ε α → Code ε (Option α)
  | .ready result => pure (some result)
  | .pending rest => do
    if ← elapsed deadline then pure none else rest.timeoutAt deadline
  | .setReady rest => do
    Lifecycle.setReady
    rest.timeoutAt deadline
  | .effect e rest => do
    let answer ← Lifecycle.effect e
    (rest answer).timeoutAt deadline

/-- `tokio::time::timeout` -/
def Work.timeout {α : Type} (duration : Duration) (work : Work ε α) : Code ε (Option α) := do
  let start ← now
  work.timeoutAt (start + duration.nanos)

/-- `startup` -/
def startup {τ : Type} (work : Work ε (Except Report τ)) : Code ε (Except Report (Option τ)) := do
  match ← work.select with
  | .inl _ =>
    markShuttingDown
    pure (.ok none)
  | .inr result => pure (result.map some)

/-- The error of an iteration whose drain has timed out. -/
def drainTimedOut (drainTimeout : Duration) : Report :=
  ["anon stats shutdown drain timed out after " ++ drainTimeout.debug ++
    "; publication or processed marking may be incomplete"]

/-- `iteration` -/
def iteration (drainTimeout : Duration) (work : Work ε (Except Report Unit)) : Code ε (Except Report Unit) := do
  -- Do not start new work if shutdown won a simultaneous ready/timer tick.
  if ← isShuttingDown then
    markShuttingDown
    pure (.ok ())
  else
    match ← work.select with
    | .inl rest =>
      markShuttingDown
      match ← rest.timeout drainTimeout with
      | some result => pure (wrapErr result "anon stats iteration failed while draining")
      | none => pure (.error (drainTimedOut drainTimeout))
    | .inr result => pure result

/-- What `check_background_tasks` makes of a task that has finished. -/
def backgroundFailure : TaskResult → Report
  | .ok (.ok ()) => ["anon stats background task unexpectedly finished"]
  | .ok (.error err) => "anon stats background task failed" :: err
  | .error err => ["anon stats background task failed: " ++ err.text]

/-- `check_background_tasks` -/
def checkBackgroundTasks : Code ε (Except Report Unit) := do
  match ← tryJoinNext with
  | some result => pure (.error (backgroundFailure result))
  | none => pure (.ok ())

/-- What `cleanup` makes of a joined task. -/
def cleanupFailure : TaskResult → Option Report
  | .error err =>
    if err.isCancelled then none else some ["anon stats background task failed during cleanup: " ++ err.text]
  | .ok (.error err) => some ("anon stats background task failed during cleanup" :: err)
  | .ok (.ok ()) => some ["anon stats background task unexpectedly finished"]

/-- The loop of `cleanup`. The set shrinks in every round: one round more than it has tasks is enough. -/
def joinAll : Nat → Option Report → Code ε (Option Report)
  | 0, cleanupError => pure cleanupError
  | rounds + 1, cleanupError => do
    match ← joinNext with
    | none => pure cleanupError
    | some result => joinAll rounds (cleanupError.or (cleanupFailure result))

/-- `result.and(…)` -/
def andCleanup (result : Except Report Unit) (cleanupError : Option Report) : Except Report Unit :=
  match result with
  | .ok () =>
    match cleanupError with
    | some err => .error err
    | none => .ok ()
  | .error err => .error err

/-- `cleanup` -/
def cleanup (result : Except Report Unit) : Code ε (Except Report Unit) := do
  triggerManualShutdown
  markShuttingDown
  cancelNetwork
  let tasks ← abortAll
  let cleanupError ← joinAll (tasks + 1) none
  pure (andCleanup result cleanupError)

/-! ## A server -/

/-- What a server does: calls of these functions in any order, each depending on what the ones before have returned,
and a cleanup at the end. -/
inductive Main (ε τ : Type) where
  | spawn (rest : Main ε τ)
  | startup (work : Work ε (Except Report τ)) (rest : Except Report (Option τ) → Main ε τ)
  | setReady (rest : Main ε τ)
  | iteration (drainTimeout : Duration) (work : Work ε (Except Report Unit)) (rest : Except Report Unit → Main ε τ)
  | checkBackgroundTasks (rest : Except Report Unit → Main ε τ)
  | cleanup (result : Except Report Unit)

def Main.code {τ : Type} : Main ε τ → Code ε (Except Report Unit)
  | .spawn rest => do
    Lifecycle.spawn
    rest.code
  | .startup work rest => do
    let result ← Lifecycle.startup work
    (rest result).code
  | .setReady rest => do
    Lifecycle.setReady
    rest.code
  | .iteration drainTimeout work rest => do
    let result ← Lifecycle.iteration drainTimeout work
    (rest result).code
  | .checkBackgroundTasks rest => do
    let result ← Lifecycle.checkBackgroundTasks
    (rest result).code
  | .cleanup result => Lifecycle.cleanup result

/-- The steps of a server's task and of what happens beside it. -/
abbrev step {α : Type} : Code ε α × Server ε → Move Nat Event → Option (Code ε α × Server ε) :=
  RelyGuarantee.step perform interfere

end AmpcCommon.Lifecycle
