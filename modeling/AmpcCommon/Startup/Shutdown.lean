import AmpcCommon.Base.RelyGuarantee

/-!
# Waiting for the pending batches

The model of the count of pending batches in `ampc-server-utils/src/shutdown_handler.rs`. One task waits for them;
others begin and complete batches, the shutdown begins and time passes between any two of its atomic operations. Times
are in nanoseconds. -/

namespace AmpcCommon.Shutdown

open RelyGuarantee RelyGuarantee.Prog

/-- A `ShutdownHandler`, the clock, and what the waiting task has read of the count, with the times. -/
structure ShutdownHandler where
  ct : Bool
  networkCt : Bool
  nBatchesPendingCompletion : Nat
  now : Nat
  reads : List (Nat × Nat)
  deriving Repr, DecidableEq

/-- `new` -/
def ShutdownHandler.new (now : Nat) : ShutdownHandler := ⟨false, false, 0, now, []⟩

/-- `ShutdownError` -/
inductive ShutdownError where
  | timeout (batchesPendingCompletion : Nat)
  deriving Repr, DecidableEq

/-- The atomic operations of the waiting task. -/
inductive Op where
  /-- `n_batches_pending_completion.load` -/
  | load
  /-- `Instant::now` -/
  | now
  /-- The end of a `sleep`. -/
  | wake (deadline : Nat)
  /-- `ct.is_cancelled` -/
  | isCancelled
  /-- `network_ct.cancel` -/
  | cancelNetwork

/-- What an operation is answered. -/
def Answer : Op → Type
  | .load | .now => Nat
  | .wake _ | .cancelNetwork => Unit
  | .isCancelled => Bool

def perform : (o : Op) → Unit → ShutdownHandler → Option (Answer o × ShutdownHandler)
  | .load, _, s =>
    some (s.nBatchesPendingCompletion, { s with reads := s.reads ++ [(s.now, s.nBatchesPendingCompletion)] })
  | .now, _, s => some (s.now, s)
  | .wake deadline, _, s => if deadline ≤ s.now then some ((), s) else none
  | .isCancelled, _, s => some (s.ct, s)
  | .cancelNetwork, _, s => some ((), { s with networkCt := true })

/-- What happens beside the waiting task. -/
inductive Event where
  /-- A shutdown signal, or a manual shutdown. -/
  | signal
  /-- `increment_batches_pending_completion` -/
  | increment
  /-- `decrement_batches_pending_completion` -/
  | decrement
  /-- Another owner of the token of the network cancels it. -/
  | cancelNetwork
  | tick (duration : Nat)

/-- The number of values of a `usize`. -/
def usizeValues : Nat := UInt64.size

/-- One event. While the batches are `draining`, none begins and only pending ones complete. -/
def interfere (draining : Bool) : Event → ShutdownHandler → Option ShutdownHandler
  | .signal, s => some { s with ct := true }
  | .increment, s =>
    if draining then none
    else some { s with nBatchesPendingCompletion := (s.nBatchesPendingCompletion + 1) % usizeValues }
  | .decrement, s =>
    if draining && s.nBatchesPendingCompletion == 0 then none
    else some { s with
      nBatchesPendingCompletion := (s.nBatchesPendingCompletion + (usizeValues - 1)) % usizeValues }
  | .cancelNetwork, s => some { s with networkCt := true }
  | .tick duration, s => some { s with now := s.now + duration }

/-- A program of the waiting task. -/
abbrev Code (α : Type) := Prog Op Answer α

def load : Code Nat := call Op.load
def now : Code Nat := call Op.now
def wake (deadline : Nat) : Code Unit := call (Op.wake deadline)
def isCancelled : Code Bool := call Op.isCancelled
def cancelNetwork : Code Unit := call Op.cancelNetwork

/-- `tokio::time::sleep` -/
def sleep (duration : Nat) : Code Unit := do
  let time ← now
  wake (time + duration)

/-- One round of the loop. -/
def waitRound (checkInterval timeout start : Nat) (again : Code (Option (Except ShutdownError Unit))) :
    Code (Option (Except ShutdownError Unit)) := do
  let pending ← load
  if 0 < pending then
    let time ← now
    if timeout ≤ time - start then
      let batches ← load
      pure (some (.error (.timeout batches)))
    else
      sleep checkInterval
      again
  else
    if ← isCancelled then
      cancelNetwork
    pure (some (.ok ()))

/-- The loop, with a number of rounds that is large enough when it never gives `none`. -/
def waitLoop (checkInterval timeout start : Nat) : Nat → Code (Option (Except ShutdownError Unit))
  | 0 => pure none
  | rounds + 1 => waitRound checkInterval timeout start (waitLoop checkInterval timeout start rounds)

/-- `Duration::from_millis` -/
def fromMillis (millis : Nat) : Nat := millis * 1000000

/-- `Duration::from_secs` -/
def fromSecs (secs : Nat) : Nat := secs * 1000000000

/-- `wait_for_pending_batches_completion` of a handler made with these seconds. -/
def waitForPendingBatchesCompletion (secs : Nat) : Code (Option (Except ShutdownError Unit)) := do
  let start ← now
  waitLoop (fromMillis 100) (fromSecs secs) start (10 * secs + 1)

/-- The steps of the waiting task and of what happens beside it. -/
abbrev step (draining : Bool) {α : Type} :
    Code α × ShutdownHandler → Move Unit Event → Option (Code α × ShutdownHandler) :=
  RelyGuarantee.step perform (interfere draining)

end AmpcCommon.Shutdown
