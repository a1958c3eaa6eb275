import AmpcCommon.Startup.Coordination

/-!
# Polling a peer

Before a batch the servers ask each other for their states over HTTP (`batch_sync.rs`). A server polls a peer until it
accepts an answer, or until the timeout; the last reason for which it did not accept one is part of the error.
-/

namespace AmpcCommon.Batches

/-- What one request to a peer comes to. -/
inductive Reply (S : Type) where
  /-- The request failed. -/
  | requestError (e : String)
  /-- A status that is not a success. -/
  | errorStatus (status errorBody : String)
  /-- A body that could not be parsed. -/
  | parseError (e : String)
  | state (s : S)
  deriving Repr, DecidableEq

variable {S : Type}

/-- One turn of a polling loop: the state, if it is accepted, or what was observed. `rejects` is the comparison of the
state with the own one. -/
def Reply.observe (rejects : S → Option String) : Reply S → Except String S
  | .requestError e => .error s!"request error: {e}"
  | .errorStatus status errorBody => .error s!"HTTP {status}: {errorBody}"
  | .parseError e => .error s!"failed to parse response body: {e}"
  | .state s =>
    match rejects s with
    | some cause => .error cause
    | none => .ok s

/-- The polling loop over the replies that come before the timeout. -/
def poll (rejects : S → Option String) : List (Reply S) → Option String → Except String S
  | [], lastObserved => .error (lastObserved.getD "no response received")
  | reply :: replies, _ =>
    match reply.observe rejects with
    | .ok s => .ok s
    | .error cause => poll rejects replies (some cause)

theorem observe_eq_ok {rejects : S → Option String} {reply : Reply S} {s : S} :
    reply.observe rejects = .ok s ↔ reply = .state s ∧ rejects s = none := by
  cases reply with
  | requestError e => simp [Reply.observe]
  | errorStatus status errorBody => simp [Reply.observe]
  | parseError e => simp [Reply.observe]
  | state s' =>
    simp only [Reply.observe, Reply.state.injEq]
    constructor
    · intro h
      cases hr : rejects s' with
      | some cause =>
        rw [hr] at h
        cases h
      | none =>
        rw [hr] at h
        cases h
        exact ⟨rfl, hr⟩
    · rintro ⟨rfl, hr⟩
      rw [hr]

/-- The state a poll returns is one of the replies, and it was accepted. -/
theorem poll_eq_ok {rejects : S → Option String} {replies : List (Reply S)} {lastObserved : Option String} {s : S}
    (h : poll rejects replies lastObserved = .ok s) : .state s ∈ replies ∧ rejects s = none := by
  induction replies generalizing lastObserved with
  | nil => cases h
  | cons reply replies ih =>
    rw [poll] at h
    cases hobs : reply.observe rejects with
    | ok s' =>
      rw [hobs] at h
      cases h
      obtain ⟨rfl, haccept⟩ := observe_eq_ok.mp hobs
      exact ⟨List.mem_cons_self, haccept⟩
    | error cause =>
      rw [hobs] at h
      obtain ⟨hmem, haccept⟩ := ih h
      exact ⟨List.mem_cons_of_mem _ hmem, haccept⟩

end AmpcCommon.Batches
