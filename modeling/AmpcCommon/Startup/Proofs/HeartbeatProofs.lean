import AmpcCommon.Startup.Heartbeat
import Mathlib.Data.List.TakeWhile

/-!
# The heartbeat, proofs

What the loop keeps of a peer depends on the polls of this peer only (`peerState`), and so does how it reacts to the
next one (`reaction`). A poll that is no reason to stop is taken into the variables (`step_tracks`).
-/

namespace AmpcCommon.Startup.Heartbeat

/-! ## What the loop is for -/

/-- The uuid of the first response of a peer. -/
def baseline (polls : List Poll) : Option String := (polls.findSome? id).map ReadyProbeResponse.uuid

/-- The failures before the first response. -/
def initialFailures (polls : List Poll) : Nat := (polls.takeWhile Option.isNone).length

/-- The failures at the end. -/
def failuresInARow (polls : List Poll) : Nat := (polls.reverse.takeWhile Option.isNone).length

/-- What the loop does after a poll. -/
inductive Reaction where
  | goesOn
  | panics (msg : String)
  | shutsDown
  deriving Repr, DecidableEq

/-- The reaction to the poll `p` of a peer, after the polls `polls` of this peer. -/
def reaction (hb : Heartbeat) (host : String) (polls : List Poll) (p : Poll) : Reaction :=
  match baseline polls, p with
  | none, none =>
    if initialFailures (polls ++ [p]) = hb.heartbeatInitialRetries + 1 then
      .panics (s!"Node {host} did not respond with success during heartbeat init phase, " ++ "killing server...")
    else .goesOn
  | none, some r =>
    if r.uuid ∈ hb.verifiedPeers then .goesOn
    else .panics (s!"Node {host} reported UUID {r.uuid} not seen during startup handshake, " ++ "killing server...")
  | some _, none => if failuresInARow (polls ++ [p]) = maxConsecutiveFailures then .shutsDown else .goesOn
  | some uuid, some r => if r.uuid ≠ uuid ∨ r.shuttingDown = true then .shutsDown else .goesOn

/-- The peer whose turn it is after a number of polls. -/
def turn (n : Nat) : Fin 2 := Fin.ofNat 2 n

/-- The polls of the peer `i` among those of both peers. -/
def history (i : Fin 2) (polls : List Poll) : List Poll :=
  (polls.zipIdx.filter fun q => turn q.2 = i).map Prod.fst

/-- The reaction to the poll `p` after the polls `polls` of both peers. -/
def reactionAt (hb : Heartbeat) (polls : List Poll) (p : Poll) : Reaction :=
  reaction hb (hb.host (turn polls.length)) (history (turn polls.length) polls) p

/-- None of the polls was a reason to stop. -/
def Undisturbed (hb : Heartbeat) (polls : List Poll) : Prop :=
  ∀ before p after, polls = before ++ p :: after → reactionAt hb before p = .goesOn

/-- What has become of the loop. -/
def State.reaction (s : State) : Reaction :=
  match s.panicked with
  | some msg => .panics msg
  | none => if s.shuttingDown then .shutsDown else .goesOn

/-- The variables of one peer. -/
structure PeerState where
  lastResponse : String
  connected : Bool
  retries : Nat
  consecutiveFailures : Nat
  deriving Repr, DecidableEq

def State.peer (s : State) (i : Fin 2) : PeerState :=
  ⟨s.lastResponse i, s.connected i, s.retries i, s.consecutiveFailures i⟩

/-- The variables of a peer after the polls of this peer. -/
def peerState (polls : List Poll) : PeerState where
  lastResponse := (baseline polls).getD ""
  connected := (baseline polls).isSome
  retries := initialFailures polls
  consecutiveFailures := if (baseline polls).isSome then failuresInARow polls else 0

/-- The variables of the loop after polls of which none was a reason to panic. -/
structure Tracks (polls : List Poll) (s : State) : Prop where
  next : s.next = turn polls.length
  peer : ∀ i, s.peer i = peerState (history i polls)
  /-- Initialisation is signalled once, when both peers have a baseline. -/
  signals : s.signals = if ∀ i, (baseline (history i polls)).isSome then 1 else 0
  heartbeatTx : s.heartbeatTx = true ↔ s.signals = 0
  heartbeatRx : s.heartbeatRx = s.heartbeatTx

/-- The loop goes on: no counter has reached its bound. -/
structure Alive (hb : Heartbeat) (s : State) : Prop where
  shuttingDown : s.shuttingDown = false
  panicked : s.panicked = none
  retries : ∀ i, s.retries i ≤ hb.heartbeatInitialRetries
  consecutiveFailures : ∀ i, s.consecutiveFailures i < maxConsecutiveFailures

/-! ## Histories -/

section History

variable {polls : List Poll}

theorem baseline_concat_none : baseline (polls ++ [none]) = baseline polls := by
  simp [baseline, List.findSome?_append]

theorem baseline_concat_some {r : ReadyProbeResponse} :
    baseline (polls ++ [some r]) = some ((baseline polls).getD r.uuid) := by
  unfold baseline
  rw [List.findSome?_append]
  cases polls.findSome? id <;> rfl

theorem baseline_eq_none_iff : baseline polls = none ↔ ∀ p ∈ polls, p = none := by
  simp [baseline]

theorem initialFailures_of_none (h : baseline polls = none) : initialFailures polls = polls.length := by
  have hall : polls.takeWhile Option.isNone = polls := by
    rw [List.takeWhile_eq_self_iff]
    intro p hp
    rw [baseline_eq_none_iff.mp h p hp]
    rfl
  exact congrArg List.length hall

theorem initialFailures_concat_of_some (h : (baseline polls).isSome = true) (p : Poll) :
    initialFailures (polls ++ [p]) = initialFailures polls := by
  unfold initialFailures
  induction polls with
  | nil => cases h
  | cons q polls ih =>
    cases q with
    | none => exact congrArg Nat.succ (ih h)
    | some r => rfl

theorem initialFailures_concat_some {r : ReadyProbeResponse} :
    initialFailures (polls ++ [some r]) = initialFailures polls := by
  unfold initialFailures
  induction polls with
  | nil => rfl
  | cons q polls ih =>
    cases q with
    | none => exact congrArg Nat.succ ih
    | some r => rfl

theorem failuresInARow_concat_none : failuresInARow (polls ++ [none]) = failuresInARow polls + 1 := by
  simp [failuresInARow]

theorem failuresInARow_concat_some {r : ReadyProbeResponse} : failuresInARow (polls ++ [some r]) = 0 := by
  simp [failuresInARow]

theorem peerState_initial_failure (h : baseline polls = none) :
    peerState (polls ++ [none]) = { peerState polls with retries := (peerState polls).retries + 1 } := by
  have hbase : baseline (polls ++ [none]) = none := baseline_concat_none.trans h
  unfold peerState
  rw [hbase, h, initialFailures_of_none hbase, initialFailures_of_none h, List.length_append]
  rfl

theorem peerState_failure {uuid : String} (h : baseline polls = some uuid) :
    peerState (polls ++ [none]) =
      { peerState polls with consecutiveFailures := (peerState polls).consecutiveFailures + 1 } := by
  have hsome : (baseline polls).isSome = true := by
    rw [h]
    rfl
  unfold peerState
  rw [baseline_concat_none, initialFailures_concat_of_some hsome, failuresInARow_concat_none]
  simp only [hsome, if_true]

theorem peerState_first_response (h : baseline polls = none) (r : ReadyProbeResponse) :
    peerState (polls ++ [some r]) =
      { peerState polls with lastResponse := r.uuid, connected := true, consecutiveFailures := 0 } := by
  unfold peerState
  rw [baseline_concat_some, h, initialFailures_concat_some, failuresInARow_concat_some]
  rfl

theorem peerState_response {uuid : String} (h : baseline polls = some uuid) (r : ReadyProbeResponse) :
    peerState (polls ++ [some r]) = { peerState polls with consecutiveFailures := 0 } := by
  unfold peerState
  rw [baseline_concat_some, h, initialFailures_concat_some, failuresInARow_concat_some]
  rfl

theorem history_concat (i : Fin 2) (p : Poll) :
    history i (polls ++ [p]) = if turn polls.length = i then history i polls ++ [p] else history i polls := by
  unfold history
  rw [List.zipIdx_append, List.filter_append, List.map_append]
  by_cases h : turn polls.length = i
  · simp [h]
  · simp [h]

theorem mem_history {i : Fin 2} {p : Poll} (h : p ∈ history i polls) : p ∈ polls := by
  obtain ⟨q, hq, rfl⟩ := List.mem_map.mp h
  exact List.fst_mem_of_mem_zipIdx (List.mem_of_mem_filter hq)

theorem turn_succ (n : Nat) : turn (n + 1) = turn n + 1 := by
  unfold turn
  apply Fin.ext
  show (n + 1) % 2 = (n % 2 + 1) % 2
  omega

/-- A baseline is not empty if no uuid is. -/
theorem baseline_ne_empty (huuid : ∀ r, some r ∈ polls → r.uuid ≠ "") {uuid : String}
    (h : baseline polls = some uuid) : uuid ≠ "" := by
  obtain ⟨r, hr, rfl⟩ := Option.map_eq_some_iff.mp h
  obtain ⟨p, hp, hpr⟩ := List.exists_of_findSome?_eq_some hr
  exact huuid r (hpr ▸ hp)

end History

/-! ## One turn of the loop -/

section Step

variable {hb : Heartbeat} {polls : List Poll} {s s' : State}

theorem tracks_start : Tracks [] start where
  next := rfl
  peer _ := rfl
  signals := rfl
  heartbeatTx := ⟨fun _ => rfl, fun _ => rfl⟩
  heartbeatRx := rfl

theorem alive_start : Alive hb start where
  shuttingDown := rfl
  panicked := rfl
  retries _ := Nat.zero_le _
  consecutiveFailures _ := Nat.succ_pos _

/-- A poll that changes the variables of its peer, and no baseline. -/
theorem Tracks.concat (h : Tracks polls s) {p : Poll} (hnext : s'.next = s.next + 1)
    (hpeer : s'.peer s.next = peerState (history s.next polls ++ [p]))
    (hother : ∀ j, j ≠ s.next → s'.peer j = s.peer j)
    (hbase : baseline (history s.next polls ++ [p]) = baseline (history s.next polls))
    (hsignals : s'.signals = s.signals)
    (htx : s'.heartbeatTx = s.heartbeatTx) (hrx : s'.heartbeatRx = s.heartbeatRx) : Tracks (polls ++ [p]) s' := by
  have hsome : ∀ i, baseline (history i (polls ++ [p])) = baseline (history i polls) := by
    intro i
    rw [history_concat]
    split_ifs with hi
    · rw [← hi, ← h.next]
      exact hbase
    · rfl
  refine ⟨?_, ?_, ?_, ?_, ?_⟩
  · rw [hnext, h.next, List.length_append, ← turn_succ]
    rfl
  · intro i
    rw [history_concat, ← h.next]
    split_ifs with hi
    · rw [← hi]
      exact hpeer
    · rw [hother i (Ne.symm hi)]
      exact h.peer i
  · rw [hsignals, h.signals]
    simp only [hsome]
  · rw [htx, hsignals]
    exact h.heartbeatTx
  · rw [hrx, htx]
    exact h.heartbeatRx

theorem update_zero_lt {f : Fin 2 → Nat} {n : Nat} (h : ∀ i, f i < n) (i j : Fin 2) : Function.update f i 0 j < n := by
  by_cases hij : j = i
  · subst hij
    rw [Function.update_self]
    exact Nat.zero_lt_of_lt (h j)
  · rw [Function.update_of_ne hij]
    exact h j

/-- The loop has reacted to a poll as it should. -/
structure Reacted (hb : Heartbeat) (polls : List Poll) (p : Poll) (s' : State) : Prop where
  reaction : s'.reaction = reactionAt hb polls p
  tracks : (∀ msg, reactionAt hb polls p ≠ .panics msg) → Tracks (polls ++ [p]) s'
  /-- A panic leaves the variables as they were. -/
  kept : ∀ msg, reactionAt hb polls p = .panics msg → Tracks polls s'
  alive : reactionAt hb polls p = .goesOn → Alive hb s'

theorem step_ok (ha : Alive hb s) {p : Poll} (h : hb.onPoll s.next s p = .ok s') :
    hb.step s p = some { s' with next := s.next + 1 } := by
  have hrunning : ¬ (s.shuttingDown = true ∨ s.panicked.isSome = true) := by
    rw [ha.shuttingDown, ha.panicked]
    decide
  unfold step
  rw [if_neg hrunning, h]

theorem step_panic (ha : Alive hb s) {p : Poll} {msg : String} (h : hb.onPoll s.next s p = .error msg) :
    hb.step s p = some { s with panicked := some msg } := by
  have hrunning : ¬ (s.shuttingDown = true ∨ s.panicked.isSome = true) := by
    rw [ha.shuttingDown, ha.panicked]
    decide
  unfold step
  rw [if_neg hrunning, h]

theorem reacted_panic (ht : Tracks polls s) {p : Poll} {msg : String} (h : reactionAt hb polls p = .panics msg) :
    Reacted hb polls p { s with panicked := some msg } where
  reaction := h.symm
  tracks hne := absurd h (hne msg)
  kept _ _ := ⟨ht.next, ht.peer, ht.signals, ht.heartbeatTx, ht.heartbeatRx⟩
  alive hgo := by
    rw [h] at hgo
    cases hgo

theorem Tracks.reactionAt_eq (h : Tracks polls s) (p : Poll) :
    reactionAt hb polls p = Heartbeat.reaction hb (hb.host s.next) (history s.next polls) p := by
  rw [h.next]
  rfl

theorem Tracks.lastResponse (h : Tracks polls s) (i : Fin 2) :
    s.lastResponse i = (baseline (history i polls)).getD "" := congrArg PeerState.lastResponse (h.peer i)

theorem Tracks.retries (h : Tracks polls s) (i : Fin 2) : s.retries i = initialFailures (history i polls) :=
  congrArg PeerState.retries (h.peer i)

theorem Tracks.connected (h : Tracks polls s) (i : Fin 2) : s.connected i = (baseline (history i polls)).isSome :=
  congrArg PeerState.connected (h.peer i)

theorem Tracks.consecutiveFailures (h : Tracks polls s) {i : Fin 2} {uuid : String}
    (hbase : baseline (history i polls) = some uuid) : s.consecutiveFailures i = failuresInARow (history i polls) := by
  exact (congrArg PeerState.consecutiveFailures (h.peer i)).trans (if_pos (Option.isSome_iff_exists.mpr ⟨uuid, hbase⟩))

/-- A failure before the baseline uses up a retry. -/
theorem step_initial_failure (h : Tracks polls s) (ha : Alive hb s) (hbase : baseline (history s.next polls) = none) :
    ∃ s', hb.step s none = some s' ∧ Reacted hb polls none s' := by
  have hlast : s.lastResponse s.next = "" := by
    rw [h.lastResponse, hbase]
    rfl
  have hfailures : initialFailures (history s.next polls ++ [none]) = s.retries s.next + 1 := by
    rw [h.retries, initialFailures_of_none hbase, initialFailures_of_none (baseline_concat_none.trans hbase),
      List.length_append]
    rfl
  have hreaction : reactionAt hb polls none =
      if s.retries s.next + 1 = hb.heartbeatInitialRetries + 1 then
        .panics (s!"Node {hb.host s.next} did not respond with success during heartbeat init phase, " ++
          "killing server...")
      else .goesOn := by
    rw [h.reactionAt_eq]
    unfold Heartbeat.reaction
    rw [hbase, hfailures]
  by_cases hlt : s.retries s.next < hb.heartbeatInitialRetries
  · have hgoes : reactionAt hb polls none = .goesOn := hreaction.trans (if_neg (by omega))
    have hpoll : hb.onPoll s.next s none =
        .ok { s with retries := Function.update s.retries s.next (s.retries s.next + 1) } := if_pos ⟨hlast, hlt⟩
    refine ⟨_, step_ok ha hpoll, ?_, fun _ => ?_, fun msg hmsg => ?_, fun _ => ?_⟩
    · rw [hgoes]
      simp [State.reaction, ha.panicked, ha.shuttingDown]
    · refine h.concat rfl ?_ (fun j hj => ?_) baseline_concat_none rfl rfl rfl
      · rw [peerState_initial_failure hbase, ← h.peer]
        simp [State.peer]
      · simp [State.peer, Function.update_of_ne hj]
    · rw [hgoes] at hmsg
      cases hmsg
    · refine ⟨ha.shuttingDown, ha.panicked, fun i => ?_, ha.consecutiveFailures⟩
      by_cases hi : i = s.next
      · subst hi
        simpa using Nat.succ_le_of_lt hlt
      · simpa [Function.update_of_ne hi] using ha.retries i
  · have hle := ha.retries s.next
    have hpoll : hb.onPoll s.next s none = .error _ := (if_neg fun hc => hlt hc.2).trans (if_pos hlast)
    exact ⟨_, step_panic ha hpoll, reacted_panic h (hreaction.trans (if_pos (by omega)))⟩

/-- A failure after the baseline counts, and the third in a row shuts the node down. -/
theorem step_failure (h : Tracks polls s) (ha : Alive hb s) (huuid : ∀ r, some r ∈ polls → r.uuid ≠ "") {uuid : String}
    (hbase : baseline (history s.next polls) = some uuid) :
    ∃ s', hb.step s none = some s' ∧ Reacted hb polls none s' := by
  have hlast : s.lastResponse s.next ≠ "" := by
    rw [h.lastResponse, hbase]
    exact baseline_ne_empty (fun r hr => huuid r (mem_history hr)) hbase
  have hcount : failuresInARow (history s.next polls ++ [none]) = s.consecutiveFailures s.next + 1 := by
    rw [failuresInARow_concat_none, h.consecutiveFailures hbase]
  have hreaction : reactionAt hb polls none =
      if s.consecutiveFailures s.next + 1 = maxConsecutiveFailures then .shutsDown else .goesOn := by
    rw [h.reactionAt_eq]
    unfold Heartbeat.reaction
    rw [hbase, hcount]
  have hbound := ha.consecutiveFailures s.next
  let s₁ : State := { s with
    consecutiveFailures := Function.update s.consecutiveFailures s.next (s.consecutiveFailures s.next + 1) }
  have hself : s₁.consecutiveFailures s.next = s.consecutiveFailures s.next + 1 := Function.update_self _ _ _
  have hpoll : hb.onPoll s.next s none =
      if s₁.consecutiveFailures s.next ≥ maxConsecutiveFailures then .ok s₁.triggerManualShutdown else .ok s₁ :=
    (if_neg fun hc => hlast hc.1).trans (if_neg hlast)
  have htracks : ∀ s' : State, s'.next = s.next + 1 → s'.peer = s₁.peer → s'.signals = s.signals →
      s'.heartbeatTx = s.heartbeatTx → s'.heartbeatRx = s.heartbeatRx → Tracks (polls ++ [none]) s' := by
    intro s' hnext hpeer hsignals htx hrx
    refine h.concat hnext ?_ (fun j hj => ?_) baseline_concat_none hsignals htx hrx
    · rw [peerState_failure hbase, ← h.peer, hpeer]
      simp [State.peer, s₁]
    · rw [hpeer]
      simp [State.peer, s₁, Function.update_of_ne hj]
  rw [hself] at hpoll
  by_cases hthird : s.consecutiveFailures s.next + 1 = maxConsecutiveFailures
  · rw [if_pos hthird] at hreaction
    rw [if_pos hthird.ge] at hpoll
    refine ⟨_, step_ok ha hpoll, ?_, fun _ => htracks _ rfl rfl rfl rfl rfl, fun msg hmsg => ?_, fun hgo => ?_⟩
    · rw [hreaction]
      simp [State.reaction, State.triggerManualShutdown, s₁, ha.panicked]
    · rw [hreaction] at hmsg
      cases hmsg
    · rw [hreaction] at hgo
      cases hgo
  · rw [if_neg hthird] at hreaction
    rw [if_neg (by omega)] at hpoll
    refine ⟨_, step_ok ha hpoll, ?_, fun _ => htracks _ rfl rfl rfl rfl rfl, fun msg hmsg => ?_, fun _ => ?_⟩
    · rw [hreaction]
      simp [State.reaction, s₁, ha.panicked, ha.shuttingDown]
    · rw [hreaction] at hmsg
      cases hmsg
    · refine ⟨ha.shuttingDown, ha.panicked, ha.retries, fun i => ?_⟩
      by_cases hi : i = s.next
      · subst hi
        have hlt : s.consecutiveFailures s.next + 1 < maxConsecutiveFailures := by omega
        exact hself.trans_lt hlt
      · have hother : s₁.consecutiveFailures i = s.consecutiveFailures i := Function.update_of_ne hi _ _
        exact hother.trans_lt (ha.consecutiveFailures i)

/-- A response after the baseline shuts the node down if the peer has restarted or is shutting down. -/
theorem step_response (h : Tracks polls s) (ha : Alive hb s) (huuid : ∀ r, some r ∈ polls → r.uuid ≠ "")
    {uuid : String} (hbase : baseline (history s.next polls) = some uuid) (r : ReadyProbeResponse) :
    ∃ s', hb.step s (some r) = some s' ∧ Reacted hb polls (some r) s' := by
  have huuid' : s.lastResponse s.next = uuid := by
    rw [h.lastResponse, hbase]
    rfl
  have hlast : s.lastResponse s.next ≠ "" := by
    rw [huuid']
    exact baseline_ne_empty (fun r hr => huuid r (mem_history hr)) hbase
  have hreaction : reactionAt hb polls (some r) =
      if r.uuid ≠ uuid ∨ r.shuttingDown = true then .shutsDown else .goesOn := by
    rw [h.reactionAt_eq]
    unfold Heartbeat.reaction
    rw [hbase]
  let s₁ : State := { s with consecutiveFailures := Function.update s.consecutiveFailures s.next 0 }
  have hpoll : hb.onPoll s.next s (some r) =
      if r.uuid ≠ uuid ∨ r.shuttingDown = true then .ok s₁.triggerManualShutdown else .ok s₁ := by
    have hresponse : hb.onPoll s.next s (some r) =
        if r.uuid ≠ s.lastResponse s.next then .ok s₁.triggerManualShutdown
        else if r.shuttingDown = true then .ok s₁.triggerManualShutdown else .ok s₁ := if_neg hlast
    rw [hresponse, huuid']
    by_cases hsame : r.uuid = uuid
    · simp [hsame]
    · simp [hsame]
  have hbase' : baseline (history s.next polls ++ [some r]) = baseline (history s.next polls) := by
    rw [baseline_concat_some, hbase]
    rfl
  have htracks : ∀ s' : State, s'.next = s.next + 1 → s'.peer = s₁.peer → s'.signals = s.signals →
      s'.heartbeatTx = s.heartbeatTx → s'.heartbeatRx = s.heartbeatRx → Tracks (polls ++ [some r]) s' := by
    intro s' hnext hpeer hsignals htx hrx
    refine h.concat hnext ?_ (fun j hj => ?_) hbase' hsignals htx hrx
    · rw [peerState_response hbase, ← h.peer, hpeer]
      simp [State.peer, s₁]
    · rw [hpeer]
      simp [State.peer, s₁, Function.update_of_ne hj]
  by_cases hstop : r.uuid ≠ uuid ∨ r.shuttingDown = true
  · rw [if_pos hstop] at hreaction hpoll
    refine ⟨_, step_ok ha hpoll, ?_, fun _ => htracks _ rfl rfl rfl rfl rfl, fun msg hmsg => ?_, fun hgo => ?_⟩
    · rw [hreaction]
      simp [State.reaction, State.triggerManualShutdown, s₁, ha.panicked]
    · rw [hreaction] at hmsg
      cases hmsg
    · rw [hreaction] at hgo
      cases hgo
  · rw [if_neg hstop] at hreaction hpoll
    refine ⟨_, step_ok ha hpoll, ?_, fun _ => htracks _ rfl rfl rfl rfl rfl, fun msg hmsg => ?_, fun _ => ?_⟩
    · rw [hreaction]
      simp [State.reaction, s₁, ha.panicked, ha.shuttingDown]
    · rw [hreaction] at hmsg
      cases hmsg
    · exact ⟨ha.shuttingDown, ha.panicked, ha.retries, update_zero_lt ha.consecutiveFailures s.next⟩

/-- The state after the first response `r` of the peer whose turn it is, before initialisation is signalled. -/
def State.connect (s : State) (r : ReadyProbeResponse) : State :=
  { s with
    consecutiveFailures := Function.update s.consecutiveFailures s.next 0
    lastResponse := Function.update s.lastResponse s.next r.uuid
    connected := Function.update s.connected s.next true }

theorem Tracks.connect_peer (h : Tracks polls s) (hbase : baseline (history s.next polls) = none)
    (r : ReadyProbeResponse) (i : Fin 2) : (s.connect r).peer i = peerState (history i (polls ++ [some r])) := by
  rw [history_concat, ← h.next]
  split_ifs with hi
  · subst hi
    rw [peerState_first_response hbase, ← h.peer]
    simp [State.peer, State.connect]
  · rw [← h.peer]
    simp [State.peer, State.connect, Function.update_of_ne (Ne.symm hi)]

/-- Initialisation is signalled if the other peer has its baseline already. -/
theorem Tracks.signal_connect (h : Tracks polls s) (hbase : baseline (history s.next polls) = none)
    (r : ReadyProbeResponse) :
    ∃ s', (s.connect r).signal = .ok s' ∧ s'.peer = (s.connect r).peer ∧ s'.next = s.next ∧
      s'.shuttingDown = s.shuttingDown ∧ s'.panicked = s.panicked ∧
      s'.signals = (if ∀ i, (baseline (history i (polls ++ [some r]))).isSome then 1 else 0) ∧
      (s'.heartbeatTx = true ↔ s'.signals = 0) ∧ s'.heartbeatRx = s'.heartbeatTx := by
  have hzero : s.signals = 0 := by
    rw [h.signals]
    refine if_neg fun hall => ?_
    have hsome := hall s.next
    rw [hbase] at hsome
    cases hsome
  have htx : s.heartbeatTx = true := h.heartbeatTx.mpr hzero
  have hrx : s.heartbeatRx = true := h.heartbeatRx.trans htx
  have hconnected : ∀ i, (s.connect r).connected i = (baseline (history i (polls ++ [some r]))).isSome := fun i =>
    congrArg PeerState.connected (h.connect_peer hbase r i)
  by_cases hall : ∀ i, (baseline (history i (polls ++ [some r]))).isSome = true
  · have hboth : (∀ c, (s.connect r).connected c = true) ∧ (s.connect r).heartbeatTx = true :=
      ⟨fun c => (hconnected c).trans (hall c), htx⟩
    have hsignal : (s.connect r).signal = .ok { s.connect r with
        heartbeatTx := false, heartbeatRx := false, signals := s.signals + 1 } :=
      (if_pos hboth).trans (if_pos hrx)
    refine ⟨_, hsignal, rfl, rfl, rfl, rfl, ?_, ?_, rfl⟩
    · rw [if_pos hall, hzero]
    · simp
  · have hnot : ¬ ((∀ c, (s.connect r).connected c = true) ∧ (s.connect r).heartbeatTx = true) := fun hc =>
      hall fun i => (hconnected i).symm.trans (hc.1 i)
    refine ⟨_, if_neg hnot, rfl, rfl, rfl, rfl, ?_, h.heartbeatTx, h.heartbeatRx⟩
    rw [if_neg hall]
    exact hzero

/-- The first response gives the baseline, if its uuid was seen during startup. -/
theorem step_first_response (h : Tracks polls s) (ha : Alive hb s) (hbase : baseline (history s.next polls) = none)
    (r : ReadyProbeResponse) : ∃ s', hb.step s (some r) = some s' ∧ Reacted hb polls (some r) s' := by
  have hlast : s.lastResponse s.next = "" := by
    rw [h.lastResponse, hbase]
    rfl
  have hreaction : reactionAt hb polls (some r) =
      if r.uuid ∈ hb.verifiedPeers then .goesOn
      else .panics (s!"Node {hb.host s.next} reported UUID {r.uuid} not seen during startup handshake, " ++
        "killing server...") := by
    rw [h.reactionAt_eq]
    unfold Heartbeat.reaction
    rw [hbase]
  by_cases hverified : r.uuid ∈ hb.verifiedPeers
  · rw [if_pos hverified] at hreaction
    have hpoll : hb.onPoll s.next s (some r) = (s.connect r).signal :=
      (if_pos hlast).trans (if_neg (not_not.mpr hverified))
    obtain ⟨s', hs', hpeer, hnext, hdown, hpanic, hsignals, htx, hrx⟩ := h.signal_connect hbase r
    rw [hs'] at hpoll
    have hcount : ∀ i, s'.consecutiveFailures i = (s.connect r).consecutiveFailures i := fun i =>
      congrArg PeerState.consecutiveFailures (congrFun hpeer i)
    have hretries : ∀ i, s'.retries i = s.retries i := fun i => congrArg PeerState.retries (congrFun hpeer i)
    refine ⟨_, step_ok ha hpoll, ?_, fun _ => ?_, fun msg hmsg => ?_, fun _ => ?_⟩
    · rw [hreaction]
      simp [State.reaction, hpanic, hdown, ha.panicked, ha.shuttingDown]
    · refine ⟨?_, fun i => (congrFun hpeer i).trans (h.connect_peer hbase r i), hsignals, htx, hrx⟩
      rw [h.next, List.length_append, ← turn_succ]
      rfl
    · rw [hreaction] at hmsg
      cases hmsg
    · refine ⟨hdown.trans ha.shuttingDown, hpanic.trans ha.panicked, fun i => ?_, fun i => ?_⟩
      · exact (hretries i).trans_le (ha.retries i)
      · exact (hcount i).trans_lt (update_zero_lt ha.consecutiveFailures s.next i)
  · rw [if_neg hverified] at hreaction
    have hpoll : hb.onPoll s.next s (some r) = .error _ := (if_pos hlast).trans (if_pos hverified)
    exact ⟨_, step_panic ha hpoll, reacted_panic h hreaction⟩

/-- The loop reacts to a poll as it should. -/
theorem step_reacts (h : Tracks polls s) (ha : Alive hb s) (huuid : ∀ r, some r ∈ polls → r.uuid ≠ "") (p : Poll) :
    ∃ s', hb.step s p = some s' ∧ Reacted hb polls p s' := by
  cases hbase : baseline (history s.next polls) with
  | none =>
    cases p with
    | none => exact step_initial_failure h ha hbase
    | some r => exact step_first_response h ha hbase r
  | some uuid =>
    cases p with
    | none => exact step_failure h ha huuid hbase
    | some r => exact step_response h ha huuid hbase r

end Step

/-! ## Runs of the loop -/

section Run

variable {hb : Heartbeat} {polls : List Poll}

theorem undisturbed_nil : Undisturbed hb [] := by
  intro before p after h
  cases before <;> cases h

theorem undisturbed_concat_iff {p : Poll} :
    Undisturbed hb (polls ++ [p]) ↔ Undisturbed hb polls ∧ reactionAt hb polls p = .goesOn := by
  constructor
  · intro h
    refine ⟨fun before q after hq => h before q (after ++ [p]) ?_, h polls p [] rfl⟩
    rw [hq, List.append_assoc]
    rfl
  · rintro ⟨h, hp⟩ before q after hq
    cases after using List.reverseRecOn with
    | nil =>
      obtain ⟨rfl, hpq⟩ := List.append_inj' hq rfl
      cases hpq
      exact hp
    | append_singleton after r =>
      rw [← List.cons_append, ← List.append_assoc] at hq
      exact h before q after (List.append_inj' hq rfl).1

theorem undisturbed_iff : Undisturbed hb polls ↔
    ∀ i : Fin polls.length, reactionAt hb (polls.take i.val) (polls.get i) = .goesOn := by
  constructor
  · intro h i
    refine h _ _ (polls.drop (i.val + 1)) ?_
    rw [List.get_eq_getElem, ← List.drop_eq_getElem_cons, List.take_append_drop]
  · rintro h before p after rfl
    have hlast := h ⟨before.length, by simp⟩
    simpa using hlast

instance : Decidable (Undisturbed hb polls) := decidable_of_iff' _ undisturbed_iff

/-- The loop has ended when it did not go on. -/
theorem step_eq_none {s : State} (h : s.reaction ≠ .goesOn) (p : Poll) : hb.step s p = none := by
  refine if_pos ?_
  by_contra hrunning
  rw [not_or, Bool.not_eq_true, Bool.not_eq_true, Option.isSome_eq_false_iff, Option.isNone_iff_eq_none] at hrunning
  refine h ?_
  unfold State.reaction
  rw [hrunning.2, hrunning.1]
  rfl

theorem run_tracks (huuid : ∀ r, some r ∈ polls → r.uuid ≠ "") (h : Undisturbed hb polls) :
    ∃ s, Transition.run hb.step start polls = some s ∧ Tracks polls s ∧ Alive hb s := by
  induction polls using List.reverseRecOn with
  | nil => exact ⟨start, rfl, tracks_start, alive_start⟩
  | append_singleton polls p ih =>
    have huuid' : ∀ r, some r ∈ polls → r.uuid ≠ "" := fun r hr => huuid r (List.mem_append_left _ hr)
    obtain ⟨hquiet, hgo⟩ := undisturbed_concat_iff.mp h
    obtain ⟨s, hs, htracks, halive⟩ := ih huuid' hquiet
    obtain ⟨s', hs', hreacted⟩ := step_reacts htracks halive huuid' p
    refine ⟨s', ?_, hreacted.tracks fun msg hmsg => ?_, hreacted.alive hgo⟩
    · rw [Transition.run_concat, hs]
      exact hs'
    · rw [hgo] at hmsg
      cases hmsg

/-- **The heartbeat.** As long as no poll was a reason to stop, the loop takes the next one and reacts to it as the
polls of this peer say: it panics at the failure after `heartbeat_initial_retries` ones before the baseline, and at a
first uuid that was not seen during startup; after the baseline it triggers shutdown at the third failure in a row, at
a different uuid, and at a peer that is shutting down; and at all other polls it goes on. Its variables for a peer
depend on the polls of this peer only, and initialisation is signalled once, when both peers have a baseline. After the
first reason to stop no poll is taken. -/
theorem heartbeat_reacts (hb : Heartbeat) (polls : List Poll) (huuid : ∀ r, some r ∈ polls → r.uuid ≠ "") (p : Poll) :
    (Undisturbed hb polls →
      ∃ s, Transition.run hb.step start (polls ++ [p]) = some s ∧ Reacted hb polls p s) ∧
    (¬ Undisturbed hb polls → Transition.run hb.step start (polls ++ [p]) = none) := by
  have hquiet : ∀ (polls : List Poll) (p : Poll), (∀ r, some r ∈ polls → r.uuid ≠ "") → Undisturbed hb polls →
      ∃ s, Transition.run hb.step start (polls ++ [p]) = some s ∧ Reacted hb polls p s := by
    intro polls p huuid h
    obtain ⟨s, hs, htracks, halive⟩ := run_tracks huuid h
    obtain ⟨s', hs', hreacted⟩ := step_reacts htracks halive huuid p
    refine ⟨s', ?_, hreacted⟩
    rw [Transition.run_concat, hs]
    exact hs'
  refine ⟨hquiet polls p huuid, ?_⟩
  induction polls using List.reverseRecOn generalizing p with
  | nil => exact fun h => absurd undisturbed_nil h
  | append_singleton polls q ih =>
    intro h
    have huuid' : ∀ r, some r ∈ polls → r.uuid ≠ "" := fun r hr => huuid r (List.mem_append_left _ hr)
    rw [Transition.run_concat]
    by_cases hpolls : Undisturbed hb polls
    · -- the last poll was the reason to stop
      obtain ⟨s, hs, hreacted⟩ := hquiet polls q huuid' hpolls
      have hstop : s.reaction ≠ .goesOn := fun hgo =>
        h (undisturbed_concat_iff.mpr ⟨hpolls, hreacted.reaction.symm.trans hgo⟩)
      rw [hs]
      exact step_eq_none hstop p
    · rw [ih huuid' q hpolls]
      rfl

/-- A peer with the given uuid. -/
def peerResponse (uuid : String) : ReadyProbeResponse := ⟨uuid, false, ∅, true⟩

/-- One retry, and the uuids of two peers. -/
def twoPeers : Heartbeat := ⟨fun i => ["peer-0", "peer-1"].getD i.val "", 1, {"a", "b"}⟩

/-- The second peer answers late, and then the first one fails twice. -/
def lateFailures : List Poll :=
  [some (peerResponse "a"), none, some (peerResponse "a"), some (peerResponse "b"), none, some (peerResponse "b"),
    none, some (peerResponse "b")]

theorem heartbeat_reacts_third : ∃ s, Transition.run twoPeers.step start (lateFailures ++ [none]) = some s ∧
    Reacted twoPeers lateFailures none s ∧ s.reaction = .shutsDown := by
  have hall : ∀ p ∈ lateFailures, p.all (·.uuid ≠ "") = true := by decide
  have huuid : ∀ r, some r ∈ lateFailures → r.uuid ≠ "" := fun r hr => of_decide_eq_true (hall _ hr)
  have hquiet : Undisturbed twoPeers lateFailures := by decide
  obtain ⟨s, hs, hreacted⟩ := (heartbeat_reacts twoPeers lateFailures huuid none).1 hquiet
  exact ⟨s, hs, hreacted, hreacted.reaction⟩

end Run

end AmpcCommon.Startup.Heartbeat
